import Tachyon.Lists.Links

/-!
# What the list functions do

Each call on a list that holds `l` returns, leaves a list that holds the new sequence, and touches
nothing but that list and its nodes (`Frame`).

* `listInsert_behind`, `listAdd_spec`: a new node behind a node, or at the end;
* `place`, `list_insert_keeps`: what `list_insert` is for, and when it does that;
* `listRemove_spec`: the first node with the datum is taken out;
* `listClear_spec`: all nodes are taken out.
-/

namespace Tachyon.Lists

open Prog List Function

variable {m m' : ListHeap} {list node new d : ℕ} {l xs ys : List (ℕ × ℕ)}

/-! ### A new list -/

/-- `list_new` makes an empty list. -/
theorem listNew_spec (m : ListHeap) (h0 : list ≠ 0) :
    ∃ m', listNew list m = .ok (list, m') ∧ ListAt m' list [] ∧ Frame list [] m m' := by
  refine ⟨⟨update m.list list (some ⟨0, 0, 0⟩), m.node⟩, ?_,
    ⟨h0, ⟨0, update_self _ _ _, rfl⟩, by simp⟩, fun a ha => update_of_ne ha _ _,
    fun _ _ => rfl⟩
  simp [listNew, storeList, run_bind, h0]

/-! ### Inserting -/

/-- Into an empty list. -/
theorem listInsert_nil (data : ℕ) (h : ListAt m list []) (hf : FreshNode m new) :
    ∃ m', listInsert list 0 data new m = .ok ((), m') ∧ ListAt m' list [(new, data)] ∧
      Frame list [new] m m' := by
  obtain ⟨h0, ⟨head, hhdr, -⟩, -⟩ := h
  obtain ⟨m', hm', hhdr', hseg', hframe⟩ := listInsert_first data h0 hhdr hf
  exact ⟨m', hm', ⟨h0, ⟨new, hhdr', hseg'⟩, by simpa using hf.bound⟩, hframe⟩

/-- Behind a node of the list. -/
theorem listInsert_behind (data : ℕ) (h : ListAt m list (xs ++ (node, d) :: ys))
    (hf : FreshNode m new) :
    ∃ m', listInsert list node data new m = .ok ((), m') ∧
      ListAt m' list (xs ++ (node, d) :: (new, data) :: ys) ∧ Frame list [new, node] m m' := by
  obtain ⟨h0, ⟨head, hhdr, hseg⟩, hb⟩ := h
  obtain ⟨m', hm', hhdr', hseg', hframe⟩ :=
    listInsert_link data h0 hhdr hseg hf hseg.lastAddr_cut.1
  have hbound : ∀ b ∈ xs ++ (node, d) :: (new, data) :: ys, b.1 < 2 ^ 64 := by
    intro b hmem
    simp only [mem_append, mem_cons] at hmem hb
    rcases hmem with hmem | rfl | rfl | hmem
    · exact hb b (.inl hmem)
    · exact hb _ (.inr (.inl rfl))
    · exact hf.bound
    · exact hb b (.inr (.inr hmem))
  have hsize : add64 (xs ++ (node, d) :: ys).length 1 =
      (xs ++ (node, d) :: (new, data) :: ys).length := by
    have := hseg'.length_lt (by norm_num) hbound
    simp only [add64, length_append, length_cons] at this ⊢
    omega
  rw [hseg.lastAddr_link, hsize] at hhdr'
  exact ⟨m', hm', ⟨h0, ⟨head, hhdr', hseg'⟩, hbound⟩, hframe⟩

/-- At the end. -/
theorem listAdd_spec (data : ℕ) (h : ListAt m list l) (hf : FreshNode m new) :
    ∃ m', listAdd list data new m = .ok ((), m') ∧ ListAt m' list (l ++ [(new, data)]) ∧
      Frame list (new :: l.map Prod.fst) m m' := by
  obtain ⟨-, ⟨head, hhdr, -⟩, -⟩ := id h
  have hcall : listAdd list data new m = listInsert list (lastAddr l) data new m := by
    unfold listAdd
    rw [run_ok (run_loadList hhdr)]
  rw [hcall]
  rcases eq_nil_or_concat l with rfl | ⟨zs, ⟨node, d⟩, rfl⟩
  · obtain ⟨m', hm', hl, hframe⟩ := listInsert_nil data h hf
    exact ⟨m', hm', hl, hframe.mono (by simp)⟩
  rw [concat_eq_append] at h ⊢
  obtain ⟨m', hm', hl, hframe⟩ := listInsert_behind data h hf
  rw [lastAddr_concat]
  refine ⟨m', hm', by simpa using hl, hframe.mono ?_⟩
  intro a ha
  simp only [mem_cons, not_mem_nil, or_false] at ha
  rcases ha with rfl | rfl <;> simp

/-- The list with `c` directly behind the node, or in front of all others for `NULL`. -/
def place (node : ℕ) (c : ℕ × ℕ) (l : List (ℕ × ℕ)) : List (ℕ × ℕ) :=
  if node = 0 then c :: l
  else (l.takeWhile fun b => b.1 ≠ node) ++
    match l.dropWhile fun b => b.1 ≠ node with
    | [] => []
    | b :: ys => b :: c :: ys

theorem place_cut {c : ℕ × ℕ} (h0 : node ≠ 0) (hxs : ∀ b ∈ xs, b.1 ≠ node) :
    place node c (xs ++ (node, d) :: ys) = xs ++ (node, d) :: c :: ys := by
  have hall : ∀ b ∈ xs, decide (b.1 ≠ node) = true := by simpa using hxs
  rw [place, if_neg h0, takeWhile_append_of_pos hall, dropWhile_append_of_pos hall,
    takeWhile_cons_of_neg (by simp), dropWhile_cons_of_neg (by simp), append_nil]

/-- Behind a node of the list, and into an empty list, the new datum gets its place. -/
theorem listInsert_place (data : ℕ) (h : ListAt m list l) (hf : FreshNode m new)
    (hnode : node = 0 ∧ l = [] ∨ node ∈ l.map Prod.fst) :
    ∃ m', listInsert list node data new m = .ok ((), m') ∧
      ListAt m' list (place node (new, data) l) ∧ Frame list [new, node] m m' := by
  rcases hnode with ⟨rfl, rfl⟩ | hmem
  · obtain ⟨m', hm', hl, hframe⟩ := listInsert_nil data h hf
    exact ⟨m', hm', hl, hframe.mono (by simp)⟩
  obtain ⟨⟨a, d⟩, hb, rfl⟩ := List.mem_map.1 hmem
  obtain ⟨xs, ys, rfl⟩ := append_of_mem hb
  have hnodup := h.nodup
  obtain ⟨-, ⟨head, -, hseg⟩, -⟩ := id h
  -- no other node of the list has this address
  have hxs : ∀ b ∈ xs, b.1 ≠ a := by
    rw [map_append, nodup_append] at hnodup
    exact fun b hb => hnodup.2.2 b.1 (mem_map_of_mem hb) a (by simp)
  rw [place_cut (hseg.ne_zero _ hb) hxs]
  exact listInsert_behind data h hf

/-- In front of a list that is not empty: nothing is behind the new node. -/
theorem listInsert_front_loses {b : ℕ × ℕ} (data : ℕ) (h : ListAt m list (b :: l))
    (hf : FreshNode m new) (hrun : listInsert list 0 data new m = .ok ((), m')) :
    ¬ ListAt m' list ((new, data) :: b :: l) := by
  obtain ⟨h0, ⟨head, hhdr, -⟩, -⟩ := h
  obtain ⟨m1, hrun1, -, ⟨-, -, next, hnode, rfl⟩, -⟩ := listInsert_first data h0 hhdr hf
  obtain rfl : m1 = m' := by simpa [hrun1] using hrun
  rintro ⟨-, ⟨head', -, -, -, next, hnode', hnext, hne, -⟩, -⟩
  obtain rfl : next = 0 := by simpa [hnode] using hnode'.symm
  exact hne hnext.symm

/-- **`list_insert` keeps the sequence** and puts the new datum in its place, except in front of a
list that is not empty. -/
theorem list_insert_keeps (data : ℕ) (h : ListAt m list l) (hf : FreshNode m new)
    (hnode : node = 0 ∨ node ∈ l.map Prod.fst) :
    (∃ m', listInsert list node data new m = .ok ((), m') ∧
      ListAt m' list (place node (new, data) l) ∧ Frame list [new, node] m m') ↔
    (node = 0 → l = []) := by
  refine ⟨?_, fun hempty => listInsert_place data h hf ?_⟩
  · rintro ⟨m', hrun, hl', -⟩ rfl
    cases l with
    | nil => rfl
    | cons b l =>
      rw [place, if_pos rfl] at hl'
      exact absurd hl' (listInsert_front_loses data h hf hrun)
  · rcases hnode with h0 | hmem
    · exact .inl ⟨h0, hempty h0⟩
    · exact .inr hmem

/-- A list of one node, and a free address. -/
def oneNode : ListHeap where
  list a := if a = 8 then some ⟨16, 16, 1⟩ else none
  node a := if a = 16 then some ⟨5, 0⟩ else none

theorem oneNode_list : ListAt oneNode 8 [(16, 5)] :=
  ⟨by decide, ⟨16, rfl, rfl, by decide, 0, rfl, rfl⟩, by decide⟩

theorem list_insert_keeps_tail : ∃ m', listInsert 8 16 6 32 oneNode = .ok ((), m') ∧
    ListAt m' 8 [(16, 5), (32, 6)] := by
  have hnew : FreshNode oneNode 32 := ⟨by decide, by decide, rfl⟩
  have hnode : 16 ∈ [(16, 5)].map Prod.fst := by decide
  obtain ⟨m', hm', hl, -⟩ := (list_insert_keeps 6 oneNode_list hnew (.inr hnode)).2 (by decide)
  exact ⟨m', hm', hl⟩

/-- In front of the node: it is no longer in the list. -/
theorem list_insert_loses : ∃ m', listInsert 8 0 6 32 oneNode = .ok ((), m') ∧
    m'.list 8 = some ⟨32, 16, 2⟩ ∧ m'.node 32 = some ⟨6, 0⟩ ∧
    ¬ ListAt m' 8 (place 0 (32, 6) [(16, 5)]) := by
  refine ⟨_, eq_ok_of_value (by decide), by decide, by decide, ?_⟩
  rintro ⟨-, ⟨head, hhdr, rfl, -, next, hnode, rfl, -⟩, -⟩
  revert hnode
  decide

/-! ### Removing -/

theorem map_snd_eraseP (item : ℕ) :
    (l.eraseP fun b => b.2 = item).map Prod.snd = (l.map Prod.snd).erase item := by
  induction l with
  | nil => rfl
  | cons b l ih =>
    by_cases h : b.2 = item
    · rw [eraseP_cons_of_pos (by simpa using h), map_cons, h, erase_cons_head]
    · rw [eraseP_cons_of_neg (by simpa using h), map_cons, map_cons, ih,
        erase_cons_tail (by simpa using h)]

/-- The head is taken out. -/
theorem unlinkNode_head (h : ListAt m list ((node, d) :: ys)) :
    ∃ m', unlinkNode list 0 node m = .ok ((), m') ∧ ListAt m' list ys ∧ m'.node node = none ∧
      Frame list [node] m m' := by
  have hlen := h.length_lt
  obtain ⟨h0, ⟨head, hhdr, hseg⟩, hb⟩ := h
  obtain ⟨m', next, hm', hhdr', hseg', hfree, hframe⟩ := unlinkNode_first hhdr hseg
  have hsize : sub64 ((node, d) :: ys).length 1 = ys.length :=
    sub64_of_le (Nat.le_add_left _ _) hlen
  rw [hseg.lastAddr_unlink_head hseg', hsize] at hhdr'
  exact ⟨m', hm', ⟨h0, ⟨next, hhdr', hseg'⟩, fun b hmem => hb b (mem_cons_of_mem _ hmem)⟩,
    hfree, hframe⟩

/-- The node behind `p` is taken out. -/
theorem unlinkNode_behind {p e : ℕ} (h : ListAt m list (xs ++ (p, e) :: (node, d) :: ys)) :
    ∃ m', unlinkNode list p node m = .ok ((), m') ∧ ListAt m' list (xs ++ (p, e) :: ys) ∧
      m'.node node = none ∧ Frame list [p, node] m m' := by
  have hlen := h.length_lt
  have hnodup := h.nodup
  obtain ⟨h0, ⟨head, hhdr, hseg⟩, hb⟩ := h
  obtain ⟨-, hp0, node, hp, rfl, -, next, hnode, -⟩ := seg_cut.1 hseg
  have hne : p ≠ node := by
    rintro rfl
    simp [nodup_append] at hnodup
  have hseg' : Seg (update (update m.node p (some ⟨e, next⟩)) node none) head
      (xs ++ (p, e) :: ys) 0 := by
    refine hseg.unlink (fun c h1 h2 => ?_) fun next' h => ?_
    · rw [update_of_ne h1, update_of_ne h2]
    · cases hnode.symm.trans h
      rw [update_of_ne hne, update_self]
  have htail : (if lastAddr (xs ++ (p, e) :: (node, d) :: ys) = node then p
      else lastAddr (xs ++ (p, e) :: (node, d) :: ys)) = lastAddr (xs ++ (p, e) :: ys) := by
    have hcut : Seg m.node head ((xs ++ [(p, e)]) ++ (node, d) :: ys) 0 := by simpa using hseg
    simpa using hcut.lastAddr_unlink
  have hsize : sub64 (xs.length + (ys.length + 1 + 1)) 1 = xs.length + (ys.length + 1) := by
    rw [sub64_of_le (by omega) (by simpa using hlen)]
    omega
  refine ⟨⟨update m.list list (some ⟨head, lastAddr (xs ++ (p, e) :: ys),
      (xs ++ (p, e) :: ys).length⟩),
    update (update m.node p (some ⟨e, next⟩)) node none⟩, ?_,
    ⟨h0, ⟨head, update_self _ _ _, hseg'⟩, ?_⟩, update_self _ _ _, ?_⟩
  · simp [unlinkNode, storeNode, storeList, loadList, loadNode, freeNode, run_bind, hhdr, hnode, hp,
      hp0, htail, hsize]
  · intro b hmem
    refine hb b ?_
    simp only [mem_append, mem_cons] at hmem ⊢
    exact hmem.imp_right (Or.imp_right .inr)
  · refine ⟨fun a ha => by simp [ha], fun a ha => ?_⟩
    simp only [mem_cons, not_mem_nil, or_false, not_or] at ha
    simp [ha.1, ha.2]

/-- One node is taken out. -/
theorem unlinkNode_spec (h : ListAt m list (xs ++ (node, d) :: ys)) :
    ∃ m', unlinkNode list (lastAddr xs) node m = .ok ((), m') ∧ ListAt m' list (xs ++ ys) ∧
      m'.node node = none ∧ Frame list ((xs ++ (node, d) :: ys).map Prod.fst) m m' := by
  rcases eq_nil_or_concat xs with rfl | ⟨zs, ⟨p, e⟩, rfl⟩
  · obtain ⟨m', hm', hl, hfree, hframe⟩ := unlinkNode_head h
    exact ⟨m', hm', hl, hfree, hframe.mono (by simp)⟩
  rw [concat_eq_append, append_assoc, singleton_append] at h
  obtain ⟨m', hm', hl, hfree, hframe⟩ := unlinkNode_behind h
  rw [concat_eq_append, lastAddr_concat]
  refine ⟨m', hm', by simpa using hl, hfree, hframe.mono ?_⟩
  intro a ha
  simp only [mem_cons, not_mem_nil, or_false] at ha
  rcases ha with rfl | rfl <;> simp

/-- The loop of `list_remove`, at the first of the nodes `ys`. -/
theorem removeLoop_spec {head : ℕ} (item : ℕ) (h : ListAt m list (xs ++ ys))
    (hnode : Seg m.node head xs node) (hys : Seg m.node node ys 0) :
    ∃ m', (∀ fuel, ys.length < fuel →
        removeLoop list item fuel (lastAddr xs) node m = .ok ((), m')) ∧
      ListAt m' list (xs ++ ys.eraseP fun b => b.2 = item) ∧
      Frame list ((xs ++ ys).map Prod.fst) m m' := by
  induction ys generalizing xs node with
  | nil =>
    exact ⟨m, fun fuel hfuel => removeLoop_absent hys (by simp) hfuel, h, fun _ _ => rfl,
      fun _ _ => rfl⟩
  | cons b ys ih =>
    obtain ⟨b, d⟩ := b
    obtain ⟨rfl, hb0, next, hmem, hys⟩ := hys
    have hstep : ∀ fuel, removeLoop list item (fuel + 1) (lastAddr xs) node m =
        (if d = item then unlinkNode list (lastAddr xs) node
          else removeLoop list item fuel node next) m := by
      intro fuel
      rw [removeLoop, if_neg hb0, run_ok (run_loadNode hmem)]
    by_cases hd : d = item
    · obtain ⟨m', hm', hl, -, hframe⟩ := unlinkNode_spec h
      refine ⟨m', fun fuel hfuel => ?_, ?_, hframe⟩
      · rcases fuel with _ | fuel
        · omega
        rw [hstep, if_pos hd, hm']
      · rwa [eraseP_cons_of_pos (by simpa using hd)]
    · have h' : ListAt m list ((xs ++ [(node, d)]) ++ ys) := by simpa using h
      have hxs : Seg m.node head (xs ++ [(node, d)]) next := seg_cut.2 ⟨hnode, hb0, next, hmem, rfl⟩
      obtain ⟨m', hm', hl, hframe⟩ := ih h' hxs hys
      refine ⟨m', fun fuel hfuel => ?_, ?_, by simpa using hframe⟩
      · rcases fuel with _ | fuel
        · omega
        rw [hstep, if_neg hd, ← hm' fuel (by simpa using hfuel), lastAddr_concat]
      · rw [eraseP_cons_of_neg (by simpa using hd)]
        simpa using hl

/-- More fuel for `list_remove`. -/
theorem listRemove_le (fuel list item : ℕ) :
    Le (listRemove fuel list item) (listRemove (fuel + 1) list item) := by
  have hloop : ∀ prev node,
      Le (removeLoop list item fuel prev node) (removeLoop list item (fuel + 1) prev node) := by
    induction fuel with
    | zero => exact fun _ _ => Le.halt _
    | succ fuel ih =>
      intro prev node
      exact Le.ite (Le.refl _) (Le.bind (Le.refl _) fun n => Le.ite (Le.refl _) (ih _ _))
  exact Le.ite (Le.refl _) (Le.bind (Le.refl _) fun h => hloop _ _)

section

variable (h : ListAt m list l)
include h

/-- The first node with the datum is taken out; without one, nothing changes. -/
theorem listRemove_spec (item : ℕ) :
    ∃ m', (∀ fuel, l.length < fuel → listRemove fuel list item m = .ok ((), m')) ∧
      ListAt m' list (l.eraseP fun b => b.2 = item) ∧ Frame list (l.map Prod.fst) m m' ∧
      ((∀ b ∈ l, b.2 ≠ item) → m' = m) := by
  obtain ⟨h0, ⟨head, hhdr, hseg⟩, -⟩ := id h
  have h' : ListAt m list ([] ++ l) := h
  obtain ⟨m', hm', hl, hframe⟩ := removeLoop_spec item h' rfl hseg
  refine ⟨m', fun fuel hfuel => ?_, hl, hframe, fun habs => ?_⟩
  · unfold listRemove
    rw [if_neg h0, run_ok (run_loadList hhdr)]
    exact hm' fuel hfuel
  · have hrun := (hm' _ (Nat.lt_succ_self _)).symm.trans
      (removeLoop_absent hseg habs (Nat.lt_succ_self _))
    cases hrun
    rfl

/-- Any run of `list_remove` that returns. -/
theorem listRemove_of_ok {fuel item : ℕ} (hrun : listRemove fuel list item m = .ok ((), m')) :
    ListAt m' list (l.eraseP fun b => b.2 = item) := by
  obtain ⟨m1, hm1, hl, -⟩ := listRemove_spec h item
  obtain ⟨n, hn⟩ := Returns.of_le (fun k => listRemove_le k list item) hrun
  have h1 : listRemove (n + l.length + 1) list item m = .ok ((), m') := hn _ (by omega)
  rw [hm1 _ (by omega)] at h1
  cases h1
  exact hl

/-- All nodes are taken out. -/
theorem clearLoop_spec :
    ∃ m', (∀ fuel k, l.length < fuel → l.length < k → clearLoop fuel list k m = .ok ((), m')) ∧
      ListAt m' list [] ∧ Frame list (l.map Prod.fst) m m' := by
  induction l generalizing m with
  | nil =>
    obtain ⟨h0, ⟨head, hhdr, -⟩, -⟩ := id h
    refine ⟨m, fun fuel k _ hk => ?_, h, fun _ _ => rfl, fun _ _ => rfl⟩
    obtain ⟨k, rfl⟩ := Nat.exists_eq_add_of_lt hk
    rw [clearLoop, if_neg h0, run_ok (run_loadList hhdr)]
    rfl
  | cons b l ih =>
    obtain ⟨b, d⟩ := b
    obtain ⟨h0, ⟨head, hhdr, rfl, -, next, hmem, -⟩, -⟩ := id h
    -- the datum of the head is that of the head first
    obtain ⟨m1, hm1, hl1, hf1, -⟩ := listRemove_spec h d
    rw [eraseP_cons_of_pos (by simp)] at hl1
    obtain ⟨m2, hm2, hl2, hf2⟩ := ih hl1
    refine ⟨m2, fun fuel k hfuel hk => ?_, hl2, fun a ha => ?_, fun a ha => ?_⟩
    · obtain ⟨k, rfl⟩ : ∃ j, k = j + 1 := ⟨k - 1, by omega⟩
      rw [clearLoop, if_neg h0, run_ok (run_loadList hhdr), if_pos (by simp),
        run_ok (run_loadNode hmem), run_ok (hm1 fuel hfuel)]
      rw [length_cons] at hfuel hk
      exact hm2 fuel k (by omega) (by omega)
    · rw [hf2.list a ha, hf1.list a ha]
    · rw [hf2.node a fun hmem => ha (mem_cons_of_mem _ hmem), hf1.node a ha]

theorem listClear_spec :
    ∃ m', (∀ fuel, l.length < fuel → listClear fuel list m = .ok ((), m')) ∧ ListAt m' list [] ∧
      Frame list (l.map Prod.fst) m m' := by
  obtain ⟨m', hm', hl, hframe⟩ := clearLoop_spec h
  exact ⟨m', fun fuel hfuel => hm' fuel fuel hfuel hfuel, hl, hframe⟩

end

end Tachyon.Lists
