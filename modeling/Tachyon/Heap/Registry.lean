import Tachyon.Heap.ListMem
import Tachyon.Heap.Place

/-!
# The registry of global mappings

`vmem_mgmt_add_global_mapping` allocates a record and a list node from the kernel heap and appends
them to `vmem_glob_map`.  `Registry` says that the list in memory holds the nodes and records `l`,
and that these, the list itself and the blocks `O` of the other callers are owned.

When the heap has room, registering a mapping appends one node and one record and changes nothing
else (`addGlobalMapping_fit`).
-/

namespace Tachyon.Heap

open Prog List

variable {σ : Type} {P : Pages σ} {s s' : Sys σ} {bs bs' : List Blk} {e n node record : ℕ}
  {O l : List (ℕ × ℕ)} {lost : List ℕ} {m : Mem}

/-- The list, its nodes and the records. -/
def registryBlocks (list : ℕ) (l : List (ℕ × ℕ)) : List (ℕ × ℕ) :=
  (list, sizeofList) :: l.flatMap fun a => [(a.1, sizeofListNode), (a.2, sizeofGlobMapping)]

/-- `vmem_glob_map` holds the nodes and records `l`; they and the blocks `O` are owned. -/
structure Registry (e : ℕ) (s : Sys σ) (bs : List Blk) (O l : List (ℕ × ℕ)) (lost : List ℕ) :
    Prop where
  owns : Owns e s bs (O ++ registryBlocks s.globMap l) lost
  list : ListAt s.mem s.globMap l

theorem listBlocks_sublist (g : ℕ) (l : List (ℕ × ℕ)) :
    (listBlocks g l).Sublist (registryBlocks g l) := by
  refine List.Sublist.cons_cons _ ?_
  induction l with
  | nil => exact List.Sublist.slnil
  | cons a l ih =>
    exact (ih.cons _).cons_cons _

theorem Owns.pairwise_apart (h : Owns e s bs O lost) : O.Pairwise Apart := by
  have hnd := h.nodup
  rw [Nodup, pairwise_map] at hnd
  exact hnd.imp_of_mem fun {a b} ha hb hab => h.apart ha hb hab

theorem Owns.bounds (h : Owns e s bs O lost) {m : ℕ} (hm : (m, n) ∈ O) :
    pageSize4K < m ∧ m + n < 2 ^ 64 := by
  obtain ⟨pre, z, post, rfl, rfl, hn⟩ := h.block hm
  have hlt := h.wf.tiled.lt_of_block
  have hge := h.wf.start_ge
  unfold Blk.span at hlt
  simp only at hlt
  omega

section Edits

/-- What keeps the bytes of the registry keeps the list. -/
theorem ListAt.of_keeps {m' : Mem} {g : ℕ} (h : ListAt m g l)
    (hk : Keeps m m' (registryBlocks g l)) : ListAt m' g l :=
  h.congr fun b hb x h1 => hk b.1 b.2 ((listBlocks_sublist g l).subset hb) x (by omega)

theorem Registry.keeps_left (hk : Keeps s.mem m (O ++ registryBlocks s.globMap l)) :
    Keeps s.mem m O ∧ Keeps s.mem m (registryBlocks s.globMap l) :=
  ⟨hk.mono (subset_append_left _ _), hk.mono (subset_append_right _ _)⟩

section

variable (h : Registry e s bs O l lost) (hsame : SameHeap s s') (hglob : s'.globMap = s.globMap)
  (hwf : WellFormed e s' bs') (hunt : Untouched s.mem s'.mem (live s.heap.start bs))
include h hsame hglob hwf hunt

/-- The registry is the same after a change that leaves the blocks in use alone. -/
theorem Registry.same (hl : live s.heap.start bs' = live s.heap.start bs) :
    Registry e s' bs' O l lost ∧ Keeps s.mem s'.mem O := by
  obtain ⟨hO, hreg⟩ := Registry.keeps_left (h.owns.keeps hunt)
  refine ⟨⟨?_, ?_⟩, hO⟩
  · rw [hglob]
    exact h.owns.same hsame hwf hl
  · rw [hglob]
    exact h.list.of_keeps hreg

/-- A block handed out. -/
theorem Registry.add {p z : ℕ}
    (hl : (live s.heap.start bs').Perm ((p, z) :: live s.heap.start bs)) (hn : n ≤ z) :
    Registry e s' bs' ((p, n) :: O) l lost ∧ Keeps s.mem s'.mem O := by
  obtain ⟨hO, hreg⟩ := Registry.keeps_left (h.owns.keeps hunt)
  refine ⟨⟨?_, ?_⟩, hO⟩
  · rw [hglob]
    exact h.owns.add hsame hwf hl hn
  · rw [hglob]
    exact h.list.of_keeps hreg

end

section

variable {p n : ℕ} {mem' : Mem} (hm : ∀ x, x < p ∨ p + n ≤ x → mem' x = s.mem x)
include hm

/-- A write inside an owned block keeps all others. -/
theorem Owns.keeps_write (h : Owns e s bs ((p, n) :: O) lost) : Keeps s.mem mem' O := by
  intro q k hq x h1 h2
  have hap := rel_of_pairwise_cons h.pairwise_apart hq
  simp only [Apart] at hap
  exact hm x (by omega)

/-- A write inside a block of another owner. -/
theorem Registry.write (h : Registry e s bs ((p, n) :: O) l lost) :
    Registry e { s with mem := mem' } bs ((p, n) :: O) l lost ∧ Keeps s.mem mem' O := by
  obtain ⟨hO, hreg⟩ := Registry.keeps_left (h.owns.keeps_write hm)
  refine ⟨⟨h.owns.write fun x hx => hm x (hx p n mem_cons_self), ?_⟩, hO⟩
  exact h.list.of_keeps hreg

end

section

variable {node record t : ℕ}
  (h : Registry e s bs ((node, sizeofListNode) :: (record, sizeofGlobMapping) :: O) l lost)
  (ht : t = 0 ∨ ∃ d, (t, d) ∈ l)
include h ht

/-- The pointer updates of `list_insert` stay inside the list and its nodes. -/
theorem Registry.link_write :
    Owns e { s with mem := listLink s.globMap t node record s.mem } bs
        ((node, sizeofListNode) :: (record, sizeofGlobMapping) :: O ++ registryBlocks s.globMap l)
        lost ∧
      Keeps s.mem (listLink s.globMap t node record s.mem) O := by
  have hlist : (s.globMap, sizeofList) ∈ registryBlocks s.globMap l := mem_cons_self
  have htail : t = 0 ∨ (t, sizeofListNode) ∈ registryBlocks s.globMap l := by
    refine ht.imp_right ?_
    rintro ⟨d, hd⟩
    exact mem_cons_of_mem _ (mem_flatMap.2 ⟨_, hd, by simp⟩)
  -- a byte outside the list, its tail and the new node is not written
  have hout : ∀ x, (x < s.globMap ∨ s.globMap + sizeofList ≤ x) →
      (x < node ∨ node + sizeofListNode ≤ x) →
      (t = 0 ∨ x < t ∨ t + sizeofListNode ≤ x) →
        listLink s.globMap t node record s.mem x = s.mem x := by
    intro x h1 h2 h3
    simp only [sizeofList, sizeofListNode] at h1 h2 h3
    exact listLink_other h1 h2 (by omega)
  constructor
  · refine h.owns.write fun x hx => hout x ?_ ?_ ?_
    · exact hx _ _ (mem_append_right _ hlist)
    · exact hx _ _ (by simp)
    · exact htail.imp_right fun hmem => hx _ _ (mem_append_right _ hmem)
  · have hpw := h.owns.pairwise_apart
    intro q k hq x h1 h2
    have hq' : (q, k) ∈ (record, sizeofGlobMapping) :: O := mem_cons_of_mem _ hq
    have hnode := rel_of_pairwise_cons hpw (mem_append_left _ hq')
    have hrest := (pairwise_append.1 hpw).2.2 (q, k) (mem_cons_of_mem _ hq')
    have hl := hrest _ hlist
    simp only [Apart] at hnode hl
    refine hout x (by omega) (by omega) (htail.imp_right fun hmem => ?_)
    have hb := hrest _ hmem
    simp only [Apart] at hb
    omega

/-- A mapping is registered, wherever its node is put. -/
theorem Registry.linked {l' : List (ℕ × ℕ)} (hperm : l'.Perm ((node, record) :: l))
    (hl : node ≠ 0 → node < 2 ^ 64 → record < 2 ^ 64 →
      ((node, sizeofListNode) :: listBlocks s.globMap l).Pairwise Apart →
      ListAt (listLink s.globMap t node record s.mem) s.globMap l')
    :
    Registry e { s with mem := listLink s.globMap t node record s.mem } bs O l' lost ∧
      Keeps s.mem (listLink s.globMap t node record s.mem) O := by
  obtain ⟨howns, hkeep⟩ := h.link_write ht
  obtain ⟨hn1, hn2⟩ := h.owns.bounds mem_cons_self
  obtain ⟨-, hr2⟩ := h.owns.bounds (mem_cons_of_mem _ mem_cons_self)
  have hap : ((node, sizeofListNode) :: listBlocks s.globMap l).Pairwise Apart := by
    refine h.owns.pairwise_apart.sublist (List.Sublist.cons_cons _ ?_)
    exact ((listBlocks_sublist _ _).trans (sublist_append_right O _)).cons _
  refine ⟨⟨howns.of_perm ?_, hl (by omega) (by omega) (by omega) hap⟩, hkeep⟩
  rw [perm_iff_count]
  intro a
  have hcount := (hperm.flatMap_right fun a : ℕ × ℕ =>
    [(a.1, sizeofListNode), (a.2, sizeofGlobMapping)]).count_eq a
  simp only [registryBlocks, flatMap_cons, count_append, count_cons,
    cons_append, nil_append] at hcount ⊢
  omega

end

/-- A registered mapping: the new node comes behind the node `t`. -/
theorem Registry.link {t d : ℕ} {xs ys : List (ℕ × ℕ)}
    (h : Registry e s bs ((node, sizeofListNode) :: (record, sizeofGlobMapping) :: O)
      (xs ++ (t, d) :: ys) lost) :
    Registry e { s with mem := listLink s.globMap t node record s.mem } bs O
        (xs ++ (t, d) :: (node, record) :: ys) lost ∧
      Keeps s.mem (listLink s.globMap t node record s.mem) O := by
  refine h.linked (.inr ⟨d, by simp⟩) ?_ h.list.insert
  rw [append_cons, append_cons xs (t, d) ys]
  exact perm_middle

/-- The first registered mapping. -/
theorem Registry.link_nil
    (h : Registry e s bs ((node, sizeofListNode) :: (record, sizeofGlobMapping) :: O) [] lost) :
    Registry e { s with mem := listLink s.globMap 0 node record s.mem } bs O [(node, record)] lost ∧
      Keeps s.mem (listLink s.globMap 0 node record s.mem) O :=
  h.linked (.inl rfl) (List.Perm.refl _) h.list.insert_nil

end Edits

/-! ### Registering a mapping -/

/-- From `s` to `s'` the owned blocks became `O'`, and the mappings `new` were registered, one for
each page by which the heap grew. -/
structure Grew (e : ℕ) (s s' : Sys σ) (bs' : List Blk) (O O' l : List (ℕ × ℕ)) (lost : List ℕ)
    (new : List (ℕ × ℕ)) : Prop where
  same : SameHeap s s'
  globMap : s'.globMap = s.globMap
  mark : s'.heap.state.vmemMark = s.heap.state.vmemMark + pageSize4K * new.length
  keeps : Keeps s.mem s'.mem O
  reg : Registry e s' bs' O' (l ++ new) lost

theorem wlp_store {a : ℕ} {f : Mem → Mem} {Q : Unit → Sys σ → Prop}
    (ha : pageSize4K ≤ a → Q () { s with mem := f s.mem }) : wlp (store a f) Q s := by
  unfold store
  split_ifs with h
  · exact wlp_halt
  · rintro _ _ ⟨⟩
    exact ha (not_lt.1 h)

theorem recordFields_other {x : ℕ} (hx : x < record ∨ record + sizeofGlobMapping ≤ x)
    (phys virt flags : ℕ) (m : Mem) :
    recordFields record phys virt flags m x = m x := by
  rw [sizeofGlobMapping] at hx
  rw [recordFields, writeLE_of_not_mem (by omega), write64_of_not_mem (by omega),
    write64_of_not_mem (by omega)]

section Register

variable {alloc : ℕ → Prog (Sys σ) ℕ} {phys virt flags : ℕ}
  {R : List Blk → List (ℕ × ℕ) → List Blk → List (ℕ × ℕ) → Prop}

/-- The end of a registration: the node is allocated and linked behind the former tail. -/
theorem listAdd_spec {new1 : List (ℕ × ℕ)} {bs1 : List Blk}
    (h : Registry e s bs1 ((record, sizeofGlobMapping) :: O) (l ++ new1) lost)
    (hnode : wlp (alloc sizeofListNode) (fun p s' => p ≠ 0 → ∃ bs2 new2, R bs1 new1 bs2 new2 ∧
      Grew e s s' bs2 ((record, sizeofGlobMapping) :: O)
        ((p, sizeofListNode) :: (record, sizeofGlobMapping) :: O) (l ++ new1) lost new2) s)
    (hl : l ≠ [] ∨ ∀ bs2 new2, R bs1 new1 bs2 new2 → new1 = [] ∧ new2 = []) :
    wlp (listAdd alloc s.globMap record) (fun _ s' => ∃ bs2 new2 node, R bs1 new1 bs2 new2 ∧
      SameHeap s s' ∧ s'.globMap = s.globMap ∧
      s'.heap.state.vmemMark = s.heap.state.vmemMark + pageSize4K * new2.length ∧
      Keeps s.mem s'.mem O ∧
      Registry e s' bs2 O (l ++ new1 ++ (node, record) :: new2) lost) s := by
  have hg : s.globMap ≠ 0 := by
    have := h.owns.bounds (mem_append_right _ mem_cons_self)
    omega
  unfold listAdd
  rw [if_neg hg]
  apply wlp_get_bind
  unfold listInsert
  rw [if_neg hg]
  apply wlp_bind
  intro node s' hcall
  have hspec := hnode node s' hcall
  refine wlp_store fun hge => ?_
  obtain ⟨bs2, new2, hR, hh⟩ := hspec (by rw [pageSize4K] at hge; omega)
  refine ⟨bs2, new2, node, hR, ⟨hh.same.1, hh.same.2, hh.same.3, hh.same.4⟩, hh.globMap, hh.mark,
    ?_⟩
  have hO : Keeps s.mem s'.mem O := hh.keeps.mono (subset_cons_self _ _)
  have hreg := hh.reg
  rw [h.list.tail, ← hh.globMap]
  by_cases hnil : l ++ new1 = []
  · -- only the first mapping of all finds an empty list
    obtain ⟨-, rfl⟩ := (hl.resolve_left fun hne => hne (append_eq_nil_iff.1 hnil).1) _ _ hR
    rw [hnil, append_nil] at hreg
    have hlink := hreg.link_nil
    rw [hnil]
    exact ⟨hO.trans hlink.2, hlink.1⟩
  · obtain ⟨xs, ⟨t, d⟩, hxs, hlast⟩ := lastNode_mem hnil
    rw [hxs, append_assoc] at hreg
    have hlink := Registry.link hreg
    rw [hlast, hxs, append_assoc]
    exact ⟨hO.trans hlink.2, hlink.1⟩

/-- **`vmem_mgmt_add_global_mapping`** appends one node and one record, given what the two
allocations do. -/
theorem addGlobalMapping_spec (R₁ : List Blk → List (ℕ × ℕ) → Prop) (h : Registry e s bs O l lost)
    (hrecord : wlp (alloc sizeofGlobMapping) (fun p s1 => p ≠ 0 → ∃ bs1 new1, R₁ bs1 new1 ∧
      Grew e s s1 bs1 O ((p, sizeofGlobMapping) :: O) l lost new1) s)
    (hnode : ∀ s1 bs1 new1 record, R₁ bs1 new1 → SameHeap s s1 →
      Registry e s1 bs1 ((record, sizeofGlobMapping) :: O) (l ++ new1) lost →
      wlp (alloc sizeofListNode) (fun p s2 => p ≠ 0 → ∃ bs2 new2, R bs1 new1 bs2 new2 ∧
        Grew e s1 s2 bs2 ((record, sizeofGlobMapping) :: O)
          ((p, sizeofListNode) :: (record, sizeofGlobMapping) :: O) (l ++ new1) lost new2) s1)
    (hl : l ≠ [] ∨ ∀ bs1 new1 bs2 new2, R bs1 new1 bs2 new2 → new1 = [] ∧ new2 = []) :
    wlp (vmemMgmtAddGlobalMapping alloc phys virt flags) (fun _ s' => ∃ bs1 new1 bs2 new2 a,
      R₁ bs1 new1 ∧ R bs1 new1 bs2 new2 ∧ SameHeap s s' ∧ s'.globMap = s.globMap ∧
      s'.heap.state.vmemMark =
        s.heap.state.vmemMark + pageSize4K * (new1.length + new2.length) ∧
      Keeps s.mem s'.mem O ∧ Registry e s' bs2 O (l ++ new1 ++ a :: new2) lost) s := by
  have hg : s.globMap ≠ 0 := by
    have := h.owns.bounds (mem_append_right _ mem_cons_self)
    omega
  apply wlp_bind
  apply wlp_get_bind
  rw [if_neg hg]
  apply wlp_pure
  apply wlp_bind
  intro record s1 hcall
  apply wlp_bind
  refine wlp_store fun hge => ?_
  obtain ⟨bs1, new1, hR1, hh⟩ := hrecord record s1 hcall (by rw [pageSize4K] at hge; omega)
  obtain ⟨hreg, hkeep⟩ := hh.reg.write fun x hx =>
    recordFields_other hx phys virt flags s1.mem
  have hsame : SameHeap s { s1 with mem := recordFields record phys virt flags s1.mem } :=
    ⟨hh.same.1, hh.same.2, hh.same.3, hh.same.4⟩
  refine wlp_mono (listAdd_spec hreg
    (hnode _ _ _ _ hR1 hsame hreg) (hl.imp_right fun hR => hR bs1 new1)) ?_
  rintro _ s' ⟨bs2, new2, node, hR, hsame', hglob, hmark, hO, hfin⟩
  refine ⟨bs1, new1, bs2, new2, (node, record), hR1, hR, hsame.trans hsame',
    hglob.trans hh.globMap, ?_, (hh.keeps.trans hkeep).trans hO, hfin⟩
  rw [hmark]
  simp only [hh.mark]
  ring

end Register

end Tachyon.Heap
