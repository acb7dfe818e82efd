import Tachyon.Heap.Owners

/-!
# Linked lists in memory

`ListAt m list l`: the `list_t` at `list` holds the nodes and data `l`.  Following the next
pointers from the head visits exactly these nodes (`Chain`), and the tail pointer is the last one.

`list_insert` after a node puts the new node behind it (`ListAt.insert`), and into an empty list
makes it head and tail (`ListAt.insert_nil`).
-/

namespace Tachyon.Heap

open List

variable {m m' : Mem} {list node new data : ℕ} {l xs ys : List (ℕ × ℕ)}

/-- Following the next pointers from `a` visits the nodes `l`, with their data. -/
def Chain (m : Mem) : ℕ → List (ℕ × ℕ) → Prop
  | a, [] => a = 0
  | a, (b, d) :: l => a = b ∧ b ≠ 0 ∧ read64 m b = d ∧ Chain m (read64 m (b + 8)) l

/-- The address of the last node, or `NULL`. -/
def lastNode (l : List (ℕ × ℕ)) : ℕ := (l.getLast?.map Prod.fst).getD 0

/-- The list at `list` holds the nodes and data `l`. -/
structure ListAt (m : Mem) (list : ℕ) (l : List (ℕ × ℕ)) : Prop where
  chain : Chain m (read64 m list) l
  tail : read64 m (list + 8) = lastNode l
  size : read64 m (list + 16) = l.length % 2 ^ 64

/-- The memory a list occupies. -/
def listBlocks (list : ℕ) (l : List (ℕ × ℕ)) : List (ℕ × ℕ) :=
  (list, sizeofList) :: l.map fun a => (a.1, sizeofListNode)

theorem lastNode_append_singleton (a : ℕ × ℕ) : lastNode (xs ++ [a]) = a.1 := by
  simp [lastNode]

theorem lastNode_append (hys : ys ≠ []) : lastNode (xs ++ ys) = lastNode ys := by
  obtain ⟨zs, z, rfl⟩ := (eq_nil_or_concat ys).resolve_left hys
  rw [concat_eq_append, ← append_assoc, lastNode_append_singleton, lastNode_append_singleton]

theorem lastNode_mem (hl : l ≠ []) : ∃ zs z, l = zs ++ [z] ∧ lastNode l = z.1 := by
  obtain ⟨zs, z, rfl⟩ := (eq_nil_or_concat l).resolve_left hl
  exact ⟨zs, z, by simp, by rw [concat_eq_append, lastNode_append_singleton]⟩

variable {a d : ℕ}

theorem Chain.congr (h : Chain m a l)
    (hm : ∀ b ∈ l, ∀ x, b.1 ≤ x → x < b.1 + 16 → m' x = m x) : Chain m' a l := by
  induction l generalizing a with
  | nil => exact h
  | cons b l ih =>
    obtain ⟨b, d⟩ := b
    obtain ⟨rfl, hb, hd, hrest⟩ := h
    have hm0 := hm (a, d) mem_cons_self
    refine ⟨rfl, hb, ?_, ?_⟩
    · rw [read64_congr fun x h1 h2 => hm0 x h1 (by omega), hd]
    · rw [read64_congr fun x h1 h2 => hm0 x (by omega) (by omega)]
      exact ih hrest fun c hc => hm c (mem_cons_of_mem _ hc)

theorem Chain.ne_zero (h : Chain m a l) : ∀ b ∈ l, b.1 ≠ 0 := by
  induction l generalizing a with
  | nil => simp
  | cons b l ih =>
    obtain ⟨-, hb, -, hrest⟩ := h
    intro c hc
    rcases mem_cons.1 hc with rfl | hc
    · exact hb
    · exact ih hrest c hc

/-- The next pointer of the last node is `NULL`. -/
theorem Chain.next_last (h : Chain m a (xs ++ [(node, d)])) :
    read64 m (node + 8) = 0 := by
  induction xs generalizing a with
  | nil => exact h.2.2.2
  | cons b xs ih => exact ih h.2.2.2

theorem Chain.read_data (h : Chain m a (xs ++ (node, d) :: ys)) : read64 m node = d := by
  induction xs generalizing a with
  | nil => exact h.2.2.1
  | cons b xs ih => exact ih h.2.2.2

/-- A new node behind `node`. -/
theorem Chain.insert (h : Chain m a (xs ++ (node, d) :: ys)) (hnew : new ≠ 0)
    (hsame : ∀ b ∈ xs ++ ys, ∀ x, b.1 ≤ x → x < b.1 + 16 → m' x = m x)
    (hdata : read64 m' node = d) (hnext : read64 m' (node + 8) = new)
    (hndata : read64 m' new = data) (hnnext : read64 m' (new + 8) = read64 m (node + 8)) :
    Chain m' a (xs ++ (node, d) :: (new, data) :: ys) := by
  induction xs generalizing a with
  | nil =>
    obtain ⟨rfl, hb, -, hrest⟩ := h
    refine ⟨rfl, hb, hdata, hnext, hnew, hndata, ?_⟩
    rw [hnnext]
    exact hrest.congr fun c hc => hsame c (by simpa using hc)
  | cons b xs ih =>
    obtain ⟨b, d'⟩ := b
    obtain ⟨rfl, hb, hd, hrest⟩ := h
    have hm0 := hsame (a, d') (by simp)
    refine ⟨rfl, hb, ?_, ?_⟩
    · rw [read64_congr fun x h1 h2 => hm0 x h1 (by omega), hd]
    · rw [read64_congr fun x h1 h2 => hm0 x (by omega) (by omega)]
      exact ih hrest fun c hc => hsame c (by
        simp only [cons_append, mem_cons]
        exact Or.inr hc)

theorem ListAt.congr (h : ListAt m list l)
    (hm : ∀ b ∈ listBlocks list l, ∀ x, b.1 ≤ x → x < b.1 + b.2 → m' x = m x) :
    ListAt m' list l := by
  have hlist := hm (list, sizeofList) mem_cons_self
  simp only [sizeofList] at hlist
  refine ⟨?_, ?_, ?_⟩
  · rw [read64_congr fun x h1 h2 => hlist x h1 (by omega)]
    refine h.chain.congr fun b hb x h1 h2 => ?_
    exact hm (b.1, sizeofListNode) (mem_cons_of_mem _ (mem_map.2 ⟨b, hb, rfl⟩)) x h1
      (by simpa only [sizeofListNode] using h2)
  · rw [read64_congr fun x h1 h2 => hlist x (by omega) (by omega), h.tail]
  · rw [read64_congr fun x h1 h2 => hlist x (by omega) (by omega), h.size]

/-- A new node, the list and its nodes, all apart. -/
theorem listBlocks_apart (hap : ((new, sizeofListNode) :: listBlocks list l).Pairwise Apart) :
    Apart (new, sizeofListNode) (list, sizeofList) ∧
      (∀ b ∈ l, Apart (b.1, sizeofListNode) (list, sizeofList) ∧
        Apart (b.1, sizeofListNode) (new, sizeofListNode)) ∧
      l.Pairwise fun a b => Apart (a.1, sizeofListNode) (b.1, sizeofListNode) := by
  rw [listBlocks, pairwise_cons, pairwise_cons, pairwise_map] at hap
  obtain ⟨hnew, hlist, hnodes⟩ := hap
  refine ⟨hnew _ mem_cons_self, fun b hb => ?_, hnodes⟩
  have hmem : (b.1, sizeofListNode) ∈ l.map fun a => (a.1, sizeofListNode) :=
    mem_map.2 ⟨b, hb, rfl⟩
  exact ⟨(hlist _ hmem).symm, (hnew _ (mem_cons_of_mem _ hmem)).symm⟩

/-- The node that the list ends with. -/
theorem ListAt.tail_eq_iff (h : ListAt m list (xs ++ (node, d) :: ys))
    (hys : ∀ b ∈ ys, b.1 ≠ node) : read64 m (list + 8) = node ↔ ys = [] := by
  rw [h.tail]
  constructor
  · intro hlast
    by_contra hne
    obtain ⟨zs, z, rfl, -⟩ := lastNode_mem hne
    rw [← cons_append, ← append_assoc, lastNode_append_singleton] at hlast
    exact hys z (by simp) hlast
  · rintro rfl
    rw [lastNode_append_singleton]

/-- The last node does not change when a node that is not the last one gets a new one behind it. -/
theorem lastNode_insert (hys : ys ≠ []) :
    lastNode (xs ++ (node, d) :: (new, data) :: ys) = lastNode (xs ++ (node, d) :: ys) := by
  rw [show xs ++ (node, d) :: (new, data) :: ys = (xs ++ [(node, d), (new, data)]) ++ ys by simp,
    show xs ++ (node, d) :: ys = (xs ++ [(node, d)]) ++ ys by simp, lastNode_append hys,
    lastNode_append hys]

/-! ### `list_insert` -/

/-- What `list_insert` writes. -/
theorem listLink_other {x : ℕ} (hlist : x < list ∨ list + 24 ≤ x) (hnew : x < new ∨ new + 16 ≤ x)
    (hnode : node = 0 ∨ x < node + 8 ∨ node + 16 ≤ x) :
    listLink list node new data m x = m x := by
  have hsz : sizeofListNode = 16 := rfl
  unfold listLink
  rw [write64_of_not_mem (by omega)]
  by_cases hz : node = 0
  · rw [if_pos hz]
    split_ifs
    · rw [write64_of_not_mem (by omega), write64_of_not_mem (by omega),
        write64_of_not_mem (by omega), memset_of_not_mem (by omega)]
    · rw [write64_of_not_mem (by omega), write64_of_not_mem (by omega),
        memset_of_not_mem (by omega)]
  · rw [if_neg hz, write64_of_not_mem (by omega)]
    split_ifs
    · rw [write64_of_not_mem (by omega), write64_of_not_mem (by omega),
        memset_of_not_mem (by omega)]
    · rw [write64_of_not_mem (by omega), write64_of_not_mem (by omega),
        memset_of_not_mem (by omega)]

section Insert

variable (hn0 : new ≠ 0) (hlt : new < 2 ^ 64) (hd : data < 2 ^ 64)

include hn0 hlt hd

/-- Into an empty list: the new node is head and tail. -/
theorem ListAt.insert_nil (h : ListAt m list [])
    (hap : ((new, sizeofListNode) :: listBlocks list []).Pairwise Apart) :
    ListAt (listLink list 0 new data m) list [(new, data)] := by
  have hnew := rel_of_pairwise_cons hap mem_cons_self
  simp only [Apart, sizeofList, sizeofListNode] at hnew
  have hsz : sizeofListNode = 16 := rfl
  -- the tail is still `NULL` when it is tested
  have htail : read64 (write64 (write64 (memset m new 0 sizeofListNode) new data) list new)
      (list + 8) = 0 := by
    rw [read64_of_disjoint (by omega), read64_of_disjoint (by omega),
      read64_congr fun x h1 h2 => memset_of_not_mem (by omega), h.tail]
    rfl
  have hsize : read64 (write64 (write64 (write64 (memset m new 0 sizeofListNode) new data) list new)
      (list + 8) new) (list + 16) = 0 := by
    rw [read64_of_disjoint (by omega), read64_of_disjoint (by omega), read64_of_disjoint (by omega),
      read64_congr fun x h1 h2 => memset_of_not_mem (by omega), h.size]
    rfl
  unfold listLink
  dsimp only
  rw [if_pos rfl, if_pos htail, hsize]
  refine ⟨⟨?_, hn0, ?_, ?_⟩, ?_, ?_⟩
  · rw [read64_of_disjoint (by omega), read64_of_disjoint (by omega), read64_write64 hlt]
  · rw [read64_of_disjoint (by omega), read64_of_disjoint (by omega),
      read64_of_disjoint (by omega), read64_write64 hd]
  · show read64 _ (new + 8) = 0
    rw [read64_of_disjoint (by omega), read64_of_disjoint (by omega),
      read64_of_disjoint (by omega), read64_of_disjoint (by omega)]
    exact read64_memset_zero (by omega) (by omega)
  · rw [read64_of_disjoint (by omega), read64_write64 hlt]
    rfl
  · rw [read64_write64 (add64_lt _ _)]
    rfl

/-- Behind a node of the list. -/
theorem ListAt.insert (h : ListAt m list (xs ++ (node, d) :: ys))
    (hap : ((new, sizeofListNode) :: listBlocks list (xs ++ (node, d) :: ys)).Pairwise Apart) :
    ListAt (listLink list node new data m) list (xs ++ (node, d) :: (new, data) :: ys) := by
  obtain ⟨hnew, hlist, hnodes⟩ := listBlocks_apart hap
  simp only [Apart, sizeofList, sizeofListNode] at hnew hnodes hlist
  have hsz : sizeofListNode = 16 := rfl
  obtain ⟨hnl, hnn⟩ := hlist (node, d) (by simp)
  have hnode0 := h.chain.ne_zero (node, d) (by simp)
  rw [pairwise_append, pairwise_cons] at hnodes
  obtain ⟨-, ⟨hys, -⟩, hxs⟩ := hnodes
  -- the memory after the new node was cleared and got its data
  set m0 := write64 (memset m new 0 sizeofListNode) new data with hm0
  have hsame0 : ∀ x, x < new ∨ new + 16 ≤ x → m0 x = m x := by
    intro x hx
    rw [hm0, write64_of_not_mem (by omega), memset_of_not_mem (by omega)]
  have hread0 : ∀ a, a + 8 ≤ new ∨ new + 16 ≤ a → read64 m0 a = read64 m a :=
    fun a ha => read64_congr fun x h1 h2 => hsame0 x (by omega)
  have htail : read64 m0 (list + 8) = node ↔ ys = [] := by
    rw [hread0 _ (by omega)]
    refine h.tail_eq_iff fun b hb => ?_
    have := hys b hb
    omega
  -- what the two branches have in common
  set m1 := (if read64 m0 (list + 8) = node then write64 m0 (list + 8) new
    else write64 m0 (new + 8) (read64 m0 (node + 8))) with hm1
  have hlink : listLink list node new data m =
      write64 (write64 m1 (node + 8) new) (list + 16)
        (add64 (read64 (write64 m1 (node + 8) new) (list + 16)) 1) := by
    unfold listLink
    dsimp only
    rw [if_neg hnode0]
  have hnnext : read64 m1 (new + 8) = read64 m (node + 8) := by
    by_cases hy : ys = []
    · subst hy
      rw [hm1, if_pos (htail.2 rfl), read64_of_disjoint (by omega), hm0,
        read64_of_disjoint (by omega), read64_memset_zero (by omega) (by omega),
        h.chain.next_last]
    · rw [hm1, if_neg (fun ht => hy (htail.1 ht)), read64_write64 (read64_lt _ _),
        hread0 _ (by omega)]
  have hread1 : ∀ a, a + 8 ≤ list + 8 ∨ list + 16 ≤ a → a + 8 ≤ new + 8 ∨ new + 16 ≤ a →
      read64 m1 a = read64 m0 a := by
    intro a h1 h2
    rw [hm1]
    split_ifs
    · exact read64_of_disjoint (by omega)
    · exact read64_of_disjoint (by omega)
  have hother : ∀ b ∈ xs ++ ys, ∀ x, b.1 ≤ x → x < b.1 + 16 →
      listLink list node new data m x = m x := by
    intro b hb x h1 h2
    have hbm : b ∈ xs ++ (node, d) :: ys := by
      rcases mem_append.1 hb with hb | hb
      · exact mem_append_left _ hb
      · exact mem_append_right _ (mem_cons_of_mem _ hb)
    obtain ⟨hbl, hbn⟩ := hlist b hbm
    have hbnode : b.1 + 16 + 16 ≤ node ∨ node + 16 + 16 ≤ b.1 := by
      rcases mem_append.1 hb with hb | hb
      · exact hxs b hb (node, d) mem_cons_self
      · exact (hys b hb).symm
    exact listLink_other (by omega) (by omega) (by omega)
  have hhead : read64 (listLink list node new data m) list = read64 m list := by
    rw [hlink, read64_of_disjoint (by omega), read64_of_disjoint (by omega),
      hread1 _ (by omega) (by omega), hread0 _ (by omega)]
  refine ⟨?_, ?_, ?_⟩
  · rw [hhead]
    refine h.chain.insert hn0 hother ?_ ?_ ?_ ?_
    · rw [hlink, read64_of_disjoint (by omega), read64_of_disjoint (by omega),
        hread1 _ (by omega) (by omega), hread0 _ (by omega), h.chain.read_data]
    · rw [hlink, read64_of_disjoint (by omega), read64_write64 hlt]
    · rw [hlink, read64_of_disjoint (by omega), read64_of_disjoint (by omega),
        hread1 _ (by omega) (by omega), hm0, read64_write64 hd]
    · rw [hlink, read64_of_disjoint (by omega), read64_of_disjoint (by omega), hnnext]
  · rw [hlink, read64_of_disjoint (by omega), read64_of_disjoint (by omega)]
    by_cases hy : ys = []
    · subst hy
      rw [hm1, if_pos (htail.2 rfl), read64_write64 hlt, show xs ++ [(node, d), (new, data)] =
        (xs ++ [(node, d)]) ++ [(new, data)] by simp, lastNode_append_singleton]
    · rw [hm1, if_neg (fun ht => hy (htail.1 ht)), read64_of_disjoint (by omega),
        hread0 _ (by omega), h.tail, lastNode_insert hy]
  · rw [hlink, read64_write64 (add64_lt _ _), read64_of_disjoint (by omega),
      hread1 _ (by omega) (by omega), hread0 _ (by omega), h.size, add64]
    simp only [length_append, length_cons]
    omega

end Insert

end Tachyon.Heap
