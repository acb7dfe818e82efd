import Tachyon.Lists.Model

/-!
# What the list functions do to the nodes

The functions of `list.c` follow the nodes from the head of a list, and change its tail and its size
on the way.  Here the tail and the size may be anything.

* `listInsert_first`, `listInsert_link`: a new node that is the only one, or is behind another one;
* `unlinkNode_first`, `removeLoop_absent`: the first node is taken out, and none is.
-/

namespace Tachyon.Lists

open Prog Function List

variable {m : ListHeap} {hdr : ListHdr} {list node new d item fuel : ℕ} {xs ys : List (ℕ × ℕ)}

/-- For `NULL`, the new node becomes the head, and nothing is behind it. -/
theorem listInsert_first (data : ℕ) (h0 : list ≠ 0) (hhdr : m.list list = some hdr)
    (hf : FreshNode m new) :
    ∃ m', listInsert list 0 data new m = .ok ((), m') ∧
      m'.list list = some ⟨new, if hdr.tail = 0 then new else hdr.tail, add64 hdr.size 1⟩ ∧
      Seg m'.node new [(new, data)] 0 ∧ Frame list [new] m m' := by
  refine ⟨⟨update m.list list (some ⟨new, if hdr.tail = 0 then new else hdr.tail,
      add64 hdr.size 1⟩), update m.node new (some ⟨data, 0⟩)⟩, ?_,
    update_self _ _ _, ⟨rfl, hf.nonnull, 0, update_self _ _ _, rfl⟩, ?_⟩
  · simp [listInsert, linkNode, storeNode, storeList, loadList, run_bind, h0, hf.nonnull, hhdr]
  · refine ⟨fun a ha => update_of_ne ha _ _, fun a ha => update_of_ne ?_ _ _⟩
    simpa using ha

/-- The new node is linked behind `node`.  If that is the tail, there must be nothing behind it. -/
theorem listInsert_link (data : ℕ) (h0 : list ≠ 0) (hhdr : m.list list = some hdr)
    (hseg : Seg m.node hdr.head (xs ++ (node, d) :: ys) 0) (hf : FreshNode m new)
    (htail : hdr.tail = node → ys = []) :
    ∃ m', listInsert list node data new m = .ok ((), m') ∧
      m'.list list = some ⟨hdr.head, if hdr.tail = node then new else hdr.tail, add64 hdr.size 1⟩ ∧
      Seg m'.node hdr.head (xs ++ (node, d) :: (new, data) :: ys) 0 ∧
      Frame list [new, node] m m' := by
  have hfresh : ∀ c ∈ xs ++ (node, d) :: ys, c.1 ≠ new := fun c hc =>
    hf.ne_of_isSome (hseg.isSome c hc)
  obtain ⟨-, hnode0, next, hnode, hys⟩ := seg_cut.1 hseg
  have hne : node ≠ new := hfresh (node, d) (by simp)
  have hseg' : Seg (update (update m.node new (some ⟨data, next⟩)) node
      (some ⟨d, new⟩)) hdr.head (xs ++ (node, d) :: (new, data) :: ys) 0 := by
    refine hseg.insert hf.nonnull hfresh (fun c h1 h2 => ?_) (update_self _ _ _) fun next' h => ?_
    · rw [update_of_ne h1, update_of_ne h2]
    · rw [hnode] at h
      cases h
      rw [update_of_ne hne.symm, update_self]
  refine ⟨⟨update m.list list (some ⟨hdr.head, if hdr.tail = node then new else hdr.tail,
      add64 hdr.size 1⟩),
    update (update m.node new (some ⟨data, next⟩)) node (some ⟨d, new⟩)⟩, ?_,
    update_self _ _ _, hseg', ?_⟩
  · by_cases ht : hdr.tail = node
    · -- the next pointer of the new node stays as it was set first
      obtain rfl := htail ht
      obtain rfl : next = 0 := hys
      simp [listInsert, linkNode, storeNode, storeList, loadList, loadNode, run_bind, h0,
        hf.nonnull, hhdr, hnode0, hnode, hne, ht]
    · simp [listInsert, linkNode, storeNode, storeList, loadList, loadNode, run_bind, h0,
        hf.nonnull, hhdr, hnode0, hnode, hne, ht]
  · refine ⟨fun a ha => update_of_ne ha _ _, fun a ha => ?_⟩
    simp only [mem_cons, not_mem_nil, or_false, not_or] at ha
    simp [ha.1, ha.2]

/-- The head is taken out. -/
theorem unlinkNode_first (hhdr : m.list list = some hdr)
    (hseg : Seg m.node hdr.head ((node, d) :: ys) 0) :
    ∃ m' next, unlinkNode list 0 node m = .ok ((), m') ∧
      m'.list list = some ⟨next, if hdr.tail = node then next else hdr.tail, sub64 hdr.size 1⟩ ∧
      Seg m'.node next ys 0 ∧ m'.node node = none ∧ Frame list [node] m m' := by
  obtain ⟨rfl, -, next, hnode, -⟩ := id hseg
  refine ⟨⟨update m.list list (some ⟨next, if hdr.tail = hdr.head then next else hdr.tail,
      sub64 hdr.size 1⟩), update m.node hdr.head none⟩, next, ?_,
    update_self _ _ _, hseg.unlink_head hnode fun c hc => update_of_ne hc _ _,
    update_self _ _ _, fun a ha => update_of_ne ha _ _,
    fun a ha => update_of_ne ?_ _ _⟩
  · simp [unlinkNode, storeList, loadList, loadNode, freeNode, run_bind, hhdr, hnode]
  · simpa using ha

/-- The loop of `list_remove`, if the datum is not found. -/
theorem removeLoop_absent {prev : ℕ} (hseg : Seg m.node node ys 0) (habs : ∀ b ∈ ys, b.2 ≠ item)
    (hfuel : ys.length < fuel) : removeLoop list item fuel prev node m = .ok ((), m) := by
  induction ys generalizing prev node fuel with
  | nil =>
    rcases fuel with _ | fuel
    · omega
    obtain rfl : node = 0 := hseg
    rfl
  | cons b ys ih =>
    rcases fuel with _ | fuel
    · omega
    obtain ⟨rfl, hb0, next, hmem, hseg'⟩ := hseg
    rw [forall_mem_cons] at habs
    rw [length_cons] at hfuel
    rw [removeLoop, if_neg hb0, run_ok (run_loadNode hmem), if_neg habs.1]
    exact ih hseg' habs.2 (by omega)

end Tachyon.Lists
