import Tachyon.Lists.Spec

/-!
# A list as a queue

`ListRun list ops m`: from `list_new`, the calls `ops` lead to the memory `m`.  `HoldsQueue` says that
the memory of a list and its sequence of data agree, and `list_queue_run` that this holds along
every run, the sequence being that of append, remove-first and clear (`ListOp.apply`).
-/

namespace Tachyon.Lists

open Prog List

/-- The calls on a list; `new` is where `kheap_alloc` puts the node. -/
inductive ListOp
  | add (data new : ℕ)
  | remove (item : ℕ)
  | clear
  deriving DecidableEq, Repr

/-- The call itself. -/
def ListOp.call (list fuel : ℕ) : ListOp → Prog ListHeap Unit
  | .add data new => listAdd list data new
  | .remove item => listRemove fuel list item
  | .clear => listClear fuel list

/-- What the call is to do with the sequence of data. -/
def ListOp.apply (s : List ℕ) : ListOp → List ℕ
  | .add data _ => s ++ [data]
  | .remove item => s.erase item
  | .clear => []

/-- The allocation of the node succeeds. -/
def ListOp.Allocates (m : ListHeap) : ListOp → Prop
  | .add _ new => FreshNode m new
  | .remove _ => True
  | .clear => True

/-- From `list_new`, the calls `ops` lead to `m`. -/
inductive ListRun (list : ℕ) : List ListOp → ListHeap → Prop
  | new {m m' : ListHeap} (call : listNew list m = .ok (list, m')) : ListRun list [] m'
  | call {ops : List ListOp} {op : ListOp} {m m' : ListHeap} (run : ListRun list ops m)
      (alloc : op.Allocates m) (call : Returns (fun fuel => op.call list fuel) m () m') :
      ListRun list (ops ++ [op]) m'

/-- The list at `list` is the queue `s`. -/
structure HoldsQueue (m : ListHeap) (list : ℕ) (s : List ℕ) : Prop where
  /-- Head, next pointers, tail and size agree, and there is no cycle. -/
  memory : ∃ head tail size, m.list list = some ⟨head, tail, size⟩ ∧
    ∃ l, Seg m.node head l 0 ∧ l.map Prod.snd = s ∧ (l.map Prod.fst).Nodup ∧ tail = lastAddr l ∧
      (tail = 0 ↔ s = []) ∧ size = s.length
  returns : ∀ op : ListOp, op.Allocates m → ∃ m', Returns (fun fuel => op.call list fuel) m () m'
  absent : ∀ item ∉ s, Returns (fun fuel => listRemove fuel list item) m () m
  clears : ∃ m', Returns (fun fuel => listClear fuel list) m () m' ∧ m'.list list = some ⟨0, 0, 0⟩

variable {m m' : ListHeap} {list : ℕ} {l : List (ℕ × ℕ)} {ops : List ListOp}

/-- One call. -/
theorem ListAt.call {op : ListOp} (h : ListAt m list l) (ha : op.Allocates m) :
    ∃ m' l', Returns (fun fuel => op.call list fuel) m () m' ∧ ListAt m' list l' ∧
      l'.map Prod.snd = op.apply (l.map Prod.snd) := by
  cases op with
  | add data new =>
    obtain ⟨m', hm', hl, -⟩ := listAdd_spec data h ha
    exact ⟨m', _, ⟨0, fun _ _ => hm'⟩, hl, by simp [ListOp.apply]⟩
  | remove item =>
    obtain ⟨m', hm', hl, -⟩ := listRemove_spec h item
    exact ⟨m', _, ⟨_, hm'⟩, hl, map_snd_eraseP item⟩
  | clear =>
    obtain ⟨m', hm', hl, -⟩ := listClear_spec h
    exact ⟨m', _, ⟨_, hm'⟩, hl, rfl⟩

theorem ListRun.listAt (h : ListRun list ops m) :
    ∃ l, ListAt m list l ∧ l.map Prod.snd = ops.foldl ListOp.apply [] := by
  induction h with
  | @new m m' call =>
    have h0 : list ≠ 0 := by
      rintro rfl
      cases call
    obtain ⟨m1, hm1, hl, -⟩ := listNew_spec m h0
    rw [call] at hm1
    cases hm1
    exact ⟨[], hl, rfl⟩
  | call _ alloc call ih =>
    obtain ⟨l, hl, hs⟩ := ih
    obtain ⟨m1, l', hm1, hl', hs'⟩ := hl.call alloc
    obtain ⟨-, rfl⟩ := call.unique hm1
    exact ⟨l', hl', by rw [hs', hs, foldl_append]; rfl⟩

theorem ListAt.holdsQueue (h : ListAt m list l) : HoldsQueue m list (l.map Prod.snd) := by
  refine ⟨?_, fun op ha => ?_, fun item habs => ?_, ?_⟩
  · obtain ⟨-, ⟨head, hhdr, hseg⟩, -⟩ := h
    refine ⟨head, _, _, hhdr, l, hseg, rfl, hseg.nodup, rfl, ?_, (length_map _).symm⟩
    rw [map_eq_nil_iff]
    rcases eq_nil_or_concat l with rfl | ⟨zs, z, rfl⟩
    · simp
    · rw [concat_eq_append, lastAddr_concat]
      simp [hseg.ne_zero z (by simp)]
  · obtain ⟨m', -, hm', -⟩ := h.call ha
    exact ⟨m', hm'⟩
  · obtain ⟨m', hm', -, -, hsame⟩ := listRemove_spec h item
    have hm : m' = m := hsame fun b hb hbi => habs (hbi ▸ mem_map_of_mem hb)
    exact ⟨l.length, fun fuel hfuel => hm ▸ hm' fuel hfuel⟩
  · obtain ⟨m', hm', ⟨-, ⟨head, hhdr, hseg⟩, -⟩, -⟩ := listClear_spec h
    obtain rfl : head = 0 := hseg
    exact ⟨m', ⟨_, hm'⟩, hhdr⟩

/-- **Linked lists are queues.**  After every run of `list_add`, `list_remove` and `list_clear` on a
new list, the memory holds exactly the sequence of append, remove-first and clear. -/
theorem list_queue_run (h : ListRun list ops m) :
    HoldsQueue m list (ops.foldl ListOp.apply []) := by
  obtain ⟨l, hl, hs⟩ := h.listAt
  rw [← hs]
  exact hl.holdsQueue

/-- Two nodes are added, and the first one is removed. -/
theorem list_queue_run_two : ∃ m, ListRun 8 [.add 5 0x100, .add 7 0x200, .remove 5] m ∧
    HoldsQueue m 8 [7] := by
  let m0 : ListHeap := ⟨fun _ => none, fun _ => none⟩
  let m1 := (listNew 8).exec m0
  let m2 := (listAdd 8 5 0x100).exec m1
  let m3 := (listAdd 8 7 0x200).exec m2
  let m4 := (listRemove 3 8 5).exec m3
  have h1 : ListRun 8 [] m1 := .new (m := m0) rfl
  have h2 : ListRun 8 [.add 5 0x100] m2 :=
    .call h1 ⟨by decide, by decide, rfl⟩ ⟨0, fun _ _ => rfl⟩
  have h3 : ListRun 8 [.add 5 0x100, .add 7 0x200] m3 :=
    .call h2 ⟨by decide, by decide, rfl⟩ ⟨0, fun _ _ => rfl⟩
  have h4 : ListRun 8 [.add 5 0x100, .add 7 0x200, .remove 5] m4 := by
    refine .call h3 trivial ⟨0, fun fuel hfuel => ?_⟩
    obtain ⟨fuel, rfl⟩ := Nat.exists_eq_add_of_lt hfuel
    rw [Nat.zero_add]
    rfl
  exact ⟨m4, h4, list_queue_run h4⟩

end Tachyon.Lists
