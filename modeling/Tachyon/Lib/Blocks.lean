import Tachyon.Lib.Prog

/-!
# Memory in blocks

A pointer is a block with an offset.  Pointer arithmetic stays in the block, and an allocation
returns a block that no pointer leads to so far; a block is as large as its use asks for.

* `load`, `store`, `alloc`: the operations;
* `Blocks.write m p bs`: the bytes `bs` stored from `p` on;
* `StringAt m p bs`: the string `bs` with its terminating `0` at `p`;
* `Grows m m'`: the blocks of `m` are as they were.
-/

namespace Tachyon

open List Function

/-- A pointer into a block. -/
structure Ptr where
  block : ℕ
  off : ℕ
  deriving DecidableEq, Repr

/-- Pointer arithmetic. -/
def Ptr.add (p : Ptr) (n : ℕ) : Ptr := ⟨p.block, p.off + n⟩

@[simp] theorem Ptr.add_block (p : Ptr) (n : ℕ) : (p.add n).block = p.block := rfl
@[simp] theorem Ptr.add_off (p : Ptr) (n : ℕ) : (p.add n).off = p.off + n := rfl
@[simp] theorem Ptr.add_zero (p : Ptr) : p.add 0 = p := rfl

@[simp] theorem Ptr.add_add (p : Ptr) (m n : ℕ) : (p.add m).add n = p.add (m + n) := by
  simp [Ptr.add, Nat.add_assoc]

/-- The bytes, and the next block that an allocation returns. -/
structure Blocks where
  bytes : Ptr → UInt8
  next : ℕ

/-- Store a byte. -/
def Blocks.put (m : Blocks) (p : Ptr) (b : UInt8) : Blocks :=
  { m with bytes := Function.update m.bytes p b }

/-- Store some bytes. -/
def Blocks.write (m : Blocks) : Ptr → List UInt8 → Blocks
  | _, [] => m
  | p, b :: bs => (m.put p b).write (p.add 1) bs

namespace Prog

def load (p : Ptr) : Prog Blocks UInt8 := fun m => .ok (m.bytes p, m)

def store (p : Ptr) (b : UInt8) : Prog Blocks Unit := modify fun m => m.put p b

def alloc : Prog Blocks Ptr := fun m => .ok (⟨m.next, 0⟩, { m with next := m.next + 1 })

end Prog

variable {m m' m'' : Blocks} {p q : Ptr} {b : UInt8} {bs : List UInt8}

/-! ### Writes -/

@[simp] theorem Blocks.put_next (m : Blocks) (p : Ptr) (b : UInt8) : (m.put p b).next = m.next :=
  rfl

theorem Blocks.put_of_ne (h : q ≠ p) : (m.put p b).bytes q = m.bytes q :=
  update_of_ne h _ _

@[simp] theorem Blocks.write_next (m : Blocks) (p : Ptr) (bs : List UInt8) :
    (m.write p bs).next = m.next := by
  induction bs generalizing m p with
  | nil => rfl
  | cons b bs ih => exact ih _ _

/-- A write changes no other block, and nothing in front of it or behind it. -/
theorem Blocks.write_of_not_mem
    (h : q.block ≠ p.block ∨ q.off < p.off ∨ p.off + bs.length ≤ q.off) :
    (m.write p bs).bytes q = m.bytes q := by
  induction bs generalizing m p with
  | nil => rfl
  | cons b bs ih =>
    rw [length_cons] at h
    have hne : q ≠ p := by
      rintro rfl
      omega
    rw [Blocks.write, ih (by simp only [Ptr.add_block, Ptr.add_off]; omega), Blocks.put_of_ne hne]

theorem Blocks.write_append (m : Blocks) (p : Ptr) (xs ys : List UInt8) :
    (m.write p xs).write (p.add xs.length) ys = m.write p (xs ++ ys) := by
  induction xs generalizing m p with
  | nil => rfl
  | cons x xs ih =>
    rw [cons_append, Blocks.write, Blocks.write, ← ih, Ptr.add_add, length_cons, Nat.add_comm 1]

/-! ### Strings -/

/-- A string with its terminating `0`. -/
def StringAt (m : Blocks) : Ptr → List UInt8 → Prop
  | p, [] => m.bytes p = 0
  | p, b :: bs => m.bytes p = b ∧ b ≠ 0 ∧ StringAt m (p.add 1) bs

instance StringAt.decide (m : Blocks) : ∀ p bs, Decidable (StringAt m p bs)
  | p, [] => inferInstanceAs (Decidable (m.bytes p = 0))
  | p, b :: bs =>
    have := StringAt.decide m (p.add 1) bs
    inferInstanceAs (Decidable (m.bytes p = b ∧ b ≠ 0 ∧ StringAt m (p.add 1) bs))

/-- A string depends on its block only. -/
theorem StringAt.congr (h : StringAt m p bs)
    (heq : ∀ q, q.block = p.block → m'.bytes q = m.bytes q) : StringAt m' p bs := by
  induction bs generalizing p with
  | nil => exact (heq p rfl).trans h
  | cons b bs ih => exact ⟨(heq p rfl).trans h.1, h.2.1, ih h.2.2 heq⟩

/-- The end of a string is a string. -/
theorem StringAt.drop {xs ys : List UInt8} (h : StringAt m p (xs ++ ys)) :
    StringAt m (p.add xs.length) ys := by
  induction xs generalizing p with
  | nil => exact h
  | cons x xs ih =>
    have := ih h.2.2
    rwa [Ptr.add_add, Nat.add_comm] at this

theorem StringAt.zero_notMem (h : StringAt m p bs) : 0 ∉ bs := by
  induction bs generalizing p with
  | nil => exact not_mem_nil
  | cons b bs ih =>
    rw [mem_cons, not_or]
    exact ⟨h.2.1.symm, ih h.2.2⟩

/-- Bytes written with a `0` behind them are a string. -/
theorem stringAt_write (h : 0 ∉ bs) : StringAt (m.write p (bs ++ [0])) p bs := by
  induction bs generalizing m p with
  | nil => exact update_self _ _ _
  | cons b bs ih =>
    rw [mem_cons, not_or] at h
    have hfirst : ((m.put p b).write (p.add 1) (bs ++ [0])).bytes p = (m.put p b).bytes p :=
      Blocks.write_of_not_mem (.inr (.inl (Nat.lt_succ_self _)))
    exact ⟨hfirst.trans (update_self _ _ _), Ne.symm h.1, ih h.2⟩

/-! ### Blocks that stay as they are -/

/-- New blocks may be there, the old ones are as they were. -/
structure Grows (m m' : Blocks) : Prop where
  next_le : m.next ≤ m'.next
  bytes_eq : ∀ q : Ptr, q.block < m.next → m'.bytes q = m.bytes q

theorem Grows.refl (m : Blocks) : Grows m m := ⟨le_rfl, fun _ _ => rfl⟩

theorem Grows.trans (h : Grows m m') (h' : Grows m' m'') : Grows m m'' :=
  ⟨h.next_le.trans h'.next_le,
    fun q hq => (h'.bytes_eq q (hq.trans_le h.next_le)).trans (h.bytes_eq q hq)⟩

/-- An allocation with a write to the new block. -/
theorem grows_write (m : Blocks) (n : ℕ) (bs : List UInt8) :
    Grows m ({ m with next := m.next + 1 }.write ⟨m.next, n⟩ bs) := by
  refine ⟨?_, fun q hq => ?_⟩
  · rw [Blocks.write_next]
    exact Nat.le_succ _
  · exact Blocks.write_of_not_mem (.inl hq.ne)

theorem StringAt.grows (h : StringAt m p bs) (hp : p.block < m.next) (hg : Grows m m') :
    StringAt m' p bs :=
  h.congr fun q hq => hg.bytes_eq q (hq ▸ hp)

end Tachyon
