import Tachyon.Lib.Memory

/-!
# Strings

* `writeBytes m a bs`: the bytes `bs` written to memory from the address `a` on;
* `writeBytes_append`, `writeBytes_update`: how writes compose;
* `writeBytes_of_not_mem`: what they leave alone;
* `Thinned c xs ys`: the list `xs` is `ys` without some of its `c`;
* `Thinned.eq_of_mem`: it is not the beginning of the longer one, unless it has nothing but `c`.
-/

namespace Tachyon

open List Function

/-! ### Bytes in memory -/

/-- The bytes `bs` from `a` on, the rest as it was. -/
def writeBytes (m : Mem) : ℕ → List UInt8 → Mem
  | _, [] => m
  | a, b :: bs => writeBytes (Function.update m a b) (a + 1) bs

variable {m : Mem} {a x n : ℕ} {b : UInt8} {bs xs ys : List UInt8}

@[simp] theorem writeBytes_nil (m : Mem) (a : ℕ) : writeBytes m a [] = m := rfl

theorem writeBytes_cons (m : Mem) (a : ℕ) (b : UInt8) (bs : List UInt8) :
    writeBytes m a (b :: bs) = writeBytes (update m a b) (a + 1) bs := rfl

theorem writeBytes_append (m : Mem) (a : ℕ) (xs ys : List UInt8) :
    writeBytes m a (xs ++ ys) = writeBytes (writeBytes m a xs) (a + xs.length) ys := by
  induction xs generalizing m a with
  | nil => rfl
  | cons x xs ih =>
    rw [cons_append, writeBytes_cons, ih, writeBytes_cons, length_cons]
    congr 1
    omega

theorem writeBytes_of_not_mem (h : x < a ∨ a + bs.length ≤ x) : writeBytes m a bs x = m x := by
  induction bs generalizing m a with
  | nil => rfl
  | cons b bs ih =>
    rw [length_cons] at h
    rw [writeBytes_cons, ih (by omega), update_of_ne (by omega)]

/-- A write besides the bytes may come first. -/
theorem writeBytes_update (h : x < a ∨ a + bs.length ≤ x) :
    writeBytes (update m x b) a bs = update (writeBytes m a bs) x b := by
  induction bs generalizing m a with
  | nil => rfl
  | cons c bs ih =>
    rw [length_cons] at h
    rw [writeBytes_cons, update_comm (by omega), ih (by omega), writeBytes_cons]

/-! ### Lists without some of their elements -/

/-- The list `xs` is `ys` without some of the `c` in it. -/
inductive Thinned {α : Type*} (c : α) : List α → List α → Prop
  | nil : Thinned c [] []
  | keep (a : α) {xs ys : List α} (h : Thinned c xs ys) : Thinned c (a :: xs) (a :: ys)
  | drop {xs ys : List α} (h : Thinned c xs ys) : Thinned c xs (c :: ys)

namespace Thinned

variable {α : Type*} {c : α} {xs ys xs' ys' : List α}

theorem refl (c : α) (xs : List α) : Thinned c xs xs := by
  induction xs with
  | nil => exact .nil
  | cons a xs ih => exact .keep a ih

theorem append (h : Thinned c xs ys) (h' : Thinned c xs' ys') :
    Thinned c (xs ++ xs') (ys ++ ys') := by
  induction h with
  | nil => exact h'
  | keep a _ ih => exact .keep a ih
  | drop _ ih => exact .drop ih

theorem replicate {m : ℕ} (h : m ≤ n) :
    Thinned c (List.replicate m c) (List.replicate n c) := by
  obtain ⟨d, rfl⟩ := Nat.exists_eq_add_of_le' h
  induction d with
  | zero => exact (Nat.zero_add m).symm ▸ refl c _
  | succ d ih =>
    rw [Nat.add_right_comm, replicate_succ]
    exact .drop (ih (Nat.le_add_left m d))

theorem sublist (h : Thinned c xs ys) : xs.Sublist ys := by
  induction h with
  | nil => exact .slnil
  | keep a _ ih => exact ih.cons_cons a
  | drop _ ih => exact ih.cons _

/-- With more `c` in front of the longer list, the shorter one is not the beginning of it. -/
theorem eq_of_mem (h : Thinned c xs ys) (hn : 0 < n)
    (hpre : xs <+: List.replicate n c ++ ys) : ∀ a ∈ xs, a = c := by
  induction h generalizing n with
  | nil => simp
  | @keep a xs ys _ ih =>
    obtain ⟨n, rfl⟩ := Nat.exists_eq_succ_of_ne_zero hn.ne'
    rw [replicate_succ, cons_append, cons_prefix_cons] at hpre
    obtain ⟨rfl, hpre⟩ := hpre
    refine forall_mem_cons.2 ⟨rfl, ih hn ?_⟩
    rwa [replicate_succ', append_assoc]
  | @drop xs ys _ ih =>
    refine ih (Nat.succ_pos n) ?_
    rwa [replicate_succ', append_assoc]

end Thinned

end Tachyon
