import Mathlib.Tactic
import Mathlib.Data.Nat.Bitwise

/-!
# 64-bit words as natural numbers

An unsigned 64-bit word is a natural number below `2 ^ 64`; `add64` and `sub64` wrap around as the
machine does.  Masks are natural-number `&&&` and `|||`, and `andNot x m` is `x & ~m`.

* `add64_of_lt`, `sub64_of_le`: without wrap-around the operations are those of `ℕ`;
* `alignDn`, `alignUp`, `alignRst`: rounding to a power of two by masking, read off as `%`
  (`alignDn_two_pow`, `alignUp_two_pow`);
* `or_eq_add_of_dvd`: setting bits below the alignment of a number is an addition.
-/

namespace Tachyon

variable {a b k x : ℕ}

/-- Addition of 64-bit words. -/
def add64 (a b : ℕ) : ℕ := (a + b) % 2 ^ 64

/-- Subtraction of 64-bit words. -/
def sub64 (a b : ℕ) : ℕ := (a + (2 ^ 64 - b % 2 ^ 64)) % 2 ^ 64

/-- Multiplication of 64-bit words. -/
def mul64 (a b : ℕ) : ℕ := a * b % 2 ^ 64

/-- The signed reading of a 64-bit word. -/
def toSigned (a : ℕ) : ℤ := if a < 2 ^ 63 then a else (a : ℤ) - 2 ^ 64

/-- `x & ~m`. -/
def andNot (x m : ℕ) : ℕ := x - (x &&& m)

/-- Round down to a multiple of `a`, a power of two. -/
def alignDn (x a : ℕ) : ℕ := andNot x (a - 1)

/-- Round up to a multiple of `a`, a power of two; the sum wraps around. -/
def alignUp (x a : ℕ) : ℕ := alignDn (add64 x (a - 1)) a

/-- The rest of `x` above its multiple of `a`, a power of two. -/
def alignRst (x a : ℕ) : ℕ := x &&& (a - 1)

theorem add64_of_lt (h : a + b < 2 ^ 64) : add64 a b = a + b := Nat.mod_eq_of_lt h

theorem sub64_of_le (hb : b ≤ a) (ha : a < 2 ^ 64) : sub64 a b = a - b := by
  unfold sub64
  rw [Nat.mod_eq_of_lt (show b < 2 ^ 64 by omega)]
  omega

/-- Going back by `c - 1`, where `c = 0` goes one forward. -/
theorem sub64_pred {c : ℕ} (hc : c ≤ a + 1) (ha : a + 1 < 2 ^ 64) :
    sub64 a (sub64 c 1) = a + 1 - c := by
  rcases Nat.eq_zero_or_pos c with rfl | hpos
  · have h : sub64 0 1 = 2 ^ 64 - 1 := by decide
    rw [h]
    unfold sub64
    omega
  · have h : sub64 c 1 = c - 1 := sub64_of_le hpos (by omega)
    rw [h, sub64_of_le (by omega) (by omega)]
    omega

theorem mul64_of_lt (h : a * b < 2 ^ 64) : mul64 a b = a * b := Nat.mod_eq_of_lt h

theorem add64_lt (a b : ℕ) : add64 a b < 2 ^ 64 := Nat.mod_lt _ (by norm_num)

theorem toSigned_of_lt (h : a < 2 ^ 63) : toSigned a = a := if_pos h

/-! ### Masks -/

theorem andNot_two_pow_sub_one (x k : ℕ) : andNot x (2 ^ k - 1) = x - x % 2 ^ k := by
  rw [andNot, Nat.and_two_pow_sub_one_eq_mod]

theorem alignDn_two_pow (x k : ℕ) : alignDn x (2 ^ k) = x - x % 2 ^ k :=
  andNot_two_pow_sub_one x k

theorem alignRst_two_pow (x k : ℕ) : alignRst x (2 ^ k) = x % 2 ^ k :=
  Nat.and_two_pow_sub_one_eq_mod x k

theorem alignUp_two_pow (x k : ℕ) :
    alignUp x (2 ^ k) = add64 x (2 ^ k - 1) - add64 x (2 ^ k - 1) % 2 ^ k :=
  alignDn_two_pow _ k

/-- Setting bits below the alignment of a number adds them. -/
theorem or_eq_add_of_dvd {f : ℕ} (hx : 2 ^ k ∣ x) (hf : f < 2 ^ k) : x ||| f = x + f := by
  obtain ⟨q, rfl⟩ := hx
  exact (Nat.two_pow_add_eq_or_of_lt hf q).symm

theorem or_one_eq (n : ℕ) : n ||| 1 = n + 1 - n % 2 := by
  rcases Nat.mod_two_eq_zero_or_one n with h0 | h1
  · rw [or_eq_add_of_dvd (k := 1) (by omega) (by norm_num)]
    omega
  · have hn : n = (n - 1) ||| 1 := by
      rw [or_eq_add_of_dvd (k := 1) (by omega) (by norm_num)]
      omega
    rw [hn, Nat.or_assoc, Nat.or_self, ← hn]
    omega

theorem and_two_pow_ne_zero : x &&& 2 ^ k ≠ 0 ↔ x.testBit k = true := by
  rw [Nat.and_two_pow]
  cases x.testBit k <;> simp

end Tachyon
