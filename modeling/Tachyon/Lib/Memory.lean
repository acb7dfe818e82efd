import Tachyon.Lib.Word

/-!
# Byte memory with little-endian words

A memory assigns a byte to every address.  `readLE m a n` and `writeLE m a n v` access the `n`-byte
little-endian number at `a`; `read64` and `write64` are the 8-byte case.  A read is determined by
the bytes it covers (`readLE_congr`), it returns what was written at the same place
(`readLE_writeLE`), and a write changes no byte outside its range (`writeLE_of_not_mem`).

`copyFwd` and `copyBwd` are the two byte loops of a memory move.
-/

namespace Tachyon

open Function

/-- Byte-addressed memory. -/
abbrev Mem := ℕ → UInt8

/-- The `n`-byte little-endian number at `a`. -/
def readLE (m : Mem) (a : ℕ) : ℕ → ℕ
  | 0 => 0
  | n + 1 => (m a).toNat + 256 * readLE m (a + 1) n

/-- Store the low `n` bytes of `v` at `a`. -/
def writeLE (m : Mem) (a n v : ℕ) : Mem := fun x =>
  if a ≤ x ∧ x < a + n then UInt8.ofNat (v / 256 ^ (x - a)) else m x

variable {m m' : Mem} {a n v b j d s i x : ℕ} {c : UInt8}

theorem readLE_congr (h : ∀ x, a ≤ x → x < a + n → m x = m' x) :
    readLE m a n = readLE m' a n := by
  induction n generalizing a with
  | zero => rfl
  | succ n ih =>
    rw [readLE, readLE, h a le_rfl (by omega), ih fun x h1 h2 => h x (by omega) (by omega)]

theorem readLE_lt (m : Mem) (a n : ℕ) : readLE m a n < 256 ^ n := by
  induction n generalizing a with
  | zero => simp [readLE]
  | succ n ih =>
    have h1 := ih (a + 1)
    have h2 := (m a).toNat_lt
    rw [readLE, pow_succ]
    omega

theorem writeLE_of_not_mem (h : x < a ∨ a + n ≤ x) :
    writeLE m a n v x = m x := by
  unfold writeLE
  rw [if_neg (by omega)]

/-- Reading inside a stored number gives its digits to base 256. -/
theorem readLE_writeLE_add (m : Mem) (a n v k j : ℕ) (h : k + j ≤ n) :
    readLE (writeLE m a n v) (a + k) j = v / 256 ^ k % 256 ^ j := by
  induction j generalizing k with
  | zero => simp [readLE, Nat.mod_one]
  | succ j ih =>
    have hrest := ih (k + 1) (by omega)
    have hbyte : (writeLE m a n v (a + k)).toNat = v / 256 ^ k % 256 := by
      unfold writeLE
      rw [if_pos (by omega), UInt8.toNat_ofNat', show a + k - a = k by omega]
    have hdiv : v / 256 ^ (k + 1) = v / 256 ^ k / 256 := by
      rw [pow_succ, Nat.div_div_eq_div_mul]
    rw [readLE, hbyte, show a + k + 1 = a + (k + 1) by omega, hrest, hdiv, pow_succ,
      Nat.mul_comm (256 ^ j), Nat.mod_mul]

theorem readLE_writeLE (h : v < 256 ^ n) :
    readLE (writeLE m a n v) a n = v := by
  have := readLE_writeLE_add m a n v 0 n (by omega)
  rwa [Nat.add_zero, pow_zero, Nat.div_one, Nat.mod_eq_of_lt h] at this

theorem readLE_writeLE_of_disjoint (h : b + j ≤ a ∨ a + n ≤ b) :
    readLE (writeLE m a n v) b j = readLE m b j :=
  readLE_congr fun x h1 h2 => writeLE_of_not_mem (by omega)

/-! ### 64-bit words -/

/-- The word at `a`. -/
def read64 (m : Mem) (a : ℕ) : ℕ := readLE m a 8

/-- Store a word at `a`. -/
def write64 (m : Mem) (a v : ℕ) : Mem := writeLE m a 8 v

theorem read64_congr (h : ∀ x, a ≤ x → x < a + 8 → m x = m' x) :
    read64 m a = read64 m' a := readLE_congr h

theorem read64_lt (m : Mem) (a : ℕ) : read64 m a < 2 ^ 64 := readLE_lt m a 8

@[simp] theorem read64_write64 (h : v < 2 ^ 64) :
    read64 (write64 m a v) a = v := readLE_writeLE h

theorem read64_of_disjoint (h : b + 8 ≤ a ∨ a + 8 ≤ b) :
    read64 (write64 m a v) b = read64 m b := readLE_writeLE_of_disjoint h

theorem write64_of_not_mem (h : x < a ∨ a + 8 ≤ x) :
    write64 m a v x = m x := writeLE_of_not_mem h

/-! ### Filling and copying -/

/-- Store the byte `c` at `a, …, a + n - 1`. -/
def memset (m : Mem) (a : ℕ) (c : UInt8) : ℕ → Mem
  | 0 => m
  | n + 1 => memset (Function.update m a c) (a + 1) c n

theorem memset_of_not_mem (h : x < a ∨ a + n ≤ x) :
    memset m a c n x = m x := by
  induction n generalizing m a with
  | zero => rfl
  | succ n ih =>
    rw [memset, ih (by omega), update_of_ne (by omega)]

theorem memset_of_mem (h1 : a ≤ x) (h2 : x < a + n) :
    memset m a c n x = c := by
  induction n generalizing m a with
  | zero => omega
  | succ n ih =>
    rw [memset]
    by_cases hx : x = a
    · subst hx
      rw [memset_of_not_mem (by omega), update_self]
    · exact ih (by omega) (by omega)

theorem readLE_zero (h : ∀ x, a ≤ x → x < a + n → m x = 0) :
    readLE m a n = 0 := by
  induction n generalizing a with
  | zero => rfl
  | succ n ih =>
    rw [readLE, h a le_rfl (by omega), ih fun x h1 h2 => h x (by omega) (by omega)]
    rfl

theorem read64_memset_zero (h1 : a ≤ b) (h2 : b + 8 ≤ a + n) :
    read64 (memset m a 0 n) b = 0 :=
  readLE_zero fun x hx hx' => memset_of_mem (by omega) (by omega)

/-- Copy `n` bytes from `s + i` to `d + i`, upwards. -/
def copyFwd (m : Mem) (d s i : ℕ) : ℕ → Mem
  | 0 => m
  | n + 1 => copyFwd (Function.update m (d + i) (m (s + i))) d s (i + 1) n

/-- Copy the bytes `s, …, s + n - 1` to `d, …`, downwards. -/
def copyBwd (m : Mem) (d s : ℕ) : ℕ → Mem
  | 0 => m
  | n + 1 => copyBwd (Function.update m (d + n) (m (s + n))) d s n

/-- Move `n` bytes from `s` to `d`, choosing the direction that is safe for overlaps. -/
def memmove (m : Mem) (d s n : ℕ) : Mem :=
  if s = d then m else if s > d then copyFwd m d s 0 n else copyBwd m d s n

theorem copyFwd_of_not_mem (h : x < d + i ∨ d + i + n ≤ x) :
    copyFwd m d s i n x = m x := by
  induction n generalizing m i with
  | zero => rfl
  | succ n ih =>
    rw [copyFwd, ih (by omega), update_of_ne (by omega)]

theorem copyBwd_of_not_mem (h : x < d ∨ d + n ≤ x) :
    copyBwd m d s n x = m x := by
  induction n generalizing m with
  | zero => rfl
  | succ n ih =>
    rw [copyBwd, ih (by omega), update_of_ne (by omega)]

theorem copyFwd_of_mem (hds : d < s) (hj : j < n) :
    copyFwd m d s i n (d + i + j) = m (s + i + j) := by
  induction n generalizing m i j with
  | zero => omega
  | succ n ih =>
    rw [copyFwd]
    cases j with
    | zero => rw [copyFwd_of_not_mem (by omega), Nat.add_zero, Nat.add_zero, update_self]
    | succ j =>
      -- what is still to be copied lies above what is written
      rw [show d + i + (j + 1) = d + (i + 1) + j by omega, ih (by omega),
        update_of_ne (by omega), show s + (i + 1) + j = s + i + (j + 1) by omega]

theorem copyBwd_of_mem (hsd : s < d) (hi : i < n) :
    copyBwd m d s n (d + i) = m (s + i) := by
  induction n generalizing m with
  | zero => omega
  | succ n ih =>
    rw [copyBwd]
    rcases Nat.eq_or_lt_of_le (Nat.le_of_lt_succ hi) with rfl | hlt
    · rw [copyBwd_of_not_mem (by omega), update_self]
    · rw [ih hlt, update_of_ne (by omega)]

/-- A move copies its source, also if the two overlap. -/
theorem memmove_of_mem (hi : i < n) :
    memmove m d s n (d + i) = m (s + i) := by
  unfold memmove
  split_ifs with heq hgt
  · rw [heq]
  · simpa using copyFwd_of_mem (i := 0) hgt hi
  · exact copyBwd_of_mem (by omega) hi

/-- A move writes only its destination. -/
theorem memmove_of_not_mem (h : x < d ∨ d + n ≤ x) :
    memmove m d s n x = m x := by
  unfold memmove
  split_ifs
  · rfl
  · exact copyFwd_of_not_mem (by omega)
  · exact copyBwd_of_not_mem h

end Tachyon
