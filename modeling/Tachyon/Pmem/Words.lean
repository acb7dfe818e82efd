import Tachyon.Pmem.Bitmap

/-!
# Bitmaps in memory

The storage of a bitmap is an array of 64-bit words.  `bmap_set` builds the mask of a bit by
`1 << off`, a shift of a 32-bit `int`: the count is taken modulo 32, and the result is extended with
its sign before it meets the word.

* `Words`: the storage, read and written as `bmap_get` and `bmap_set` do;
* `hits`: the bits of a word that the mask for one bit covers, `readBit_writeBit_words`;
* `GetSet`: the bit that was set reads back, the other bits keep their values;
* `getSet_iff`, `get_set_law`: for one bitmap, and for all bitmaps of a size.
-/

namespace Tachyon.Pmem

variable {i k : ℕ}

/-- The storage of a bitmap. -/
structure Words where
  word : ℕ → BitVec 64

/-- `1 << off` as an `int`; the processor takes the count modulo 32. -/
def intShift (off : ℕ) : BitVec 32 := 1#32 <<< (off % 32)

/-- One word of the storage after `|= (1 << off)` or `&= ~(1 << off)`. -/
def Words.update (w : Words) (idx off : ℕ) (value : Bool) : BitVec 64 :=
  if value then w.word idx ||| (intShift off).signExtend 64
  else w.word idx &&& (~~~ intShift off).signExtend 64

instance : BitStore Words where
  readBit w i := (w.word (i / 64) >>> (i % 64)) &&& 1#64 == 1#64
  writeBit w i v :=
    ⟨fun idx => if idx = i / 64 then w.update idx (i % 64) v else w.word idx⟩

/-! ### The mask -/

/-- The mask for the bit `off` of a word covers the bit `k`. -/
def hits (off k : ℕ) : Bool :=
  if off % 32 = 31 then decide (31 ≤ k) else decide (k = off % 32)

theorem getLsbD_intShift (off k : ℕ) :
    (intShift off).getLsbD k = decide (k = off % 32) := by
  have hoff : off % 32 < 32 := Nat.mod_lt _ (by norm_num)
  rw [intShift, BitVec.getLsbD_shiftLeft, BitVec.getLsbD_one]
  by_cases hk : k = off % 32
  · simp [hk, hoff]
  · have hone : k < off % 32 ∨ k - off % 32 ≠ 0 := by omega
    rcases hone with h | h <;> simp [hk, h]

theorem msb_intShift (off : ℕ) : (intShift off).msb = decide (off % 32 = 31) := by
  rw [BitVec.msb_eq_getLsbD_last, getLsbD_intShift]
  exact decide_eq_decide.2 eq_comm

theorem getLsbD_mask (off : ℕ) (hk : k < 64) :
    ((intShift off).signExtend 64).getLsbD k = hits off k := by
  rw [BitVec.getLsbD_signExtend, getLsbD_intShift, msb_intShift, hits]
  by_cases hlast : off % 32 = 31
  · rcases Nat.lt_or_ge k 32 with hlt | hge
    · have hiff : k = 31 ↔ 31 ≤ k := by omega
      simp [hlast, hlt, hk, hiff]
    · simp [hlast, hk, hge, show 31 ≤ k by omega]
  · rcases Nat.lt_or_ge k 32 with hlt | hge
    · simp [hlast, hlt, hk]
    · simp [hlast, hk, Nat.not_lt.2 hge, show k ≠ off % 32 by omega]

theorem getLsbD_mask_not (off : ℕ) (hk : k < 64) :
    ((~~~ intShift off).signExtend 64).getLsbD k = !hits off k := by
  rw [BitVec.signExtend_not (by norm_num), BitVec.getLsbD_not, getLsbD_mask off hk]
  simp [hk]

/-! ### Bits read and written -/

theorem readBit_words (w : Words) (i : ℕ) :
    readBit w i = (w.word (i / 64)).getLsbD (i % 64) := by
  show ((w.word (i / 64) >>> (i % 64)) &&& 1#64 == 1#64) = _
  rw [BitVec.and_one_eq_setWidth_ofBool_getLsbD, BitVec.getLsbD_ushiftRight, Nat.add_zero]
  cases (w.word (i / 64)).getLsbD (i % 64) <;> rfl

/-- Setting one bit gives the value to every bit of its word that the mask covers. -/
theorem readBit_writeBit_words (w : Words) (i : ℕ) (v : Bool) (j : ℕ) :
    readBit (writeBit w i v) j =
      if j / 64 = i / 64 ∧ hits (i % 64) (j % 64) then v else readBit w j := by
  have hj : j % 64 < 64 := Nat.mod_lt _ (by norm_num)
  rw [readBit_words, readBit_words]
  show (if j / 64 = i / 64 then w.update (j / 64) (i % 64) v else w.word (j / 64)).getLsbD (j % 64)
    = _
  by_cases hidx : j / 64 = i / 64
  · rw [if_pos hidx, Words.update]
    cases v
    · rw [if_neg (by decide), BitVec.getLsbD_and, getLsbD_mask_not _ hj]
      cases hits (i % 64) (j % 64) <;> simp [hidx]
    · rw [if_pos rfl, BitVec.getLsbD_or, getLsbD_mask _ hj]
      cases hits (i % 64) (j % 64) <;> simp [hidx]
  · rw [if_neg hidx, if_neg fun h => hidx h.1]

/-! ### The law of get and set -/

/-- After `bmap_set` the bit has the value, and every other bit of the bitmap is as before. -/
def GetSet (b : Bitmap Words) (i : ℕ) (v : UInt8) : Prop :=
  bmapGet (bmapSet b i (v != 0)) i = (v != 0) ∧
    ∀ j < b.bits, j ≠ i → bmapGet (bmapSet b i (v != 0)) j = bmapGet b j

theorem bmapGet_bmapSet_words (b : Bitmap Words) {j : ℕ} (hi : i < b.bits) (hj : j < b.bits)
    (v : Bool) :
    bmapGet (bmapSet b i v) j =
      if j / 64 = i / 64 ∧ hits (i % 64) (j % 64) then v else bmapGet b j := by
  have hset : (bmapSet b i v).bits = b.bits ∧ (bmapSet b i v).storage = writeBit b.storage i v := by
    rw [bmapSet, if_neg (by omega)]
    exact ⟨rfl, rfl⟩
  have hget : bmapGet b j = readBit b.storage j := if_neg (by omega)
  rw [hget, bmapGet, hset.1, hset.2, if_neg (by omega), readBit_writeBit_words]

/-- For one bitmap: the mask covers the bit, or the bit has the value already, and every other bit
that the mask covers has the value already. -/
theorem getSet_iff (b : Bitmap Words) (hi : i < b.bits) (v : UInt8) :
    GetSet b i v ↔
      (hits (i % 64) (i % 64) ∨ bmapGet b i = (v != 0)) ∧
        ∀ j < b.bits, j ≠ i → j / 64 = i / 64 → hits (i % 64) (j % 64) →
          bmapGet b j = (v != 0) := by
  refine and_congr ?_ (forall_congr' fun j => forall_congr' fun hj => forall_congr' fun _ => ?_)
  · rw [bmapGet_bmapSet_words b hi hi]
    by_cases hhit : hits (i % 64) (i % 64) = true <;> simp [hhit]
  rw [bmapGet_bmapSet_words b hi hj]
  by_cases hhit : j / 64 = i / 64 ∧ hits (i % 64) (j % 64) = true
  · rw [if_pos hhit]
    exact ⟨fun h _ _ => h.symm, fun h => (h hhit.1 hhit.2).symm⟩
  · rw [if_neg hhit]
    exact ⟨fun _ h1 h2 => absurd ⟨h1, h2⟩ hhit, fun _ => rfl⟩

/-- A bitmap of `bits` bits with all bits clear. -/
def zeroBitmap (bits : ℕ) : Bitmap Words := ⟨⟨fun _ => 0⟩, bits, 0, 0⟩

theorem bmapGet_zeroBitmap (bits i : ℕ) : bmapGet (zeroBitmap bits) i = false := by
  rw [bmapGet, readBit_words]
  simp [zeroBitmap]

/-- **The law of get and set.**  A bit index obeys the law in all bitmaps of a size exactly if it is
below 31 in its word, or is the bit 31 of the last word with no further bit behind it. -/
theorem get_set_law {bits i : ℕ} (hi : i < bits) :
    (∀ (b : Bitmap Words) (v : UInt8), b.bits = bits → GetSet b i v) ↔
      i % 64 < 31 ∨ (i % 64 = 31 ∧ i + 1 = bits) := by
  constructor
  · intro h
    have hzero := (getSet_iff (zeroBitmap bits) hi 1).1 (h _ 1 rfl)
    simp only [bmapGet_zeroBitmap] at hzero
    obtain ⟨hself, hother⟩ := hzero
    have hhit : hits (i % 64) (i % 64) = true := by
      rcases hself with h | h
      · exact h
      · exact absurd h (by decide)
    by_contra hcon
    -- the bit behind an index that is 31 modulo 32, or the bit 31 of the word
    have hoff : i % 64 = 31 ∨ i % 64 = 63 := by
      unfold hits at hhit
      split_ifs at hhit with hlast <;> simp at hhit <;> omega
    rcases hoff with hoff | hoff
    · refine absurd (hother (i + 1) (by show i + 1 < bits; omega) (by omega) (by omega) ?_)
        (by decide)
      rw [hoff, show (i + 1) % 64 = 32 by omega]
      decide
    · refine absurd (hother (i - 1) (by show i - 1 < bits; omega) (by omega) (by omega) ?_)
        (by decide)
      rw [hoff, show (i - 1) % 64 = 62 by omega]
      decide
  · rintro hcond b v rfl
    rw [getSet_iff b hi]
    refine ⟨Or.inl ?_, fun j hj hne hidx hhit => absurd hhit ?_⟩
    · rcases hcond with h | ⟨h, -⟩
      · simp [hits, Nat.mod_eq_of_lt (show i % 64 < 32 by omega), show i % 64 ≠ 31 by omega]
      · rw [h]
        decide
    · unfold hits
      rcases hcond with h | ⟨h, hlast⟩
      · rw [if_neg (by omega), decide_eq_true_eq]
        omega
      · rw [if_pos (by omega), decide_eq_true_eq]
        omega

/-- Both directions at index 3 of a bitmap with 64 bits. -/
theorem get_set_law_three :
    3 < 64 ∧ ((∀ (b : Bitmap Words) (v : UInt8), b.bits = 64 → GetSet b 3 v) ↔
      3 % 64 < 31 ∨ (3 % 64 = 31 ∧ 3 + 1 = 64)) :=
  ⟨by norm_num, get_set_law (by norm_num)⟩

/-- Setting bit 31 sets the bits behind it, and bit 40 does not take the value. -/
theorem get_set_law_fails :
    bmapGet (bmapSet (zeroBitmap 64) 31 true) 32 = true ∧
      bmapGet (zeroBitmap 64) 32 = false ∧
      bmapGet (bmapSet (zeroBitmap 64) 40 true) 40 = false := by
  decide +kernel

end Tachyon.Pmem
