import Tachyon.Pmem.Words

/-!
# The counter of a bitmap, and clearing it

`bmap_set` counts up or down without looking at the old value of the bit, `bmap_clear` sets the
counter to 0 for both values, and `bmap_fill` leaves out the last bit of its range.

* `BitOp`, `BitOp.Exact`: calls, and when the counter stays right over one;
* `set_cnt_iff`: the counter is right along a run exactly if all its calls are exact;
* `clear_reaches_iff`: `bmap_clear` and `bmap_init` reach all bits but the last one.
-/

namespace Tachyon.Pmem

open List

variable {σ : Type} [BitStore σ] {b : Bitmap σ} {v : Bool} {start stop i j n bitcnt : ℕ}

/-! ### Clearing -/

section Exact

variable [ExactBits σ]

/-- `bmap_clear` writes all bits but the last one. -/
theorem readBit_bmapClear (hpos : 0 < b.bits) (hb : b.bits < 2 ^ 64) (j : ℕ) :
    readBit (bmapClear b v).storage j = if j + 1 < b.bits then v else readBit b.storage j := by
  rw [bmapClear, sub64_of_le hpos hb, bmapFill, if_neg (by omega)]
  rw [readBit_fillLoop (by omega)]
  split_ifs <;> first | rfl | omega

/-- All bits of a cleared bitmap have the value exactly if the last one had it before. -/
theorem bmapClear_all_iff (hpos : 0 < b.bits) (hb : b.bits < 2 ^ 64) :
    (∀ i < b.bits, bmapGet (bmapClear b v) i = v) ↔ bmapGet b (b.bits - 1) = v := by
  have hget : ∀ {i}, i < b.bits → bmapGet (bmapClear b v) i =
      if i + 1 < b.bits then v else bmapGet b i := fun {i} hi => by
    rw [bmapGet_of_lt (by rwa [bmapClear_bits]), readBit_bmapClear hpos hb, bmapGet_of_lt hi]
  constructor
  · intro h
    have hlast := h (b.bits - 1) (by omega)
    rwa [hget (by omega), if_neg (by omega)] at hlast
  intro h i hi
  rw [hget hi]
  split_ifs with hlt
  · rfl
  · rw [show i = b.bits - 1 by omega]
    exact h

/-- **Clearing reaches every bit** exactly if the last one has the value already. -/
theorem clear_reaches_iff (b : Bitmap σ) (storage : σ) (v : Bool) (bitcnt : ℕ) (hpos : 1 ≤ bitcnt)
    (hlt : bitcnt < 2 ^ 64) :
    ((∀ i < bitcnt, bmapGet (bmapInit b storage bitcnt) i = false) ↔
      readBit storage (bitcnt - 1) = false) ∧
    (b.bits = bitcnt → ((∀ i < bitcnt, bmapGet (bmapClear b v) i = v) ↔
      bmapGet b (bitcnt - 1) = v)) := by
  refine ⟨?_, ?_⟩
  · have h := bmapClear_all_iff (v := false)
      (b := { b with storage := storage, hint := 0, bits := bitcnt }) hpos hlt
    rwa [bmapGet_of_lt (show bitcnt - 1 < bitcnt by omega)] at h
  · rintro rfl
    exact bmapClear_all_iff hpos hlt

/-- Storage whose last bit is clear. -/
theorem clear_reaches_iff_dirty :
    (∀ i < 8, bmapGet (bmapInit ⟨fun _ => true, 0, 0, 0⟩ (fun i : ℕ => decide (i < 7)) 8) i =
      false) ∧
    ∀ i < 8, bmapGet (bmapClear ⟨fun i : ℕ => decide (i < 7), 8, 0, 7⟩ false) i = false := by
  have hinit := clear_reaches_iff ⟨fun _ => true, 0, 0, 0⟩ (fun i : ℕ => decide (i < 7)) false 8
    (by norm_num) (by norm_num)
  have hclear := clear_reaches_iff ⟨fun i : ℕ => decide (i < 7), 8, 0, 7⟩ (fun _ => true) false 8
    (by norm_num) (by norm_num)
  exact ⟨hinit.1.2 (by decide), (hclear.2 rfl).2 (by decide)⟩

end Exact

/-- `bmap_init` on storage with all bits set leaves the last bit set, and so does `bmap_clear`. -/
theorem clear_misses_last :
    bmapGet (bmapInit ⟨fun _ => true, 0, 0, 0⟩ (fun _ : ℕ => true) 8) 7 = true ∧
      bmapGet (bmapClear ⟨fun _ : ℕ => true, 8, 0, 8⟩ false) 7 = true := by
  decide

/-! ### Runs -/

/-- A call that changes bits. -/
inductive BitOp
  | set (bit : ℕ) (value : Bool)
  | fill (value : Bool) (start stop : ℕ)
  | clear (value : Bool)
  deriving DecidableEq, Repr

def BitOp.run : BitOp → Bitmap σ → Bitmap σ
  | .set bit value, b => bmapSet b bit value
  | .fill value start stop, b => (bmapFill b value start stop).2
  | .clear value, b => bmapClear b value

/-- Every bit that the call writes is a bit of the bitmap and gets another value; `bmap_clear`
leaves no bit set. -/
def BitOp.Exact : BitOp → Bitmap σ → Prop
  | .set bit value, b => b.bits < bit ∨ bit < b.bits ∧ readBit b.storage bit = !value
  | .fill value start stop, b =>
    start < b.bits → stop < b.bits → ∀ i, start ≤ i → i < stop → readBit b.storage i = !value
  | .clear value, b =>
    b.bits = 0 ∨ readBit b.storage (b.bits - 1) = false ∧ (value = true → b.bits = 1)

def runOps (ops : List BitOp) (b : Bitmap σ) : Bitmap σ := ops.foldl (fun b op => op.run b) b

/-- All calls of the run are exact. -/
def ExactRun : List BitOp → Bitmap σ → Prop
  | [], _ => True
  | op :: ops, b => op.Exact b ∧ ExactRun ops (op.run b)

theorem BitOp.run_bits (op : BitOp) (b : Bitmap σ) : (op.run b).bits = b.bits := by
  cases op with
  | set bit value => exact bmapSet_bits
  | fill value start stop => exact bmapFill_bits
  | clear value => exact bmapClear_bits

theorem runOps_bits (ops : List BitOp) (b : Bitmap σ) : (runOps ops b).bits = b.bits := by
  induction ops generalizing b with
  | nil => rfl
  | cons op ops ih => exact (ih (op.run b)).trans (op.run_bits b)

/-- The product may wrap around, but only downwards. -/
theorem Counted.fdeg_le (h : Counted b) (hpos : 0 < b.bits) :
    ∃ d, bmapFdeg b = .ok d ∧ d ≤ 100 := by
  refine ⟨_, if_neg hpos.ne', Nat.div_le_of_le_mul ?_⟩
  have hcard : b.setCnt ≤ b.bits := by
    rw [show b.setCnt = (setBits b).card from h]
    exact card_setBits_le
  calc mul64 b.setCnt 100 ≤ b.setCnt * 100 := Nat.mod_le _ _
    _ ≤ b.bits * 100 := Nat.mul_le_mul_right 100 hcard

section Exact

variable [ExactBits σ]

/-- `bmap_set` lets the first bit behind the bitmap through, and counts it. -/
theorem Counted.set_iff (h : Counted b) (hb : b.bits < 2 ^ 64) :
    Counted (Pmem.bmapSet b i v) ↔ b.bits < i ∨ i < b.bits ∧ readBit b.storage i = !v := by
  rcases Nat.lt_trichotomy i b.bits with hlt | rfl | hgt
  · have hloop := h.fillLoop_iff (v := v) hb (show i + 1 ≤ b.bits by omega)
    rw [show Pmem.bmapSet b i v = fillLoop v 1 i b from rfl, hloop]
    constructor
    · exact fun hall => .inr ⟨hlt, hall i le_rfl (by omega)⟩
    · rintro (hgt | ⟨-, hi⟩) j hj hj'
      · omega
      · rwa [show j = i by omega]
  · have hsame : setBits (Pmem.bmapSet b b.bits v) = setBits b := by
      ext j
      rw [mem_setBits, mem_setBits, bmapSet_bits, Pmem.bmapSet, if_neg (lt_irrefl _),
        readBit_writeBit]
      refine and_congr_right fun hj => ?_
      rw [if_neg (by omega)]
    have hset : (Pmem.bmapSet b b.bits v).setCnt ≠ b.setCnt := by
      rw [Pmem.bmapSet, if_neg (lt_irrefl _)]
      unfold add64 sub64
      cases v <;> simp only [if_true, if_false, Bool.false_eq_true] <;> omega
    refine ⟨fun hc => absurd ?_ hset, fun hc => by omega⟩
    rw [show (Pmem.bmapSet b b.bits v).setCnt = _ from hc, hsame]
    exact h.symm
  · have hsame : Pmem.bmapSet b i v = b := if_pos hgt
    rw [hsame]
    exact ⟨fun _ => .inl hgt, fun _ => h⟩

theorem counted_clear_iff (hb : b.bits < 2 ^ 64) : Counted (bmapClear b v) ↔
    b.bits = 0 ∨ readBit b.storage (b.bits - 1) = false ∧ (v = true → b.bits = 1) := by
  have hcount : Counted (bmapClear b v) ↔
      ∀ i < b.bits, readBit (bmapClear b v).storage i = false := by
    unfold Counted
    rw [show (bmapClear b v).setCnt = 0 from rfl, eq_comm, Finset.card_eq_zero,
      Finset.eq_empty_iff_forall_notMem]
    simp [mem_setBits, bmapClear_bits]
  rw [hcount]
  rcases Nat.eq_zero_or_pos b.bits with h0 | hpos
  · simp [h0]
  simp only [readBit_bmapClear hpos hb, hpos.ne', false_or]
  constructor
  · intro hall
    have hlast := hall (b.bits - 1) (by omega)
    rw [if_neg (by omega)] at hlast
    refine ⟨hlast, fun hv => ?_⟩
    by_contra hne
    have hfirst := hall 0 hpos
    rw [if_pos (by omega), hv] at hfirst
    cases hfirst
  · rintro ⟨hlast, hone⟩ i hi
    split_ifs with hlt
    · cases v
      · rfl
      · have := hone rfl
        omega
    · rwa [show i = b.bits - 1 by omega]

/-- The counter stays right over a call exactly if the call is exact. -/
theorem Counted.run_iff (h : Counted b) (hb : b.bits < 2 ^ 64) (op : BitOp) :
    Counted (op.run b) ↔ op.Exact b := by
  cases op with
  | set bit value => exact h.set_iff hb
  | fill value start stop =>
    by_cases hin : start < b.bits ∧ stop < b.bits
    · have hfill : (BitOp.fill value start stop).run b =
          fillLoop value (stop - start) start b := by
        rw [BitOp.run, bmapFill, if_neg (by omega)]
      rw [hfill, h.fillLoop_iff hb (by omega)]
      refine ⟨fun hall _ _ i hi hi' => hall i hi (by omega), fun hex i hi hi' => ?_⟩
      exact hex hin.1 hin.2 i hi (by omega)
    · have hsame : (BitOp.fill value start stop).run b = b := by
        rw [BitOp.run, bmapFill, if_pos (by omega)]
      rw [hsame]
      exact ⟨fun _ h1 h2 => absurd ⟨h1, h2⟩ hin, fun _ => h⟩
  | clear value => exact counted_clear_iff hb

/-- Along a run from a right counter. -/
theorem Counted.runOps_iff (h : Counted b) (hb : b.bits < 2 ^ 64) (ops : List BitOp) :
    (∀ pre, pre <+: ops → Counted (runOps pre b)) ↔ ExactRun ops b := by
  induction ops generalizing b with
  | nil =>
    refine ⟨fun _ => trivial, fun _ pre hpre => ?_⟩
    rw [prefix_nil.1 hpre]
    exact h
  | cons op ops ih =>
    have hb' : (op.run b).bits < 2 ^ 64 := by rwa [op.run_bits]
    rw [ExactRun, ← h.run_iff hb]
    constructor
    · intro hall
      have hop : Counted (op.run b) := hall [op] (prefix_append [op] ops)
      refine ⟨hop, (ih hop hb').1 fun pre hpre => ?_⟩
      exact hall (op :: pre) (cons_prefix_cons.2 ⟨rfl, hpre⟩)
    · rintro ⟨hop, hrest⟩ pre hpre
      cases pre with
      | nil => exact h
      | cons op' pre =>
        obtain ⟨rfl, hpre'⟩ := cons_prefix_cons.1 hpre
        exact (ih hop hb').2 hrest pre hpre'

/-- On zeroed storage `bmap_init` leaves no bit set. -/
theorem counted_bmapInit {storage : σ} (hlt : bitcnt < 2 ^ 64)
    (hzero : ∀ i < bitcnt, readBit storage i = false) : Counted (bmapInit b storage bitcnt) := by
  refine (counted_clear_iff hlt).2 ?_
  rcases Nat.eq_zero_or_pos bitcnt with h0 | hpos
  · exact .inl h0
  · exact .inr ⟨hzero (bitcnt - 1) (by omega), fun h => absurd h Bool.false_ne_true⟩

/-- **`set_cnt` is the number of set bits** along a run exactly if every call in it is exact. -/
theorem set_cnt_iff (b₀ : Bitmap σ) (storage : σ) (bitcnt : ℕ) (ops : List BitOp)
    (hlt : bitcnt < 2 ^ 64) (hzero : ∀ i < bitcnt, readBit storage i = false) :
    let b := bmapInit b₀ storage bitcnt
    ((∀ pre, pre <+: ops → Counted (runOps pre b)) ↔ ExactRun ops b) ∧
      (ExactRun ops b → 0 < bitcnt → ∃ d, bmapFdeg (runOps ops b) = .ok d ∧ d ≤ 100) := by
  intro b
  have hb : b.bits = bitcnt := bmapClear_bits
  have hiff := (counted_bmapInit hlt hzero).runOps_iff (hb.trans_lt hlt) ops
  refine ⟨hiff, fun hex hpos => Counted.fdeg_le (hiff.2 hex ops List.prefix_rfl) ?_⟩
  rwa [runOps_bits, hb]

/-- Eight bits of which one is set and cleared, and four are filled. -/
theorem set_cnt_iff_eight :
    let b := bmapInit ⟨fun _ : ℕ => true, 0, 0, 5⟩ (fun _ => false) 8
    let ops := [BitOp.set 2 true, .fill true 3 7, .set 2 false]
    (∀ pre, pre <+: ops → Counted (runOps pre b)) ∧
      ∃ d, bmapFdeg (runOps ops b) = .ok d ∧ d ≤ 100 := by
  intro b ops
  have h := set_cnt_iff ⟨fun _ : ℕ => true, 0, 0, 5⟩ (fun _ => false) 8 ops (by norm_num)
    (fun _ _ => rfl)
  have hex : ExactRun ops b := by
    refine ⟨.inr (by decide), fun _ _ i hi hi' => ?_, .inr (by decide), trivial⟩
    interval_cases i <;> decide
  exact ⟨h.1.2 hex, h.2 hex (by norm_num)⟩

end Exact

/-- Setting the only bit of a bitmap twice: `set_cnt` is 2 and the fill degree 200. -/
theorem set_cnt_drifts :
    let b := bmapInit ⟨fun _ : ℕ => false, 0, 0, 0⟩ (fun _ => false) 1
    let b' := runOps [BitOp.set 0 true, .set 0 true] b
    b'.setCnt = 2 ∧ (setBits b').card = 1 ∧ bmapFdeg b' = .ok 200 := by
  decide +kernel

end Tachyon.Pmem
