import Tachyon.Lib.Prog
import Tachyon.Lib.Word

/-!
# Bitmaps

`bmap.c`: a bitmap with a search hint and a counter of its set bits.  The words of the storage are
reached only through `BitStore`, one bit at a time; `ExactBits` says that a bit written is the bit
read back and that no other bit changes.

* `bmapGet`, `bmapSet`, `bmapFill`, `bmapClear`, `bmapInit`, `bmapSearch`, `bmapFdeg`: the source;
* `setBits`, `Counted`: the set bits, and `set_cnt` as their number;
* `readBit_fillLoop`, `setCnt_fillLoop`: what filling does to the bits and to the counter;
* `Counted.fillLoop_iff`: the counter stays right exactly if every bit changes;
* `bmapFill_spec`: filling a range of bits that all have the other value;
* `bmapSearch_spec`: what a forward search reports is a run of `cnt` bits with the wanted value, or
  an index so close to the end that `bmap_fill` refuses the range.
-/

namespace Tachyon.Pmem

open Prog Finset

/-- Single bits in the storage of a bitmap. -/
class BitStore (σ : Type) where
  readBit : σ → ℕ → Bool
  writeBit : σ → ℕ → Bool → σ

export BitStore (readBit writeBit)

/-- Bits are written exactly. -/
class ExactBits (σ : Type) [BitStore σ] : Prop where
  readBit_writeBit (w : σ) (i : ℕ) (v : Bool) (j : ℕ) :
    readBit (writeBit w i v) j = if j = i then v else readBit w j

export ExactBits (readBit_writeBit)

/-- Bits kept in a function. -/
instance : BitStore (ℕ → Bool) := ⟨fun w i => w i, fun w i v j => if j = i then v else w j⟩

instance : ExactBits (ℕ → Bool) := ⟨fun _ _ _ _ => rfl⟩

/-- `bitmap_t`. -/
structure Bitmap (σ : Type) where
  storage : σ
  bits : ℕ
  hint : ℕ
  setCnt : ℕ

def bmapSrchBackward : ℕ := 1
def bmapSrchHinted : ℕ := 2

variable {σ : Type} [BitStore σ] {b b' : Bitmap σ} {v : Bool} {con flags fuel mul x : ℕ}
  {found : Option ℕ}

def bmapGet (b : Bitmap σ) (bit : ℕ) : Bool :=
  -- the bound lets the first bit behind the bitmap through
  if b.bits < bit then false else readBit b.storage bit

def bmapSet (b : Bitmap σ) (bit : ℕ) (value : Bool) : Bitmap σ :=
  if b.bits < bit then b
  else
    { b with
      storage := writeBit b.storage bit value
      setCnt := if value then add64 b.setCnt 1 else sub64 b.setCnt 1 }

/-- The loop of `bmap_fill`, with `n` bits to go. -/
def fillLoop (value : Bool) : ℕ → ℕ → Bitmap σ → Bitmap σ
  | 0, _, b => b
  | n + 1, start, b => fillLoop value n (start + 1) (bmapSet b start value)

/-- `bmap_fill`: the bits from `start` up to but not including `stop`. -/
def bmapFill (b : Bitmap σ) (value : Bool) (start stop : ℕ) : Bool × Bitmap σ :=
  if b.bits ≤ start ∨ b.bits ≤ stop then (false, b)
  else (true, fillLoop value (stop - start) start b)

def bmapClear (b : Bitmap σ) (value : Bool) : Bitmap σ :=
  { (bmapFill b value 0 (sub64 b.bits 1)).2 with setCnt := 0 }

/-- `bmap_init`; the counter holds what was in memory until `bmap_clear` resets it. -/
def bmapInit (b : Bitmap σ) (storage : σ) (bitcnt : ℕ) : Bitmap σ :=
  bmapClear { b with storage := storage, hint := 0, bits := bitcnt } false

def bmapNextMul (x m : ℕ) : ℕ := mul64 (add64 x (sub64 m 1) / m) m

def bmapPrevMul (x m : ℕ) : ℕ := sub64 (bmapNextMul x m) m

/-- The forward loop of `bmap_search`: the final `start` and `con`. -/
def searchUp (b : Bitmap σ) (value : Bool) (cnt mul : ℕ) : ℕ → ℕ → ℕ → Except Halt (ℕ × ℕ)
  | 0, _, _ => .error .fuel
  | fuel + 1, start, con =>
    if start < b.bits ∧ con < cnt then
      if bmapGet b start = value then
        if con + 1 = cnt then .ok (start, con + 1)
        else searchUp b value cnt mul fuel (add64 start 1) (con + 1)
      else searchUp b value cnt mul fuel (bmapNextMul (add64 start 1) mul) 0
    else .ok (start, con)

/-- The backward loop of `bmap_search`: the final `start`. -/
def searchDown (b : Bitmap σ) (value : Bool) (cnt mul : ℕ) : ℕ → ℕ → ℕ → Except Halt ℕ
  | 0, _, _ => .error .fuel
  | fuel + 1, start, con =>
    if start ≤ b.bits then
      if bmapGet b start = value then
        if con + 1 = cnt then .ok start
        else searchDown b value cnt mul fuel (sub64 start 1) (con + 1)
      else
        searchDown b value cnt mul fuel
          (add64 (bmapPrevMul (sub64 (sub64 start 1) cnt) mul) cnt) 0
    else .ok start

/-- Where one search ends: from the hint, or else from the end of the bitmap it starts at. -/
def searchEnd (fuel : ℕ) (b : Bitmap σ) (value : Bool) (cnt mul flags : ℕ) : Except Halt ℕ :=
  if flags &&& bmapSrchBackward ≠ 0 then
    searchDown b value cnt mul fuel
      (add64 (bmapPrevMul (sub64
        (if flags &&& bmapSrchHinted ≠ 0 then b.hint else sub64 b.bits 1) cnt) mul) cnt) 0
  else
    searchUp b value cnt mul fuel
      (bmapNextMul (if flags &&& bmapSrchHinted ≠ 0 then b.hint else 0) mul) 0 >>=
    -- back from the last bit of the run to its first one
    fun r => .ok (sub64 r.1 (sub64 r.2 1))

/-- One search, up to the bounds check. -/
def searchOnce (fuel : ℕ) (b : Bitmap σ) (value : Bool) (cnt mul flags : ℕ) :
    Except Halt (Option ℕ) :=
  searchEnd fuel b value cnt mul flags >>= fun start =>
    if start % mul ≠ 0 then .error (.fatal "internal implementation error!\n")
    else if b.bits ≤ start then .ok none
    else .ok (some start)

/-- `bmap_search`: a hinted search that finds nothing is repeated without the hint. -/
def bmapSearch (fuel : ℕ) (value : Bool) (cnt mul flags : ℕ) : Prog (Bitmap σ) (Option ℕ) :=
  fun b =>
    if cnt = 0 then .ok (none, b)
    else
      let mul := if mul = 0 then 1 else mul
      searchOnce fuel b value cnt mul flags >>= fun first =>
      (if first = none ∧ flags &&& bmapSrchHinted ≠ 0 then
        searchOnce fuel b value cnt mul (andNot flags bmapSrchHinted)
      else .ok first) >>= fun found =>
      match found with
      | none => .ok (none, b)
      | some index => .ok (some index, { b with hint := add64 index cnt })

def bmapFdeg (b : Bitmap σ) : Except Halt ℕ :=
  if b.bits = 0 then .error .divideError else .ok (mul64 b.setCnt 100 / b.bits)

/-! ### Set bits -/

/-- The set bits. -/
def setBits (b : Bitmap σ) : Finset ℕ := (Finset.range b.bits).filter fun i => readBit b.storage i

/-- `set_cnt` is the number of set bits. -/
def Counted (b : Bitmap σ) : Prop := b.setCnt = (setBits b).card

variable {i cnt : ℕ}

theorem mem_setBits : i ∈ setBits b ↔ i < b.bits ∧ readBit b.storage i = true := by
  simp [setBits]

theorem card_setBits_le : (setBits b).card ≤ b.bits := by
  calc (setBits b).card ≤ (range b.bits).card := card_filter_le _ _
    _ = b.bits := card_range _

theorem bmapGet_of_lt (h : i < b.bits) : bmapGet b i = readBit b.storage i :=
  if_neg (by omega)

@[simp] theorem bmapSet_bits : (bmapSet b i v).bits = b.bits := by
  unfold bmapSet
  split_ifs <;> rfl

@[simp] theorem bmapSet_hint : (bmapSet b i v).hint = b.hint := by
  unfold bmapSet
  split_ifs <;> rfl

/-! ### Filling -/

variable {start stop n : ℕ}

/-- `bmap_fill` refuses a range that is not inside the bitmap. -/
theorem bmapFill_lt (h : bmapFill b v start stop = (true, b')) :
    start < b.bits ∧ stop < b.bits := by
  unfold bmapFill at h
  split_ifs at h with hout
  · cases h
  · omega

theorem bmapFill_of_lt (hstart : start < b.bits) (hstop : stop < b.bits) :
    (bmapFill b v start stop).1 = true := by
  rw [bmapFill, if_neg (by omega)]

theorem bmapFill_of_le (h : b.bits ≤ stop) : bmapFill b v start stop = (false, b) := by
  rw [bmapFill, if_pos (.inr h)]

theorem bmapFill_false (h : bmapFill b v start stop = (false, b')) : b' = b := by
  unfold bmapFill at h
  split_ifs at h
  · cases h
    rfl
  · cases h

theorem fillLoop_bits (v : Bool) (n start : ℕ) (b : Bitmap σ) :
    (fillLoop v n start b).bits = b.bits := by
  induction n generalizing start b with
  | zero => rfl
  | succ n ih => rw [fillLoop, ih, bmapSet_bits]

theorem fillLoop_hint (v : Bool) (n start : ℕ) (b : Bitmap σ) :
    (fillLoop v n start b).hint = b.hint := by
  induction n generalizing start b with
  | zero => rfl
  | succ n ih => rw [fillLoop, ih, bmapSet_hint]

/-- The counter does not depend on the bits. -/
theorem setCnt_fillLoop (hn : start + n ≤ b.bits) (hcnt : b.setCnt < 2 ^ 64) :
    (fillLoop v n start b).setCnt = if v then add64 b.setCnt n else sub64 b.setCnt n := by
  induction n generalizing start b with
  | zero =>
    show b.setCnt = _
    unfold add64 sub64
    split_ifs <;> omega
  | succ n ih =>
    have hset : (bmapSet b start v).setCnt =
        if v then add64 b.setCnt 1 else sub64 b.setCnt 1 := by
      rw [bmapSet, if_neg (by omega)]
    have hlt : (bmapSet b start v).setCnt < 2 ^ 64 := by
      rw [hset]
      unfold add64 sub64
      split_ifs <;> omega
    rw [fillLoop, ih (by rw [bmapSet_bits]; omega) hlt, hset]
    unfold add64 sub64
    split_ifs <;> omega

theorem Counted.setCnt_lt (h : Counted b) (hb : b.bits < 2 ^ 64) : b.setCnt < 2 ^ 64 := by
  have hcard : (setBits b).card ≤ b.bits := card_setBits_le
  rw [show b.setCnt = (setBits b).card from h]
  omega

theorem bmapFill_bits : (bmapFill b v start stop).2.bits = b.bits := by
  unfold bmapFill
  split_ifs
  · rfl
  · exact fillLoop_bits _ _ _ _

theorem bmapClear_bits : (bmapClear b v).bits = b.bits := bmapFill_bits

theorem bmapInit_bits (b : Bitmap σ) (w : σ) (n : ℕ) : (bmapInit b w n).bits = n := bmapClear_bits

section Exact

variable [ExactBits σ]

theorem readBit_bmapSet (hi : i < b.bits) (j : ℕ) :
    readBit (bmapSet b i v).storage j = if j = i then v else readBit b.storage j := by
  rw [bmapSet, if_neg (by omega), readBit_writeBit]

/-- The loop of `bmap_fill`, on bits with any values. -/
theorem readBit_fillLoop (hn : start + n ≤ b.bits) (j : ℕ) :
    readBit (fillLoop v n start b).storage j =
      if start ≤ j ∧ j < start + n then v else readBit b.storage j := by
  induction n generalizing start b with
  | zero =>
    rw [if_neg (by omega)]
    rfl
  | succ n ih =>
    rw [fillLoop, ih (by rw [bmapSet_bits]; omega), readBit_bmapSet (by omega)]
    split_ifs <;> first | rfl | omega

theorem setBits_fillLoop (hn : start + n ≤ b.bits) :
    setBits (fillLoop v n start b) =
      if v then setBits b ∪ Finset.Ico start (start + n)
      else setBits b \ Finset.Ico start (start + n) := by
  ext j
  rw [mem_setBits, fillLoop_bits, readBit_fillLoop hn]
  cases v
  · rw [if_neg Bool.false_ne_true, mem_sdiff, mem_setBits, mem_Ico]
    split_ifs with hj <;> simp [hj]
  · rw [if_pos rfl, mem_union, mem_setBits, mem_Ico]
    split_ifs with hj
    · simp only [hj, and_true, or_true, iff_true]
      omega
    · simp [hj]

/-- The number of set bits changes by the number of bits that change. -/
theorem card_setBits_fillLoop (hn : start + n ≤ b.bits) :
    let changed := (Finset.Ico start (start + n)).filter fun i => readBit b.storage i = !v
    if v then (setBits (fillLoop v n start b)).card = (setBits b).card + changed.card
    else (setBits (fillLoop v n start b)).card + changed.card = (setBits b).card := by
  intro changed
  rw [setBits_fillLoop hn]
  have hin : ∀ {i}, i ∈ Finset.Ico start (start + n) → i < b.bits := fun hi => by
    have := (mem_Ico.1 hi).2
    omega
  cases v
  · have hchanged : changed = setBits b ∩ Finset.Ico start (start + n) := by
      ext i
      simp only [changed, mem_filter, mem_inter, mem_setBits, Bool.not_false]
      exact ⟨fun h => ⟨⟨hin h.1, h.2⟩, h.1⟩, fun h => ⟨h.2, h.1.2⟩⟩
    rw [if_neg Bool.false_ne_true, if_neg Bool.false_ne_true, hchanged]
    exact card_sdiff_add_card_inter _ _
  · have hchanged : changed = Finset.Ico start (start + n) \ setBits b := by
      ext i
      simp only [changed, mem_filter, mem_sdiff, mem_setBits, Bool.not_true]
      exact ⟨fun h => ⟨h.1, fun hs => by simp [h.2] at hs⟩,
        fun h => ⟨h.1, Bool.eq_false_iff.2 fun hs => h.2 ⟨hin h.1, hs⟩⟩⟩
    rw [if_pos rfl, if_pos rfl, hchanged, union_comm, ← card_sdiff_add_card]
    omega

/-- Filling keeps the counter right exactly if every bit changes. -/
theorem Counted.fillLoop_iff (h : Counted b) (hb : b.bits < 2 ^ 64) (hn : start + n ≤ b.bits) :
    Counted (fillLoop v n start b) ↔
      ∀ i, start ≤ i → i < start + n → readBit b.storage i = !v := by
  have hcount := setCnt_fillLoop (v := v) hn (h.setCnt_lt hb)
  have hle := card_setBits_le (b := fillLoop v n start b)
  have hchange := card_setBits_fillLoop (v := v) hn
  rw [fillLoop_bits] at hle
  have hico : (Finset.Ico start (start + n)).card = n := by simp
  have hsub := card_filter_le (Finset.Ico start (start + n)) fun i =>
    readBit b.storage i = !v
  have hall : (∀ i, start ≤ i → i < start + n → readBit b.storage i = !v) ↔
      ((Finset.Ico start (start + n)).filter fun i => readBit b.storage i = !v).card =
        (Finset.Ico start (start + n)).card := by
    rw [card_filter_eq_iff]
    simp
  rw [hall, hico]
  unfold Counted at h ⊢
  rw [hcount, h]
  -- the counter moves by the length of the range, modulo the size of a word
  unfold add64 sub64
  cases v
  · rw [if_neg Bool.false_ne_true] at hchange ⊢
    omega
  · rw [if_pos rfl] at hchange ⊢
    omega

/-- Flipping a bit keeps the counter right. -/
theorem Counted.bmapSet (h : Counted b) (hi : i < b.bits) (hb : b.bits < 2 ^ 64)
    (hv : readBit b.storage i = !v) : Counted (bmapSet b i v) := by
  refine (h.fillLoop_iff (n := 1) hb hi).2 fun j hj hlt => ?_
  rwa [show j = i by omega]

/-- `bmap_fill` on a range whose bits all have the other value. -/
theorem bmapFill_spec (hc : Counted b) (hb : b.bits < 2 ^ 64)
    (h : bmapFill b v start stop = (true, b'))
    (hv : ∀ i, start ≤ i → i < stop → readBit b.storage i = !v) :
    b'.bits = b.bits ∧ b'.hint = b.hint ∧ Counted b' ∧
      ∀ j, readBit b'.storage j = if start ≤ j ∧ j < stop then v else readBit b.storage j := by
  have hlt := bmapFill_lt h
  have hn : start + (stop - start) ≤ b.bits := by omega
  unfold bmapFill at h
  rw [if_neg (by omega), Prod.mk.injEq] at h
  obtain ⟨-, rfl⟩ := h
  refine ⟨fillLoop_bits _ _ _ _, fillLoop_hint _ _ _ _,
    (hc.fillLoop_iff hb hn).2 fun i hi hlt => hv i hi (by omega), fun j => ?_⟩
  rw [readBit_fillLoop hn]
  split_ifs <;> first | rfl | omega

end Exact

/-! ### Searching -/

theorem bmapNextMul_one (hx : x < 2 ^ 64) : bmapNextMul x 1 = x := by
  have h0 : sub64 1 1 = 0 := by decide
  rw [bmapNextMul, h0, add64, mul64, Nat.add_zero, Nat.div_one, Nat.mul_one, Nat.mod_mod,
    Nat.mod_eq_of_lt hx]

/-- The multiples of one, and of an even number, stay away from the last word. -/
theorem bmapNextMul_lt (hmul : mul = 1 ∨ 2 ∣ mul) (hx : x + 1 < 2 ^ 64) :
    bmapNextMul x mul + 1 < 2 ^ 64 := by
  rcases hmul with rfl | ⟨k, rfl⟩
  · rwa [bmapNextMul_one (by omega)]
  · rw [bmapNextMul, mul64, mul_left_comm]
    omega

/-- The forward loop stops behind `cnt` bits with the wanted value, or at the end of the bitmap with
the `con < cnt` last bits. -/
theorem searchUp_spec (hb : b.bits + 1 < 2 ^ 64)
    (hmul : ∀ x, x ≤ b.bits → bmapNextMul x mul + 1 < 2 ^ 64) :
    ∀ {start con start' con' : ℕ}, searchUp b v cnt mul fuel start con = .ok (start', con') →
      start + 1 < 2 ^ 64 → con < cnt → con ≤ start → (0 < con → start ≤ b.bits) →
      (∀ j, start ≤ j + con → j < start → bmapGet b j = v) →
      (con' = cnt ∧ start' < b.bits ∧ cnt ≤ start' + 1 ∧
        ∀ j, start' + 1 ≤ j + cnt → j ≤ start' → bmapGet b j = v) ∨
      (con' < cnt ∧ b.bits ≤ start' ∧ start' + 1 < 2 ^ 64 ∧ con' ≤ start' ∧
        (0 < con' → start' = b.bits)) := by
  induction fuel with
  | zero => intro _ _ _ _ h; cases h
  | succ fuel ih =>
    intro start con start' con' h hs hcon hle hpos hrun
    unfold searchUp at h
    split_ifs at h with hin hget hfull
    · -- the run is complete
      cases h
      refine .inl ⟨hfull, hin.1, by omega, fun j hj hjs => ?_⟩
      rcases Nat.eq_or_lt_of_le hjs with rfl | hlt
      · exact hget
      · exact hrun j (by omega) hlt
    · have hnext : add64 start 1 = start + 1 := add64_of_lt (by omega)
      rw [hnext] at h
      refine ih h (by omega) (by omega) (by omega) (fun _ => by omega) fun j hj hlt => ?_
      rcases Nat.eq_or_lt_of_le (Nat.le_of_lt_succ hlt) with rfl | hlt'
      · exact hget
      · exact hrun j (by omega) hlt'
    · rw [add64_of_lt (by omega)] at h
      exact ih h (hmul _ (by omega)) (by omega) (by omega) (by omega) (fun j hj hlt => by omega)
    · cases h
      have hout : b.bits ≤ start := by
        by_contra hlt
        exact hin ⟨by omega, hcon⟩
      exact .inr ⟨hcon, hout, hs, hle, fun h0 => le_antisymm (hpos h0) hout⟩

/-- What one forward search reports. -/
def Reported (b : Bitmap σ) (v : Bool) (cnt i : ℕ) : Prop :=
  i < b.bits ∧ (i + cnt ≤ b.bits → ∀ j, i ≤ j → j < i + cnt → bmapGet b j = v)

theorem searchOnce_spec (hb : b.bits + 1 < 2 ^ 64)
    (hh : b.hint + 1 < 2 ^ 64) (hmul : mul = 1 ∨ 2 ∣ mul) (hcnt : 0 < cnt)
    (hf : flags &&& bmapSrchBackward = 0)
    (h : searchOnce fuel b v cnt mul flags = .ok (some i)) : Reported b v cnt i := by
  obtain ⟨k, hk, h⟩ := except_bind_eq_ok.1 h
  have hki : k = i ∧ k < b.bits := by
    split_ifs at h with h1 h2
    · simp at h
    · exact ⟨by simpa using h, not_le.1 h2⟩
  obtain ⟨rfl, hlt⟩ := hki
  unfold searchEnd at hk
  rw [if_neg (not_not.2 hf)] at hk
  obtain ⟨⟨start, con⟩, hup, hend⟩ := except_bind_eq_ok.1 hk
  have hk' : sub64 start (sub64 con 1) = k := by simpa using hend
  have hfrom : (if flags &&& bmapSrchHinted ≠ 0 then b.hint else 0) + 1 < 2 ^ 64 := by
    split_ifs <;> omega
  have hstop := searchUp_spec hb (fun x hx => bmapNextMul_lt hmul (by omega)) hup
    (bmapNextMul_lt hmul hfrom) hcnt (Nat.zero_le _)
    (fun h0 => absurd h0 (lt_irrefl _)) (fun j hj hjlt => by omega)
  rcases hstop with ⟨rfl, hs, hle, hrun⟩ | ⟨hcon, hs, hs', hle, hend⟩
  · rw [sub64_pred hle (by omega)] at hk'
    exact ⟨hlt, fun _ j hj hjlt => hrun j (by omega) (by omega)⟩
  · -- the bitmap ended inside a run: the index leaves less than `cnt` bits
    rw [sub64_pred (by omega) hs'] at hk'
    exact ⟨hlt, fun hbits => by omega⟩

theorem andNot_hinted_backward (hf : flags &&& bmapSrchBackward = 0) :
    andNot flags bmapSrchHinted &&& bmapSrchBackward = 0 := by
  rw [bmapSrchBackward, Nat.and_one_is_mod] at hf ⊢
  have hhint : flags &&& bmapSrchHinted = 0 ∨ flags &&& bmapSrchHinted = 2 := by
    have := Nat.and_two_pow flags 1
    cases h : flags.testBit 1 <;> simp_all [bmapSrchHinted]
  unfold andNot
  omega

/-- What a search returns comes from one of its two rounds, and the search changes the hint at
most. -/
theorem bmapSearch_cases (h : bmapSearch fuel v cnt mul flags b = .ok (found, b')) :
    (found = none ∧ b' = b) ∨ ∃ i flags', found = some i ∧ 0 < cnt ∧
      (flags' = flags ∨ flags' = andNot flags bmapSrchHinted) ∧
      searchOnce fuel b v cnt (if mul = 0 then 1 else mul) flags' = .ok (some i) ∧
      b' = { b with hint := add64 i cnt } := by
  unfold bmapSearch at h
  generalize (if mul = 0 then 1 else mul) = m at h ⊢
  by_cases hcnt : cnt = 0
  · rw [if_pos hcnt] at h
    simp only [Except.ok.injEq, Prod.mk.injEq] at h
    exact .inl ⟨h.1.symm, h.2.symm⟩
  rw [if_neg hcnt] at h
  obtain ⟨first, hfirst, h⟩ := except_bind_eq_ok.1 h
  obtain ⟨second, hsecond, h⟩ := except_bind_eq_ok.1 h
  cases second with
  | none =>
    simp only [Except.ok.injEq, Prod.mk.injEq] at h
    exact .inl ⟨h.1.symm, h.2.symm⟩
  | some i =>
    simp only [Except.ok.injEq, Prod.mk.injEq] at h
    split_ifs at hsecond with hagain
    · exact .inr ⟨i, _, h.1.symm, by omega, .inr rfl, hsecond, h.2.symm⟩
    · rw [Except.ok.injEq] at hsecond
      exact .inr ⟨i, _, h.1.symm, by omega, .inl rfl, hsecond ▸ hfirst, h.2.symm⟩

theorem max_mul_one (mul : ℕ) : (if mul = 0 then 1 else mul) = max mul 1 := by
  split_ifs <;> omega

/-- The index is a multiple of `mul` inside of the bitmap, in any case. -/
theorem bmapSearch_index (h : bmapSearch fuel v cnt mul flags b = .ok (found, b')) :
    (found = none ∧ b' = b) ∨ ∃ i, found = some i ∧ 0 < cnt ∧ max mul 1 ∣ i ∧ i < b.bits ∧
      b' = { b with hint := add64 i cnt } := by
  rcases bmapSearch_cases h with hnone | ⟨i, flags', hfound, hcnt, -, honce, hb⟩
  · exact .inl hnone
  rw [max_mul_one] at honce
  obtain ⟨k, -, hk⟩ := except_bind_eq_ok.1 honce
  split_ifs at hk with hrest hout
  · cases hk
  · simp only [Except.ok.injEq, Option.some.injEq] at hk
    subst hk
    exact .inr ⟨k, hfound, hcnt, Nat.dvd_of_mod_eq_zero (not_not.1 hrest), not_le.1 hout, hb⟩

/-- A forward search returns a run, or an index close to the end. -/
theorem bmapSearch_spec (hb : b.bits + 1 < 2 ^ 64)
    (hh : b.hint + 1 < 2 ^ 64) (hmul : mul = 1 ∨ 2 ∣ mul) (hf : flags &&& bmapSrchBackward = 0)
    (h : bmapSearch fuel v cnt mul flags b = .ok (found, b')) :
    (found = none ∧ b' = b) ∨ ∃ i, found = some i ∧ 0 < cnt ∧ Reported b v cnt i ∧
      b' = { b with hint := add64 i cnt } := by
  have hmul1 : (if mul = 0 then 1 else mul) = 1 ∨ 2 ∣ if mul = 0 then 1 else mul := by
    split_ifs
    · exact .inl rfl
    · exact hmul
  rcases bmapSearch_cases h with hnone | ⟨i, flags', hfound, hcnt, hflags, honce, hb'⟩
  · exact .inl hnone
  · have hf' : flags' &&& bmapSrchBackward = 0 := by
      rcases hflags with rfl | rfl
      · exact hf
      · exact andNot_hinted_backward hf
    exact .inr ⟨i, hfound, hcnt, searchOnce_spec hb hh hmul1 hcnt hf' honce, hb'⟩

/-! ### Errors of a search -/

section

variable {h : Halt} (hh : h ≠ .fuel)
include hh

theorem searchUp_ne_error :
    searchUp b v cnt mul fuel start con ≠ .error h := by
  induction fuel generalizing start con with
  | zero => simp [searchUp, hh.symm]
  | succ fuel ih =>
    unfold searchUp
    split_ifs
    · simp
    · exact ih
    · exact ih
    · simp

theorem searchDown_ne_error :
    searchDown b v cnt mul fuel start con ≠ .error h := by
  induction fuel generalizing start con with
  | zero => simp [searchDown, hh.symm]
  | succ fuel ih =>
    unfold searchDown
    split_ifs
    · simp
    · exact ih
    · exact ih
    · simp

/-- Besides a lack of fuel there is only the assertion, and every number is a multiple of 1. -/
theorem searchOnce_ne_error (hmul : mul = 1 ∨ ∀ msg, h ≠ .fatal msg)
    : searchOnce fuel b v cnt mul flags ≠ .error h := by
  refine except_bind_ne_error ?_ fun start _ => ?_
  · rw [searchEnd]
    split_ifs
    · exact searchDown_ne_error hh
    · exact searchDown_ne_error hh
    all_goals exact except_bind_ne_error (searchUp_ne_error hh) fun _ _ => nofun
  · split_ifs with hmod
    · rcases hmul with rfl | hmsg
      · exact absurd (Nat.mod_one _) hmod
      · exact fun herr => hmsg _ (Except.error.inj herr).symm
    all_goals exact nofun

theorem bmapSearch_ne_error (hmul : mul ≤ 1 ∨ ∀ msg, h ≠ .fatal msg)
    : bmapSearch fuel v cnt mul flags b ≠ .error h := by
  unfold bmapSearch
  by_cases hcnt : cnt = 0
  · rw [if_pos hcnt]
    exact nofun
  rw [if_neg hcnt]
  have honce : ∀ flags, searchOnce fuel b v cnt (if mul = 0 then 1 else mul) flags ≠ .error h :=
    fun _ => searchOnce_ne_error hh (hmul.imp_left fun h1 => by split_ifs <;> omega)
  refine except_bind_ne_error (honce _) fun first _ =>
    except_bind_ne_error ?_ fun second _ => ?_
  · split
    · exact honce _
    · exact nofun
  · cases second <;> exact nofun

end

end Tachyon.Pmem
