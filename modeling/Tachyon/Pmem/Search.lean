import Tachyon.Pmem.Words

/-!
# Searching a bitmap

`bmap_search` looks for `cnt` bits with one value, at a multiple of `mul`, upwards from the hint or
from the start of the bitmap, or downwards.

* `Fits`: what is looked for;
* `ScanUp`, `searchUp_cases`: the upward loop finds the first fit, or ends behind a rest of the
  bitmap without one;
* `NoOverflow`, `searchOnce_huge`: sums that do not wrap around, and sums that do;
* `forward_sound_iff`, `forward_first_fit`: what the forward search returns;
* `forward_assertion_iff`: when its assertion holds.
-/

namespace Tachyon.Pmem

open Nat

variable {σ : Type} [BitStore σ] {b b' : Bitmap σ} {v : Bool}
  {cnt mul flags fuel p s con i j x m : ℕ}

/-- The `cnt` bits from `i` on have the value, and `i` is a multiple of `mul`. -/
structure Fits (b : Bitmap σ) (v : Bool) (cnt mul i : ℕ) : Prop where
  aligned : mul ∣ i
  inside : i + cnt ≤ b.bits
  run : ∀ j, i ≤ j → j < i + cnt → bmapGet b j = v

/-! ### Multiples -/

/-- `BMAP_NEXT_MUL` without wrap-around. -/
theorem bmapNextMul_spec (hm : 0 < m) (hx : x + m ≤ 2 ^ 64) :
    m ∣ bmapNextMul x m ∧ x ≤ bmapNextMul x m ∧ bmapNextMul x m < x + m := by
  have hpred : sub64 m 1 = m - 1 := by
    unfold sub64
    omega
  have hdiv := div_add_mod (x + (m - 1)) m
  have hmod := mod_lt (x + (m - 1)) hm
  have hnext : bmapNextMul x m = m * ((x + (m - 1)) / m) := by
    rw [bmapNextMul, hpred, add64_of_lt (by omega), mul64_of_lt (by rw [mul_comm]; omega), mul_comm]
  rw [hnext]
  exact ⟨dvd_mul_right _ _, by omega, by omega⟩

/-- The next multiple is the first one. -/
theorem bmapNextMul_le (hm : 0 < m) (hx : x + m ≤ 2 ^ 64) (hj : m ∣ j) (hle : x ≤ j) :
    bmapNextMul x m ≤ j := by
  obtain ⟨⟨k, hk⟩, -, hlt⟩ := bmapNextMul_spec hm hx
  obtain ⟨l, rfl⟩ := hj
  rw [hk] at hlt ⊢
  have hkl : m * k < m * (l + 1) := by
    rw [mul_succ]
    omega
  exact Nat.mul_le_mul_left m (Nat.lt_succ_iff.1 (Nat.lt_of_mul_lt_mul_left hkl))

/-- It is a multiple in any case. -/
theorem bmapNextMul_dvd : m ∣ bmapNextMul x m := by
  have hlt : add64 x (sub64 m 1) < 2 ^ 64 := mod_lt _ (by norm_num)
  rw [bmapNextMul, mul64_of_lt (lt_of_le_of_lt (div_mul_le_self _ _) hlt)]
  exact dvd_mul_left _ _

/-- A sum that wraps around leads to the first multiple. -/
theorem bmapNextMul_wrap (hsum : 2 ^ 64 < x + m) (hx : x < 2 ^ 64) (hm : m < 2 ^ 64) :
    bmapNextMul x m = 0 := by
  have hless : add64 x (sub64 m 1) < m := by
    unfold add64 sub64
    have := hm
    omega
  rw [bmapNextMul, div_eq_of_lt hless, mul64, Nat.zero_mul, zero_mod]

/-- When the next multiple is the last word. -/
theorem bmapNextMul_last (hpos : 0 < m) (hm : m < 2 ^ 64) (hx : x < 2 ^ 64) :
    bmapNextMul x m + 1 = 2 ^ 64 ↔ m ∣ 2 ^ 64 - 1 ∧ x + m = 2 ^ 64 := by
  rcases lt_or_ge (2 ^ 64) (x + m) with hwrap | hle
  · have hzero := bmapNextMul_wrap hwrap hx hm
    constructor
    · intro h
      omega
    · rintro ⟨-, h⟩
      omega
  obtain ⟨hdvd, hge, hlt⟩ := bmapNextMul_spec hpos hle
  constructor
  · intro hlast
    obtain ⟨k, hk⟩ := hdvd
    exact ⟨⟨k, by omega⟩, by omega⟩
  · rintro ⟨hlast, hsum⟩
    have hnext := bmapNextMul_le hpos hle hlast (by omega)
    have hrest : 2 ^ 64 - 1 - bmapNextMul x m = 0 :=
      Nat.eq_zero_of_dvd_of_lt (Nat.dvd_sub hlast hdvd) (by omega)
    omega

/-! ### The upward loop -/

/-- The upward loop has counted the `con` bits from `s` on, and no run from `p` on begins in front
of `s`.  With `mul = 1` it only goes on behind a bit with the other value. -/
structure ScanUp (b : Bitmap σ) (v : Bool) (cnt mul p s con : ℕ) : Prop where
  lt : con < cnt
  from_le : p ≤ s
  aligned : mul ∣ s
  run : ∀ j, s ≤ j → j < s + con → bmapGet b j = v
  inside : 0 < con → s + con ≤ b.bits
  skipped : ∀ j, p ≤ j → j < s → ¬ Fits b v cnt mul j
  single : mul = 1 → p < s → s ≤ b.bits ∧ bmapGet b (s - 1) ≠ v

section

variable (h : ScanUp b v cnt mul p s con)
include h

theorem ScanUp.run_succ (hget : bmapGet b (s + con) = v) (hj : s ≤ j) (hj' : j < s + (con + 1)) :
    bmapGet b j = v := by
  rcases Nat.eq_or_lt_of_le (Nat.lt_succ_iff.1 hj') with rfl | hlt
  · exact hget
  · exact h.run j hj hlt

theorem ScanUp.more (hlt : s + con < b.bits) (hget : bmapGet b (s + con) = v) (hc : con + 1 < cnt) :
    ScanUp b v cnt mul p s (con + 1) :=
  ⟨hc, h.from_le, h.aligned, fun _ => h.run_succ hget, fun _ => by omega, h.skipped, h.single⟩

theorem ScanUp.found (hlt : s + con < b.bits) (hget : bmapGet b (s + con) = v)
    (hc : con + 1 = cnt) :
    Fits b v cnt mul s :=
  ⟨h.aligned, by omega, fun _ hj hj' => h.run_succ hget hj (hc ▸ hj')⟩

/-- Behind a bit with the other value: every run from `s` on that begins up to this bit has it
inside. -/
theorem ScanUp.skip (hmul : 0 < mul) (hwrap : b.bits + mul < 2 ^ 64) (hlt : s + con < b.bits)
    (hget : bmapGet b (s + con) ≠ v) : ScanUp b v cnt mul p (bmapNextMul (s + con + 1) mul) 0 := by
  have hsum : s + con + 1 + mul ≤ 2 ^ 64 := by omega
  obtain ⟨hdvd, hle, -⟩ := bmapNextMul_spec hmul hsum
  have hpos := h.lt
  have hfrom := h.from_le
  refine ⟨by omega, by omega, hdvd, fun j hj hj' => by omega, fun h0 => absurd h0 (lt_irrefl _),
    fun j hj hj' hfit => ?_, fun hone _ => ?_⟩
  · rcases lt_or_ge j s with hjs | hjs
    · exact h.skipped j hj hjs hfit
    rcases lt_or_ge (s + con) j with hbehind | hfront
    · have := bmapNextMul_le hmul hsum hfit.aligned hbehind
      omega
    · exact hget (hfit.run _ hfront (by omega))
  · subst hone
    rw [bmapNextMul_one (by omega)]
    exact ⟨hlt, hget⟩

/-- At the end of the bitmap there was no run. -/
theorem ScanUp.none (hout : b.bits ≤ s + con) (hj : p ≤ j) : ¬ Fits b v cnt mul j := by
  intro hfit
  rcases lt_or_ge j s with hjs | hjs
  · exact h.skipped j hj hjs hfit
  · have hin := hfit.inside
    have hlt := h.lt
    omega

end

/-- **The upward loop** finds the first run from `p` on, or ends behind the bitmap. -/
theorem searchUp_cases (fuel : ℕ) (hmul : 0 < mul) (hwrap : b.bits + mul < 2 ^ 64)
    (hs : s + con + 1 < 2 ^ 64) (h : ScanUp b v cnt mul p s con) :
    (∃ s', searchUp b v cnt mul fuel (s + con) con = .ok (s' + cnt - 1, cnt) ∧ p ≤ s' ∧
      Fits b v cnt mul s' ∧ ∀ j, p ≤ j → j < s' → ¬ Fits b v cnt mul j) ∨
    (∃ s' con', searchUp b v cnt mul fuel (s + con) con = .ok (s' + con', con') ∧
      ScanUp b v cnt mul p s' con' ∧ b.bits ≤ s' + con' ∧ s' + con' + 1 < 2 ^ 64) ∨
    (searchUp b v cnt mul fuel (s + con) con = .error .fuel ∧ fuel ≤ b.bits - (s + con)) := by
  induction fuel generalizing s con with
  | zero => exact .inr (.inr ⟨rfl, zero_le _⟩)
  | succ fuel ih =>
    rw [searchUp]
    by_cases hin : s + con < b.bits
    · rw [if_pos ⟨hin, h.lt⟩]
      by_cases hget : bmapGet b (s + con) = v
      · rw [if_pos hget]
        by_cases hfull : con + 1 = cnt
        · rw [if_pos hfull]
          refine .inl ⟨s, ?_, h.from_le, h.found hin hget hfull, h.skipped⟩
          rw [← hfull, show s + (con + 1) - 1 = s + con by omega]
        have hlt := h.lt
        rw [if_neg hfull, add64_of_lt (by omega), add_assoc]
        rcases ih (by omega) (h.more hin hget (by omega)) with hf | hf | ⟨hf, hfuel⟩
        · exact .inl hf
        · exact .inr (.inl hf)
        · exact .inr (.inr ⟨hf, by omega⟩)
      · obtain ⟨-, hle, hlt⟩ := bmapNextMul_spec hmul (show s + con + 1 + mul ≤ 2 ^ 64 by omega)
        rw [if_neg hget, add64_of_lt (by omega)]
        have hnext := ih (by omega) (h.skip hmul hwrap hin hget)
        rw [add_zero] at hnext
        rcases hnext with hf | hf | ⟨hf, hfuel⟩
        · exact .inl hf
        · exact .inr (.inl hf)
        · exact .inr (.inr ⟨hf, by omega⟩)
    · rw [if_neg fun hc => hin hc.1]
      exact .inr (.inl ⟨s, con, rfl, h, not_lt.1 hin, hs⟩)

/-! ### One forward search -/

/-- Where a forward search begins, before the next multiple is taken. -/
def forwardFrom (b : Bitmap σ) (flags : ℕ) : ℕ := if flags &&& bmapSrchHinted ≠ 0 then b.hint else 0

/-- No sum in a forward search wraps around. -/
structure NoOverflow (b : Bitmap σ) (mul flags : ℕ) : Prop where
  bits : b.bits + mul < 2 ^ 64
  word : forwardFrom b flags < 2 ^ 64
  start : bmapNextMul (forwardFrom b flags) mul + 1 < 2 ^ 64

/-- The last two bits have the value, and are not in front of `p`. -/
def Tail (b : Bitmap σ) (v : Bool) (p : ℕ) : Prop :=
  p + 2 ≤ b.bits ∧ bmapGet b (b.bits - 2) = v ∧ bmapGet b (b.bits - 1) = v

/-- Without a run, the loop ends with `s + 1 < bits` exactly if the last two bits have the value. -/
theorem ScanUp.tail_iff (h : ScanUp b v cnt 1 p s con) (hout : b.bits ≤ s + con) :
    s + 1 < b.bits ↔ Tail b v p := by
  have hfrom := h.from_le
  constructor
  · intro hlt
    exact ⟨by omega, h.run _ (by omega) (by omega), h.run _ (by omega) (by omega)⟩
  rintro ⟨hp, h2, h1⟩
  by_contra hge
  obtain ⟨hs, hne⟩ := h.single rfl (by omega)
  rcases eq_or_lt_of_le hs with rfl | hlt
  · exact hne h1
  · rw [show s - 1 = b.bits - 2 by omega] at hne
    exact hne h2

section

variable (fuel) (hf : flags &&& bmapSrchBackward = 0) (hmul : 0 < mul) (hcnt : 0 < cnt)
  (hr : NoOverflow b mul flags)
include hf hmul hcnt hr

/-- The final `start` of a forward search. -/
theorem searchEnd_forward :
    (∃ s, searchEnd fuel b v cnt mul flags = .ok s ∧ bmapNextMul (forwardFrom b flags) mul ≤ s ∧
      Fits b v cnt mul s ∧
      ∀ j, bmapNextMul (forwardFrom b flags) mul ≤ j → j < s → ¬ Fits b v cnt mul j) ∨
    (∃ s con, searchEnd fuel b v cnt mul flags = .ok (s + 1) ∧
      ScanUp b v cnt mul (bmapNextMul (forwardFrom b flags) mul) s con ∧ b.bits ≤ s + con) ∨
    (searchEnd fuel b v cnt mul flags = .error .fuel ∧ fuel ≤ b.bits) := by
  have hbits := hr.bits
  have hstart := hr.start
  have hend : searchEnd fuel b v cnt mul flags =
      searchUp b v cnt mul fuel (bmapNextMul (forwardFrom b flags) mul + 0) 0 >>=
        fun r => .ok (sub64 r.1 (sub64 r.2 1)) := by
    rw [searchEnd, if_neg (not_not.2 hf), add_zero]
    rfl
  have hdvd : mul ∣ bmapNextMul (forwardFrom b flags) mul := bmapNextMul_dvd
  obtain ⟨p, hp⟩ : ∃ p, bmapNextMul (forwardFrom b flags) mul = p := ⟨_, rfl⟩
  rw [hp] at hstart hend hdvd ⊢
  have hscan : ScanUp b v cnt mul p p 0 :=
    ⟨hcnt, le_rfl, hdvd, fun j hj hj' => by omega, fun h0 => absurd h0 (lt_irrefl _),
      fun j hj hj' => by omega, fun _ hp => absurd hp (lt_irrefl _)⟩
  rw [hend]
  rcases searchUp_cases fuel hmul hbits (by omega) hscan with
    ⟨s, hup, hps, hfit, hleast⟩ | ⟨s, con, hup, hsc, hout, hs⟩ | ⟨hup, hfuel⟩
  · refine .inl ⟨s, ?_, hps, hfit, hleast⟩
    have hin := hfit.inside
    rw [hup]
    show Except.ok (sub64 (s + cnt - 1) (sub64 cnt 1)) = _
    rw [sub64_pred (by omega) (by omega), show s + cnt - 1 + 1 - cnt = s by omega]
  · refine .inr (.inl ⟨s, con, ?_, hsc, hout⟩)
    rw [hup]
    show Except.ok (sub64 (s + con) (sub64 con 1)) = _
    rw [sub64_pred (by omega) hs, show s + con + 1 - con = s + 1 by omega]
  · refine .inr (.inr ⟨?_, by omega⟩)
    rw [hup]
    rfl

/-- **One forward search**: the first run from its start on; without one, the assertion fails if
`mul` is not 1, and an index is returned all the same if the last two bits have the value. -/
theorem searchOnce_forward :
    (∃ s, searchOnce fuel b v cnt mul flags = .ok (some s) ∧
      bmapNextMul (forwardFrom b flags) mul ≤ s ∧ Fits b v cnt mul s ∧
      ∀ j, bmapNextMul (forwardFrom b flags) mul ≤ j → j < s → ¬ Fits b v cnt mul j) ∨
    ((∀ j, bmapNextMul (forwardFrom b flags) mul ≤ j → ¬ Fits b v cnt mul j) ∧
      (2 ≤ mul ∧ searchOnce fuel b v cnt mul flags =
          .error (.fatal "internal implementation error!\n") ∨
        mul = 1 ∧ ¬ Tail b v (forwardFrom b flags) ∧
          searchOnce fuel b v cnt mul flags = .ok none ∨
        mul = 1 ∧ Tail b v (forwardFrom b flags) ∧
          ∃ s, forwardFrom b flags ≤ s ∧ searchOnce fuel b v cnt mul flags = .ok (some s))) ∨
    (searchOnce fuel b v cnt mul flags = .error .fuel ∧ fuel ≤ b.bits) := by
  have hone : ∀ {r}, searchEnd fuel b v cnt mul flags = r → searchOnce fuel b v cnt mul flags =
      r >>= fun start =>
        if start % mul ≠ 0 then .error (.fatal "internal implementation error!\n")
        else if b.bits ≤ start then .ok none else .ok (some start) := fun hr => hr ▸ rfl
  rcases searchEnd_forward fuel (v := v) hf hmul hcnt hr with
    ⟨s, hend, hps, hfit, hleast⟩ | ⟨s, con, hend, hsc, hout⟩ | ⟨hend, hfuel⟩
  · have hin := hfit.inside
    refine .inl ⟨s, ?_, hps, hfit, hleast⟩
    rw [hone hend]
    show (if s % mul ≠ 0 then _ else if b.bits ≤ s then _ else _) = _
    rw [if_neg (not_not.2 (mod_eq_zero_of_dvd hfit.aligned)), if_neg (by omega)]
  · refine .inr (.inl ⟨fun j hj => hsc.none hout hj, ?_⟩)
    rw [hone hend]
    show _ ∧ (if (s + 1) % mul ≠ 0 then _ else if b.bits ≤ s + 1 then _ else _) = _ ∨
      _ ∧ _ ∧ (if (s + 1) % mul ≠ 0 then _ else if b.bits ≤ s + 1 then _ else _) = _ ∨
      _ ∧ _ ∧ ∃ s', _ ∧ (if (s + 1) % mul ≠ 0 then _ else if b.bits ≤ s + 1 then _ else _) = _
    obtain rfl | hmul' : mul = 1 ∨ 2 ≤ mul := by omega
    · rw [bmapNextMul_one hr.word] at hsc
      have htail := hsc.tail_iff hout
      rw [if_neg (not_not.2 (mod_one _))]
      by_cases hlt : s + 1 < b.bits
      · exact .inr (.inr ⟨rfl, htail.1 hlt, s + 1, by have := hsc.from_le; omega,
          if_neg (not_le.2 hlt)⟩)
      · exact .inr (.inl ⟨rfl, fun ht => hlt (htail.2 ht), if_pos (not_lt.1 hlt)⟩)
    · obtain ⟨k, rfl⟩ := hsc.aligned
      refine .inl ⟨hmul', if_pos ?_⟩
      rw [mul_add_mod, mod_eq_of_lt (by omega)]
      exact one_ne_zero
  · refine .inr (.inr ⟨?_, hfuel⟩)
    rw [hone hend]
    rfl

end

/-! ### The search -/

theorem andNot_hinted (flags : ℕ) : andNot flags bmapSrchHinted &&& bmapSrchHinted = 0 := by
  have hand : ∀ x, x &&& bmapSrchHinted = 2 * (x / 2 % 2) := fun x => by
    have h2 : bmapSrchHinted = 2 ^ 1 := rfl
    rw [h2, and_two_pow, testBit_eq_decide_div_mod_eq, pow_one]
    by_cases h : x / 2 % 2 = 1
    · simp [h]
    · simp [show x / 2 % 2 = 0 by omega]
  rw [hand, andNot, hand]
  omega

theorem bmapSearch_error {h : Halt} (hcnt : 0 < cnt)
    (hone : searchOnce fuel b v cnt (max mul 1) flags = .error h) :
    bmapSearch fuel v cnt mul flags b = .error h := by
  simp [bmapSearch, hcnt.ne', max_mul_one, hone, bind, Except.bind]

theorem bmapSearch_some (hcnt : 0 < cnt)
    (hone : searchOnce fuel b v cnt (max mul 1) flags = .ok (some s)) :
    bmapSearch fuel v cnt mul flags b = .ok (some s, { b with hint := add64 s cnt }) := by
  simp [bmapSearch, hcnt.ne', max_mul_one, hone, bind, Except.bind]

theorem bmapSearch_none (hcnt : 0 < cnt) (hhint : flags &&& bmapSrchHinted = 0)
    (hone : searchOnce fuel b v cnt (max mul 1) flags = .ok none) :
    bmapSearch fuel v cnt mul flags b = .ok (none, b) := by
  simp [bmapSearch, hcnt.ne', max_mul_one, hone, hhint, bind, Except.bind]

/-- A search from the hint that finds nothing is repeated without the hint. -/
theorem bmapSearch_retry (hcnt : 0 < cnt) (hhint : flags &&& bmapSrchHinted ≠ 0)
    (hone : searchOnce fuel b v cnt (max mul 1) flags = .ok none) :
    bmapSearch fuel v cnt mul flags b =
      bmapSearch fuel v cnt mul (andNot flags bmapSrchHinted) b := by
  rcases hsecond : searchOnce fuel b v cnt (max mul 1) (andNot flags bmapSrchHinted) with h | r
  · rw [bmapSearch_error hcnt hsecond]
    simp [bmapSearch, hcnt.ne', max_mul_one, hone, hhint, hsecond, bind, Except.bind]
  cases r with
  | none =>
    rw [bmapSearch_none hcnt (andNot_hinted flags) hsecond]
    simp [bmapSearch, hcnt.ne', max_mul_one, hone, hhint, hsecond, bind, Except.bind]
  | some s =>
    rw [bmapSearch_some hcnt hsecond]
    simp [bmapSearch, hcnt.ne', max_mul_one, hone, hhint, hsecond, bind, Except.bind]

omit [BitStore σ] in
theorem forwardFrom_of_hint (hhint : flags &&& bmapSrchHinted = 0) : forwardFrom b flags = 0 :=
  if_neg (not_not.2 hhint)

theorem bmapNextMul_zero (hm : 0 < m) (hlt : m ≤ 2 ^ 64) : bmapNextMul 0 m = 0 := by
  have := bmapNextMul_le hm (by omega) (dvd_zero m) le_rfl
  omega

omit [BitStore σ] in
theorem NoOverflow.unhinted (h : NoOverflow b mul flags) (hm : 0 < mul) :
    NoOverflow b mul (andNot flags bmapSrchHinted) := by
  have hbits := h.bits
  have hfrom : forwardFrom b (andNot flags bmapSrchHinted) = 0 :=
    forwardFrom_of_hint (andNot_hinted flags)
  refine ⟨hbits, ?_, ?_⟩ <;> rw [hfrom]
  · norm_num
  · rw [bmapNextMul_zero hm (by omega)]
    norm_num

theorem Tail.mono (h : Tail b v p) (hx : x ≤ p) : Tail b v x := by
  obtain ⟨hp, h2, h1⟩ := h
  exact ⟨by omega, h2, h1⟩

/-- With `mul` at most 1 a forward search takes the end of the bitmap for a run: the last two bits
have the value, and there is no run from its start on, nor in front of it if the search gets
there. -/
def Misled (b : Bitmap σ) (v : Bool) (cnt flags : ℕ) : Prop :=
  Tail b v 0 ∧ ∀ j, Fits b v cnt 1 j → j < forwardFrom b flags ∧ forwardFrom b flags + 2 ≤ b.bits

section

variable (fuel) (hf : flags &&& bmapSrchBackward = 0) (hcnt : 0 < cnt)
include hf hcnt

/-- A forward search with `mul` at most 1 and without hint. -/
theorem bmapSearch_unhinted (hmul : max mul 1 = 1) (hhint : flags &&& bmapSrchHinted = 0)
    (hr : NoOverflow b 1 flags) :
    (∃ s b', bmapSearch fuel v cnt mul flags b = .ok (some s, b') ∧ Fits b v cnt 1 s) ∨
    (∃ s b', bmapSearch fuel v cnt mul flags b = .ok (some s, b') ∧ Tail b v 0 ∧
      ∀ j, ¬ Fits b v cnt 1 j) ∨
    (bmapSearch fuel v cnt mul flags b = .ok (none, b) ∧ ¬ Tail b v 0 ∧
      ∀ j, ¬ Fits b v cnt 1 j) ∨
    (bmapSearch fuel v cnt mul flags b = .error .fuel ∧ fuel ≤ b.bits) := by
  have hfrom : forwardFrom b flags = 0 := forwardFrom_of_hint hhint
  have hone := searchOnce_forward fuel (v := v) hf one_pos hcnt hr
  rw [hfrom, bmapNextMul_zero one_pos (by norm_num), ← hmul] at hone
  rcases hone with ⟨s, hs, -, hfit, -⟩ | ⟨hno, ⟨h2, -⟩ | ⟨-, ht, hs⟩ | ⟨-, ht, s, -, hs⟩⟩ |
    ⟨hs, hfuel⟩
  · exact .inl ⟨s, _, bmapSearch_some hcnt hs, hmul ▸ hfit⟩
  · omega
  · exact .inr (.inr (.inl ⟨bmapSearch_none hcnt hhint hs, ht,
      fun j => hmul ▸ hno j (zero_le j)⟩))
  · exact .inr (.inl ⟨s, _, bmapSearch_some hcnt hs, ht, fun j => hmul ▸ hno j (zero_le j)⟩)
  · exact .inr (.inr (.inr ⟨bmapSearch_error hcnt hs, hfuel⟩))

/-- A forward search with `mul` at most 1 returns a run, unless it is misled. -/
theorem bmapSearch_single (hmul : max mul 1 = 1) (hr : NoOverflow b 1 flags) :
    (∃ s b', bmapSearch fuel v cnt mul flags b = .ok (some s, b') ∧ Fits b v cnt 1 s ∧
      ¬ Misled b v cnt flags) ∨
    (∃ s b', bmapSearch fuel v cnt mul flags b = .ok (some s, b') ∧ ¬ Fits b v cnt 1 s ∧
      Misled b v cnt flags) ∨
    (bmapSearch fuel v cnt mul flags b = .ok (none, b) ∧ ¬ Misled b v cnt flags) ∨
    (bmapSearch fuel v cnt mul flags b = .error .fuel ∧ fuel ≤ b.bits) := by
  have hone := searchOnce_forward fuel (v := v) hf one_pos hcnt hr
  rw [bmapNextMul_one hr.word, ← hmul] at hone
  rcases hone with ⟨s, hs, hle, hfit, -⟩ | ⟨hno, ⟨h2, -⟩ | ⟨-, ht, hs⟩ | ⟨-, ht, s, hle, hs⟩⟩ |
    ⟨hs, hfuel⟩
  · rw [hmul] at hfit
    refine .inl ⟨s, _, bmapSearch_some hcnt hs, hfit, fun hm => ?_⟩
    exact absurd (hm.2 s hfit).1 (not_lt.2 hle)
  · omega
  · rw [hmul] at hno
    by_cases hhint : flags &&& bmapSrchHinted = 0
    · refine .inr (.inr (.inl ⟨bmapSearch_none hcnt hhint hs, fun hm => ht ?_⟩))
      rw [forwardFrom_of_hint hhint]
      exact hm.1
    -- the first search ended at the end of the bitmap: the second one decides
    have hlate : Tail b v 0 → b.bits < forwardFrom b flags + 2 := fun h0 =>
      not_le.1 fun hle => ht ⟨hle, h0.2⟩
    rw [bmapSearch_retry hcnt hhint hs]
    rcases bmapSearch_unhinted fuel (andNot_hinted_backward hf) hcnt hmul
      (andNot_hinted flags) (hr.unhinted one_pos) with
      ⟨s, b', hb, hfit⟩ | ⟨s, b', hb, h0, hnone⟩ | ⟨hb, h0, -⟩ | ⟨hb, hfuel⟩
    · refine .inl ⟨s, b', hb, hfit, fun hm => ?_⟩
      exact absurd (hm.2 s hfit).2 (not_le.2 (hlate hm.1))
    · exact .inr (.inl ⟨s, b', hb, hnone s, h0, fun j hj => absurd hj (hnone j)⟩)
    · exact .inr (.inr (.inl ⟨hb, fun hm => h0 hm.1⟩))
    · exact .inr (.inr (.inr ⟨hb, hfuel⟩))
  · rw [hmul] at hno
    refine .inr (.inl ⟨s, _, bmapSearch_some hcnt hs, hno s hle, ht.mono (zero_le _),
      fun j hj => ⟨not_le.1 fun hj' => hno j hj' hj, ht.1⟩⟩)
  · exact .inr (.inr (.inr ⟨bmapSearch_error hcnt hs, hfuel⟩))

/-- A forward search with `mul` of at least 2 returns a run, or the assertion fails. -/
theorem bmapSearch_multiple (hmul : 2 ≤ mul) (hr : NoOverflow b mul flags) :
    (∃ s, bmapSearch fuel v cnt mul flags b = .ok (some s, { b with hint := add64 s cnt }) ∧
      bmapNextMul (forwardFrom b flags) mul ≤ s ∧ Fits b v cnt mul s) ∨
    (bmapSearch fuel v cnt mul flags b = .error (.fatal "internal implementation error!\n") ∧
      ∀ j, bmapNextMul (forwardFrom b flags) mul ≤ j → ¬ Fits b v cnt mul j) ∨
    (bmapSearch fuel v cnt mul flags b = .error .fuel ∧ fuel ≤ b.bits) := by
  have hmax : max mul 1 = mul := by omega
  have hone := searchOnce_forward fuel (v := v) hf (by omega) hcnt hr
  rcases hone with ⟨s, hs, hle, hfit, -⟩ | ⟨hno, ⟨-, hs⟩ | ⟨h1, -⟩ | ⟨h1, -⟩⟩ | ⟨hs, hfuel⟩
  · exact .inl ⟨s, bmapSearch_some hcnt (by rwa [hmax]), hle, hfit⟩
  · exact .inr (.inl ⟨bmapSearch_error hcnt (by rwa [hmax]), hno⟩)
  · omega
  · omega
  · exact .inr (.inr ⟨bmapSearch_error hcnt (by rwa [hmax]), hfuel⟩)

end

/-- Without wrap-around. -/
theorem forward_sound_of_room (hcnt : 1 ≤ cnt) (hf : flags &&& bmapSrchBackward = 0)
    (hr : NoOverflow b (max mul 1) flags) :
    (∀ fuel i b', bmapSearch fuel v cnt mul flags b = .ok (some i, b') →
        max mul 1 ∣ i ∧ i + cnt ≤ b.bits ∧ ∀ j, i ≤ j → j < i + cnt → bmapGet b j = v) ↔
      2 ≤ mul ∨ ¬ Misled b v cnt flags := by
  obtain hmul | hmul : max mul 1 = 1 ∨ 2 ≤ mul := by omega
  · rw [hmul] at hr ⊢
    constructor
    · intro hsound
      refine .inr fun hm => ?_
      rcases bmapSearch_single (b.bits + 1) hf hcnt hmul hr with
        ⟨s, b', -, -, hn⟩ | ⟨s, b', hs, hfit, -⟩ | ⟨-, hn⟩ | ⟨-, hfuel⟩
      · exact hn hm
      · obtain ⟨hdvd, hin, hrun⟩ := hsound _ s b' hs
        exact hfit ⟨hdvd, hin, hrun⟩
      · exact hn hm
      · omega
    · rintro hcond fuel i b' hcall
      have hn : ¬ Misled b v cnt flags := hcond.resolve_left (by omega)
      rcases bmapSearch_single fuel hf hcnt hmul hr with
        ⟨s, _, hs, hfit, -⟩ | ⟨s, _, -, -, hm⟩ | ⟨hs, -⟩ | ⟨hs, -⟩
      · cases hs.symm.trans hcall
        exact ⟨hfit.aligned, hfit.inside, hfit.run⟩
      · exact absurd hm hn
      · cases hs.symm.trans hcall
      · cases hs.symm.trans hcall
  · rw [show max mul 1 = mul by omega] at hr ⊢
    refine ⟨fun _ => .inl hmul, fun _ fuel i b' hcall => ?_⟩
    rcases bmapSearch_multiple fuel hf hcnt hmul hr with
      ⟨s, hs, -, hfit⟩ | ⟨hs, -⟩ | ⟨hs, -⟩
    · cases hs.symm.trans hcall
      exact ⟨hfit.aligned, hfit.inside, hfit.run⟩
    · cases hs.symm.trans hcall
    · cases hs.symm.trans hcall

/-! ### Sums that wrap around -/

/-- The upward loop is left at the last word, so that `start - (con - 1)` is 0: it begins there, or
it comes there from the first bit. -/
def WrapsToZero (b : Bitmap σ) (v : Bool) (mul flags : ℕ) : Prop :=
  mul ∣ 2 ^ 64 - 1 ∧ (forwardFrom b flags + mul = 2 ^ 64 ∨ mul = 2 ^ 64 - 1 ∧ bmapGet b 0 ≠ v)

/-- The first bit with the other value, among those that a run from the first bit on needs. -/
structure FirstMiss (b : Bitmap σ) (v : Bool) (cnt r : ℕ) : Prop where
  lt_bits : r < b.bits
  lt_cnt : r < cnt
  other : bmapGet b r ≠ v
  before : ∀ j < r, bmapGet b j = v

theorem FirstMiss.unique (h : FirstMiss b v cnt i) (h' : FirstMiss b v cnt j) : i = j := by
  rcases lt_trichotomy i j with hlt | heq | hgt
  · exact absurd (h'.before i hlt) h.other
  · exact heq
  · exact absurd (h.before j hgt) h'.other

theorem FirstMiss.not_fits (h : FirstMiss b v cnt i) : ¬ Fits b v cnt mul 0 := fun hfit =>
  h.other (hfit.run i (Nat.zero_le i) (by have := h.lt_cnt; omega))

theorem searchEnd_eq_up (hf : flags &&& bmapSrchBackward = 0) :
    searchEnd fuel b v cnt mul flags =
      searchUp b v cnt mul fuel (bmapNextMul (forwardFrom b flags) mul) 0 >>=
        fun r => .ok (sub64 r.1 (sub64 r.2 1)) := by
  rw [searchEnd, if_neg (not_not.2 hf)]
  rfl

/-- The final `start` of the upward loop with `start = s` and `con` bits counted. -/
theorem searchEnd_of_up (hf : flags &&& bmapSrchBackward = 0)
    (hup : searchUp b v cnt mul fuel (bmapNextMul (forwardFrom b flags) mul) 0 = .ok (s, con)) :
    searchEnd fuel b v cnt mul flags = .ok (sub64 s (sub64 con 1)) := by
  simp only [searchEnd_eq_up hf, hup, bind, Except.bind]

theorem searchOnce_of_up_error {h : Halt} (hf : flags &&& bmapSrchBackward = 0)
    (hup : searchUp b v cnt mul fuel (bmapNextMul (forwardFrom b flags) mul) 0 = .error h) :
    searchOnce fuel b v cnt mul flags = .error h := by
  simp only [searchOnce, searchEnd_eq_up hf, hup, bind, Except.bind]

theorem searchOnce_of_end (hend : searchEnd fuel b v cnt mul flags = .ok s) :
    searchOnce fuel b v cnt mul flags =
      if s % mul ≠ 0 then .error (.fatal "internal implementation error!\n")
      else if b.bits ≤ s then .ok none else .ok (some s) := by
  simp only [searchOnce, hend, bind, Except.bind]

section Huge

variable (hbits : b.bits < 2 ^ 63) (hmul : mul < 2 ^ 64) (hhuge : 2 ^ 64 ≤ b.bits + mul)
include hbits hmul hhuge

/-- With a `mul` that no sum with an index has room for, the upward loop can only find a run at the
first bit.  Behind a bit with the other value it ends, or it begins again at the first bit. -/
theorem searchUp_huge (fuel : ℕ) (hrun : ∀ j < con, bmapGet b j = v) (hcon : con < cnt)
    (hle : con ≤ b.bits) :
    (searchUp b v cnt mul fuel con con = .ok (cnt - 1, cnt) ∧ Fits b v cnt mul 0) ∨
    (searchUp b v cnt mul fuel con con = .ok (b.bits, b.bits) ∧ b.bits < cnt ∧
      ∀ j < b.bits, bmapGet b j = v) ∨
    (searchUp b v cnt mul fuel con con = .ok (mul, 0) ∧
      ∃ r, FirstMiss b v cnt r ∧ r + 1 + mul ≤ 2 ^ 64) ∨
    (searchUp b v cnt mul fuel con con = .error .fuel ∧
      (fuel + con ≤ b.bits + 1 ∨ ∃ r, FirstMiss b v cnt r ∧ 2 ^ 64 < r + 1 + mul)) := by
  induction fuel generalizing con with
  | zero => exact .inr (.inr (.inr ⟨rfl, .inl (by omega)⟩))
  | succ fuel ih =>
    rw [searchUp]
    by_cases hin : con < b.bits
    · rw [if_pos ⟨hin, hcon⟩]
      by_cases hget : bmapGet b con = v
      · have hrun' : ∀ j < con + 1, bmapGet b j = v := fun j hj => by
          rcases Nat.lt_succ_iff_lt_or_eq.1 hj with hlt | rfl
          · exact hrun j hlt
          · exact hget
        rw [if_pos hget]
        by_cases hfull : con + 1 = cnt
        · rw [if_pos hfull]
          refine .inl ⟨by rw [← hfull]; rfl, dvd_zero _, by omega, fun j _ hj => hrun' j (by omega)⟩
        rw [if_neg hfull, add64_of_lt (by omega)]
        rcases ih hrun' (by omega) hin with h | h | h | ⟨h, hfuel⟩
        · exact .inl h
        · exact .inr (.inl h)
        · exact .inr (.inr (.inl h))
        · exact .inr (.inr (.inr ⟨h, hfuel.imp_left fun hf => by omega⟩))
      · have hmiss : FirstMiss b v cnt con := ⟨hin, hcon, hget, hrun⟩
        rw [if_neg hget, add64_of_lt (by omega)]
        rcases lt_or_ge (2 ^ 64) (con + 1 + mul) with hwrap | hroom
        · -- the search begins again, and again
          rw [bmapNextMul_wrap hwrap (by omega) hmul]
          rcases ih (fun j hj => absurd hj (not_lt_zero j)) (by omega) (Nat.zero_le _) with
            ⟨-, hfit⟩ | ⟨-, -, hall⟩ | ⟨-, r, hr, hroom⟩ | ⟨h, -⟩
          · exact absurd hfit hmiss.not_fits
          · exact absurd (hall con hin) hget
          · rw [hr.unique hmiss] at hroom
            omega
          · exact .inr (.inr (.inr ⟨h, .inr ⟨con, hmiss, hwrap⟩⟩))
        · have hnext : bmapNextMul (con + 1) mul = mul := by
            obtain ⟨⟨k, hk⟩, hge, hlt⟩ := bmapNextMul_spec (show 0 < mul by omega) hroom
            have hk1 : k = 1 := by
              rcases k with _ | _ | k
              · omega
              · rfl
              · rw [hk, mul_add, mul_add] at hlt
                omega
            rw [hk, hk1, mul_one]
          rw [hnext]
          cases fuel with
          | zero => exact .inr (.inr (.inr ⟨rfl, .inl (by omega)⟩))
          | succ fuel =>
            rw [searchUp, if_neg (by omega)]
            exact .inr (.inr (.inl ⟨rfl, con, hmiss, hroom⟩))
    · rw [if_neg fun hc => hin hc.1]
      obtain rfl : con = b.bits := by omega
      exact .inr (.inl ⟨rfl, hcon, hrun⟩)

variable (hf : flags &&& bmapSrchBackward = 0) (hcnt : 0 < cnt)
  (hstart : bmapNextMul (forwardFrom b flags) mul + 1 < 2 ^ 64)
include hf hcnt hstart

/-- **One forward search with such a `mul`**: the run at the first bit; the last word, from the first
bit on; the assertion fails; or the search does not end. -/
theorem searchOnce_huge (fuel : ℕ) :
    (searchOnce fuel b v cnt mul flags = .ok (some 0) ∧
      bmapNextMul (forwardFrom b flags) mul = 0 ∧ Fits b v cnt mul 0) ∨
    (searchOnce fuel b v cnt mul flags = .ok (some 0) ∧ mul = 2 ^ 64 - 1 ∧ bmapGet b 0 ≠ v) ∨
    (searchOnce fuel b v cnt mul flags = .error (.fatal "internal implementation error!\n") ∧
      (∀ j, bmapNextMul (forwardFrom b flags) mul ≤ j → ¬ Fits b v cnt mul j) ∧
      (bmapNextMul (forwardFrom b flags) mul = 0 → ∀ r, FirstMiss b v cnt r →
        r + 1 + mul ≤ 2 ^ 64 ∧ mul ≠ 2 ^ 64 - 1)) ∨
    (searchOnce fuel b v cnt mul flags = .error .fuel ∧ (fuel ≤ b.bits + 1 ∨
      bmapNextMul (forwardFrom b flags) mul = 0 ∧
        ∃ r, FirstMiss b v cnt r ∧ 2 ^ 64 < r + 1 + mul)) := by
  have hone : ∀ k, (k * mul + 1) % mul ≠ 0 := fun k => by
    rw [mul_comm, mul_add_mod, mod_eq_of_lt (by omega)]
    exact one_ne_zero
  have hin : ∀ {j}, Fits b v cnt mul j → j = 0 := fun {j} hfit => by
    have := hfit.inside
    exact Nat.eq_zero_of_dvd_of_lt hfit.aligned (by omega)
  obtain ⟨k, hk⟩ : mul ∣ bmapNextMul (forwardFrom b flags) mul := bmapNextMul_dvd
  rcases Nat.eq_zero_or_pos (bmapNextMul (forwardFrom b flags) mul) with hzero | hpos
  · have hend : ∀ {s con}, searchUp b v cnt mul fuel 0 0 = .ok (s, con) →
        searchEnd fuel b v cnt mul flags = .ok (sub64 s (sub64 con 1)) := fun hup =>
      searchEnd_of_up hf (by rw [hzero]; exact hup)
    rcases searchUp_huge (v := v) hbits hmul hhuge fuel
      (fun j hj => absurd hj (not_lt_zero j)) hcnt (Nat.zero_le _) with
      ⟨hup, hfit⟩ | ⟨hup, hshort, hall⟩ | ⟨hup, r, hr, hroom⟩ | ⟨hup, hfuel⟩
    · have hlast : sub64 (cnt - 1) (sub64 cnt 1) = 0 := by
        have := hfit.inside
        rw [sub64_pred (by omega) (by omega)]
        omega
      refine .inl ⟨?_, hzero, hfit⟩
      have := hfit.inside
      rw [searchOnce_of_end (hend hup), hlast, if_neg (by simp), if_neg (by omega)]
    · have hlast : sub64 b.bits (sub64 b.bits 1) = 0 * mul + 1 := by
        unfold sub64
        omega
      refine .inr (.inr (.inl ⟨?_, fun j _ hfit => ?_, fun _ r hr => ?_⟩))
      · rw [searchOnce_of_end (hend hup), hlast, if_pos (hone 0)]
      · have := hfit.inside
        omega
      · exact absurd (hall r hr.lt_bits) hr.other
    · by_cases hmax : mul = 2 ^ 64 - 1
      · obtain rfl : r = 0 := by omega
        refine .inr (.inl ⟨?_, hmax, hr.other⟩)
        have hlast : sub64 mul (sub64 0 1) = 0 := by
          unfold sub64
          omega
        have := hr.lt_bits
        rw [searchOnce_of_end (hend hup), hlast, if_neg (by simp), if_neg (by omega)]
      · have hlast : sub64 mul (sub64 0 1) = 1 * mul + 1 := by
          rw [sub64_pred (Nat.zero_le _) (by omega)]
          omega
        refine .inr (.inr (.inl ⟨?_, fun j _ hfit => ?_, fun _ r' hr' => ?_⟩))
        · rw [searchOnce_of_end (hend hup), hlast, if_pos (hone 1)]
        · rw [hin hfit] at hfit
          exact hr.not_fits hfit
        · rw [hr'.unique hr]
          exact ⟨hroom, hmax⟩
    · refine .inr (.inr (.inr ⟨?_, ?_⟩))
      · exact searchOnce_of_up_error hf (by rw [hzero]; exact hup)
      · exact hfuel.imp (by omega) fun hr => ⟨hzero, hr⟩
  · -- behind the bitmap at once
    have hge : b.bits ≤ bmapNextMul (forwardFrom b flags) mul := by
      have hk1 : 1 ≤ k := by
        by_contra hk0
        rw [hk, show k = 0 by omega] at hpos
        simp at hpos
      have := Nat.mul_le_mul_left mul hk1
      omega
    cases fuel with
    | zero =>
      refine .inr (.inr (.inr ⟨?_, .inl (Nat.zero_le _)⟩))
      exact searchOnce_of_up_error hf rfl
    | succ fuel =>
      have hup : searchUp b v cnt mul (fuel + 1) (bmapNextMul (forwardFrom b flags) mul) 0 =
          .ok (bmapNextMul (forwardFrom b flags) mul, 0) := by
        rw [searchUp, if_neg (by omega)]
      refine .inr (.inr (.inl ⟨?_, fun j hj hfit => ?_, fun h0 => by omega⟩))
      · have hlast : sub64 (bmapNextMul (forwardFrom b flags) mul) (sub64 0 1) = k * mul + 1 := by
          rw [sub64_pred (Nat.zero_le _) hstart, hk, mul_comm]
          omega
        rw [searchOnce_of_end (searchEnd_of_up hf hup), hlast, if_pos (hone k)]
      · have := hin hfit
        omega

end Huge

/-- A search that begins at the last word ends there. -/
theorem searchOnce_at_last (hf : flags &&& bmapSrchBackward = 0) (hb : b.bits < 2 ^ 63)
    (hlast : bmapNextMul (forwardFrom b flags) mul + 1 = 2 ^ 64) :
    searchOnce (fuel + 1) b v cnt mul flags = if b.bits = 0 then .ok none else .ok (some 0) := by
  have hup : searchUp b v cnt mul (fuel + 1) (bmapNextMul (forwardFrom b flags) mul) 0 =
      .ok (bmapNextMul (forwardFrom b flags) mul, 0) := by
    rw [searchUp, if_neg (by omega)]
  have hzero : sub64 (bmapNextMul (forwardFrom b flags) mul) (sub64 0 1) = 0 := by
    unfold sub64
    omega
  rw [searchOnce_of_end (searchEnd_of_up hf hup), hzero, zero_mod, if_neg (not_not.2 rfl)]
  exact if_congr Nat.le_zero rfl rfl

/-- An empty bitmap has no index. -/
theorem bmapSearch_empty (h0 : b.bits = 0) (h : bmapSearch fuel v cnt mul flags b = .ok (some i, b')) :
    False := by
  rcases bmapSearch_index h with ⟨hnone, -⟩ | ⟨i', hi, -, -, hlt, -⟩
  · cases hnone
  · omega

/-- **A forward search is sound** exactly if `mul` is at least 2 or the search is not misled by the
end of the bitmap, and it is not left at the last word while there is no run at the first bit. -/
theorem forward_sound_iff (b : Bitmap σ) (v : Bool) (cnt mul flags : ℕ) (hbits : b.bits < 2 ^ 32)
    (hhint : b.hint < 2 ^ 64) (hmul : mul < 2 ^ 64) (hcnt : 1 ≤ cnt)
    (hf : flags &&& bmapSrchBackward = 0) :
    (∀ fuel i b', bmapSearch fuel v cnt mul flags b = .ok (some i, b') →
        max mul 1 ∣ i ∧ i + cnt ≤ b.bits ∧ ∀ j, i ≤ j → j < i + cnt → bmapGet b j = v) ↔
      (2 ≤ mul ∨ ¬ Misled b v cnt flags) ∧
        ¬ (0 < b.bits ∧ WrapsToZero b v (max mul 1) flags ∧ ¬ Fits b v cnt (max mul 1) 0) := by
  have hword : forwardFrom b flags < 2 ^ 64 := by
    unfold forwardFrom
    split_ifs
    · exact hhint
    · norm_num
  have hmax : max mul 1 < 2 ^ 64 := by omega
  have hpos : 0 < max mul 1 := by omega
  have hlastiff := bmapNextMul_last hpos hmax hword
  by_cases hlast : bmapNextMul (forwardFrom b flags) (max mul 1) + 1 = 2 ^ 64
  · -- the search begins at the last word
    obtain ⟨hdvd, hsum⟩ := hlastiff.1 hlast
    rcases Nat.eq_zero_or_pos b.bits with h0 | hnonempty
    · refine iff_of_true (fun fuel i b' h => (bmapSearch_empty h0 h).elim)
        ⟨.inr fun hm => ?_, fun h => absurd h.1 (by omega)⟩
      have := hm.1.1
      omega
    have hcall : bmapSearch 1 v cnt mul flags b = .ok (some 0, { b with hint := add64 0 cnt }) :=
      bmapSearch_some hcnt ((searchOnce_at_last hf (by omega) hlast).trans (if_neg hnonempty.ne'))
    constructor
    · intro hsound
      obtain ⟨-, hin, hrun⟩ := hsound 1 0 _ hcall
      have hfit : Fits b v cnt 1 0 := ⟨dvd_zero _, hin, hrun⟩
      refine ⟨or_iff_not_imp_left.2 fun hsmall hm => ?_, fun h => h.2.2 ⟨dvd_zero _, hin, hrun⟩⟩
      have := (hm.2 0 hfit).2
      omega
    · rintro ⟨-, hwraps⟩ fuel i b' h
      have hfit : Fits b v cnt (max mul 1) 0 := by
        by_contra hno
        exact hwraps ⟨hnonempty, ⟨hdvd, .inl hsum⟩, hno⟩
      cases fuel with
      | zero =>
        rw [bmapSearch_error (h := .fuel) hcnt (searchOnce_of_up_error hf rfl)] at h
        cases h
      | succ fuel =>
        rw [bmapSearch_some hcnt ((searchOnce_at_last hf (by omega) hlast).trans
          (if_neg hnonempty.ne'))] at h
        cases h
        exact ⟨hfit.aligned, hfit.inside, hfit.run⟩
  have hstart : bmapNextMul (forwardFrom b flags) (max mul 1) + 1 < 2 ^ 64 := by
    have hlt : bmapNextMul (forwardFrom b flags) (max mul 1) < 2 ^ 64 := mod_lt _ (by norm_num)
    omega
  have hnotlast : ¬ (max mul 1 ∣ 2 ^ 64 - 1 ∧ forwardFrom b flags + max mul 1 = 2 ^ 64) :=
    fun h => hlast (hlastiff.2 h)
  rcases lt_or_ge (b.bits + max mul 1) (2 ^ 64) with hroom | hhuge
  · have hr : NoOverflow b (max mul 1) flags := ⟨hroom, hword, hstart⟩
    have hwraps : ¬ (0 < b.bits ∧ WrapsToZero b v (max mul 1) flags ∧
        ¬ Fits b v cnt (max mul 1) 0) := by
      rintro ⟨hnonempty, ⟨hdvd, hsum | ⟨hmax', -⟩⟩, -⟩
      · exact hnotlast ⟨hdvd, hsum⟩
      · omega
    rw [and_iff_left hwraps]
    exact forward_sound_of_room hcnt hf hr
  · -- so large a `mul` is not 1, and the search ends at the first bit or at the last word
    have h2 : 2 ≤ mul := by omega
    have heq : max mul 1 = mul := by omega
    rw [heq] at hhuge hstart hnotlast ⊢
    rw [and_iff_right (.inl h2)]
    constructor
    · rintro hsound ⟨hnonempty, ⟨hdvd, hsum | ⟨hmax', hget⟩⟩, hno⟩
      · exact hnotlast ⟨hdvd, hsum⟩
      have hmiss : FirstMiss b v cnt 0 := ⟨hnonempty, hcnt, hget, fun j hj => absurd hj (not_lt_zero j)⟩
      have hzero : bmapNextMul (forwardFrom b flags) mul = 0 :=
        Nat.eq_zero_of_dvd_of_lt bmapNextMul_dvd (by omega)
      rcases searchOnce_huge (v := v) (by omega) hmul hhuge hf hcnt hstart (b.bits + 2) with
        ⟨-, -, hfit⟩ | ⟨hone, -, -⟩ | ⟨-, -, hmisses⟩ | ⟨-, hfuel⟩
      · exact hno hfit
      · obtain ⟨-, hin, hrun⟩ := hsound _ 0 _ (bmapSearch_some hcnt (by rwa [heq]))
        exact hno ⟨dvd_zero _, hin, hrun⟩
      · exact (hmisses hzero 0 hmiss).2 hmax'
      · rcases hfuel with hfuel | ⟨-, r, hr, hbig⟩
        · omega
        · rw [hr.unique hmiss] at hbig
          omega
    · intro hwraps fuel i b' h
      rcases searchOnce_huge (v := v) (by omega) hmul hhuge hf hcnt hstart fuel with
        ⟨hone, -, hfit⟩ | ⟨hone, hmax', hget⟩ | ⟨hone, -⟩ | ⟨hone, -⟩
      · rw [bmapSearch_some hcnt (by rwa [heq])] at h
        cases h
        exact ⟨hfit.aligned, hfit.inside, hfit.run⟩
      · have hno : ¬ Fits b v cnt mul 0 := fun hfit => hget (hfit.run 0 le_rfl (by omega))
        have hdvd : mul ∣ 2 ^ 64 - 1 := by rw [hmax']
        exact absurd ⟨by omega, ⟨hdvd, .inr ⟨hmax', hget⟩⟩, hno⟩ hwraps
      · rw [bmapSearch_error hcnt (by rwa [heq])] at h
        cases h
      · rw [bmapSearch_error hcnt (by rwa [heq])] at h
        cases h

theorem zeroBitmap_fits {bits i : ℕ} (hi : mul ∣ i) (hin : i + cnt ≤ bits) :
    Fits (zeroBitmap bits) false cnt mul i :=
  ⟨hi, hin, fun j _ _ => bmapGet_zeroBitmap bits j⟩

/-- Two clear bits in a clear bitmap. -/
theorem forward_sound_iff_zero : ∃ b',
    bmapSearch 65 false 2 1 bmapSrchHinted (zeroBitmap 64) = .ok (some 0, b') ∧
      1 ∣ 0 ∧ 0 + 2 ≤ 64 ∧ ∀ j, 0 ≤ j → j < 0 + 2 → bmapGet (zeroBitmap 64) j = false := by
  have hrun : bmapSearch 65 false 2 1 bmapSrchHinted (zeroBitmap 64) =
      .ok (some 0, (bmapSearch 65 false 2 1 bmapSrchHinted).exec (zeroBitmap 64)) :=
    Prog.eq_ok_of_value (by decide +kernel)
  refine ⟨_, hrun, (forward_sound_iff (zeroBitmap 64) false 2 1 bmapSrchHinted (by decide)
    (by decide) (by decide) (by decide) (by decide)).2 ⟨.inr fun hm => ?_, fun h => ?_⟩ _ _ _ hrun⟩
  · exact absurd (hm.2 0 (zeroBitmap_fits (one_dvd 0) (by decide))).1 (by decide)
  · exact h.2.2 (zeroBitmap_fits (one_dvd 0) (by decide))

/-- A request for 100 clear bits in a clear bitmap of 64 bits. -/
theorem forward_unsound :
    (bmapSearch 65 false 100 1 0).value (zeroBitmap 64) = some (some 1) ∧
      ¬ 1 + 100 ≤ (zeroBitmap 64).bits := by
  decide +kernel

/-- **A forward search without hint finds the first fit.** -/
theorem forward_first_fit (b : Bitmap σ) (v : Bool) (cnt mul flags : ℕ) (hbits : b.bits < 2 ^ 32)
    (hcnt : 1 ≤ cnt ∧ cnt < 2 ^ 32) (hmul : 1 ≤ mul ∧ mul < 2 ^ 32)
    (hf : flags &&& bmapSrchBackward = 0) (hhint : flags &&& bmapSrchHinted = 0)
    (hfit : ∃ i, Fits b v cnt mul i) :
    ∃ i, IsLeast {i | Fits b v cnt mul i} i ∧ ∀ fuel, b.bits < fuel →
      bmapSearch fuel v cnt mul flags b = .ok (some i, { b with hint := i + cnt }) := by
  have hfrom : forwardFrom b flags = 0 := forwardFrom_of_hint hhint
  have hr : NoOverflow b mul flags := by
    refine ⟨by omega, ?_, ?_⟩ <;> rw [hfrom]
    · norm_num
    · rw [bmapNextMul_zero hmul.1 (by omega)]
      norm_num
  have hmax : max mul 1 = mul := by omega
  have hleast : ∀ {fuel}, b.bits < fuel → ∃ i, IsLeast {i | Fits b v cnt mul i} i ∧
      bmapSearch fuel v cnt mul flags b = .ok (some i, { b with hint := i + cnt }) := by
    intro fuel hfuel
    have hone := searchOnce_forward fuel (v := v) hf hmul.1 hcnt.1 hr
    rw [hfrom, bmapNextMul_zero hmul.1 (by omega)] at hone
    rcases hone with ⟨s, hs, -, hfits, hnone⟩ | ⟨hno, -⟩ | ⟨-, hle⟩
    · refine ⟨s, ⟨hfits, fun j hj => not_lt.1 fun hlt => hnone j (Nat.zero_le j) hlt hj⟩, ?_⟩
      have hin := hfits.inside
      rw [bmapSearch_some hcnt.1 (by rwa [hmax]), add64_of_lt (by omega)]
    · obtain ⟨i, hi⟩ := hfit
      exact absurd hi (hno i (Nat.zero_le i))
    · omega
  obtain ⟨i, hi, -⟩ := hleast (Nat.lt_succ_self b.bits)
  refine ⟨i, hi, fun fuel hfuel => ?_⟩
  obtain ⟨i', hi', hcall⟩ := hleast hfuel
  rw [hcall, hi.unique hi']

theorem forward_first_fit_zero : ∃ i, IsLeast {i | Fits (zeroBitmap 64) false 3 4 i} i ∧
    ∀ fuel, 64 < fuel → bmapSearch fuel false 3 4 0 (zeroBitmap 64) =
      .ok (some i, { zeroBitmap 64 with hint := i + 3 }) :=
  forward_first_fit (zeroBitmap 64) false 3 4 0 (by decide) (by decide) (by decide) rfl rfl
    ⟨0, zeroBitmap_fits (dvd_zero 4) (by decide)⟩

/-! ### The assertion -/

/-- What a forward search with `mul` of at least 2 finds: a run from its start on, or the last word,
or no end. -/
def Settles (b : Bitmap σ) (v : Bool) (cnt mul flags : ℕ) : Prop :=
  (∃ j, bmapNextMul (forwardFrom b flags) mul ≤ j ∧ Fits b v cnt mul j) ∨
  (0 < b.bits ∧ WrapsToZero b v mul flags) ∨
  (bmapNextMul (forwardFrom b flags) mul = 0 ∧ ∃ r, FirstMiss b v cnt r ∧ 2 ^ 64 < r + 1 + mul)

/-- A forward search with `mul` of at least 2 and any hint. -/
theorem forward_assertion_iff (hbits : b.bits < 2 ^ 63) (hhint : b.hint < 2 ^ 64)
    (hmul : 2 ≤ mul) (hlt : mul < 2 ^ 64) (hcnt : 1 ≤ cnt) (hf : flags &&& bmapSrchBackward = 0) :
    (∀ fuel msg, bmapSearch fuel v cnt mul flags b ≠ .error (.fatal msg)) ↔
      Settles b v cnt mul flags := by
  have heq : max mul 1 = mul := by omega
  have hword : forwardFrom b flags < 2 ^ 64 := by
    unfold forwardFrom
    split_ifs
    · exact hhint
    · norm_num
  have hlastiff := bmapNextMul_last (show 0 < mul by omega) hlt hword
  have hmisses : ∀ r, FirstMiss b v cnt r → 0 < b.bits := fun r hr => by
    have := hr.lt_bits
    omega
  by_cases hlast : bmapNextMul (forwardFrom b flags) mul + 1 = 2 ^ 64
  · obtain ⟨hdvd, hsum⟩ := hlastiff.1 hlast
    rcases Nat.eq_zero_or_pos b.bits with h0 | hnonempty
    · -- the second search, on an empty bitmap
      refine iff_of_false (fun hnever => ?_) ?_
      · have hhinted : flags &&& bmapSrchHinted ≠ 0 := fun hno => by
          rw [forwardFrom_of_hint hno] at hsum
          omega
        have hr : NoOverflow b mul (andNot flags bmapSrchHinted) := by
          have hfrom : forwardFrom b (andNot flags bmapSrchHinted) = 0 :=
            forwardFrom_of_hint (andNot_hinted flags)
          refine ⟨by omega, ?_, ?_⟩ <;> rw [hfrom]
          · norm_num
          · rw [bmapNextMul_zero (by omega) hlt.le]
            norm_num
        have hretry : bmapSearch 1 v cnt mul flags b =
            bmapSearch 1 v cnt mul (andNot flags bmapSrchHinted) b := bmapSearch_retry hcnt hhinted
          (by rw [heq]; exact (searchOnce_at_last hf hbits hlast).trans (if_pos h0))
        rcases bmapSearch_multiple 1 (v := v) (andNot_hinted_backward hf) hcnt hmul hr with
          ⟨s, -, -, hfit⟩ | ⟨hs, -⟩ | ⟨-, hfuel⟩
        · have := hfit.inside
          omega
        · exact hnever 1 _ (hretry.trans hs)
        · omega
      · rintro (⟨j, -, hfit⟩ | ⟨hb, -⟩ | ⟨-, r, hr, -⟩)
        · have := hfit.inside
          omega
        · omega
        · have := hmisses r hr
          omega
    · refine iff_of_true (fun fuel msg h => ?_) (.inr (.inl ⟨hnonempty, hdvd, .inl hsum⟩))
      cases fuel with
      | zero =>
        rw [bmapSearch_error (h := .fuel) hcnt (by rw [heq]; exact searchOnce_of_up_error hf rfl)] at h
        cases h
      | succ fuel =>
        have hone : searchOnce (fuel + 1) b v cnt (max mul 1) flags = .ok (some 0) := by
          rw [heq, searchOnce_at_last hf hbits hlast, if_neg hnonempty.ne']
        cases (bmapSearch_some hcnt hone).symm.trans h
  have hnotlast : ¬ (mul ∣ 2 ^ 64 - 1 ∧ forwardFrom b flags + mul = 2 ^ 64) :=
    fun h => hlast (hlastiff.2 h)
  have hstart : bmapNextMul (forwardFrom b flags) mul + 1 < 2 ^ 64 := by
    have hlt : bmapNextMul (forwardFrom b flags) mul < 2 ^ 64 := mod_lt _ (by norm_num)
    omega
  rcases lt_or_ge (b.bits + mul) (2 ^ 64) with hroom | hhuge
  · have hr : NoOverflow b mul flags := ⟨hroom, hword, hstart⟩
    constructor
    · intro hnever
      rcases bmapSearch_multiple (b.bits + 1) hf hcnt hmul hr with
        ⟨s, -, hs, hfit⟩ | ⟨hs, -⟩ | ⟨-, hfuel⟩
      · exact .inl ⟨s, hs, hfit⟩
      · exact absurd hs (hnever _ _)
      · omega
    · rintro (⟨j, hj, hfit⟩ | ⟨hb, hdvd, hsum | ⟨hmax, -⟩⟩ | ⟨-, r, hr', hbig⟩) fuel msg hcall
      · rcases bmapSearch_multiple fuel hf hcnt hmul hr with
          ⟨s, hs, -, -⟩ | ⟨-, hno⟩ | ⟨hs, -⟩
        · cases hs.symm.trans hcall
        · exact hno j hj hfit
        · cases hs.symm.trans hcall
      · exact hnotlast ⟨hdvd, hsum⟩
      · omega
      · have := hr'.lt_bits
        omega
  · constructor
    · intro hnever
      rcases searchOnce_huge (v := v) hbits hlt hhuge hf hcnt hstart (b.bits + 2) with
        ⟨-, hzero, hfit⟩ | ⟨-, hmax, hget⟩ | ⟨hs, -⟩ | ⟨-, hfuel⟩
      · exact .inl ⟨0, hzero.le, hfit⟩
      · exact .inr (.inl ⟨by omega, by rw [hmax], .inr ⟨hmax, hget⟩⟩)
      · exact absurd (bmapSearch_error hcnt (by rw [heq]; exact hs)) (hnever _ _)
      · exact .inr (.inr (hfuel.resolve_left (by omega)))
    · intro hcond fuel msg hcall
      rcases searchOnce_huge (v := v) hbits hlt hhuge hf hcnt hstart fuel with
        ⟨hs, -⟩ | ⟨hs, -⟩ | ⟨-, hno, hmiss⟩ | ⟨hs, -⟩
      · cases (bmapSearch_some hcnt (by rw [heq]; exact hs)).symm.trans hcall
      · cases (bmapSearch_some hcnt (by rw [heq]; exact hs)).symm.trans hcall
      · rcases hcond with ⟨j, hj, hfit⟩ | ⟨hb, hdvd, hsum | ⟨hmax, hget⟩⟩ | ⟨hzero, r, hr, hbig⟩
        · exact hno j hj hfit
        · exact hnotlast ⟨hdvd, hsum⟩
        · have hzero : bmapNextMul (forwardFrom b flags) mul = 0 :=
            Nat.eq_zero_of_dvd_of_lt bmapNextMul_dvd (by omega)
          exact (hmiss hzero 0 ⟨hb, hcnt, hget, fun j hj => absurd hj (not_lt_zero j)⟩).2 hmax
        · have := (hmiss hzero r hr).1
          omega
      · cases (bmapSearch_error hcnt (by rw [heq]; exact hs)).symm.trans hcall

end Tachyon.Pmem
