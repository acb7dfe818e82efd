import Tachyon.Pmem.Search

/-!
# Searching a bitmap downwards

The backward search begins two bits below the end of the bitmap, and goes on two bits below a bit
with another value.

* `Reached`: the bits where it begins to count;
* `ScanDown`, `searchDown_cases`: the downward loop with `mul = 1`;
* `DownAligned`: the downward loop with another `mul`;
* `backward_agrees`: when the backward search finds what is there;
* `assertion_iff`: when the assertion of `bmap_search` holds.
-/

namespace Tachyon.Pmem

variable {σ : Type} [BitStore σ] {b b' : Bitmap σ} {v : Bool}
  {cnt mul flags fuel p s con i j x m e : ℕ}

/-! ### The downward loop -/

/-- With `mul = 1` the downward loop goes on two bits below the one it looked at, and begins two
bits below the end of the bitmap. -/
theorem back_one (y : ℕ) : add64 (bmapPrevMul (sub64 y cnt) 1) cnt = sub64 y 1 := by
  have hlt : sub64 y cnt < 2 ^ 64 := Nat.mod_lt _ (by norm_num)
  rw [bmapPrevMul, bmapNextMul_one hlt]
  unfold add64 sub64
  omega

theorem sub64_one_one (h : 2 ≤ s) (hs : s < 2 ^ 64) : sub64 (sub64 s 1) 1 = s - 2 := by
  unfold sub64
  omega

/-- The bit `e` is one from which the downward loop counts: above it, an even number of bits with the
other value stands in front of one with the value, or an odd number in front of the end. -/
def Reached (b : Bitmap σ) (v : Bool) (e : ℕ) : Prop :=
  ∃ d, (∀ j, e < j → j ≤ e + d → bmapGet b j ≠ v) ∧
    (e + 1 + d = b.bits ∧ d % 2 = 1 ∨ e + 1 + d < b.bits ∧ bmapGet b (e + 1 + d) = v ∧ d % 2 = 0)

/-- The number of bits with the other value above a bit is the same in any case. -/
theorem Reached.parity (h : Reached b v e) {d : ℕ} (hd : ∀ j, e < j → j ≤ e + d → bmapGet b j ≠ v) :
    (e + 1 + d = b.bits → d % 2 = 1) ∧
      (e + 1 + d < b.bits → bmapGet b (e + 1 + d) = v → d % 2 = 0) := by
  obtain ⟨d', hd', hend⟩ := h
  rcases lt_trichotomy d d' with hlt | rfl | hgt
  · have hne := hd' (e + 1 + d) (by omega) (by omega)
    refine ⟨fun heq => ?_, fun _ hget => absurd hget hne⟩
    rcases hend with ⟨heq', -⟩ | ⟨hlt', -⟩ <;> omega
  · rcases hend with ⟨heq, hodd⟩ | ⟨hlt, hget, heven⟩
    · exact ⟨fun _ => hodd, fun h => by omega⟩
    · exact ⟨fun h => by omega, fun _ _ => heven⟩
  · rcases hend with ⟨heq, -⟩ | ⟨hlt, hget, -⟩
    · exact ⟨fun h => by omega, fun h => by omega⟩
    · exact absurd hget (hd (e + 1 + d') (by omega) (by omega))

/-- Below a bit with the value. -/
theorem reached_of_get (hlt : e + 1 < b.bits) (hget : bmapGet b (e + 1) = v) : Reached b v e :=
  ⟨0, fun j hj hj' => by omega, .inr ⟨hlt, hget, rfl⟩⟩

/-- Two bits with the other value are passed at once. -/
theorem Reached.skip_two (h : Reached b v (e + 2)) (h2 : bmapGet b (e + 2) ≠ v)
    (h1 : bmapGet b (e + 1) ≠ v) : Reached b v e := by
  obtain ⟨d, hd, hend⟩ := h
  refine ⟨d + 2, fun j hj hj' => ?_, ?_⟩
  · rcases Nat.lt_or_ge (e + 2) j with hlt | hle
    · exact hd j hlt (by omega)
    · obtain rfl | rfl : j = e + 1 ∨ j = e + 2 := by omega
      · exact h1
      · exact h2
  · rw [show e + 1 + (d + 2) = e + 2 + 1 + d by omega, Nat.add_mod_right]
    exact hend

/-- Directly below a bit with the other value from which the loop counts, it does not. -/
theorem Reached.not_below (h : Reached b v (e + 1)) (hget : bmapGet b (e + 1) ≠ v) :
    ¬ Reached b v e := by
  intro hbelow
  obtain ⟨d, hd, hend⟩ := h
  have hd' : ∀ j, e < j → j ≤ e + (d + 1) → bmapGet b j ≠ v := fun j hj hj' => by
    rcases Nat.eq_or_lt_of_le (show e + 1 ≤ j by omega) with rfl | hlt
    · exact hget
    · exact hd j hlt (by omega)
  have hpar := hbelow.parity hd'
  rw [show e + 1 + (d + 1) = e + 1 + 1 + d by omega] at hpar
  rcases hend with ⟨heq, hodd⟩ | ⟨hlt, hval, heven⟩
  · have := hpar.1 heq
    omega
  · have := hpar.2 hlt hval
    omega

/-- The runs that the downward loop can find. -/
def FitsReached (b : Bitmap σ) (v : Bool) (cnt i : ℕ) : Prop :=
  Fits b v cnt 1 i ∧ Reached b v (i + cnt - 1)

/-- The downward loop has counted the `con` bits above `s`, from one that is reached; no run that it
can find ends higher. -/
structure ScanDown (b : Bitmap σ) (v : Bool) (cnt s con : ℕ) : Prop where
  lt : con < cnt
  top : s + con + 2 ≤ b.bits
  run : ∀ j, s < j → j ≤ s + con → bmapGet b j = v
  reached : Reached b v (s + con)
  below : ∀ i, FitsReached b v cnt i → i + cnt ≤ s + con + 1

/-- Above the bitmap the loop ends. -/
theorem searchDown_out (h : b.bits < s) : searchDown b v cnt mul (fuel + 1) s con = .ok s := by
  rw [searchDown, if_neg (by omega)]

theorem ScanDown.found (h : ScanDown b v cnt s con) (hget : bmapGet b s = v)
    (hc : con + 1 = cnt) : FitsReached b v cnt s := by
  have htop := h.top
  refine ⟨⟨one_dvd s, by omega, fun j hj hj' => ?_⟩, ?_⟩
  · rcases Nat.eq_or_lt_of_le hj with rfl | hlt
    · exact hget
    · exact h.run j hlt (by omega)
  · rw [show s + cnt - 1 = s + con by omega]
    exact h.reached

/-- A bit with the other value is one from which the loop counts. -/
theorem ScanDown.reached_miss (h : ScanDown b v cnt s con) : Reached b v s := by
  rcases Nat.eq_zero_or_pos con with rfl | hpos
  · exact h.reached
  · have htop := h.top
    exact reached_of_get (by omega) (h.run (s + 1) (by omega) (by omega))

/-- A bit with the other value at `s`: the runs that can be found are below the next bit. -/
theorem ScanDown.skip (h : ScanDown b v cnt s con) (hget : bmapGet b s ≠ v)
    (hfit : FitsReached b v cnt i) : i + cnt < s := by
  have hle := h.below i hfit
  have hlt := h.lt
  by_contra hge
  rcases Nat.eq_or_lt_of_le (not_lt.1 hge) with heq | hgt
  · -- a run that ends directly below
    obtain ⟨e, rfl⟩ : ∃ e, s = e + 1 := ⟨i + cnt - 1, by omega⟩
    have hend : Reached b v e := by
      have := hfit.2
      rwa [show i + cnt - 1 = e by omega] at this
    exact h.reached_miss.not_below hget hend
  · exact hget (hfit.1.run s (by omega) (by omega))

theorem ScanDown.more (h : ScanDown b v cnt s con) (hpos : 0 < s) (hget : bmapGet b s = v)
    (hc : con + 1 < cnt) : ScanDown b v cnt (s - 1) (con + 1) := by
  have hsum : s - 1 + (con + 1) = s + con := by omega
  refine ⟨hc, hsum ▸ h.top, fun j hj hj' => ?_, hsum ▸ h.reached, hsum ▸ h.below⟩
  rcases Nat.eq_or_lt_of_le (show s ≤ j by omega) with rfl | hlt
  · exact hget
  · exact h.run j hlt (by omega)

/-- Two bits further down. -/
theorem ScanDown.next (h : ScanDown b v cnt s con) (hget : bmapGet b s ≠ v) (hs : 2 ≤ s) :
    ScanDown b v cnt (s - 2) 0 := by
  have htop := h.top
  have hlt := h.lt
  obtain ⟨e, rfl⟩ : ∃ e, s = e + 2 := ⟨s - 2, by omega⟩
  rw [Nat.add_sub_cancel]
  refine ⟨by omega, by omega, fun j hj hj' => by omega, ?_, fun i hi => ?_⟩
  · by_cases h1 : bmapGet b (e + 1) = v
    · exact reached_of_get (by omega) h1
    · exact h.reached_miss.skip_two hget h1
  · have := h.skip hget hi
    omega

/-- **The downward loop** with `mul = 1` finds a run that it reaches, or there is none. -/
theorem searchDown_cases (fuel : ℕ) (hb : b.bits + 2 < 2 ^ 64) (h : ScanDown b v cnt s con) :
    (∃ i, searchDown b v cnt 1 fuel s con = .ok i ∧ FitsReached b v cnt i) ∨
    (∃ i, searchDown b v cnt 1 fuel s con = .ok i ∧ b.bits < i ∧ ∀ j, ¬ FitsReached b v cnt j) ∨
    (searchDown b v cnt 1 fuel s con = .error .fuel ∧ fuel ≤ s + 1) := by
  induction fuel generalizing s con with
  | zero => exact .inr (.inr ⟨rfl, Nat.zero_le _⟩)
  | succ fuel ih =>
    have htop := h.top
    have hlt := h.lt
    -- below bit 0 the index wraps around, and the loop ends
    have hwrap : ∀ {i con'}, b.bits < i → (∀ j, ¬ FitsReached b v cnt j) →
        (∃ i', searchDown b v cnt 1 fuel i con' = .ok i' ∧ FitsReached b v cnt i') ∨
        (∃ i', searchDown b v cnt 1 fuel i con' = .ok i' ∧ b.bits < i' ∧
          ∀ j, ¬ FitsReached b v cnt j) ∨
        (searchDown b v cnt 1 fuel i con' = .error .fuel ∧ fuel + 1 ≤ s + 1) := by
      intro i con' hi hno
      cases fuel with
      | zero => exact .inr (.inr ⟨rfl, by omega⟩)
      | succ fuel => exact .inr (.inl ⟨i, searchDown_out hi, hi, hno⟩)
    have hrest : ∀ {s' con'}, ScanDown b v cnt s' con' → s' < s →
        (∃ i, searchDown b v cnt 1 fuel s' con' = .ok i ∧ FitsReached b v cnt i) ∨
        (∃ i, searchDown b v cnt 1 fuel s' con' = .ok i ∧ b.bits < i ∧
          ∀ j, ¬ FitsReached b v cnt j) ∨
        (searchDown b v cnt 1 fuel s' con' = .error .fuel ∧ fuel + 1 ≤ s + 1) := by
      intro s' con' hscan hless
      rcases ih hscan with hf | hf | ⟨hf, hfuel⟩
      · exact .inl hf
      · exact .inr (.inl hf)
      · exact .inr (.inr ⟨hf, by omega⟩)
    rw [searchDown, if_pos (by omega)]
    by_cases hget : bmapGet b s = v
    · rw [if_pos hget]
      by_cases hfull : con + 1 = cnt
      · rw [if_pos hfull]
        exact .inl ⟨s, rfl, h.found hget hfull⟩
      rw [if_neg hfull]
      rcases Nat.eq_zero_or_pos s with rfl | hpos
      · refine hwrap (by unfold sub64; omega) fun j hj => ?_
        have := h.below j hj
        omega
      · rw [sub64_of_le hpos (by omega)]
        exact hrest (h.more hpos hget (by omega)) (by omega)
    · rw [if_neg hget, back_one]
      rcases Nat.lt_or_ge s 2 with hlow | hhigh
      · refine hwrap (by unfold sub64; omega) fun j hj => ?_
        have := h.skip hget hj
        omega
      · rw [sub64_one_one hhigh (by omega)]
        exact hrest (h.next hget hhigh) (by omega)

/-- The last bit is not reached. -/
theorem not_reached_last (hb : 1 ≤ b.bits) : ¬ Reached b v (b.bits - 1) := by
  rintro ⟨d, -, ⟨heq, hodd⟩ | ⟨hlt, -⟩⟩ <;> omega

/-- The downward search from the end of the bitmap. -/
theorem searchEnd_backward (hb : b.bits + 2 < 2 ^ 64) (hcnt : 0 < cnt)
    (hf : flags &&& bmapSrchBackward ≠ 0) (hhint : flags &&& bmapSrchHinted = 0)
    (hfuel : b.bits < fuel) :
    (∃ i, searchEnd fuel b v cnt 1 flags = .ok i ∧ FitsReached b v cnt i) ∨
    (∃ i, searchEnd fuel b v cnt 1 flags = .ok i ∧ b.bits < i ∧ ∀ j, ¬ FitsReached b v cnt j) := by
  have hend : searchEnd fuel b v cnt 1 flags =
      searchDown b v cnt 1 fuel (sub64 (sub64 b.bits 1) 1) 0 := by
    rw [searchEnd, if_pos hf, if_neg (not_not.2 hhint), back_one]
  -- no run that is reached ends with the bitmap
  have hlast : ∀ i, FitsReached b v cnt i → i + cnt + 1 ≤ b.bits := fun i hi => by
    have hin := hi.1.inside
    have hne : i + cnt ≠ b.bits := fun heq => by
      have hreached := hi.2
      rw [heq] at hreached
      exact not_reached_last (by omega) hreached
    omega
  rw [hend]
  rcases Nat.lt_or_ge b.bits 2 with hsmall | hlarge
  · obtain ⟨fuel, rfl⟩ := Nat.exists_eq_succ_of_ne_zero (show fuel ≠ 0 by omega)
    have hout : b.bits < sub64 (sub64 b.bits 1) 1 := by
      unfold sub64
      omega
    refine .inr ⟨_, searchDown_out hout, hout, fun j hj => ?_⟩
    have := hlast j hj
    omega
  · rw [sub64_one_one hlarge (by omega)]
    have hscan : ScanDown b v cnt (b.bits - 2) 0 := by
      refine ⟨hcnt, by omega, fun j hj hj' => by omega, ?_, fun i hi => ?_⟩
      · by_cases hget : bmapGet b (b.bits - 2 + 1) = v
        · exact reached_of_get (by omega) hget
        · refine ⟨1, fun j hj hj' => ?_, .inl ⟨by omega, rfl⟩⟩
          rwa [show j = b.bits - 2 + 1 by omega]
      · have := hlast i hi
        omega
    rcases searchDown_cases fuel hb hscan with hf | hf | ⟨-, hle⟩
    · exact .inl hf
    · exact .inr hf
    · omega

/-! ### Multiples -/

section Multiples

variable (hdvd : mul ∣ 2 ^ 64)
include hdvd

/-- The downward loop goes on `cnt` bits above a multiple. -/
theorem back_modEq : add64 (bmapPrevMul x mul) cnt ≡ cnt [MOD mul] := by
  have hword : ∀ a, a % 2 ^ 64 ≡ a [MOD mul] := fun a => (Nat.mod_modEq a _).of_dvd hdvd
  have hprev : mul ∣ bmapPrevMul x mul := by
    unfold bmapPrevMul sub64
    refine (Nat.dvd_mod_iff hdvd).2 (dvd_add bmapNextMul_dvd ?_)
    exact Nat.dvd_sub hdvd ((Nat.dvd_mod_iff hdvd).2 dvd_rfl)
  calc add64 (bmapPrevMul x mul) cnt ≡ bmapPrevMul x mul + cnt [MOD mul] := hword _
    _ ≡ 0 + cnt [MOD mul] := (Nat.modEq_zero_iff_dvd.2 hprev).add_right cnt
    _ = cnt := Nat.zero_add cnt

/-- A run that the downward loop finds begins one bit above a multiple, or the loop is left behind
the bitmap. -/
theorem searchDown_multiple (hb : b.bits + 2 < 2 ^ 64) (hs : s + con ≡ cnt [MOD mul])
    (h : searchDown b v cnt mul fuel s con = .ok i) : i ≡ 1 [MOD mul] ∨ b.bits < i := by
  induction fuel generalizing s con with
  | zero => cases h
  | succ fuel ih =>
    rw [searchDown] at h
    split_ifs at h with hin hget hfull
    · cases h
      refine .inl (Nat.ModEq.add_right_cancel' con ?_)
      rw [Nat.add_comm 1, hfull]
      exact hs
    · rcases Nat.eq_zero_or_pos s with rfl | hpos
      · -- below the first bit the index wraps around
        have hout : b.bits < sub64 0 1 := by
          unfold sub64
          omega
        cases fuel with
        | zero => cases h
        | succ fuel =>
          rw [searchDown_out hout] at h
          cases h
          exact .inr hout
      · rw [sub64_of_le hpos (by omega)] at h
        refine ih ?_ h
        rwa [show s - 1 + (con + 1) = s + con by omega]
    · refine ih ?_ h
      rw [Nat.add_zero]
      exact back_modEq hdvd
    · cases h
      exact .inr (not_le.1 hin)

/-- With a power of two above 1 a backward search returns no index. -/
theorem searchOnce_backward_multiple (hb : b.bits + 2 < 2 ^ 64) (h2 : 2 ≤ mul) (hf : flags &&& bmapSrchBackward ≠ 0) :
    searchOnce fuel b v cnt mul flags ≠ .ok (some i) := by
  intro h
  obtain ⟨k, hend, hk⟩ := Prog.except_bind_eq_ok.1 h
  rw [searchEnd, if_pos hf] at hend
  have hcases := searchDown_multiple hdvd hb (by rw [Nat.add_zero]; exact back_modEq hdvd) hend
  split_ifs at hk with hrest hout
  · cases hk
  · rcases hcases with hone | hbehind
    · refine hrest ?_
      rw [show k % mul = 1 % mul from hone, Nat.mod_eq_of_lt (by omega)]
      exact one_ne_zero
    · omega

end Multiples

/-- What keeps the downward loop in front of the assertion, with a power of two that divides `cnt`:
it does not run over the first bit, and finds no run directly above a multiple. -/
structure NoRunAbove (b : Bitmap σ) (v : Bool) (cnt mul : ℕ) : Prop where
  power : mul ∣ 2 ^ 64
  divides : mul ∣ cnt
  first : bmapGet b 0 ≠ v
  above : ∀ k, mul ∣ k → k + cnt ≤ b.bits → ∃ j, k < j ∧ j ≤ k + cnt ∧ bmapGet b j ≠ v

/-- It is left at a multiple. -/
theorem NoRunAbove.searchDown_dvd (h : NoRunAbove b v cnt mul) (hs : mul ∣ s + con) (hlt : con < cnt)
    (hrun : ∀ j, s < j → j ≤ s + con → bmapGet b j = v) (hin : 0 < con → s + con ≤ b.bits)
    (hbits : b.bits < 2 ^ 64) (hcall : searchDown b v cnt mul fuel s con = .ok i) : mul ∣ i := by
  induction fuel generalizing s con with
  | zero => cases hcall
  | succ fuel ih =>
    rw [searchDown] at hcall
    split_ifs at hcall with hle hget hfull
    · have hpos : s ≠ 0 := fun h0 => h.first (h0 ▸ hget)
      have hk : mul ∣ s + con - cnt := Nat.dvd_sub hs h.divides
      obtain ⟨j, hj, hj', hne⟩ := h.above (s + con - cnt) hk (by omega)
      refine absurd ?_ hne
      rcases Nat.eq_or_lt_of_le (show s ≤ j by omega) with rfl | hsj
      · exact hget
      · exact hrun j hsj (by omega)
    · have hpos : s ≠ 0 := fun h0 => h.first (h0 ▸ hget)
      rw [sub64_of_le (by omega) (by omega)] at hcall
      refine ih ?_ (by omega) (fun j hj hj' => ?_) (fun _ => by omega) hcall
      · rwa [show s - 1 + (con + 1) = s + con by omega]
      · rcases Nat.eq_or_lt_of_le (show s ≤ j by omega) with rfl | hsj
        · exact hget
        · exact hrun j hsj (by omega)
    · have hback : add64 (bmapPrevMul (sub64 (sub64 s 1) cnt) mul) cnt ≡ 0 [MOD mul] :=
        (back_modEq h.power).trans (Nat.modEq_zero_iff_dvd.2 h.divides)
      refine ih ?_ (by omega) (fun j hj hj' => by omega) (fun h0 => absurd h0 (lt_irrefl _)) hcall
      rw [Nat.add_zero]
      exact Nat.modEq_zero_iff_dvd.1 hback
    · cases hcall
      rcases Nat.eq_zero_or_pos con with rfl | hpos
      · exact hs
      · have := hin hpos
        omega

/-- Then the assertion holds. -/
theorem NoRunAbove.searchOnce_ne_fatal (h : NoRunAbove b v cnt mul) (hcnt : 0 < cnt) (hbits : b.bits < 2 ^ 64)
    (hf : flags &&& bmapSrchBackward ≠ 0) (msg : String) :
    searchOnce fuel b v cnt mul flags ≠ .error (.fatal msg) := by
  intro hcall
  have hend : searchEnd fuel b v cnt mul flags = searchDown b v cnt mul fuel
      (add64 (bmapPrevMul (sub64 (if flags &&& bmapSrchHinted ≠ 0 then b.hint
        else sub64 b.bits 1) cnt) mul) cnt) 0 := by
    rw [searchEnd, if_pos hf]
  have hback : add64 (bmapPrevMul (sub64 (if flags &&& bmapSrchHinted ≠ 0 then b.hint
      else sub64 b.bits 1) cnt) mul) cnt ≡ 0 [MOD mul] :=
    (back_modEq h.power).trans (Nat.modEq_zero_iff_dvd.2 h.divides)
  rw [searchOnce, hend] at hcall
  cases hdown : searchDown b v cnt mul fuel (add64 (bmapPrevMul (sub64
      (if flags &&& bmapSrchHinted ≠ 0 then b.hint else sub64 b.bits 1) cnt) mul) cnt) 0 with
  | error e =>
    rw [hdown] at hcall
    cases hcall
    exact searchDown_ne_error (by simp) hdown
  | ok k =>
    have hk := h.searchDown_dvd (by rw [Nat.add_zero]; exact Nat.modEq_zero_iff_dvd.1 hback) hcnt
      (fun j hj hj' => by omega) (fun h0 => absurd h0 (lt_irrefl _)) hbits hdown
    rw [hdown] at hcall
    simp only [bind, Except.bind, Nat.mod_eq_zero_of_dvd hk, ne_eq, not_true, if_false] at hcall
    split_ifs at hcall

/-- A search without hint does not read it. -/
theorem bmapSearch_backward_none (h2 : 2 ≤ mul) (hdvd : mul ∣ 2 ^ 64) (hb : b.bits + 2 < 2 ^ 64)
    (hf : flags &&& bmapSrchBackward ≠ 0) (hhint : flags &&& bmapSrchHinted = 0) (hcnt : 0 < cnt) :
    bmapSearch fuel v cnt mul flags b ≠ .ok (some i, b') := by
  intro h
  have heq : max mul 1 = mul := by omega
  rcases hone : searchOnce fuel b v cnt (max mul 1) flags with e | found
  · rw [bmapSearch_error hcnt hone] at h
    cases h
  cases found with
  | none =>
    rw [bmapSearch_none hcnt hhint hone] at h
    cases h
  | some k =>
    rw [heq] at hone
    exact searchOnce_backward_multiple hdvd hb h2 hf hone

/-- A backward search keeps the direction when it is repeated. -/
theorem andNot_hinted_backward_ne (hf : flags &&& bmapSrchBackward ≠ 0) :
    andNot flags bmapSrchHinted &&& bmapSrchBackward ≠ 0 := by
  have hand : ∀ x, x &&& bmapSrchHinted = 2 * (x / 2 % 2) := fun x => by
    have h2 : bmapSrchHinted = 2 ^ 1 := rfl
    rw [h2, Nat.and_two_pow, Nat.testBit_eq_decide_div_mod_eq, pow_one]
    by_cases h : x / 2 % 2 = 1
    · simp [h]
    · simp [show x / 2 % 2 = 0 by omega]
  rw [bmapSrchBackward, Nat.and_one_is_mod] at hf ⊢
  rw [andNot, hand]
  omega

theorem NoRunAbove.bmapSearch_ne_fatal (h : NoRunAbove b v cnt mul) (h2 : 2 ≤ mul) (hcnt : 0 < cnt)
    (hbits : b.bits < 2 ^ 64) (hf : flags &&& bmapSrchBackward ≠ 0) (msg : String) :
    bmapSearch fuel v cnt mul flags b ≠ .error (.fatal msg) := by
  have heq : max mul 1 = mul := by omega
  have hstep : ∀ {flags}, flags &&& bmapSrchBackward ≠ 0 →
      (∀ e, searchOnce fuel b v cnt (max mul 1) flags = .error e → e ≠ .fatal msg) := by
    rintro flags hf e he rfl
    rw [heq] at he
    exact h.searchOnce_ne_fatal hcnt hbits hf msg he
  intro hcall
  rcases hone : searchOnce fuel b v cnt (max mul 1) flags with e | found
  · rw [bmapSearch_error hcnt hone] at hcall
    exact hstep hf e hone (Except.error.inj hcall)
  cases found with
  | some k =>
    rw [bmapSearch_some hcnt hone] at hcall
    cases hcall
  | none =>
    by_cases hhint : flags &&& bmapSrchHinted = 0
    · rw [bmapSearch_none hcnt hhint hone] at hcall
      cases hcall
    rw [bmapSearch_retry hcnt hhint hone] at hcall
    have hf' := andNot_hinted_backward_ne hf
    have hhint' := andNot_hinted flags
    rcases hone' : searchOnce fuel b v cnt (max mul 1) (andNot flags bmapSrchHinted) with
      e | found'
    · rw [bmapSearch_error hcnt hone'] at hcall
      exact hstep hf' e hone' (Except.error.inj hcall)
    cases found' with
    | some k =>
      rw [bmapSearch_some hcnt hone'] at hcall
      cases hcall
    | none =>
      rw [bmapSearch_none hcnt hhint' hone'] at hcall
      cases hcall

end Tachyon.Pmem
