import Tachyon.Pmem.Missed

/-!
# Reservations in one region

With a single region that covers the range no page is missed, and `pmem_reserve` returns.

* `pmemReserve_returns`: it returns, and it refuses only if a page of the range is taken;
* `pmemReserve_taken`: the pages taken afterwards;
* `reserved`, `reserveAll_taken`: a list of reservations, each of which succeeds or fails as a whole;
* `Granted`, `mem_reserved`: which of them succeed.
-/

namespace Tachyon.Pmem

open Prog List

variable {σ : Type} {r : Region σ} {top fuel addr length p : ℕ} {checkPass : Bool}
  {rs : List (ℕ × ℕ)}

/-! ### One reservation -/

/-- The range of a reservation is covered by the region. -/
structure Covers (r : Region σ) (addr length : ℕ) : Prop where
  start : r.start ≤ addr
  stop : addr + length ≤ r.start + r.length

theorem add_of_covers (hr : r.Ok) (hc : Covers r addr length) :
    add64 addr length = addr + length := by
  have hfit := hr.fits
  have hstop := hc.stop
  refine add64_of_lt ?_
  rw [pmemPagesize] at hfit
  omega

/-- A list of one region has no page that is missed. -/
theorem not_missed (hr : r.Ok) (hc : Covers r addr length) : ¬Missed [r] addr length p := by
  have hfit := hr.fits
  have hstop := hc.stop
  have horder : ∀ c, wrongOrder [r] c = false := fun c => by simp [wrongOrder]
  rintro (hwrap | ⟨n, -, hskip⟩)
  · rw [pmemPagesize] at hfit
    omega
  · cases n with
    | zero => cases hskip
    | succ n =>
      rw [skipped, horder] at hskip
      cases hskip

/-- The pages of a range that the region covers. -/
theorem mem_pagesOf_iff (hr : r.Ok) (hdvd : pmemPagesize ∣ addr) (hc : Covers r addr length) :
    p ∈ pagesOf addr length ↔ InRange addr length p ∧ InRegions [r] p := by
  have hfit := hr.fits
  have hstart := hc.start
  have hstop := hc.stop
  obtain ⟨a, ha⟩ := hdvd
  obtain ⟨b, hb⟩ := hr.aligned
  rw [mem_pagesOf, pmemPages_eq (by omega)]
  rw [pmemPagesize] at hfit ha hb ⊢
  constructor
  · rintro ⟨i, hi, rfl⟩
    refine ⟨⟨by omega, by omega⟩, r, mem_singleton_self r, a - b + i, ?_, ?_⟩
    · rw [hr.bits_eq]
      omega
    · rw [Region.page, pmemPagesize]
      omega
  · rintro ⟨⟨hle, hlt⟩, s, hs, j, hj, rfl⟩
    obtain rfl := mem_singleton.1 hs
    rw [Region.page, pmemPagesize] at hle hlt ⊢
    exact ⟨b + j - a, by omega, by omega⟩

variable [BitStore σ]

theorem reserveRegion_inside {fuel cur : ℕ} (hr : r.Ok) (hdvd : pmemPagesize ∣ cur)
    (hstart : r.start ≤ cur) (hlt : cur < top) (htop : top ≤ r.start + r.length)
    (hfuel : top ≤ cur + pmemPagesize * fuel) :
    ∃ p r', reserveRegion checkPass top fuel r cur = .ok (p, r') ∧ (p = .passOk ∨ p = .refused ∧
      checkPass = true ∧ ∃ i < r.bmap.bits, cur ≤ r.page i ∧ r.page i < top ∧ readBit r.bmap.storage
      i = true) := by
  induction fuel generalizing cur r with
  | zero => omega
  | succ fuel ih =>
    have hc : pmemRegContains r cur = true := hr.contains_iff.2 ⟨hstart, by omega⟩
    obtain ⟨hpage, hbit⟩ := hr.page_regbit hdvd hc
    have hnext := hr.add64_page hc
    unfold reserveRegion
    rw [if_pos hc]
    dsimp only
    rw [bmapGet_of_lt hbit]
    by_cases hget : (checkPass && readBit r.bmap.storage (pmemToRegbit r cur)) = true
    · rw [if_pos hget]
      rw [Bool.and_eq_true] at hget
      exact ⟨_, _, rfl, Or.inr ⟨rfl, hget.1, _, hbit, hpage.ge, hpage.trans_lt hlt, hget.2⟩⟩
    rw [if_neg hget]
    by_cases hend : top ≤ add64 cur pmemPagesize
    · rw [if_pos hend]
      exact ⟨_, _, rfl, Or.inl rfl⟩
    rw [if_neg hend, hnext]
    have hdvd' : pmemPagesize ∣ cur + pmemPagesize := hnext ▸ dvd_add64_page hdvd
    have hfuel' : top ≤ cur + pmemPagesize + pmemPagesize * fuel := by
      rw [pmemPagesize] at hfuel ⊢
      omega
    cases checkPass with
    | true =>
      obtain ⟨p, r', hrun, hp⟩ := ih hr hdvd' (by omega) (by omega) htop hfuel'
      refine ⟨p, r', hrun, hp.imp_right ?_⟩
      rintro ⟨hp, hcheck, i, hi, hle, hbit'⟩
      exact ⟨hp, hcheck, i, hi, by omega, hbit'⟩
    | false =>
      have hr' : Region.Ok { r with bmap := bmapSet r.bmap (pmemToRegbit r cur) true } :=
        ⟨hr.aligned, hr.fits, bmapSet_bits.trans hr.bits⟩
      obtain ⟨p, r', hrun, hp⟩ := ih hr' hdvd' (Nat.le_add_right_of_le hstart) (by omega) htop
        hfuel'
      refine ⟨p, r', hrun, hp.imp_right ?_⟩
      rintro ⟨-, hcheck, -⟩
      cases hcheck

/-- One pass over a range that the region covers. -/
theorem reservePass_inside (checkPass : Bool) (hr : r.Ok) (hdvd : pmemPagesize ∣ addr)
    (hstart : r.start ≤ addr) (htop : top ≤ r.start + r.length)
    (hfuel : top ≤ addr + pmemPagesize * fuel) :
    ∃ done regs', reservePass checkPass top (fuel + 1) [r] addr = .ok (done, regs') ∧
      (done = false → checkPass = true ∧ ∃ p ∈ taken [r], addr ≤ p ∧ p < top) := by
  unfold reservePass
  by_cases hlt : addr < top
  · obtain ⟨p, r', hrun, hp⟩ := reserveRegion_inside hr hdvd hstart hlt htop hfuel
    rw [if_pos hlt, reserveRegions, hrun]
    rcases hp with rfl | ⟨rfl, hcheck, i, hi, hle, hlt', hbit⟩
    · exact ⟨true, [r'], rfl, by simp⟩
    · exact ⟨false, [r'], rfl, fun _ =>
        ⟨hcheck, r.page i, ⟨r, mem_singleton_self r, i, hi, hbit, rfl⟩, hle, hlt'⟩⟩
  · rw [if_neg hlt]
    exact ⟨true, [r], rfl, by simp⟩

theorem pmemReserve_returns (hok : RegionsOk [r]) (hdvd : pmemPagesize ∣ addr)
    (hc : Covers r addr length) (hfuel : length < fuel) :
    ∃ done regs', pmemReserve fuel addr length [r] = .ok (done, regs') ∧
      (done = false → ∃ p ∈ taken [r], addr ≤ p ∧ p < addr + length) := by
  rcases fuel with _ | fuel
  · omega
  have hadd := add_of_covers hok.head_ok hc
  have hroom : addr + length ≤ addr + pmemPagesize * fuel := by
    rw [pmemPagesize]
    omega
  have halign : ¬alignRst addr pmemPagesize ≠ 0 := by
    obtain ⟨k, rfl⟩ := hdvd
    rw [pmemPagesize, show (4096 : ℕ) = 2 ^ 12 from rfl, alignRst_two_pow, not_not]
    exact Nat.mul_mod_right _ _
  obtain ⟨first, regs1, hcheck, hfirst⟩ := reservePass_inside true hok.head_ok hdvd
    hc.start hc.stop hroom
  obtain ⟨rfl, -⟩ := reservePass_check hok hdvd hcheck
  unfold pmemReserve
  rw [if_neg halign, hadd, hcheck]
  cases first with
  | false => exact ⟨false, [r], rfl, fun _ => (hfirst rfl).2⟩
  | true =>
    obtain ⟨second, regs', hset, -⟩ := reservePass_inside false hok.head_ok hdvd
      hc.start hc.stop hroom
    refine ⟨true, regs', ?_, by simp⟩
    show (reservePass false (addr + length) (fuel + 1) [r] addr >>= fun q => .ok (true, q.2)) = _
    rw [hset]
    rfl

/-- `pmem_reserve` for each range of a list; a refusal does not matter to the caller. -/
def reserveAll (fuel : ℕ) : List (ℕ × ℕ) → Prog (List (Region σ)) Unit
  | [] => pure ()
  | (addr, length) :: rs => do
    let _ ← pmemReserve fuel addr length
    reserveAll fuel rs

theorem reserveAll_append {t t' : List (Region σ)} {rs' : List (ℕ × ℕ)} :
    reserveAll fuel (rs ++ rs') t = .ok ((), t') ↔ ∃ t1, reserveAll fuel rs t = .ok ((), t1) ∧
      reserveAll fuel rs' t1 = .ok ((), t') := by
  induction rs generalizing t with
  | nil =>
    refine ⟨fun h => ⟨t, rfl, h⟩, ?_⟩
    rintro ⟨t1, h1, h⟩
    cases h1
    exact h
  | cons x rs ih =>
    simp only [cons_append, reserveAll, bind_eq_ok, ih]
    constructor
    · rintro ⟨b, t1, hx, t2, h2, h⟩
      exact ⟨t2, ⟨b, t1, hx, h2⟩, h⟩
    · rintro ⟨t2, ⟨b, t1, hx, h2⟩, h⟩
      exact ⟨b, t1, hx, t2, h2, h⟩

section Exact

variable [ExactBits σ]

/-- **What one reservation takes**: all pages of the range if none of them was taken, and nothing
otherwise. -/
theorem pmemReserve_taken (hok : RegionsOk [r]) (hdvd : pmemPagesize ∣ addr)
    (hc : Covers r addr length) (hfuel : length < fuel) :
    ∃ done r', pmemReserve fuel addr length [r] = .ok (done, [r']) ∧ RegionsOk [r'] ∧
      r'.start = r.start ∧ r'.length = r.length ∧ ∀ p, p ∈ taken [r'] ↔ p ∈ taken [r] ∨
        (p ∈ pagesOf addr length ∧ ∀ q ∈ pagesOf addr length, q ∉ taken [r]) := by
  have hfit := hok.head_ok.fits
  have hstop := hc.stop
  have hwords : addr < 2 ^ 64 ∧ length < 2 ^ 64 := by
    rw [pmemPagesize] at hfit
    omega
  have hmem : ∀ {q}, q ∈ pagesOf addr length ↔ InRange addr length q ∧ InRegions [r] q :=
    mem_pagesOf_iff hok.head_ok hdvd hc
  obtain ⟨done, regs', hrun, hdone⟩ := pmemReserve_returns hok hdvd hc hfuel
  rcases pmemReserve_spec hok hrun with ⟨rfl, rfl⟩ | ⟨rfl, hm, -, hpages⟩
  · refine ⟨false, r, hrun, hok, rfl, rfl, fun p => ⟨Or.inl, ?_⟩⟩
    rintro (hp | ⟨-, hfree⟩)
    · exact hp
    · obtain ⟨q, hq, hle, hlt⟩ := hdone rfl
      refine absurd hq (hfree q (hmem.2 ⟨⟨hle, hlt⟩, ?_⟩))
      obtain ⟨s, hs, i, hi, -, rfl⟩ := hq
      exact ⟨s, hs, i, hi, rfl⟩
  · have hset : ∀ q, q ∈ reservePages fuel addr length [r] ↔ q ∈ pagesOf addr length := fun q => by
      refine ⟨fun hq => ?_, fun hq => ?_⟩
      · obtain ⟨hle, hlt, hin, -⟩ := hpages q hq
        rw [add_of_covers hok.head_ok hc] at hlt
        exact hmem.2 ⟨⟨hle, hlt⟩, hin⟩
      · obtain ⟨hrange, hin⟩ := hmem.1 hq
        exact (reserve_mem_iff hok hwords.1 hwords.2 hrun hrange hin).2 (not_missed hok.head_ok hc)
    obtain ⟨r', rfl, hmark⟩ : ∃ r', regs' = [r'] ∧ Marked true (reservePages fuel addr length [r])
        r r' := by
      cases hm with
      | cons hmark hnil =>
        cases hnil
        exact ⟨_, rfl, hmark⟩
    refine ⟨true, r', hrun, hok.marked hm, hmark.start, hmark.length, fun p => ?_⟩
    rw [hm.taken_true fun q hq => (hpages q hq).2.2.1, hset, or_comm]
    refine or_congr_right (and_iff_left fun q hq => ?_).symm
    exact (hpages q ((hset q).2 hq)).2.2.2

/-! ### A list of reservations -/

/-- The pages that a list of reservations has marked, after the pages `done`: a range with a page
that is marked already is left out. -/
def reserved : List ℕ → List (ℕ × ℕ) → List ℕ
  | done, [] => done
  | done, (addr, length) :: rs =>
    reserved (if ∀ q ∈ pagesOf addr length, q ∉ done then done ++ pagesOf addr length else done) rs

theorem reserveAll_taken {before : Set ℕ} {done : List ℕ}
    (hok : RegionsOk [r]) (htaken : ∀ p, p ∈ taken [r] ↔ p ∈ before ∨ p ∈ done)
    (hrs : ∀ x ∈ rs, pmemPagesize ∣ x.1 ∧ Covers r x.1 x.2 ∧ x.2 < fuel ∧
      ∀ p ∈ pagesOf x.1 x.2, p ∉ before) :
    ∃ r', reserveAll fuel rs [r] = .ok ((), [r']) ∧ RegionsOk [r'] ∧
      ∀ p, p ∈ taken [r'] ↔ p ∈ before ∨ p ∈ reserved done rs := by
  induction rs generalizing done r with
  | nil => exact ⟨r, rfl, hok, htaken⟩
  | cons x rs ih =>
    obtain ⟨hdvd, hc, hfuel, hbefore⟩ := hrs x mem_cons_self
    obtain ⟨b, r1, hrun, hok1, hstart, hlength, htaken1⟩ := pmemReserve_taken hok hdvd hc hfuel
    have hfree : (∀ q ∈ pagesOf x.1 x.2, q ∉ taken [r]) ↔ ∀ q ∈ pagesOf x.1 x.2, q ∉ done := by
      refine forall₂_congr fun q hq => not_congr ?_
      rw [htaken q]
      exact or_iff_right (hbefore q hq)
    have hmarks : ∀ p, p ∈ taken [r1] ↔ p ∈ before ∨
        p ∈ (if ∀ q ∈ pagesOf x.1 x.2, q ∉ done then done ++ pagesOf x.1 x.2 else done) := by
      intro p
      rw [htaken1, htaken, hfree]
      split_ifs with hall
      · rw [mem_append, and_iff_left hall, or_assoc]
      · refine or_iff_left ?_
        rintro ⟨-, h⟩
        exact hall h
    obtain ⟨r', hrest, hok', htaken'⟩ := ih hok1 hmarks fun y hy => by
      obtain ⟨hdvd', hc', hrest⟩ := hrs y (mem_cons_of_mem _ hy)
      refine ⟨hdvd', ⟨?_, ?_⟩, hrest⟩
      · rw [hstart]
        exact hc'.start
      · rw [hstart, hlength]
        exact hc'.stop
    refine ⟨r', ?_, hok', htaken'⟩
    rw [reserveAll, run_ok hrun]
    exact hrest

/-- A page that is taken is not allocated. -/
theorem keptOut_of_taken {regs : List (Region σ)} (hok : RegionsOk regs) (hp : p ∈ taken regs) :
    KeptOut p pmemPagesize regs := by
  refine Honoured.keptOut hok fun q hq hin => ?_
  have hdvd : ∀ {a}, InRegions regs a → pmemPagesize ∣ a := by
    rintro a ⟨r, hr, i, -, rfl⟩
    exact (hok.ok r hr).page_dvd i
  have hpin : InRegions regs p := by
    obtain ⟨r, hr, i, hi, -, rfl⟩ := hp
    exact ⟨r, hr, i, hi, rfl⟩
  obtain ⟨a, rfl⟩ := hdvd hpin
  obtain ⟨b, rfl⟩ := hdvd hin
  obtain ⟨hle, hlt⟩ := hq
  have hab : b = a := by
    rw [pmemPagesize] at hle hlt
    omega
  rwa [hab]

end Exact

/-- The pages of range `i` of a list; none behind its end. -/
def rangePages (rs : List (ℕ × ℕ)) (i : ℕ) : List ℕ :=
  pagesOf (rs.getD i (0, 0)).1 (rs.getD i (0, 0)).2

/-- Range `i` is granted if it has no page in common with an earlier range that is granted. -/
def Granted (rs : List (ℕ × ℕ)) (i : ℕ) : Prop :=
  ∀ j, j < i → Granted rs j → ∀ q ∈ rangePages rs i, q ∉ rangePages rs j
termination_by i

theorem rangePages_append {x : ℕ × ℕ} {i : ℕ} (h : i < rs.length) :
    rangePages (rs ++ [x]) i = rangePages rs i := by
  rw [rangePages, getD_append _ _ _ _ h, rangePages]

theorem rangePages_last (rs : List (ℕ × ℕ)) (x : ℕ × ℕ) :
    rangePages (rs ++ [x]) rs.length = pagesOf x.1 x.2 := by
  rw [rangePages, getD_append_right _ _ _ _ le_rfl, Nat.sub_self]
  rfl

theorem rangePages_behind {i : ℕ} (h : rs.length ≤ i) : rangePages rs i = [] := by
  rw [rangePages, getD_eq_default _ _ h]
  rfl

/-- Later ranges do not matter. -/
theorem granted_append {x : ℕ × ℕ} {i : ℕ} (h : i < rs.length) :
    Granted (rs ++ [x]) i ↔ Granted rs i := by
  induction i using Nat.strong_induction_on with
  | _ i ih =>
    rw [Granted, Granted]
    refine forall₂_congr fun j hj => ?_
    rw [ih j hj (hj.trans h), rangePages_append h, rangePages_append (hj.trans h)]

theorem reserved_append {done : List ℕ} {x : ℕ × ℕ} : reserved done (rs ++ [x]) =
    if ∀ q ∈ pagesOf x.1 x.2, q ∉ reserved done rs then reserved done rs ++ pagesOf x.1 x.2
    else reserved done rs := by
  induction rs generalizing done with
  | nil => rfl
  | cons y rs ih => exact ih

/-- The pages that are marked are those of the ranges that are granted. -/
theorem mem_reserved : p ∈ reserved [] rs ↔ ∃ i, Granted rs i ∧ p ∈ rangePages rs i := by
  induction rs using List.reverseRecOn generalizing p with
  | nil =>
    refine iff_of_false (not_mem_nil) ?_
    rintro ⟨i, -, hp⟩
    rw [rangePages_behind (Nat.zero_le i)] at hp
    exact not_mem_nil hp
  | append_singleton rs x ih =>
    -- the last range is granted if none of its pages is marked before
    have hlast : Granted (rs ++ [x]) rs.length ↔ ∀ q ∈ pagesOf x.1 x.2, q ∉ reserved [] rs := by
      rw [Granted, rangePages_last]
      constructor
      · intro h q hq hmem
        obtain ⟨j, hj, hqj⟩ := ih.1 hmem
        have hlt : j < rs.length := by
          by_contra hge
          rw [rangePages_behind (not_lt.1 hge)] at hqj
          exact not_mem_nil hqj
        refine h j hlt ((granted_append hlt).2 hj) q hq ?_
        rwa [rangePages_append hlt]
      · intro h j hlt hj q hq hqj
        rw [rangePages_append hlt] at hqj
        exact h q hq (ih.2 ⟨j, (granted_append hlt).1 hj, hqj⟩)
    have hsplit : (∃ i, Granted (rs ++ [x]) i ∧ p ∈ rangePages (rs ++ [x]) i) ↔
        (∃ i, Granted rs i ∧ p ∈ rangePages rs i) ∨
          Granted (rs ++ [x]) rs.length ∧ p ∈ pagesOf x.1 x.2 := by
      constructor
      · rintro ⟨i, hi, hp⟩
        rcases lt_trichotomy i rs.length with hlt | rfl | hgt
        · rw [granted_append hlt] at hi
          rw [rangePages_append hlt] at hp
          exact .inl ⟨i, hi, hp⟩
        · rw [rangePages_last] at hp
          exact .inr ⟨hi, hp⟩
        · rw [rangePages_behind (by simpa using hgt)] at hp
          exact absurd hp not_mem_nil
      · rintro (⟨i, hi, hp⟩ | ⟨hi, hp⟩)
        · have hlt : i < rs.length := by
            by_contra hge
            rw [rangePages_behind (not_lt.1 hge)] at hp
            exact not_mem_nil hp
          exact ⟨i, (granted_append hlt).2 hi, by rwa [rangePages_append hlt]⟩
        · exact ⟨rs.length, hi, by rwa [rangePages_last]⟩
    rw [hsplit, hlast, ← ih, reserved_append]
    split_ifs with hall
    · rw [mem_append, and_iff_right hall]
    · rw [or_iff_left fun h => hall h.1]

end Tachyon.Pmem
