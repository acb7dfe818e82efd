import Tachyon.Pmem.Add
import Tachyon.Pmem.Reserve

/-!
# Allocations from the regions of `pmem_add`

`pmem_add` takes a range with any start and any length.  The regions it makes are not changed in
shape by any later call: `PmemCall` is one call of `pmem.c`, and `Region.Shaped` what all of them
keep.

* `alloc_aligned_iff`: a block is aligned if the regions that can serve it are, and is not if none of
  them is; it lies in a region unless its address wraps around;
* `fdeg_never_divides`: every region has a page, so that `bmap_fdeg` does not divide by zero, as long
  as no empty range is added outside of the regions.
-/

namespace Tachyon.Pmem

open Prog List

variable {σ : Type} {r r' r'' : Region σ} {regs regs' regs'' regs₀ : List (Region σ)}
  {start length start' length' fuel n a k cur top addr : ℕ} {align : ℤ} {done : Bool}
  {found : Option ℕ}

/-- A region whose bitmap has a bit for each page. -/
structure Region.Shaped (r : Region σ) : Prop where
  start : r.start < 2 ^ 64
  length : r.length < 2 ^ 64
  bits : r.bmap.bits = pmemPages r.length

/-- The same range, with as many bits. -/
structure SameShape (r r' : Region σ) : Prop where
  start : r'.start = r.start
  length : r'.length = r.length
  bits : r'.bmap.bits = r.bmap.bits

theorem SameShape.refl (r : Region σ) : SameShape r r := ⟨rfl, rfl, rfl⟩

theorem SameShape.trans (h : SameShape r r') (h' : SameShape r' r'') : SameShape r r'' :=
  ⟨h'.start.trans h.start, h'.length.trans h.length, h'.bits.trans h.bits⟩

theorem SameShape.shaped (h : SameShape r r') (hr : r.Shaped) : r'.Shaped :=
  ⟨h.start ▸ hr.start, h.length ▸ hr.length, by rw [h.bits, h.length, hr.bits]⟩

/-- The regions of a list one by one. -/
abbrev SameShapes : List (Region σ) → List (Region σ) → Prop := List.Forall₂ SameShape

theorem SameShapes.refl (regs : List (Region σ)) : SameShapes regs regs :=
  forall₂_same.2 fun r _ => .refl r

theorem SameShapes.trans (h : SameShapes regs regs') (h' : SameShapes regs' regs'') :
    SameShapes regs regs'' :=
  List.Forall₂.comp h h' fun _ _ _ hr hr' => hr.trans hr'

/-- The region has pages for a block of `n` bytes at `a`, from a multiple of the alignment on and
not up to its last page. -/
def Region.Gives (r : Region σ) (n : ℕ) (align : ℤ) (a : ℕ) : Prop :=
  ∃ i, a = pmemFromRegbit r i ∧ 0 < pmemPages n ∧
    max (toUnsigned (align.tdiv pmemPagesize)) 1 ∣ i ∧ i < r.bmap.bits ∧
    add64 i (pmemPages n) < r.bmap.bits

theorem SameShape.gives (h : SameShape r r') (hg : r'.Gives n align a) : r.Gives n align a := by
  obtain ⟨i, rfl, hpos, hdvd, hi, hlt⟩ := hg
  rw [h.bits] at hi hlt
  exact ⟨i, by rw [pmemFromRegbit, pmemFromRegbit, h.start], hpos, hdvd, hi, hlt⟩

/-! ### What is left of a range -/

/-- Each scan that shortens the range leaves less of it, but something. -/
theorem addScan_recheck (hlen : length < 2 ^ 64)
    (h : addScan start length regs = .recheck start' length') :
    start' < 2 ^ 64 ∧ 0 < length' ∧ length' < length := by
  induction regs with
  | nil => cases h
  | cons r regs ih =>
    have hstop := add64_lt r.start r.length
    unfold addScan at h
    generalize add64 r.start r.length = stop at h hstop
    split_ifs at h with h1 h2 h3 h4
    · obtain ⟨rfl, rfl⟩ := Scan.recheck.inj h
      -- the end of the range is behind the region, without wrap-around
      unfold add64 at h2
      rw [sub64_of_le h1.2.le hstop, sub64_of_le (by omega) hlen]
      omega
    · obtain ⟨rfl, rfl⟩ := Scan.recheck.inj h
      unfold add64 at h3
      rw [sub64_of_le (by omega) (by omega)]
      omega
    · exact ih h

/-- An empty range is not shortened. -/
theorem addScan_empty (hstart : start < 2 ^ 64) (regs : List (Region σ)) :
    (∃ r ∈ regs, pmemRegContains r start = true) ∧ addScan start 0 regs = .covered ∨
      (¬ ∃ r ∈ regs, pmemRegContains r start = true) ∧ addScan start 0 regs = .through := by
  induction regs with
  | nil => exact .inr ⟨by simp, rfl⟩
  | cons r regs ih =>
    have hin : pmemRegContains r start = true ↔
        r.start ≤ start ∧ start < add64 r.start r.length := by simp [pmemRegContains]
    rw [addScan, add64_of_lt (show start + 0 < 2 ^ 64 from hstart), Nat.add_zero,
      exists_mem_cons_iff, hin]
    by_cases h1 : r.start ≤ start ∧ start < add64 r.start r.length
    · rw [if_pos h1, if_pos h1.2.le]
      exact .inl ⟨.inl h1, rfl⟩
    · rw [if_neg h1, if_neg fun h => h1 ⟨h.1.le, h.2⟩]
      simpa only [h1, false_or] using ih

/-- The scans end. -/
theorem addRecheck_total (start : ℕ) (hlen : length < 2 ^ 64) (regs : List (Region σ)) :
    ∃ left, ∀ fuel, length < fuel → addRecheck fuel start length regs = .ok left := by
  induction length using Nat.strong_induction_on generalizing start with
  | _ length ih =>
    cases hscan : addScan start length regs with
    | covered =>
      refine ⟨none, fun fuel hfuel => ?_⟩
      rcases fuel with _ | fuel
      · omega
      rw [addRecheck, hscan]
    | through =>
      refine ⟨some (start, length), fun fuel hfuel => ?_⟩
      rcases fuel with _ | fuel
      · omega
      rw [addRecheck, hscan]
    | recheck s l =>
      have hlt := (addScan_recheck hlen hscan).2.2
      obtain ⟨left, hrun⟩ := ih l hlt s (by omega)
      refine ⟨left, fun fuel hfuel => ?_⟩
      rcases fuel with _ | fuel
      · omega
      rw [addRecheck, hscan]
      exact hrun _ (by omega)

/-- Something is left of a range with something in it. -/
theorem addRecheck_left (hstart : start < 2 ^ 64) (hlen : length < 2 ^ 64)
    (h : addRecheck fuel start length regs = .ok (some (start', length'))) :
    start' < 2 ^ 64 ∧ length' ≤ length ∧ (0 < length → 0 < length') := by
  induction fuel generalizing start length with
  | zero => cases h
  | succ fuel ih =>
    unfold addRecheck at h
    cases hscan : addScan start length regs with
    | covered =>
      rw [hscan] at h
      cases h
    | through =>
      rw [hscan] at h
      cases h
      exact ⟨hstart, le_rfl, id⟩
    | recheck s l =>
      rw [hscan] at h
      obtain ⟨hs, hpos, hlt⟩ := addScan_recheck hlen hscan
      obtain ⟨h1, h2, h3⟩ := ih hs (by omega) h
      exact ⟨h1, by omega, fun _ => h3 hpos⟩

/-- A range has a page exactly if it is not empty and rounding it up does not wrap around. -/
theorem pmemPages_pos_iff (hn : n < 2 ^ 64) :
    0 < pmemPages n ↔ 0 < n ∧ n + pmemPagesize ≤ 2 ^ 64 := by
  by_cases h : n + pmemPagesize ≤ 2 ^ 64
  · rw [pmemPages_eq h]
    omega
  · have hwrap : pmemPages n = 0 := by
      rw [pmemPagesize] at h
      rw [pmemPages, alignUp, alignDn_pmemPagesize, pmemPagesize, add64]
      omega
    omega

/-! ### What the calls keep -/

variable [BitStore σ]

/-- A search in one region. -/
theorem allocRegion_shape (h : allocRegion fuel r n align = .ok (found, r')) :
    SameShape r r' ∧ ∀ a, found = some a → r.Gives n align a := by
  obtain ⟨⟨o, b⟩, hsearch, h⟩ := except_bind_eq_ok.1 h
  rcases bmapSearch_index hsearch with ⟨rfl, rfl⟩ | ⟨i, rfl, hcnt, hdvd, hi, rfl⟩
  · cases h
    exact ⟨.refl r, fun a ha => by cases ha⟩
  rcases hfill : bmapFill { r.bmap with hint := add64 i (pmemPages n) } true i
    (add64 i (pmemPages n)) with ⟨done, b'⟩
  simp only [hfill, Except.ok.injEq, Prod.mk.injEq] at h
  obtain ⟨rfl, rfl⟩ := h
  have hbits : (bmapFill { r.bmap with hint := add64 i (pmemPages n) } true i
      (add64 i (pmemPages n))).2.bits = r.bmap.bits := bmapFill_bits
  rw [hfill] at hbits
  refine ⟨⟨rfl, rfl, hbits⟩, fun a ha => ?_⟩
  cases done
  · cases ha
  · rw [if_pos rfl, Option.some.injEq] at ha
    exact ⟨i, ha.symm, hcnt, hdvd, hi, (bmapFill_lt hfill).2⟩

variable {useFdeg checkPass v : Bool} {p : Pass} {b : Bitmap σ} {cnt : ℕ}

theorem pmemAllocHelper_shape (h : pmemAllocHelper fuel n align useFdeg regs = .ok (found, regs')) :
    SameShapes regs regs' ∧ ∀ a, found = some a → ∃ r ∈ regs, r.Gives n align a := by
  induction regs generalizing regs' found with
  | nil =>
    obtain ⟨rfl, rfl⟩ := h
    exact ⟨.nil, fun a ha => by cases ha⟩
  | cons r regs ih =>
    obtain ⟨fdeg, -, h⟩ := except_bind_eq_ok.1 h
    obtain ⟨⟨o, r'⟩, ho, h⟩ := except_bind_eq_ok.1 h
    have hone : SameShape r r' ∧ ∀ a, o = some a → r.Gives n align a := by
      split_ifs at ho with hfull
      · exact allocRegion_shape ho
      · cases ho
        exact ⟨.refl r, fun a ha => by cases ha⟩
    cases o with
    | some b =>
      obtain ⟨rfl, rfl⟩ := h
      exact ⟨.cons hone.1 (SameShapes.refl regs), fun a ha => ⟨r, mem_cons_self, hone.2 a ha⟩⟩
    | none =>
      obtain ⟨⟨q, qs⟩, hq, h⟩ := except_bind_eq_ok.1 h
      obtain ⟨rfl, rfl⟩ := h
      obtain ⟨hshape, hgives⟩ := ih hq
      refine ⟨.cons hone.1 hshape, fun a ha => ?_⟩
      obtain ⟨s, hs, hg⟩ := hgives a ha
      exact ⟨s, mem_cons_of_mem _ hs, hg⟩

/-- An allocation. -/
theorem pmemAlloc_shape (h : pmemAlloc fuel n align regs = .ok (a, regs')) :
    SameShapes regs regs' ∧ ∃ r ∈ regs, r.Gives n align a := by
  obtain ⟨⟨found, regs1⟩, h1, h⟩ := except_bind_eq_ok.1 h
  obtain ⟨hshape1, hgives1⟩ := pmemAllocHelper_shape h1
  cases found with
  | some b =>
    cases h
    exact ⟨hshape1, hgives1 _ rfl⟩
  | none =>
    obtain ⟨⟨found, regs2⟩, h2, h⟩ := except_bind_eq_ok.1 h
    obtain ⟨hshape2, hgives2⟩ := pmemAllocHelper_shape h2
    cases found with
    | none => cases h
    | some b =>
      cases h
      obtain ⟨r', hr', hg⟩ := hgives2 _ rfl
      obtain ⟨r, hr, hsame⟩ := hshape1.exists_of_mem_right hr'
      exact ⟨hshape1.trans hshape2, r, hr, hsame.gives hg⟩

theorem reserveRegion_shape
    (h : reserveRegion checkPass top fuel r cur = .ok (p, r')) : SameShape r r' := by
  induction fuel generalizing r cur with
  | zero => cases h
  | succ fuel ih =>
    have hmark : SameShape r (if checkPass then r else
        { r with bmap := bmapSet r.bmap (pmemToRegbit r cur) true }) := by
      split_ifs
      · exact .refl _
      · exact ⟨rfl, rfl, bmapSet_bits⟩
    unfold reserveRegion at h
    dsimp only at h
    generalize (if checkPass then r else _) = r1 at hmark h
    split_ifs at h
    · cases h
      exact .refl _
    · cases h
      exact hmark
    · exact hmark.trans (ih h)
    · cases h
      exact .refl _

theorem reserveRegions_shape
    (h : reserveRegions checkPass top fuel regs cur = .ok (p, regs')) : SameShapes regs regs' := by
  induction regs generalizing regs' p cur with
  | nil =>
    cases h
    exact .nil
  | cons r regs ih =>
    obtain ⟨⟨p', r'⟩, hr, h⟩ := except_bind_eq_ok.1 h
    have hshape := reserveRegion_shape hr
    cases p' with
    | next cur' =>
      obtain ⟨⟨q, qs⟩, hq, h⟩ := except_bind_eq_ok.1 h
      cases h
      exact .cons hshape (ih hq)
    | refused | passOk =>
      cases h
      exact .cons hshape (SameShapes.refl regs)

theorem reservePass_shape
    (h : reservePass checkPass top fuel regs cur = .ok (done, regs')) : SameShapes regs regs' := by
  induction fuel generalizing regs cur with
  | zero => cases h
  | succ fuel ih =>
    unfold reservePass at h
    split_ifs at h with hlt
    · obtain ⟨⟨p, regs1⟩, hr, h⟩ := except_bind_eq_ok.1 h
      have hshape := reserveRegions_shape hr
      cases p with
      | next cur' => exact hshape.trans (ih h)
      | refused | passOk =>
        cases h
        exact hshape
    · cases h
      exact SameShapes.refl _

theorem pmemReserve_shape
    (h : pmemReserve fuel addr length regs = .ok (done, regs')) : SameShapes regs regs' := by
  obtain ⟨-, ⟨-, hcheck⟩ | ⟨-, regs1, b, hcheck, hset⟩⟩ := pmemReserve_cases h
  · exact reservePass_shape hcheck
  · exact (reservePass_shape hcheck).trans (reservePass_shape hset)

theorem pmemFree_shape : SameShapes regs (pmemFree addr length regs) := by
  induction regs with
  | nil => exact .nil
  | cons r regs ih =>
    unfold pmemFree
    split_ifs with hin
    · exact .cons ⟨rfl, rfl, bmapFill_bits⟩ (SameShapes.refl regs)
    · exact .cons (.refl r) ih

/-! ### Adding -/

/-- `pmem_add` leaves the regions alone, or adds one behind them. -/
theorem pmemAdd_cases {fresh : Bitmap σ} (hstart : start < 2 ^ 64) (hlen : length < 2 ^ 64)
    (h : pmemAdd fuel fresh start length regs = .ok ((), regs')) :
    regs' = regs ∨ ∃ r : Region σ, r.Shaped ∧ regs' = regs ++ [r] := by
  obtain ⟨left, hleft, h⟩ := except_bind_eq_ok.1 h
  cases left with
  | none =>
    cases h
    exact .inl rfl
  | some range =>
    obtain ⟨hs, hle, -⟩ := addRecheck_left hstart hlen hleft
    split_ifs at h with hempty
    simp only [Except.ok.injEq, Prod.mk.injEq, true_and] at h
    exact .inr ⟨_, ⟨hs, lt_of_le_of_lt hle hlen, bmapInit_bits _ _ _⟩, h.symm⟩

/-! ### Runs -/

/-- One call that returns, with a condition `C` for the ranges added. -/
inductive PmemCall (C : List (Region σ) → ℕ → ℕ → Prop) :
    List (Region σ) → List (Region σ) → Prop
  | add {regs regs' : List (Region σ)} {start length : ℕ} {fresh : Bitmap σ}
      (start_lt : start < 2 ^ 64) (length_lt : length < 2 ^ 64) (range : C regs start length)
      (call : Returns (fun fuel => pmemAdd fuel fresh start length) regs () regs') :
      PmemCall C regs regs'
  | alloc {regs regs' : List (Region σ)} {fuel n a : ℕ} {align : ℤ}
      (call : pmemAlloc fuel n align regs = .ok (a, regs')) : PmemCall C regs regs'
  | reserve {regs regs' : List (Region σ)} {fuel addr length : ℕ} {done : Bool}
      (call : pmemReserve fuel addr length regs = .ok (done, regs')) : PmemCall C regs regs'
  | free (regs : List (Region σ)) (addr length : ℕ) : PmemCall C regs (pmemFree addr length regs)

variable {C : List (Region σ) → ℕ → ℕ → Prop}

/-- A call keeps the shape of the regions, or adds one. -/
theorem PmemCall.shapes (h : PmemCall C regs regs') :
    SameShapes regs regs' ∨ ∃ r : Region σ, r.Shaped ∧ regs' = regs ++ [r] := by
  cases h with
  | add start_lt length_lt range call =>
    obtain ⟨m, call⟩ := call
    rcases pmemAdd_cases start_lt length_lt (call (m + 1) (by omega)) with rfl | hadded
    · exact .inl (SameShapes.refl _)
    · exact .inr hadded
  | alloc call => exact .inl (pmemAlloc_shape call).1
  | reserve call => exact .inl (pmemReserve_shape call)
  | free addr length => exact .inl pmemFree_shape

/-- Every region has a bit for each of its pages, along every run. -/
theorem shaped_run (h0 : ∀ r ∈ regs₀, r.Shaped)
    (hrun : Relation.ReflTransGen (PmemCall C) regs₀ regs) : ∀ r ∈ regs, r.Shaped := by
  induction hrun with
  | refl => exact h0
  | tail _ hcall ih =>
    rcases hcall.shapes with hsame | ⟨s, hs, rfl⟩
    · intro r' hr'
      obtain ⟨r, hr, hrr⟩ := hsame.exists_of_mem_right hr'
      exact hrr.shaped (ih r hr)
    · simpa [or_imp, forall_and] using ⟨ih, hs⟩

/-! ### Alignment -/

/-- The block at `a` of `n` bytes lies in the region. -/
def Region.Inside (r : Region σ) (a n : ℕ) : Prop := r.start ≤ a ∧ a + n ≤ r.start + r.length

/-- The alignment in bytes, from the number of pages that the search is given. -/
theorem max_align (hk : k < 63) :
    max (2 ^ k) pmemPagesize =
      pmemPagesize * max (toUnsigned ((2 ^ k : ℤ).tdiv pmemPagesize)) 1 := by
  interval_cases k <;> decide

theorem max_align_dvd (hk : k < 63) : max (2 ^ k) pmemPagesize ∣ 2 ^ 64 := by
  have hmax : max (2 ^ k) pmemPagesize = 2 ^ max k 12 :=
    ((pow_right_mono₀ (by norm_num : 1 ≤ 2)).map_max (b := 12)).symm
  rw [hmax]
  exact pow_dvd_pow 2 (by omega)

omit [BitStore σ] in
/-- The block as a part of the region. -/
theorem Region.Shaped.gives (hr : r.Shaped) (hn : n < 2 ^ 64) (hk : k < 63)
    (h : r.Gives n (2 ^ k) a) :
    ∃ off, a = add64 r.start off ∧ off + n ≤ r.length ∧
      (r.Inside a n ↔ r.start + off < 2 ^ 64) ∧
      (max (2 ^ k) pmemPagesize ∣ a ↔ max (2 ^ k) pmemPagesize ∣ r.start) := by
  obtain ⟨i, rfl, hpos, hdvd, hi, hlt⟩ := h
  have hlength := hr.length
  have hcnt := pmemPages_le n
  have hbits : r.bmap.bits ≤ 2 ^ 52 := hr.bits ▸ pmemPages_le _
  rw [add64_of_lt (by omega)] at hlt
  obtain ⟨-, hn'⟩ := (pmemPages_pos_iff hn).1 hpos
  obtain ⟨-, hl'⟩ := (pmemPages_pos_iff hlength).1 (by rw [← hr.bits]; omega)
  rw [hr.bits, pmemPages_eq hn', pmemPages_eq hl'] at hlt
  have hoff : mul64 i pmemPagesize = pmemPagesize * i := by
    rw [Nat.mul_comm, mul64_of_lt (by rw [pmemPagesize]; omega), Nat.mul_comm]
  have hend : pmemPagesize * i + n ≤ r.length := by
    rw [pmemPagesize]
    omega
  refine ⟨pmemPagesize * i, by rw [pmemFromRegbit, hoff], hend, ?_, ?_⟩
  · rw [pmemFromRegbit, hoff, Region.Inside, add64]
    constructor
    · rintro ⟨hge, -⟩
      omega
    · intro hfit
      omega
  · have hmul : max (2 ^ k) pmemPagesize ∣ pmemPagesize * i := by
      rw [max_align hk]
      exact mul_dvd_mul_left _ hdvd
    rw [pmemFromRegbit, hoff, add64, Nat.dvd_mod_iff (max_align_dvd hk), Nat.dvd_add_left hmul]

/-- A region that can serve a request for `n` bytes: `bmap_fill` also marks the page behind. -/
def CanServe (n : ℕ) (r : Region σ) : Prop := pmemPages n < r.bmap.bits

/-- The region that `pmem_add` makes of a range. -/
def added (start length : ℕ) : Region (ℕ → Bool) :=
  ⟨bmapInit (onePage start).bmap (onePage start).bmap.storage (pmemPages length), start, length⟩

/-- Ranges in front of the first region are added as they are. -/
theorem pmemAdd_front (h : start + length < 0x10000) :
    Returns (fun fuel => pmemAdd fuel (onePage start).bmap start length) [onePage 0x10000] ()
      [onePage 0x10000, added start length] := by
  have hscan : addScan start length [onePage 0x10000] = .through := by
    have hin : ¬(0x10000 ≤ start ∧ start < add64 0x10000 0x1000) := by omega
    have hend : ¬(0x10000 < add64 start length ∧ add64 start length < add64 0x10000 0x1000) := by
      rw [add64_of_lt (by omega)]
      omega
    rw [onePage, addScan, if_neg hin, if_neg hend]
    rfl
  refine ⟨0, fun fuel hfuel => ?_⟩
  obtain ⟨fuel, rfl⟩ := Nat.exists_eq_add_of_lt hfuel
  show pmemAdd (0 + fuel + 1) _ _ _ _ = _
  rw [pmemAdd, addRecheck, hscan]
  rfl

theorem onePage_shaped (h : start < 2 ^ 64) : (onePage start).Shaped :=
  ⟨h, show 0x1000 < 2 ^ 64 by decide, show 1 = pmemPages 0x1000 by decide⟩

theorem pmemCall_front {C : List (Region (ℕ → Bool)) → ℕ → ℕ → Prop}
    (h : start + length < 0x10000) (hC : C [onePage 0x10000] start length) :
    PmemCall C [onePage 0x10000] [onePage 0x10000, added start length] :=
  .add (by omega) (by omega) hC (pmemAdd_front h)

theorem allocRegion_ne_divideError : allocRegion fuel r n align ≠ .error .divideError := by
  refine except_bind_ne_error (bmapSearch_ne_error (by simp) (.inr (by simp))) fun found _ => ?_
  rcases found.1 with _ | i <;> exact nofun

theorem pmemAllocHelper_ne_divideError (h : ∀ r ∈ regs, 0 < r.bmap.bits) :
    pmemAllocHelper fuel n align useFdeg regs ≠ .error .divideError := by
  induction regs with
  | nil => simp [pmemAllocHelper]
  | cons r regs ih =>
    rw [forall_mem_cons] at h
    refine except_bind_ne_error ?_ fun fdeg _ => except_bind_ne_error ?_ fun found _ => ?_
    · split_ifs
      · rw [bmapFdeg, if_neg h.1.ne']
        simp
      · simp
    · split_ifs
      · exact allocRegion_ne_divideError
      · simp
    · rcases found.1 with _ | a
      · exact except_bind_ne_error (ih h.2) fun _ _ => by simp
      · simp

omit [BitStore σ] in
theorem SameShapes.bits_pos (h : SameShapes regs regs') (hbits : ∀ r ∈ regs, 0 < r.bmap.bits) :
    ∀ r ∈ regs', 0 < r.bmap.bits := by
  intro r' hr'
  obtain ⟨r, hr, hsame⟩ := h.exists_of_mem_right hr'
  rw [hsame.bits]
  exact hbits r hr

/-- The only division of `pmem_alloc` is the one by the number of bits. -/
theorem pmemAlloc_ne_divideError (h : ∀ r ∈ regs, 0 < r.bmap.bits) :
    pmemAlloc fuel n align regs ≠ .error .divideError := by
  refine except_bind_ne_error (pmemAllocHelper_ne_divideError h) ?_
  rintro ⟨found, regs1⟩ h1
  cases found with
  | some a => exact nofun
  | none =>
    refine except_bind_ne_error (pmemAllocHelper_ne_divideError
      ((pmemAllocHelper_shape h1).1.bits_pos h)) ?_
    rintro ⟨found, regs2⟩ -
    cases found <;> exact nofun

/-- A range that adds a page or nothing: rounding its length up does not wrap around, and it is not
empty or starts in a region. -/
def AddsPage (regs : List (Region σ)) (start length : ℕ) : Prop :=
  length + pmemPagesize ≤ 2 ^ 64 ∧ (0 < length ∨ ∃ r ∈ regs, pmemRegContains r start = true)

/-- Which ranges can be added without an empty region. -/
theorem pmemAdd_bits_pos (hne : regs ≠ []) (hbits : ∀ r ∈ regs, 0 < r.bmap.bits)
    (hstart : start < 2 ^ 64) (hlen : length + pmemPagesize ≤ 2 ^ 64) (fresh : Bitmap σ) :
    ∃ regs', Returns (fun fuel => pmemAdd fuel fresh start length) regs () regs' ∧ regs' ≠ [] ∧
      ((∀ r ∈ regs', 0 < r.bmap.bits) ↔ AddsPage regs start length) := by
  have hlen' : length < 2 ^ 64 := lt_of_lt_of_le (Nat.lt_add_of_pos_right (by decide)) hlen
  have hempty : regs.isEmpty = false := by simpa using hne
  obtain ⟨left, hrun⟩ := addRecheck_total start hlen' regs
  have hone := hrun (length + 1) (Nat.lt_succ_self _)
  cases left with
  | none =>
    refine ⟨regs, ⟨length, fun fuel hfuel => ?_⟩, hne, iff_of_true hbits ⟨hlen, ?_⟩⟩
    · show pmemAdd fuel fresh start length regs = _
      rw [pmemAdd, hrun fuel hfuel]
      rfl
    rcases Nat.eq_zero_or_pos length with rfl | hpos
    · right
      rcases addScan_empty hstart regs with ⟨hin, -⟩ | ⟨-, hscan⟩
      · exact hin
      · rw [addRecheck, hscan] at hone
        cases hone
    · exact .inl hpos
  | some range =>
    obtain ⟨start', length'⟩ := range
    obtain ⟨-, hle, hpos⟩ := addRecheck_left hstart hlen' hone
    refine ⟨regs ++ [⟨bmapInit fresh fresh.storage (pmemPages length'), start', length'⟩],
      ⟨length, fun fuel hfuel => ?_⟩, by simp, ?_⟩
    · show pmemAdd fuel fresh start length regs = _
      rw [pmemAdd, hrun fuel hfuel]
      simp [bind, Except.bind, hempty]
    have hlast : (∀ r ∈ regs ++ [⟨bmapInit fresh fresh.storage (pmemPages length'), start',
        length'⟩], 0 < r.bmap.bits) ↔ 0 < length' := by
      simp only [mem_append, mem_singleton, or_imp, forall_and, forall_eq,
        bmapInit_bits, pmemPages_pos_iff (lt_of_le_of_lt hle hlen')]
      exact ⟨fun h => h.2.1, fun h => ⟨hbits, h, by omega⟩⟩
    rw [hlast]
    rcases Nat.eq_zero_or_pos length with rfl | h
    · refine iff_of_false (by omega) ?_
      rintro ⟨-, h0 | hin⟩
      · exact absurd h0 (lt_irrefl 0)
      · rcases addScan_empty hstart regs with ⟨-, hscan⟩ | ⟨hout, -⟩
        · rw [addRecheck, hscan] at hone
          cases hone
        · exact hout hin
    · exact iff_of_true (hpos h) ⟨hlen, .inl h⟩

/-- **Fill degrees.**  As long as the ranges add a page or nothing, every region has a bit and
`pmem_alloc` does not divide by zero; any other range of that length adds a region without bits. -/
theorem fdeg_never_divides (hne : regs₀ ≠ []) (h₀ : ∀ r ∈ regs₀, 0 < r.bmap.bits)
    (hrun : Relation.ReflTransGen (PmemCall AddsPage) regs₀ regs) :
    (∀ r ∈ regs, 0 < r.bmap.bits) ∧
      (∀ fuel n align, pmemAlloc fuel n align regs ≠ .error .divideError) ∧
      ∀ start length (fresh : Bitmap σ), start < 2 ^ 64 → length + pmemPagesize ≤ 2 ^ 64 →
        ∃ regs', Returns (fun fuel => pmemAdd fuel fresh start length) regs () regs' ∧
          ((∀ r ∈ regs', 0 < r.bmap.bits) ↔ AddsPage regs start length) := by
  have hinv : regs ≠ [] ∧ ∀ r ∈ regs, 0 < r.bmap.bits := by
    induction hrun with
    | refl => exact ⟨hne, h₀⟩
    | @tail regs regs' _ hcall ih =>
      have hkeep : SameShapes regs regs' → regs' ≠ [] ∧ ∀ r ∈ regs', 0 < r.bmap.bits :=
        fun hsame => ⟨fun hnil => ih.1 (List.forall₂_nil_right_iff.1 (hnil ▸ hsame)),
          hsame.bits_pos ih.2⟩
      cases hcall with
      | add start_lt length_lt range call =>
        obtain ⟨regs₁, hcall₁, hne₁, hiff⟩ := pmemAdd_bits_pos ih.1 ih.2 start_lt range.1 _
        obtain ⟨-, rfl⟩ := call.unique hcall₁
        exact ⟨hne₁, hiff.2 range⟩
      | alloc call => exact hkeep (pmemAlloc_shape call).1
      | reserve call => exact hkeep (pmemReserve_shape call)
      | free => exact hkeep pmemFree_shape
  refine ⟨hinv.2, fun fuel n align => pmemAlloc_ne_divideError hinv.2,
    fun start length fresh hstart hlen => ?_⟩
  obtain ⟨regs', hcall, -, hiff⟩ := pmemAdd_bits_pos hinv.1 hinv.2 hstart hlen fresh
  exact ⟨regs', hcall, hiff⟩

theorem fdeg_never_divides_pages :
    (∀ r ∈ [onePage 0x10000, added 0x1000 0x4000], 0 < r.bmap.bits) ∧ ∀ fuel n align,
      pmemAlloc fuel n align [onePage 0x10000, added 0x1000 0x4000] ≠ .error .divideError := by
  have hcall : PmemCall AddsPage [onePage 0x10000] [onePage 0x10000, added 0x1000 0x4000] :=
    pmemCall_front (by decide) ⟨by decide, .inl (by decide)⟩
  obtain ⟨hbits, halloc, -⟩ := fdeg_never_divides (by simp)
    (List.forall_mem_singleton.2 (by decide)) (.single hcall)
  exact ⟨hbits, halloc⟩

/-- An empty range outside of the regions: the next allocation that gets to its region divides by
zero. -/
theorem fdeg_divides_by_zero :
    Returns (fun fuel => pmemAdd fuel (onePage 0x1000).bmap 0x1000 0) [onePage 0x10000] ()
      [onePage 0x10000, added 0x1000 0] ∧ (added 0x1000 0).bmap.bits = 0 ∧
    pmemAlloc 8 0x1000 0x1000 [onePage 0x10000, added 0x1000 0] = .error .divideError :=
  ⟨pmemAdd_front (by decide), by decide, eq_error_of_halted (by decide)⟩

end Tachyon.Pmem
