import Tachyon.Pmem.Regions

/-!
# Adding physical memory

`pmem_add` shortens the range it is given at both ends, as long as an end lies in a region, and adds
what is left as a new region.  A region in the middle of the range is not looked for.

* `pmemAdd`: the source;
* `Reachable`: no region lies behind a gap inside of the range;
* `pmemAdd_spec`: the regions then stay disjoint, and only then; their union is right in any case;
* `pmem_add_run`: the same along runs;
* `pmem_add_overlaps`: a range around a region.
-/

namespace Tachyon.Pmem

open Prog List

variable {σ : Type} {r q : Region σ} {regs regs' regs₀ : List (Region σ)}
  {start length start' length' x : ℕ}

/-! ### The function -/

/-- How one scan of `pmem_add` over the regions ends. -/
inductive Scan
  /-- The range is in one region: `return`. -/
  | covered
  /-- The range is shortened: `goto recheck`. -/
  | recheck (start length : ℕ)
  /-- No region meets an end of the range. -/
  | through
  deriving DecidableEq, Repr

/-- The loop of `pmem_add` over the regions. -/
def addScan (start length : ℕ) : List (Region σ) → Scan
  | [] => .through
  | reg :: regs =>
    if reg.start ≤ start ∧ start < add64 reg.start reg.length then
      -- start within this region
      if add64 start length ≤ add64 reg.start reg.length then .covered
      else
        .recheck (add64 reg.start reg.length)
          (sub64 length (sub64 (add64 reg.start reg.length) start))
    else if reg.start < add64 start length ∧ add64 start length < add64 reg.start reg.length then
      -- end within this region
      if reg.start ≤ start then .covered else .recheck start (sub64 reg.start start)
    else addScan start length regs

/-- The scans of `pmem_add`: what is left of the range. -/
def addRecheck : ℕ → ℕ → ℕ → List (Region σ) → Except Halt (Option (ℕ × ℕ))
  | 0, _, _, _ => .error .fuel
  | fuel + 1, start, length, regs =>
    match addScan start length regs with
    | .covered => .ok none
    | .recheck start length => addRecheck fuel start length regs
    | .through => .ok (some (start, length))

/-- `pmem_add`, with the memory `fresh` for the new bitmap.  The region is linked behind
`pmem_region_tail`, which there has to be. -/
def pmemAdd [BitStore σ] (fuel : ℕ) (fresh : Bitmap σ) (start length : ℕ) :
    Prog (List (Region σ)) Unit := fun regs =>
  addRecheck fuel start length regs >>= fun
    | none => .ok ((), regs)
    | some (start, length) =>
      if regs.isEmpty then .error (.pageFault 24)
      else .ok ((), regs ++
        [⟨bmapInit fresh fresh.storage (pmemPages length), start, length⟩])

/-! ### Scans -/

/-- Page-aligned regions, disjoint. -/
structure RegionList (regs : List (Region σ)) : Prop where
  nonempty : regs ≠ []
  ok : ∀ r ∈ regs, r.Ok
  pages : ∀ r ∈ regs, pmemPagesize ∣ r.length
  apart : regs.Pairwise Region.Apart

/-- The memory of the regions. -/
def covered (regs : List (Region σ)) : Set ℕ := {x | ∃ r ∈ regs, InRange r.start r.length x}

/-- A range of whole pages below the end of the address space. -/
structure RangeOk (start length : ℕ) : Prop where
  fits : start + length < 2 ^ 64
  start : pmemPagesize ∣ start
  length : pmemPagesize ∣ length

/-- Every region inside of the range is joined to the start of the range by other regions. -/
def Reachable (regs : List (Region σ)) (start length : ℕ) : Prop :=
  ∀ r ∈ regs, 0 < r.length → start ≤ r.start → r.start + r.length ≤ start + length →
    ∀ x, start ≤ x → x ≤ r.start → x ∈ covered regs

theorem Region.Ok.stop (hr : r.Ok) : add64 r.start r.length = r.start + r.length := by
  have := hr.fits
  rw [pmemPagesize] at this
  exact add64_of_lt (by omega)

/-- An address is in one region only. -/
theorem RegionList.unique (h : RegionList regs) (hr : r ∈ regs) (hq : q ∈ regs)
    (hx : InRange r.start r.length x) (hx' : InRange q.start q.length x) : r = q := by
  have hsymm : Std.Symm (@Region.Apart σ) := ⟨fun s t hst a ha => hst a ha.symm⟩
  by_contra hne
  exact h.apart.forall hr hq hne x ⟨(h.ok r hr).contains_iff.2 hx, (h.ok q hq).contains_iff.2 hx'⟩

/-- What a scan finds. -/
inductive Found (regs : List (Region σ)) (start length : ℕ) : Scan → Prop
  | covered {r : Region σ} (hr : r ∈ regs) (le : r.start ≤ start)
      (stop : start + length ≤ r.start + r.length) : Found regs start length .covered
  | left {r : Region σ} {start' length' : ℕ} (hr : r ∈ regs) (le : r.start ≤ start)
      (lt : start < start') (stop : start' = r.start + r.length)
      (rest : start' + length' = start + length) (pos : 0 < length') :
      Found regs start length (.recheck start' length')
  | right {r : Region σ} {length' : ℕ} (hr : r ∈ regs) (pos : 0 < length')
      (rest : start + length' = r.start) (lt : r.start < start + length)
      (stop : start + length < r.start + r.length) :
      Found regs start length (.recheck start length')
  | through (out : ∀ r ∈ regs, ¬InRange r.start r.length start)
      (stop : ∀ r ∈ regs, r.start < start + length → r.start + r.length ≤ start + length) :
      Found regs start length .through

theorem addScan_found (hok : ∀ r ∈ regs, r.Ok) (hfits : start + length < 2 ^ 64) :
    Found regs start length (addScan start length regs) := by
  induction regs with
  | nil => exact .through (by simp) (by simp)
  | cons r regs ih =>
    have hstop := (hok r mem_cons_self).stop
    have hlt := add64_lt r.start r.length
    rw [hstop] at hlt
    unfold addScan
    rw [hstop, add64_of_lt hfits]
    split_ifs with h1 h2 h3 h4
    · exact .covered mem_cons_self h1.1 h2
    · rw [sub64_of_le h1.2.le hlt, sub64_of_le (by omega) (by omega)]
      exact .left mem_cons_self h1.1 h1.2 rfl (by omega) (by omega)
    · exact .covered mem_cons_self h4 (by omega)
    · rw [sub64_of_le (by omega) (by omega)]
      exact .right mem_cons_self (by omega) (by omega) h3.1 h3.2
    · have htail := ih fun s hs => hok s (mem_cons_of_mem _ hs)
      generalize addScan start length regs = found at htail
      cases htail with
      | covered hr le stop => exact .covered (mem_cons_of_mem _ hr) le stop
      | left hr le lt stop rest pos => exact .left (mem_cons_of_mem _ hr) le lt stop rest pos
      | right hr pos rest lt stop => exact .right (mem_cons_of_mem _ hr) pos rest lt stop
      | through out stop =>
        exact .through (forall_mem_cons.2 ⟨h1, out⟩)
          (forall_mem_cons.2 ⟨fun h => by omega, stop⟩)

/-! ### Shortening -/

/-- What is left of a range: the rest is in regions, and the same regions are out of reach. -/
structure Shortened (regs : List (Region σ)) (start length start' length' : ℕ) : Prop where
  le : start ≤ start'
  stop : start' + length' ≤ start + length
  ok : RangeOk start length → RangeOk start' length'
  rest : ∀ x, InRange start length x → ¬InRange start' length' x → x ∈ covered regs
  reachable : Reachable regs start length ↔ Reachable regs start' length'

theorem Shortened.refl : Shortened regs start length start length :=
  ⟨le_rfl, le_rfl, id, fun _ h h' => absurd h h', Iff.rfl⟩

theorem Shortened.trans {start'' length'' : ℕ} (h : Shortened regs start length start' length')
    (h' : Shortened regs start' length' start'' length'') :
    Shortened regs start length start'' length'' := by
  refine ⟨h.le.trans h'.le, h'.stop.trans h.stop, h'.ok ∘ h.ok, fun x hx hout => ?_,
    h.reachable.trans h'.reachable⟩
  by_cases hin : InRange start' length' x
  · exact h'.rest x hin hout
  · exact h.rest x hx hin

/-- The range starts in the region `r`. -/
theorem shortened_left (h : RegionList regs) (hr : r ∈ regs) (hle : r.start ≤ start)
    (hstop : start' = r.start + r.length) (hlt : start < start')
    (hrest : start' + length' = start + length) :
    Shortened regs start length start' length' := by
  have hin : ∀ x, start ≤ x → x < start' → x ∈ covered regs := fun x h1 h2 =>
    ⟨r, hr, by omega, by omega⟩
  have hdvd : pmemPagesize ∣ start' := hstop ▸ (h.ok r hr).aligned.add (h.pages r hr)
  refine ⟨hlt.le, hrest.le, fun hb => ⟨by have := hb.fits; omega, hdvd, ?_⟩,
    fun x hx hout => hin x hx.1 ?_, fun hr' => ?_, fun hr' => ?_⟩
  · exact (Nat.dvd_add_right hdvd).1 (hrest ▸ hb.start.add hb.length)
  · by_contra hge
    exact hout ⟨by omega, by have := hx.2; omega⟩
  · exact fun q hq hpos hs he x hx hxq => hr' q hq hpos (by omega) (by omega) x (by omega) hxq
  · intro q hq hpos hs he x hx hxq
    rcases Nat.lt_or_ge x start' with hlt' | hge
    · exact hin x hx hlt'
    · exact hr' q hq hpos (by omega) (by omega) x hge hxq

/-- The range ends in the region `r`. -/
theorem shortened_right (h : RegionList regs) (hr : r ∈ regs) (hrest : start + length' = r.start)
    (hlt : r.start < start + length) (hstop : start + length < r.start + r.length) :
    Shortened regs start length start length' := by
  refine ⟨le_rfl, by omega, fun hb => ⟨by have := hb.fits; omega, hb.start, ?_⟩,
    fun x hx hout => ⟨r, hr, ?_⟩, fun hr' => ?_, fun hr' => ?_⟩
  · exact (Nat.dvd_add_right hb.start).1 (hrest ▸ (h.ok r hr).aligned)
  · have hge : ¬x < start + length' := fun hlt' => hout ⟨hx.1, hlt'⟩
    have := hx.2
    exact ⟨by omega, by omega⟩
  · exact fun q hq hpos hs he => hr' q hq hpos hs (by omega)
  · intro q hq hpos hs he
    refine hr' q hq hpos hs ?_
    -- a region that ends in `r` is `r`
    by_contra hgt
    have hqr := h.unique hq hr (x := q.start + q.length - 1) ⟨by omega, by omega⟩
      ⟨by omega, by omega⟩
    subst hqr
    omega

/-- The scans end: the range is in the regions, or what is left of it meets none at an end. -/
theorem addRecheck_spec (h : RegionList regs) (hfits : start + length < 2 ^ 64) :
    ∃ left, (∀ fuel, length < fuel → addRecheck fuel start length regs = .ok left) ∧
      ∃ start' length', Shortened regs start length start' length' ∧
        (left = none ∧ (∀ x, InRange start' length' x → x ∈ covered regs) ∨
          left = some (start', length') ∧ Found regs start' length' .through) := by
  induction length using Nat.strong_induction_on generalizing start with
  | _ length ih =>
    have hfound := addScan_found h.ok hfits
    cases hscan : addScan start length regs with
    | covered =>
      rw [hscan] at hfound
      obtain ⟨hr, hle, hstop⟩ := hfound
      refine ⟨none, fun fuel hfuel => ?_, start, length, .refl, .inl ⟨rfl, fun x hx => ?_⟩⟩
      · rcases fuel with _ | fuel
        · omega
        rw [addRecheck, hscan]
      · exact ⟨_, hr, hle.trans hx.1, hx.2.trans_le hstop⟩
    | through =>
      rw [hscan] at hfound
      refine ⟨some (start, length), fun fuel hfuel => ?_, start, length, .refl, .inr ⟨rfl, hfound⟩⟩
      rcases fuel with _ | fuel
      · omega
      rw [addRecheck, hscan]
    | recheck start' length' =>
      rw [hscan] at hfound
      have hshort : Shortened regs start length start' length' ∧ length' < length := by
        cases hfound with
        | left hr le lt stop rest pos => exact ⟨shortened_left h hr le stop lt rest, by omega⟩
        | right hr pos rest lt stop => exact ⟨shortened_right h hr rest lt stop, by omega⟩
      obtain ⟨hshort, hlt⟩ := hshort
      obtain ⟨left, hrun, start'', length'', hshort', hleft⟩ :=
        ih length' hlt (lt_of_le_of_lt hshort.stop hfits)
      refine ⟨left, fun fuel hfuel => ?_, start'', length'', hshort.trans hshort', hleft⟩
      rcases fuel with _ | fuel
      · omega
      rw [addRecheck, hscan]
      exact hrun _ (by omega)

/-! ### Adding -/

theorem covered_append : covered (regs ++ [r]) = covered regs ∪ {x | InRange r.start r.length x} := by
  ext x
  simp [covered, or_and_right, exists_or]

/-- Shortening takes nothing away from the union. -/
theorem Shortened.union (h : Shortened regs start length start' length') :
    covered regs ∪ {x | InRange start' length' x} = covered regs ∪ {x | InRange start length x} := by
  have hle := h.le
  have hstop := h.stop
  ext x
  constructor
  · rintro (hx | hx)
    · exact .inl hx
    · exact .inr ⟨hle.trans hx.1, hx.2.trans_le hstop⟩
  · rintro (hx | hx)
    · exact .inl hx
    · by_cases hin : InRange start' length' x
      · exact .inr hin
      · exact .inl (h.rest x hx hin)

/-- A range inside of the regions reaches all of them. -/
theorem reachable_of_covered (h : ∀ x, InRange start length x → x ∈ covered regs) :
    Reachable regs start length :=
  fun r _ hpos _ he x hx hxr => h x ⟨hx, by omega⟩

/-- A range that no region meets at an end reaches the regions inside of it only if there are
none. -/
theorem Found.reachable_iff (h : Found regs start length .through) :
    Reachable regs start length ↔
      ∀ r ∈ regs, ∀ x, InRange r.start r.length x → ¬InRange start length x := by
  cases h with | through hout hstop => ?_
  constructor
  · intro hreach r hr x hx hx'
    have hle : start ≤ r.start := by
      by_contra hlt
      have := hx.2
      have := hx'.1
      exact hout r hr ⟨by omega, by omega⟩
    obtain ⟨q, hq, hs⟩ := hreach r hr (by have := hx.1; have := hx.2; omega) hle
      (hstop r hr (lt_of_le_of_lt hx.1 hx'.2)) start le_rfl hle
    exact hout q hq hs
  · intro hdisj r hr hpos hs he
    exact absurd ⟨hs, by omega⟩ (hdisj r hr r.start ⟨le_rfl, by omega⟩)

/-- The regions are disjoint, and their union is `total`. -/
def Partition (regs : List (Region σ)) (total : Set ℕ) : Prop :=
  regs.Pairwise Region.Apart ∧ covered regs = total

/-- The memory of the first regions and of the ranges added. -/
def addedMemory (regs₀ : List (Region σ)) (added : List (ℕ × ℕ)) : Set ℕ :=
  covered regs₀ ∪ {x | ∃ b ∈ added, InRange b.1 b.2 x}

theorem addedMemory_cons (regs₀ : List (Region σ)) (added : List (ℕ × ℕ)) :
    addedMemory regs₀ ((start, length) :: added) =
      addedMemory regs₀ added ∪ {x | InRange start length x} := by
  ext x
  simp only [addedMemory, exists_mem_cons_iff, Set.mem_union, Set.mem_ofPred_eq]
  rw [or_comm (a := InRange start length x), or_assoc]

variable [BitStore σ]

/-- **Adding a range.**  The union is right in any case; the regions stay disjoint exactly if every
region inside of the range is reached from its start. -/
theorem pmemAdd_spec (h : RegionList regs) (hb : RangeOk start length) (fresh : Bitmap σ) :
    ∃ regs', Returns (fun fuel => pmemAdd fuel fresh start length) regs () regs' ∧
      covered regs' = covered regs ∪ {x | InRange start length x} ∧
      (regs'.Pairwise Region.Apart ↔ Reachable regs start length) ∧
      (Reachable regs start length → RegionList regs') := by
  obtain ⟨left, hrun, start', length', hshort, hleft⟩ := addRecheck_spec h hb.fits
  rcases hleft with ⟨rfl, hcov⟩ | ⟨rfl, hfound⟩
  · have hreach := hshort.reachable.2 (reachable_of_covered hcov)
    refine ⟨regs, ⟨length, fun fuel hfuel => ?_⟩, ?_, ⟨fun _ => hreach, fun _ => h.apart⟩,
      fun _ => h⟩
    · show pmemAdd fuel fresh start length regs = _
      unfold pmemAdd
      rw [hrun fuel hfuel]
      rfl
    · rw [← hshort.union]
      exact (Set.union_eq_left.2 fun x hx => hcov x hx).symm
  · have hb' := hshort.ok hb
    set r : Region σ := ⟨bmapInit fresh fresh.storage (pmemPages length'), start', length'⟩ with hr
    have hrok : r.Ok := by
      refine ⟨hb'.start, ?_, bmapInit_bits _ _ _⟩
      obtain ⟨k, hk⟩ := hb'.start.add hb'.length
      have hfits := hb'.fits
      show start' + length' + pmemPagesize ≤ 2 ^ 64
      rw [pmemPagesize] at hk ⊢
      omega
    have hapart : (regs ++ [r]).Pairwise Region.Apart ↔ Reachable regs start length := by
      rw [hshort.reachable, hfound.reachable_iff, pairwise_append]
      constructor
      · rintro ⟨-, -, hdisj⟩ q hq x hx hx'
        exact hdisj q hq r (mem_singleton_self r) x
          ⟨(h.ok q hq).contains_iff.2 hx, hrok.contains_iff.2 hx'⟩
      · intro hdisj
        refine ⟨h.apart, pairwise_singleton _ _, fun q hq s hs x hx => ?_⟩
        obtain rfl := mem_singleton.1 hs
        exact hdisj q hq x ((h.ok q hq).contains_iff.1 hx.1) (hrok.contains_iff.1 hx.2)
    refine ⟨regs ++ [r], ⟨length, fun fuel hfuel => ?_⟩, ?_, hapart, fun hreach => ⟨by simp, ?_, ?_,
      hapart.2 hreach⟩⟩
    · have hne : regs.isEmpty = false := by simpa using h.nonempty
      show pmemAdd fuel fresh start length regs = _
      unfold pmemAdd
      rw [hrun fuel hfuel]
      simp only [bind, Except.bind, hne, Bool.false_eq_true, if_false]
      rfl
    · rw [covered_append, ← hshort.union]
    · simpa [or_imp, forall_and] using ⟨h.ok, hrok⟩
    · simpa [or_imp, forall_and] using ⟨h.pages, hb'.length⟩

/-! ### Runs -/

/-- Calls of `pmem_add` whose ranges all reach the regions inside of them, the last range first. -/
inductive AddRun (regs₀ : List (Region σ)) : List (ℕ × ℕ) → List (Region σ) → Prop
  | start : AddRun regs₀ [] regs₀
  | add {added : List (ℕ × ℕ)} {regs regs' : List (Region σ)} {fresh : Bitmap σ} {start length : ℕ}
      (before : AddRun regs₀ added regs) (range : RangeOk start length)
      (reachable : Reachable regs start length)
      (call : Returns (fun fuel => pmemAdd fuel fresh start length) regs () regs') :
      AddRun regs₀ ((start, length) :: added) regs'

theorem AddRun.inv {added : List (ℕ × ℕ)} (h0 : RegionList regs₀) (hrun : AddRun regs₀ added regs) :
    RegionList regs ∧ covered regs = addedMemory regs₀ added := by
  induction hrun with
  | start => exact ⟨h0, by simp [addedMemory]⟩
  | add _ range reachable call ih =>
    obtain ⟨hl, hc⟩ := ih
    obtain ⟨regs', hcall, hcov, -, hlist⟩ := pmemAdd_spec hl range _
    obtain ⟨-, rfl⟩ := call.unique hcall
    exact ⟨hlist reachable, by rw [hcov, hc, addedMemory_cons]⟩

/-- **Regions never overlap** along a run of `pmem_add` whose ranges reach all regions inside of them,
and their union is what was added.  Every further call returns, and keeps this exactly if its range
is of that kind. -/
theorem pmem_add_run {added : List (ℕ × ℕ)} (h₀ : RegionList regs₀)
    (hrun : AddRun regs₀ added regs) :
    Partition regs (addedMemory regs₀ added) ∧
      ∀ start length (fresh : Bitmap σ), RangeOk start length →
        ∃ regs', Returns (fun fuel => pmemAdd fuel fresh start length) regs () regs' ∧
          (Partition regs' (addedMemory regs₀ ((start, length) :: added)) ↔
            Reachable regs start length) := by
  obtain ⟨hl, hc⟩ := hrun.inv h₀
  refine ⟨⟨hl.apart, hc⟩, fun start length fresh hb => ?_⟩
  obtain ⟨regs', hcall, hcov, hiff, -⟩ := pmemAdd_spec hl hb fresh
  refine ⟨regs', hcall, ?_⟩
  rw [Partition, hcov, hc, addedMemory_cons, hiff]
  exact and_iff_left rfl

/-- A region of one page at `start`. -/
def onePage (start : ℕ) : Region (ℕ → Bool) := ⟨⟨fun _ => false, 1, 0, 0⟩, start, 0x1000⟩

theorem onePage_list {start : ℕ} (h : RangeOk start 0x1000) : RegionList [onePage start] := by
  refine ⟨by simp, ?_, ?_, pairwise_singleton _ _⟩ <;> simp only [forall_mem_singleton]
  · refine ⟨h.start, ?_, show 1 = pmemPages 0x1000 by decide⟩
    obtain ⟨k, hk⟩ := h.start.add h.length
    have := h.fits
    show start + 0x1000 + pmemPagesize ≤ 2 ^ 64
    rw [pmemPagesize] at hk ⊢
    omega
  · exact h.length

/-- A range with a region in its middle is added as a whole. -/
theorem pmem_add_overlaps : RegionList [onePage 0x2000] ∧ RangeOk 0x1000 0x3000 ∧
    ∃ regs', Returns (fun fuel => pmemAdd fuel (onePage 0x1000).bmap 0x1000 0x3000)
      [onePage 0x2000] () regs' ∧ ¬regs'.Pairwise Region.Apart := by
  have hl : RegionList [onePage 0x2000] := onePage_list ⟨by decide, by decide, by decide⟩
  have hb : RangeOk 0x1000 0x3000 := ⟨by decide, by decide, by decide⟩
  obtain ⟨regs', hcall, -, hiff, -⟩ := pmemAdd_spec hl hb (onePage 0x1000).bmap
  refine ⟨hl, hb, regs', hcall, fun hapart => ?_⟩
  obtain ⟨r, hr, hx⟩ := hiff.1 hapart _ (mem_singleton_self _) (by decide) (by decide)
    (by decide) 0x1000 le_rfl (by decide)
  obtain rfl := List.mem_singleton.1 hr
  exact absurd hx.1 (by decide)

/-- A range that starts with a region is shortened. -/
theorem pmem_add_run_shortened : ∃ regs', AddRun [onePage 0x1000] [(0x1000, 0x3000)] regs' ∧
    Partition regs' (addedMemory [onePage 0x1000] [(0x1000, 0x3000)]) := by
  have hl : RegionList [onePage 0x1000] := onePage_list ⟨by decide, by decide, by decide⟩
  have hb : RangeOk 0x1000 0x3000 := ⟨by decide, by decide, by decide⟩
  obtain ⟨regs', hcall, -⟩ := pmemAdd_spec hl hb (onePage 0x1000).bmap
  have hreach : Reachable [onePage 0x1000] 0x1000 0x3000 := fun r hr _ _ _ x hx hxr => by
    obtain rfl := List.mem_singleton.1 hr
    exact ⟨_, hr, hx, lt_of_le_of_lt hxr (by decide)⟩
  have hrun := AddRun.add .start hb hreach hcall
  exact ⟨regs', hrun, (pmem_add_run hl hrun).1⟩

end Tachyon.Pmem
