import Tachyon.Pmem.Created
import Tachyon.Pmem.Search

/-!
# When `pmem_alloc` gives up

A request for one page or more is served from a run of free pages that does not reach the end of its
region: `bmap_fill` refuses the last page.  A search that starts at the hint can also be stopped by
the free pages at the end of the region, although there is a run in front of the hint; the region is
then searched once more only if it was considered in both passes.

* `Usable`, `Blocked`: what one search finds, and what stops it;
* `Hit`: a visit of the region is successful; `Serves`: one of the two passes is;
* `alloc_returns_iff`: `pmem_alloc` returns a block exactly if some region serves the request.
-/

namespace Tachyon.Pmem

open Prog List

variable {σ : Type} [BitStore σ] {b : Bitmap σ} {r r' : Region σ} {regs regs' : List (Region σ)}
  {cnt flags fuel hint i j n p mul : ℕ} {align : ℤ}

/-! ### One search -/

/-- A run of `cnt` free bits with another bit behind it. -/
structure Usable (b : Bitmap σ) (cnt i : ℕ) : Prop where
  inside : i + cnt < b.bits
  free : ∀ j, i ≤ j → j < i + cnt → bmapGet b j = false

/-- The last two bits are free, or the last one if only one is looked for, and the search starts in
front of them. -/
def Blocked (b : Bitmap σ) (cnt p : ℕ) : Prop :=
  p + min cnt 2 ≤ b.bits ∧ ∀ j < b.bits, b.bits ≤ j + min cnt 2 → bmapGet b j = false

theorem Usable.fits (h : Usable b cnt i) : Fits b false cnt 1 i :=
  ⟨one_dvd i, h.inside.le, h.free⟩

/-- The run at the end of the bitmap is not usable, and stops the search. -/
theorem Fits.blocked (h : Fits b false cnt 1 i) (hend : b.bits ≤ i + cnt) (hp : p ≤ i) :
    Blocked b cnt p := by
  have hin := h.inside
  exact ⟨by omega, fun j hj hle => h.run j (by omega) (by omega)⟩

theorem Blocked.of_tail (h : Tail b false p) : Blocked b cnt p := by
  obtain ⟨hp, h2, h1⟩ := h
  refine ⟨by omega, fun j hj hle => ?_⟩
  obtain rfl | rfl : j = b.bits - 2 ∨ j = b.bits - 1 := by omega
  · exact h2
  · exact h1

/-- Without a run, only two free bits at the end stop the search. -/
theorem Blocked.tail (h : Blocked b cnt p) (hcnt : 0 < cnt)
    (hno : ∀ j, p ≤ j → ¬Fits b false cnt 1 j) : Tail b false p := by
  obtain ⟨hp, hfree⟩ := h
  obtain rfl | hcnt : cnt = 1 ∨ 2 ≤ cnt := by omega
  · refine absurd ⟨one_dvd _, by omega, fun j hj hlt => hfree j (by omega) (by omega)⟩
      (hno (b.bits - 1) (by omega))
  · rw [Nat.min_eq_right hcnt] at hp hfree
    exact ⟨hp, hfree _ (by omega) (by omega), hfree _ (by omega) (by omega)⟩

/-- **One search** finds a usable run, an index at which the range reaches the end of the bitmap, or
nothing. -/
theorem searchOnce_usable (flags : ℕ) (hf : flags &&& bmapSrchBackward = 0) (hcnt : 0 < cnt)
    (hb : b.bits + 1 < 2 ^ 64) (hh : b.hint + 1 < 2 ^ 64) (hfuel : b.bits < fuel) :
    (∃ i, searchOnce fuel b false cnt 1 flags = .ok (some i) ∧ forwardFrom b flags ≤ i ∧
      Usable b cnt i) ∨
    (∃ i, searchOnce fuel b false cnt 1 flags = .ok (some i) ∧ i < b.bits ∧ b.bits ≤ i + cnt ∧
      (∀ j, forwardFrom b flags ≤ j → ¬Usable b cnt j) ∧ Blocked b cnt (forwardFrom b flags)) ∨
    (searchOnce fuel b false cnt 1 flags = .ok none ∧
      (∀ j, forwardFrom b flags ≤ j → ¬Usable b cnt j) ∧
      ¬Blocked b cnt (forwardFrom b flags)) := by
  have hfrom : forwardFrom b flags + 1 < 2 ^ 64 := by
    unfold forwardFrom
    split_ifs <;> omega
  have hnext : bmapNextMul (forwardFrom b flags) 1 = forwardFrom b flags :=
    bmapNextMul_one (by omega)
  have hone := searchOnce_forward fuel (v := false) hf Nat.one_pos hcnt
    ⟨hb, by omega, by rwa [hnext]⟩
  rw [hnext] at hone
  rcases hone with ⟨s, hs, hle, hfit, hleast⟩ | ⟨hno, ⟨h2, -⟩ | ⟨-, ht, hs⟩ | ⟨-, ht, s, hle, hs⟩⟩ |
    ⟨-, hsmall⟩
  · have hin := hfit.inside
    rcases Nat.lt_or_ge (s + cnt) b.bits with hlt | hge
    · exact .inl ⟨s, hs, hle, hlt, hfit.run⟩
    · refine .inr (.inl ⟨s, hs, by omega, hge, fun j hj hu => ?_, hfit.blocked hge hle⟩)
      have hsj : s ≤ j := not_lt.1 fun hlt => hleast j hj hlt hu.fits
      have := hu.inside
      omega
  · omega
  · exact .inr (.inr ⟨hs, fun j hj hu => hno j hj hu.fits, fun hblock => ht (hblock.tail hcnt hno)⟩)
  · obtain ⟨hlt, hrun⟩ := searchOnce_spec hb hh (.inl rfl) hcnt hf hs
    refine .inr (.inl ⟨s, hs, hlt, ?_, fun j hj hu => hno j hj hu.fits, .of_tail ht⟩)
    by_contra hin
    exact hno s hle ⟨one_dvd s, by omega, hrun (by omega)⟩
  · omega

/-- With the last word as the hint the search wraps around to the first bit and does not look at
it. -/
theorem searchOnce_last (hh : b.hint + 1 = 2 ^ 64) (hb : 0 < b.bits) (hb' : b.bits + 1 < 2 ^ 64)
    (hfuel : 0 < fuel) : searchOnce fuel b false cnt 1 bmapSrchHinted = .ok (some 0) := by
  obtain ⟨fuel, rfl⟩ := Nat.exists_eq_add_of_lt hfuel
  have hhint : b.hint = 2 ^ 64 - 1 := by omega
  have hend : searchEnd (0 + fuel + 1) b false cnt 1 bmapSrchHinted = .ok 0 := by
    rw [searchEnd, if_neg (by decide), if_pos (by decide), bmapNextMul_one (by omega), searchUp,
      if_neg (fun h => by omega), hhint]
    rfl
  rw [searchOnce, hend]
  simp only [bind, Except.bind]
  rw [if_neg (by decide), if_neg (by omega)]

/-! ### One visit -/

/-- A visit of the region is successful. -/
def Hit (b : Bitmap σ) (cnt : ℕ) : Prop :=
  b.hint + 1 = 2 ^ 64 ∧ cnt < b.bits ∨
    (∃ i, Usable b cnt i) ∧ ((∃ i, b.hint ≤ i ∧ Usable b cnt i) ∨ ¬Blocked b cnt b.hint)

theorem not_hit (hh : b.hint + 1 ≠ 2 ^ 64) (hno : ∀ i, ¬Usable b cnt i) : ¬Hit b cnt := by
  rintro (⟨hlast, -⟩ | ⟨⟨i, hu⟩, -⟩)
  · exact hh hlast
  · exact hno i hu

/-- **The search of a visit**: at the index found there is room for the run, or not, or there is no
usable run at all. -/
theorem bmapSearch_visit (hmul : max mul 1 = 1) (hcnt : 0 < cnt) (hpos : 0 < b.bits)
    (hb : b.bits + 1 < 2 ^ 64) (hword : b.hint < 2 ^ 64) (hfuel : b.bits < fuel) :
    (∃ i, bmapSearch fuel false cnt mul bmapSrchHinted b =
        .ok (some i, { b with hint := add64 i cnt }) ∧
      i < b.bits ∧ (i + cnt < b.bits ↔ Hit b cnt)) ∨
    (bmapSearch fuel false cnt mul bmapSrchHinted b = .ok (none, b) ∧ b.hint + 1 < 2 ^ 64 ∧
      ∀ i, ¬Usable b cnt i) := by
  have hfrom : forwardFrom b bmapSrchHinted = b.hint := if_pos (by decide)
  have hfrom0 : forwardFrom b (andNot bmapSrchHinted bmapSrchHinted) = 0 := if_neg (by decide)
  rcases Nat.lt_or_ge (b.hint + 1) (2 ^ 64) with hh | hh
  · rcases searchOnce_usable bmapSrchHinted (by decide) hcnt hb hh hfuel with
      ⟨i, hs, hi, hu⟩ | ⟨i, hs, hi, hend, hno, hblock⟩ | ⟨hs, -, hblock⟩
    · have hin := hu.inside
      exact .inl ⟨i, bmapSearch_some hcnt (by rwa [hmul]), by omega,
        iff_of_true hin (.inr ⟨⟨i, hu⟩, .inl ⟨i, hfrom ▸ hi, hu⟩⟩)⟩
    · rw [hfrom] at hno hblock
      refine .inl ⟨i, bmapSearch_some hcnt (by rwa [hmul]), hi, iff_of_false (by omega) ?_⟩
      rintro (⟨hlast, -⟩ | ⟨-, ⟨j, hj, hu⟩ | hfree⟩)
      · omega
      · exact hno j hj hu
      · exact hfree hblock
    · -- nothing from the hint on: the search starts again from the first bit
      rw [bmapSearch_retry hcnt (by decide) (by rwa [hmul])]
      rcases searchOnce_usable (andNot bmapSrchHinted bmapSrchHinted) (by decide) hcnt hb hh hfuel
        with ⟨i, hs, -, hu⟩ | ⟨i, hs, hi, hend, hno, -⟩ | ⟨hs, hno, -⟩
      · have hin := hu.inside
        exact .inl ⟨i, bmapSearch_some hcnt (by rwa [hmul]), by omega,
          iff_of_true hin (.inr ⟨⟨i, hu⟩, .inr hblock⟩)⟩
      · refine .inl ⟨i, bmapSearch_some hcnt (by rwa [hmul]), hi, iff_of_false (by omega) ?_⟩
        exact not_hit hh.ne fun j => hno j (by omega)
      · exact .inr ⟨bmapSearch_none hcnt (by decide) (by rwa [hmul]), hh, fun j => hno j (by omega)⟩
  · refine .inl ⟨0, bmapSearch_some hcnt ?_, hpos, ?_⟩
    · rw [hmul]
      exact searchOnce_last (by omega) hpos hb (by omega)
    rw [Nat.zero_add]
    refine ⟨fun hlt => .inl ⟨by omega, hlt⟩, ?_⟩
    rintro (⟨-, hlt⟩ | ⟨⟨i, hu⟩, -⟩)
    · exact hlt
    · have := hu.inside
      omega

/-- A region with pages, and a word for its hint. -/
structure Region.Ready (r : Region σ) : Prop where
  pos : 0 < r.bmap.bits
  le : r.bmap.bits ≤ 2 ^ 52
  hint : r.bmap.hint < 2 ^ 64

/-- The region with another hint. -/
def Region.withHint (r : Region σ) (hint : ℕ) : Region σ :=
  { r with bmap := { r.bmap with hint := hint } }

/-- Behind the end of the bitmap nothing stops a search. -/
theorem hit_withHint (hh : hint + 1 < 2 ^ 64) (hcnt : 0 < cnt)
    (hend : (∀ i, ¬Usable r.bmap cnt i) ∨ r.bmap.bits ≤ hint) :
    Hit (r.withHint hint).bmap cnt ↔ ∃ i, Usable r.bmap cnt i := by
  have husable : ∀ i, Usable (r.withHint hint).bmap cnt i ↔ Usable r.bmap cnt i := fun i =>
    ⟨fun h => ⟨h.inside, h.free⟩, fun h => ⟨h.inside, h.free⟩⟩
  simp only [Hit, husable]
  constructor
  · rintro (⟨h, -⟩ | ⟨h, -⟩)
    · exact absurd h hh.ne
    · exact h
  · rintro ⟨i, hi⟩
    have hbits := hend.resolve_left fun hno => hno i hi
    refine .inr ⟨⟨i, hi⟩, .inr fun hblock => ?_⟩
    have hle : hint + min cnt 2 ≤ r.bmap.bits := hblock.1
    omega

/-- The alignment of a page or less: every index will do. -/
theorem max_small_align (h0 : -4096 < align) (h1 : align ≤ 4096) :
    max (toUnsigned (align.tdiv pmemPagesize)) 1 = 1 := by
  rw [toUnsigned, pmemPagesize]
  rcases le_or_gt 0 align with hpos | hneg
  · rw [Int.tdiv_eq_ediv_of_nonneg hpos]
    omega
  · have hzero : align.tdiv (4096 : ℕ) = 0 := by
      rw [← neg_neg align, Int.neg_tdiv, Int.tdiv_eq_zero_of_lt (by omega) (by omega), neg_zero]
    rw [hzero]
    rfl

/-- **One visit** of a region. -/
theorem allocRegion_visit (hr : r.Ready) (h0 : -4096 < align) (h1 : align ≤ 4096)
    (hcnt : 0 < pmemPages n) (hfuel : r.bmap.bits < fuel) :
    (∃ a r', allocRegion fuel r n align = .ok (some a, r') ∧ Hit r.bmap (pmemPages n)) ∨
    (∃ hint, allocRegion fuel r n align = .ok (none, r.withHint hint) ∧
      ¬Hit r.bmap (pmemPages n) ∧ hint + 1 < 2 ^ 64 ∧
      ((∀ i, ¬Usable r.bmap (pmemPages n) i) ∨ r.bmap.bits ≤ hint)) := by
  have hle := hr.le
  have hcnt' := pmemPages_le n
  rcases bmapSearch_visit (max_small_align h0 h1) hcnt hr.pos (by omega) hr.hint hfuel with
    ⟨i, hsearch, hi, hiff⟩ | ⟨hsearch, hh, hno⟩
  · have hadd : add64 i (pmemPages n) = i + pmemPages n := add64_of_lt (by omega)
    have hrun : allocRegion fuel r n align =
        .ok (if (bmapFill (r.withHint (i + pmemPages n)).bmap true i (i + pmemPages n)).1 then
            some (pmemFromRegbit r i) else none,
          { r with bmap :=
            (bmapFill (r.withHint (i + pmemPages n)).bmap true i (i + pmemPages n)).2 }) := by
      unfold allocRegion
      rw [hsearch]
      simp only [bind, Except.bind, hadd]
      rfl
    by_cases hin : i + pmemPages n < r.bmap.bits
    · have hfill : (bmapFill (r.withHint (i + pmemPages n)).bmap true i (i + pmemPages n)).1 = true :=
        bmapFill_of_lt hi hin
      rw [hfill] at hrun
      exact .inl ⟨_, _, hrun, hiff.1 hin⟩
    · have hfill : bmapFill (r.withHint (i + pmemPages n)).bmap true i (i + pmemPages n) =
          (false, _) := bmapFill_of_le (not_lt.1 hin)
      rw [hfill] at hrun
      exact .inr ⟨_, hrun, mt hiff.2 hin, by omega, .inr (not_lt.1 hin)⟩
  · refine .inr ⟨r.bmap.hint, ?_, not_hit hh.ne hno, hh, .inl hno⟩
    unfold allocRegion
    rw [hsearch]
    rfl

/-! ### The two passes -/

/-- The first pass does not skip the region as too full. -/
def Considered (r : Region σ) (n : ℕ) : Prop :=
  mul64 r.bmap.setCnt 100 / r.bmap.bits = 0 ∨
    mul64 n 100 < mul64 r.length (sub64 100 (mul64 r.bmap.setCnt 100 / r.bmap.bits))

instance (r : Region σ) (n : ℕ) : Decidable (Considered r n) := inferInstanceAs (Decidable (_ ∨ _))

/-- The region serves the request in one of the two passes. -/
def Serves (r : Region σ) (n : ℕ) : Prop :=
  r.bmap.hint + 1 = 2 ^ 64 ∧ pmemPages n < r.bmap.bits ∨
    (∃ i, Usable r.bmap (pmemPages n) i) ∧
      (Considered r n ∨ (∃ i, r.bmap.hint ≤ i ∧ Usable r.bmap (pmemPages n) i) ∨
        ¬Blocked r.bmap (pmemPages n) r.bmap.hint)

theorem Hit.serves (h : Hit r.bmap (pmemPages n)) : Serves r n :=
  h.imp id fun h => ⟨h.1, .inr h.2⟩

/-- After a pass that did not serve the request: if the region was visited, its hint is behind the
bitmap, unless there is no usable run. -/
structure Passed (visited : Prop) (cnt : ℕ) (r r' : Region σ) : Prop where
  hint : ∃ hint < 2 ^ 64, r' = r.withHint hint
  skipped : ¬visited → r' = r
  missed : visited → ¬Hit r.bmap cnt ∧ (Hit r'.bmap cnt ↔ ∃ i, Usable r.bmap cnt i)

variable {useFdeg v : Bool}

/-- The first region of a pass. -/
theorem pmemAllocHelper_cons (hpos : 0 < r.bmap.bits) :
    pmemAllocHelper fuel n align useFdeg (r :: regs) =
      (if useFdeg = true → Considered r n then allocRegion fuel r n align
        else .ok (none, r)) >>= fun q =>
      match q.1 with
      | some addr => .ok (some addr, q.2 :: regs)
      | none =>
        pmemAllocHelper fuel n align useFdeg regs >>= fun p => .ok (p.1, q.2 :: p.2) := by
  cases useFdeg with
  | false =>
    rfl
  | true =>
    rw [pmemAllocHelper, if_pos rfl, bmapFdeg, if_neg hpos.ne']
    have hiff : Considered r n ↔ (true = true → Considered r n) := by simp
    show (if Considered r n then allocRegion fuel r n align else .ok (none, r)) >>= _ = _
    exact congrArg (fun x : Except Halt _ => x >>= _) (if_congr hiff rfl rfl)

/-- **One pass** over the regions. -/
theorem pmemAllocHelper_pass (useFdeg : Bool) (hr : ∀ r ∈ regs, r.Ready) (h0 : -4096 < align)
    (h1 : align ≤ 4096) (hcnt : 0 < pmemPages n) (hfuel : 2 ^ 52 < fuel) :
    (∃ a regs', pmemAllocHelper fuel n align useFdeg regs = .ok (some a, regs') ∧
      ∃ r ∈ regs, Hit r.bmap (pmemPages n)) ∨
    (∃ regs', pmemAllocHelper fuel n align useFdeg regs = .ok (none, regs') ∧
      Forall₂ (fun r r' => Passed (useFdeg = true → Considered r n) (pmemPages n) r r')
        regs regs') := by
  induction regs with
  | nil => exact .inr ⟨[], rfl, .nil⟩
  | cons r regs ih =>
    rw [forall_mem_cons] at hr
    obtain ⟨hr, hrs⟩ := hr
    have hle := hr.le
    rw [pmemAllocHelper_cons hr.pos]
    have hone : (∃ a r', (if useFdeg = true → Considered r n then allocRegion fuel r n align
          else .ok (none, r)) = .ok (some a, r') ∧ Hit r.bmap (pmemPages n)) ∨
        ∃ r', (if useFdeg = true → Considered r n then allocRegion fuel r n align
          else .ok (none, r)) = .ok (none, r') ∧
          Passed (useFdeg = true → Considered r n) (pmemPages n) r r' := by
      split_ifs with hv
      · rcases allocRegion_visit hr h0 h1 hcnt (lt_of_le_of_lt hle hfuel) with
          ⟨a, r', hcall, hhit⟩ | ⟨hint, hcall, hmiss, hh, hend⟩
        · exact .inl ⟨a, r', hcall, hhit⟩
        · exact .inr ⟨_, hcall, ⟨hint, by omega, rfl⟩, absurd hv,
            fun _ => ⟨hmiss, hit_withHint hh hcnt hend⟩⟩
      · exact .inr ⟨r, rfl, ⟨r.bmap.hint, hr.hint, rfl⟩, fun _ => rfl, fun h => absurd h hv⟩
    rcases hone with ⟨a, r', hcall, hhit⟩ | ⟨r', hcall, hpassed⟩
    · rw [hcall]
      exact .inl ⟨a, _, rfl, r, mem_cons_self, hhit⟩
    rw [hcall]
    rcases ih hrs with ⟨a, regs', hrest, s, hs, hhit⟩ | ⟨regs', hrest, hall⟩
    · refine .inl ⟨a, r' :: regs', ?_, s, mem_cons_of_mem _ hs, hhit⟩
      rw [hrest]
      rfl
    · refine .inr ⟨r' :: regs', ?_, .cons hpassed hall⟩
      rw [hrest]
      rfl

/-- After an unsuccessful first pass, the second one is successful in the regions that serve the
request. -/
theorem Passed.hit_iff (h : Passed (true = true → Considered r n) (pmemPages n) r r') :
    Hit r'.bmap (pmemPages n) ↔ Serves r n := by
  by_cases hv : Considered r n
  · obtain ⟨hmiss, hiff⟩ := h.missed fun _ => hv
    rw [hiff]
    refine ⟨fun hu => .inr ⟨hu, .inl hv⟩, ?_⟩
    rintro (hlast | ⟨hu, -⟩)
    · exact absurd (.inl hlast) hmiss
    · exact hu
  · rw [h.skipped fun h => hv (h rfl)]
    simp [Hit, Serves, hv]

/-! ### Fuel -/

theorem searchUp_le {start con : ℕ} :
    OkLe (searchUp b v cnt mul fuel start con) (searchUp b v cnt mul (fuel + 1) start con) := by
  induction fuel generalizing start con with
  | zero => exact .error _
  | succ fuel ih =>
    unfold searchUp
    split_ifs
    · exact .refl _
    · exact ih
    · exact ih
    · exact .refl _

theorem searchOnce_le (hf : flags &&& bmapSrchBackward = 0) :
    OkLe (searchOnce fuel b v cnt mul flags) (searchOnce (fuel + 1) b v cnt mul flags) := by
  refine .bind ?_ fun _ => .refl _
  rw [searchEnd, searchEnd, if_neg (not_not.2 hf), if_neg (not_not.2 hf)]
  exact .bind searchUp_le fun _ => .refl _

theorem bmapSearch_le (hf : flags &&& bmapSrchBackward = 0) :
    OkLe (bmapSearch fuel v cnt mul flags b) (bmapSearch (fuel + 1) v cnt mul flags b) := by
  unfold bmapSearch
  by_cases hcnt : cnt = 0
  · rw [if_pos hcnt, if_pos hcnt]
    exact .refl _
  · rw [if_neg hcnt, if_neg hcnt]
    refine .bind (searchOnce_le hf) fun first => .bind ?_ fun _ => .refl _
    split
    · exact searchOnce_le (andNot_hinted_backward hf)
    · exact .refl _

theorem allocRegion_le : OkLe (allocRegion fuel r n align) (allocRegion (fuel + 1) r n align) :=
  .bind (bmapSearch_le (by decide)) fun _ => .refl _

theorem pmemAllocHelper_le :
    OkLe (pmemAllocHelper fuel n align useFdeg regs)
      (pmemAllocHelper (fuel + 1) n align useFdeg regs) := by
  induction regs with
  | nil => exact .refl _
  | cons r regs ih =>
    refine .bind (.refl _) fun fdeg => .bind ?_ fun q => ?_
    · split_ifs
      · exact allocRegion_le
      · exact .refl _
    · rcases q.1 with _ | a
      · exact .bind ih fun _ => .refl _
      · exact .refl _

theorem pmemAlloc_le (fuel : ℕ) :
    Le (pmemAlloc fuel n align : Prog (List (Region σ)) ℕ) (pmemAlloc (fuel + 1) n align) := by
  intro regs
  refine OkLe.bind pmemAllocHelper_le fun q => ?_
  rcases q.1 with _ | a
  · exact OkLe.bind pmemAllocHelper_le fun _ => .refl _
  · exact .refl _

/-! ### Allocating -/

/-- A request without pages is not served. -/
theorem pmemAllocHelper_none (hr : ∀ r ∈ regs, r.Ready) (hcnt : pmemPages n = 0) :
    pmemAllocHelper fuel n align useFdeg regs = .ok (none, regs) := by
  induction regs with
  | nil => rfl
  | cons r regs ih =>
    rw [forall_mem_cons] at hr
    have hregion : allocRegion fuel r n align = .ok (none, r) := by
      unfold allocRegion bmapSearch
      rw [if_pos hcnt]
      rfl
    rw [pmemAllocHelper_cons hr.1.pos, hregion, ite_self]
    rw [ih hr.2]
    rfl

/-- An allocation, with enough fuel. -/
theorem pmemAlloc_cases (hr : ∀ r ∈ regs, r.Ready) (h0 : -4096 < align) (h1 : align ≤ 4096)
    (hcnt : 0 < pmemPages n) (hfuel : 2 ^ 52 < fuel) :
    (∃ a regs', pmemAlloc fuel n align regs = .ok (a, regs') ∧ ∃ r ∈ regs, Serves r n) ∨
    (pmemAlloc fuel n align regs = .error (.fatal "out of physical memory\n") ∧
      ∀ r ∈ regs, ¬Serves r n) := by
  unfold pmemAlloc
  rcases pmemAllocHelper_pass true hr h0 h1 hcnt hfuel with
    ⟨a, regs', hfirst, r, hmem, hhit⟩ | ⟨regs1, hfirst, hall⟩
  · rw [hfirst]
    exact .inl ⟨a, regs', rfl, r, hmem, hhit.serves⟩
  rw [hfirst]
  have hready : ∀ r' ∈ regs1, r'.Ready := by
    intro r' hr'
    obtain ⟨r, hmem, hpassed⟩ := hall.exists_of_mem_right hr'
    obtain ⟨hint, hh, rfl⟩ := hpassed.hint
    exact ⟨(hr r hmem).pos, (hr r hmem).le, hh⟩
  show (∃ a regs', (pmemAllocHelper fuel n align false regs1 >>= _) = _ ∧ _) ∨
    (pmemAllocHelper fuel n align false regs1 >>= _) = _ ∧ _
  rcases pmemAllocHelper_pass false hready h0 h1 hcnt hfuel with
    ⟨a, regs', hsecond, r', hmem', hhit⟩ | ⟨regs2, hsecond, hall2⟩
  · obtain ⟨r, hmem, hpassed⟩ := hall.exists_of_mem_right hmem'
    rw [hsecond]
    exact .inl ⟨a, regs', rfl, r, hmem, hpassed.hit_iff.1 hhit⟩
  · rw [hsecond]
    refine .inr ⟨rfl, fun r hmem hserves => ?_⟩
    obtain ⟨r', hmem', hpassed⟩ := hall.exists_of_mem_left hmem
    obtain ⟨r'', -, hpassed'⟩ := hall2.exists_of_mem_left hmem'
    exact (hpassed'.missed nofun).1 (hpassed.hit_iff.2 hserves)

/-- **`pmem_alloc` returns** a block exactly if some region serves the request, and gives up
otherwise. -/
theorem alloc_returns_iff (hr : ∀ r ∈ regs, r.Ready) (h0 : -4096 < align) (h1 : align ≤ 4096) :
    ((∃ a regs', Returns (fun fuel => pmemAlloc fuel n align) regs a regs') ↔
      0 < pmemPages n ∧ ∃ r ∈ regs, Serves r n) ∧
    (¬(0 < pmemPages n ∧ ∃ r ∈ regs, Serves r n) → ∀ fuel, 2 ^ 52 < fuel →
      pmemAlloc fuel n align regs = .error (.fatal "out of physical memory\n")) := by
  have hfail : ¬(0 < pmemPages n ∧ ∃ r ∈ regs, Serves r n) → ∀ fuel, 2 ^ 52 < fuel →
      pmemAlloc fuel n align regs = .error (.fatal "out of physical memory\n") := by
    intro hno fuel hfuel
    rcases Nat.eq_zero_or_pos (pmemPages n) with hcnt | hcnt
    · unfold pmemAlloc
      rw [pmemAllocHelper_none hr hcnt]
      show (pmemAllocHelper fuel n align false regs >>= _) = _
      rw [pmemAllocHelper_none hr hcnt]
      rfl
    · rcases pmemAlloc_cases hr h0 h1 hcnt hfuel with ⟨a, regs', -, hserves⟩ | ⟨hcall, -⟩
      · exact absurd ⟨hcnt, hserves⟩ hno
      · exact hcall
  refine ⟨⟨?_, ?_⟩, hfail⟩
  · rintro ⟨a, regs', m, hcall⟩
    by_contra hno
    have hok : pmemAlloc (m + 2 ^ 52 + 1) n align regs = .ok (a, regs') := hcall _ (by omega)
    rw [hfail hno _ (by omega)] at hok
    cases hok
  · rintro ⟨hcnt, r, hmem, hserves⟩
    rcases pmemAlloc_cases hr h0 h1 hcnt (Nat.lt_succ_self (2 ^ 52)) with
      ⟨a, regs', hcall, -⟩ | ⟨-, hno⟩
    · exact ⟨a, regs', .of_le pmemAlloc_le hcall⟩
    · exact absurd hserves (hno r hmem)

theorem alloc_returns_iff_pages :
    ∃ a regs', Returns (fun fuel => pmemAlloc fuel 0x2000 0) [added 0x1000 0x4000] a regs' := by
  have hready : (added 0x1000 0x4000).Ready := ⟨by decide, by decide, by decide⟩
  have hfree : ∀ j < 0 + pmemPages 0x2000, bmapGet (added 0x1000 0x4000).bmap j = false := by decide
  have husable : Usable (added 0x1000 0x4000).bmap (pmemPages 0x2000) 0 :=
    ⟨by decide, fun j _ hj => hfree j hj⟩
  exact (alloc_returns_iff (List.forall_mem_singleton.2 hready) (by decide) (by decide)).1.2
    ⟨by decide, _, mem_singleton_self _, .inr ⟨⟨0, husable⟩, .inl (by decide)⟩⟩

/-- The only page of a region is free, and is not given to anyone. -/
theorem alloc_gives_up : (onePage 0x10000).Ready ∧ pmemPages 0x1000 = 1 ∧
    bmapGet (onePage 0x10000).bmap 0 = false ∧
    pmemAlloc 8 0x1000 0x1000 [onePage 0x10000] = .error (.fatal "out of physical memory\n") :=
  ⟨⟨by decide, by decide, by decide⟩, by decide, by decide, eq_error_of_halted (by decide)⟩

end Tachyon.Pmem
