import Tachyon.Vmem.PageMap
import Tachyon.Vmem.Survive

/-!
# Mapping the UAPI

`_uapi_map_from_to` registers and maps a range of pages.  It moves on by `PAGE_SIZE_4K` in pointers
to `uintptr_t`, that is by eight pages at a time.

* `uapiMapFromTo`: the loop, whose rounds are those of `Config.live`;
* `uapi_maps_iff`: the range is mapped if it is one page at most, and the pointers do not both wrap
  around behind it;
* `uapi_skips_page`: of two pages the second one is left out.
-/

namespace Tachyon.Vmem

open Prog List Option

variable {B : Boot} {spc fuel sv sp ev ep : ℕ} {ls : ℕ → Locals} {c c' : Config}

/-- `sizeof(uintptr_t) * PAGE_SIZE_4K`. -/
def uapiStride : ℕ := 8 * pageSize4K

/-- `_uapi_map_from_to`, which always returns `true`: a `vmem_map` that fails is only reported. -/
def uapiMapFromTo (B : Boot) (spc : ℕ) (ls : ℕ → Locals) (ev ep : ℕ) :
    ℕ → ℕ → ℕ → Config → Option Config
  | 0, _, _, _ => none
  | fuel + 1, sv, sp, c =>
    if sv < ev ∧ sp < ep then
      (Config.live B spc (.uapi (ls fuel) sp sv) c).bind fun c =>
        uapiMapFromTo B spc ls ev ep fuel (add64 sv uapiStride) (add64 sp uapiStride) c
    else some c

/-- The registrations of `n` pages. -/
def uapiPages (n sv sp : ℕ) : List GlobMapping :=
  (List.range n).map fun k : ℕ => ⟨sp + pageSize4K * k, sv + pageSize4K * k, uapiFlags⟩

/-- The call registers `n` pages, each of them once and in order, maps them, and changes no other
page. -/
def MapsPages (B : Boot) (spc : ℕ) (ls : ℕ → Locals) (n sv sp : ℕ) (c c' : Config) : Prop :=
  (∃ fuel, uapiMapFromTo B spc ls (sv + pageSize4K * n) (sp + pageSize4K * n) fuel sv sp c =
    some c') ∧
  c'.globals = c.globals ++ uapiPages n sv sp ∧
  (∀ k < n, ∀ v, pageNo v = pageNo (sv + pageSize4K * k) → leafAt c'.vm.tables spc v =
    some (false, (sp + pageSize4K * k) ||| pgPresent ||| uapiFlags)) ∧
  ∀ v, (∀ k < n, pageNo v ≠ pageNo (sv + pageSize4K * k)) →
    leafAt c'.vm.tables spc v = leafAt c.vm.tables spc v

/-! ### What is registered -/

/-- A round maps a page and registers it. -/
theorem live_uapi {l : Locals} (h : Config.live B spc (.uapi l sp sv) c = some c') :
    c'.globals = c.globals ++ [⟨sp, sv, uapiFlags⟩] := by
  simp only [Config.live] at h
  split at h
  · cases h
    rfl
  · cases h

/-- Registrations stay. -/
theorem uapi_extends (h : uapiMapFromTo B spc ls ev ep fuel sv sp c = some c') :
    ∃ l, c'.globals = c.globals ++ l := by
  induction fuel generalizing sv sp c with
  | zero => cases h
  | succ fuel ih =>
    unfold uapiMapFromTo at h
    split_ifs at h
    · obtain ⟨c1, hround, h⟩ := bind_eq_some_iff.1 h
      obtain ⟨l, hl⟩ := ih h
      exact ⟨⟨sp, sv, uapiFlags⟩ :: l, by rw [hl, live_uapi hround, append_assoc]; rfl⟩
    · cases h
      exact ⟨[], (append_nil _).symm⟩

/-- A round registers its page, and the next one comes eight pages behind it. -/
theorem uapi_registers (hin : sv < ev ∧ sp < ep)
    (h : uapiMapFromTo B spc ls ev ep fuel sv sp c = some c') :
    ∃ l, c'.globals = c.globals ++ ⟨sp, sv, uapiFlags⟩ :: l ∧
      (add64 sv uapiStride < ev ∧ add64 sp uapiStride < ep ∧
        l.head? = some ⟨add64 sp uapiStride, add64 sv uapiStride, uapiFlags⟩ ∨
      ¬(add64 sv uapiStride < ev ∧ add64 sp uapiStride < ep) ∧ l = []) := by
  rcases fuel with _ | _ | fuel
  · cases h
  · rw [uapiMapFromTo, if_pos hin] at h
    obtain ⟨_, -, h⟩ := bind_eq_some_iff.1 h
    cases h
  · rw [uapiMapFromTo, if_pos hin] at h
    obtain ⟨c1, hround, h⟩ := bind_eq_some_iff.1 h
    unfold uapiMapFromTo at h
    split_ifs at h with hmore
    · obtain ⟨c2, hround2, h⟩ := bind_eq_some_iff.1 h
      obtain ⟨l, hl⟩ := uapi_extends h
      refine ⟨_ :: l, ?_, .inl ⟨hmore.1, hmore.2, rfl⟩⟩
      rw [hl, live_uapi hround2, live_uapi hround, append_assoc, append_assoc]
      rfl
    · cases h
      exact ⟨[], live_uapi hround, .inr ⟨hmore, rfl⟩⟩

/-- More than one page is not registered as it should be. -/
theorem MapsPages.le_one {n : ℕ} (h : MapsPages B spc ls (n + 1) sv sp c c') :
    n = 0 ∧ ¬(add64 sv uapiStride < sv + pageSize4K ∧ add64 sp uapiStride < sp + pageSize4K) := by
  obtain ⟨⟨fuel, hrun⟩, hglobals, -⟩ := h
  have hpos : 0 < pageSize4K * (n + 1) := Nat.mul_pos (by decide) (by omega)
  obtain ⟨l, hl, hnext⟩ := uapi_registers ⟨by omega, by omega⟩ hrun
  have hpages : uapiPages (n + 1) sv sp = ⟨sp, sv, uapiFlags⟩ :: (range n).map fun k : ℕ =>
      ⟨sp + pageSize4K * (k + 1), sv + pageSize4K * (k + 1), uapiFlags⟩ := by
    simp [uapiPages, range_succ_eq_map]
  rw [hglobals, hpages, append_cancel_left_eq, cons.injEq] at hl
  obtain ⟨-, rfl⟩ := hl
  rcases hnext with ⟨-, -, hnext⟩ | ⟨hmore, hnil⟩
  · -- the second page would have to be the eighth one
    cases n with
    | zero => cases hnext
    | succ n =>
      rw [range_succ_eq_map] at hnext
      have hsecond := congrArg (Option.map GlobMapping.virt) hnext
      simp only [map_cons, head?_cons, map_some, some.injEq, add64,
        uapiStride, pageSize4K] at hsecond
      omega
  · have hn : n = 0 := by simpa using congrArg length hnil
    subst hn
    exact ⟨rfl, by simpa using hmore⟩

/-! ### One page -/

/-- Any page tables. -/
def anyPages : Policy := ⟨fun _ => True, fun _ => True, fun _ => True, fun _ _ => True⟩

theorem anyPages_allows (u : ℕ) : anyPages.Allows u where
  upper_or _ _ := trivial
  upper_new _ _ := trivial
  below_above _ _ _ := trivial
  below_or _ _ _ _ := trivial
  below_new _ _ _ _ := trivial

/-- A round maps its page. -/
theorem live_uapi_maps (l : Locals) (sp : ℕ) (htree : Tree anyPages B spc c.vm.tables)
    (hready : Ready 4 c.vm.mapspace) (hpd : Unused c.vm.mapspace l.pd)
    (hpt : Unused c.vm.mapspace l.pt) (hframes : 3 ≤ c.vm.tables.pmem.length)
    (hfree : leafAt c.vm.tables spc sv = none) :
    ∃ c', Config.live B spc (.uapi l sp sv) c = some c' ∧ ∀ v, leafAt c'.vm.tables spc v =
      if pageNo v = pageNo sv then some (false, sp ||| pgPresent ||| uapiFlags)
      else leafAt c.vm.tables spc v := by
  have hmap : ends (vmemMap (direct B) l spc sp sv uapiFlags) _ _ c.vm.tables :=
    htree.map_small (anyPages_allows uapiFlags) trivial (fun _ _ => trivial) (by decide) (by decide)
      hframes
  obtain ⟨ok, t', hrun, -, hok, hleaf⟩ := wp_of_ends hmap
  obtain ⟨_, _, hslots, rfl, rfl⟩ := (vmemMap_rel hready (hpd.spare hready.emptied)
    (hpt.spare hready.emptied)).1 ok t' hrun
  have hvm : vmemMap (slots B) l spc sp sv uapiFlags c.vm = _ := hslots
  refine ⟨{ c with vm := ⟨t', c.vm.mapspace⟩, globals := c.globals ++ [⟨sp, sv, uapiFlags⟩] },
    by simp only [Config.live, hvm], fun v => ?_⟩
  rw [hfree] at hok
  subst hok
  simpa using hleaf v

/-- **The UAPI is mapped** if it is empty, or a single page behind which not both pointers wrap
around, and in no other case. -/
theorem uapi_maps_iff (n : ℕ) (hsv : sv + pageSize4K * n < 2 ^ 64)
    (hsp : sp + pageSize4K * n < 2 ^ 64) (htree : Tree anyPages B spc c.vm.tables)
    (hready : Ready 4 c.vm.mapspace)
    (hls : ∀ i, Unused c.vm.mapspace (ls i).pd ∧ Unused c.vm.mapspace (ls i).pt)
    (hframes : 3 * n ≤ c.vm.tables.pmem.length)
    (hfree : ∀ k < n, leafAt c.vm.tables spc (sv + pageSize4K * k) = none) :
    (∃ c', MapsPages B spc ls n sv sp c c') ↔
      n = 0 ∨ n = 1 ∧ (sv + uapiStride < 2 ^ 64 ∨ sp + uapiStride < 2 ^ 64) := by
  constructor
  · rintro ⟨c', h⟩
    cases n with
    | zero => exact .inl rfl
    | succ n =>
      obtain ⟨rfl, hend⟩ := h.le_one
      refine .inr ⟨rfl, ?_⟩
      unfold add64 uapiStride pageSize4K at *
      omega
  · rintro (rfl | ⟨rfl, hwrap⟩)
    · refine ⟨c, ⟨1, ?_⟩, by simp [uapiPages], by simp, fun v _ => rfl⟩
      rw [uapiMapFromTo, if_neg (by simp)]
    obtain ⟨c', hround, hleaf⟩ := live_uapi_maps (ls 1) sp htree hready (hls 1).1 (hls 1).2
      hframes (by simpa using hfree 0 one_pos)
    have hend : ¬(add64 sv uapiStride < sv + pageSize4K * 1 ∧
        add64 sp uapiStride < sp + pageSize4K * 1) := by
      unfold add64 uapiStride pageSize4K at *
      omega
    refine ⟨c', ⟨2, ?_⟩, ?_, fun k hk v hkv => ?_, fun v hne => ?_⟩
    · rw [uapiMapFromTo, if_pos (by unfold pageSize4K; omega), hround, Option.bind_some,
        uapiMapFromTo, if_neg hend]
    · rw [live_uapi hround]
      simp [uapiPages]
    · obtain rfl : k = 0 := by omega
      rw [hleaf v, if_pos (by simpa using hkv)]
      simp
    · rw [hleaf v, if_neg (by simpa using hne 0 one_pos)]

/-- No pages and no registrations yet. -/
def emptyConfig : Config := ⟨emptyVm, [], [], []⟩

theorem uapi_maps_iff_one : ∃ c', MapsPages (bootFrames 0x101000) 0x1000 (fun _ => nullLocals) 1
    0x400000 0x800000 emptyConfig c' := by
  have hfresh : ∀ g ∈ emptyVm.tables.pmem, g ≠ 0 ∧ pageSize4K ∣ g ∧
      g ≠ (bootFrames 0x101000).ptTemp ∧ g ≠ 0x1000 := by decide
  refine (uapi_maps_iff 1 (by decide) (by decide)
    (Tree.of_empty (by decide) (by decide) (fun _ _ => rfl)
      (fun g hg => ⟨(hfresh g hg).1, (hfresh g hg).2.1, (hfresh g hg).2.2.1, trivial,
        (hfresh g hg).2.2.2⟩) (by decide))
    ⟨fun _ _ _ => rfl, by decide⟩ (fun _ => ⟨unused_empty, unused_empty⟩) (by decide)
    fun k hk => ?_).2 (.inr ⟨rfl, .inl (by decide)⟩)
  obtain rfl : k = 0 := by omega
  decide

/-- Of two pages the second one is not registered. -/
theorem uapi_skips_page : ¬∃ c', MapsPages (bootFrames 0x101000) 0x1000 (fun _ => nullLocals) 2
    0x400000 0x800000 emptyConfig c' := by
  rintro ⟨c', h⟩
  exact absurd (h.le_one).1 (by decide)

end Tachyon.Vmem
