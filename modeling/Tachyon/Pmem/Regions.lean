import Tachyon.Lib.Pointwise
import Tachyon.Pmem.Model

/-!
# The pages of the regions

A region of physical memory has one bit for every page that starts in it.  `Marked v ps` says what an
operation of `pmem.c` does to a region: it writes `v` into the bits of the pages `ps`, and nothing
else but the hint and the counter changes.

* `Region.Ok`, `RegionsOk`: page-aligned, pairwise disjoint regions with right counters;
* `taken`: the pages whose bit is set, in any region;
* `pmemAlloc_spec`: an allocation marks the pages it returns, all free before;
* `pmemFree_spec`: freeing them marks them free again.
-/

namespace Tachyon.Pmem

open Prog List

variable {σ : Type} {r r' r'' : Region σ} {regs regs' regs'' : List (Region σ)} {v : Bool}
  {ps qs : List ℕ} {fuel : ℕ}

/-! ### Geometry -/

/-- The address of page `i` of a region. -/
def Region.page (r : Region σ) (i : ℕ) : ℕ := r.start + pmemPagesize * i

/-- A region of the physical address space: its start is aligned, rounding its end up to a page does
not wrap around, and the bitmap has a bit for every page. -/
structure Region.Ok (r : Region σ) : Prop where
  aligned : pmemPagesize ∣ r.start
  fits : r.start + r.length + pmemPagesize ≤ 2 ^ 64
  bits : r.bmap.bits = pmemPages r.length

/-- No address is contained in both regions. -/
def Region.Apart (r r' : Region σ) : Prop :=
  ∀ a, ¬ (pmemRegContains r a = true ∧ pmemRegContains r' a = true)

/-- The address `a` lies in the range of `length` bytes from `start` on. -/
def InRange (start length a : ℕ) : Prop := start ≤ a ∧ a < start + length

/-- The pages of the block at `a` of `n` bytes. -/
def pagesOf (a n : ℕ) : List ℕ := (List.range (pmemPages n)).map fun i => a + pmemPagesize * i

/-- The block at `a` of `n` bytes consists of pages of one region, the last one excepted. -/
def Holds (regs : List (Region σ)) (a n : ℕ) : Prop :=
  ∃ r ∈ regs, ∃ i, a = r.page i ∧ 0 < pmemPages n ∧ i + pmemPages n < r.bmap.bits

theorem alignDn_pmemPagesize (x : ℕ) : alignDn x pmemPagesize = x - x % 4096 :=
  alignDn_two_pow x 12

theorem pmemPages_le (n : ℕ) : pmemPages n ≤ 2 ^ 52 := by
  have h : alignUp n pmemPagesize < 2 ^ 64 :=
    lt_of_le_of_lt (Nat.sub_le _ _) (add64_lt n (pmemPagesize - 1))
  unfold pmemPages
  rw [pmemPagesize] at h ⊢
  omega

variable {n a p i j : ℕ}

theorem pmemPages_eq (h : n + pmemPagesize ≤ 2 ^ 64) : pmemPages n = (n + 4095) / 4096 := by
  rw [pmemPagesize] at h
  rw [pmemPages, alignUp, alignDn_pmemPagesize, pmemPagesize, add64_of_lt (by omega)]
  omega

theorem mem_pagesOf :
    p ∈ pagesOf a n ↔ ∃ i < pmemPages n, p = a + pmemPagesize * i := by
  simp [pagesOf, eq_comm]

theorem Region.page_inj : r.page i = r.page j ↔ i = j := by
  unfold Region.page pmemPagesize
  omega

/-- The pages of a block inside a region, by their bits. -/
theorem mem_pagesOf_page :
    p ∈ pagesOf (r.page i) n ↔ ∃ j, i ≤ j ∧ j < i + pmemPages n ∧ p = r.page j := by
  rw [mem_pagesOf]
  unfold Region.page pmemPagesize
  constructor
  · rintro ⟨k, hk, rfl⟩
    exact ⟨i + k, by omega, by omega, by ring⟩
  · rintro ⟨j, hij, hj, rfl⟩
    exact ⟨j - i, by omega, by omega⟩

theorem page_mem_pagesOf :
    r.page j ∈ pagesOf (r.page i) n ↔ i ≤ j ∧ j < i + pmemPages n := by
  simp only [mem_pagesOf_page, Region.page_inj]
  exact ⟨fun ⟨k, hik, hk, hjk⟩ => hjk ▸ ⟨hik, hk⟩, fun h => ⟨j, h.1, h.2, rfl⟩⟩

namespace Region.Ok

section

variable (h : r.Ok)
include h

theorem bits_eq : r.bmap.bits = (r.length + 4095) / 4096 := by
  have := h.fits
  rw [h.bits, pmemPages_eq (by omega)]

theorem contains_iff : pmemRegContains r a = true ↔ r.start ≤ a ∧ a < r.start + r.length := by
  have := h.fits
  rw [pmemPagesize] at this
  rw [pmemRegContains, add64_of_lt (by omega), Bool.and_eq_true, decide_eq_true_iff,
    decide_eq_true_iff]

/-- Every page starts in its region. -/
theorem contains_page (hi : i < r.bmap.bits) : pmemRegContains r (r.page i) = true := by
  rw [h.bits_eq] at hi
  rw [h.contains_iff, Region.page, pmemPagesize]
  omega

/-- The bit of an aligned address. -/
theorem page_regbit (ha : pmemPagesize ∣ a) (hc : pmemRegContains r a = true) :
    r.page (pmemToRegbit r a) = a ∧ pmemToRegbit r a < r.bmap.bits := by
  obtain ⟨k, hk⟩ := h.aligned
  obtain ⟨m, rfl⟩ := ha
  have hfit := h.fits
  rw [h.contains_iff] at hc
  rw [h.bits_eq]
  rw [pmemPagesize] at hk hc hfit
  rw [Region.page, pmemToRegbit, alignDn_pmemPagesize, pmemPagesize,
    sub64_of_le (by omega) (by omega)]
  omega

/-- The page behind an address of a region has an address. -/
theorem add64_page (hc : pmemRegContains r a = true) : add64 a pmemPagesize = a + pmemPagesize := by
  have hfit := h.fits
  have hin := h.contains_iff.1 hc
  refine add64_of_lt ?_
  omega

theorem fromRegbit (hi : i < r.bmap.bits) : pmemFromRegbit r i = r.page i := by
  have hfit := h.fits
  rw [h.bits_eq] at hi
  rw [pmemFromRegbit, Region.page, pmemPagesize, mul64_of_lt (by omega), add64_of_lt (by omega)]
  omega

theorem page_dvd (i : ℕ) : pmemPagesize ∣ r.page i :=
  dvd_add h.aligned (dvd_mul_right _ _)

theorem bits_lt : r.bmap.bits + 1 < 2 ^ 64 := by
  have := pmemPages_le r.length
  rw [h.bits]
  omega

end

end Region.Ok

theorem Region.Apart.page_ne (h : r.Apart r') (hr : r.Ok) (hr' : r'.Ok)
    (hi : i < r.bmap.bits) (hj : j < r'.bmap.bits) : r.page i ≠ r'.page j := by
  intro heq
  refine h (r.page i) ⟨hr.contains_page hi, ?_⟩
  rw [heq]
  exact hr'.contains_page hj

/-! ### Marking -/

variable [BitStore σ]

/-- The counter is right and the hint is not the last word. -/
def Region.Sound (r : Region σ) : Prop := Counted r.bmap ∧ r.bmap.hint + 1 < 2 ^ 64

/-- The regions that the allocator manages. -/
structure RegionsOk (regs : List (Region σ)) : Prop where
  ok : ∀ r ∈ regs, r.Ok
  sound : ∀ r ∈ regs, r.Sound
  apart : regs.Pairwise Region.Apart

/-- The pages whose bit is set. -/
def taken (regs : List (Region σ)) : Set ℕ :=
  {p | ∃ r ∈ regs, ∃ i < r.bmap.bits, readBit r.bmap.storage i = true ∧ p = r.page i}

/-- The bits of the pages `ps` become `v`. -/
structure Marked (v : Bool) (ps : List ℕ) (r r' : Region σ) : Prop where
  start : r'.start = r.start
  length : r'.length = r.length
  bits : r'.bmap.bits = r.bmap.bits
  sound : r'.Sound
  bit : ∀ i < r.bmap.bits,
    readBit r'.bmap.storage i = if r.page i ∈ ps then v else readBit r.bmap.storage i

namespace Marked

/-- Nothing happens to a region without pages in `ps`. -/
theorem refl_of_notMem (h : r.Sound) (hp : ∀ i < r.bmap.bits, r.page i ∉ ps) : Marked v ps r r :=
  ⟨rfl, rfl, rfl, h, fun i hi => (if_neg (hp i hi)).symm⟩

theorem refl (h : r.Sound) : Marked v [] r r := refl_of_notMem h fun _ _ => not_mem_nil

section

variable (h : Marked v ps r r')
include h

theorem page (i : ℕ) : r'.page i = r.page i := by
  rw [Region.page, Region.page, h.start]

theorem ok (hr : r.Ok) : r'.Ok := by
  obtain ⟨h1, h2, h3⟩ := hr
  exact ⟨h.start ▸ h1, by rw [h.start, h.length]; exact h2, by rw [h.bits, h.length, h3]⟩

theorem contains (a : ℕ) : pmemRegContains r' a = pmemRegContains r a := by
  rw [pmemRegContains, pmemRegContains, h.start, h.length]

/-- Two operations with the same mark. -/
theorem trans (h' : Marked v qs r' r'') : Marked v (ps ++ qs) r r'' := by
  refine ⟨h'.start.trans h.start, h'.length.trans h.length, h'.bits.trans h.bits, h'.sound,
    fun i hi => ?_⟩
  rw [h'.bit i (h.bits ▸ hi), h.page, h.bit i hi]
  by_cases h1 : r.page i ∈ ps <;> by_cases h2 : r.page i ∈ qs <;> simp [h1, h2]

end

end Marked

/-- The regions that an operation leaves. -/
abbrev MarkedAll (v : Bool) (ps : List ℕ) : List (Region σ) → List (Region σ) → Prop :=
  List.Forall₂ (Marked v ps)

namespace RegionsOk

section

variable (h : RegionsOk (r :: regs))
include h

theorem tail : RegionsOk regs :=
  ⟨fun s hs => h.ok s (mem_cons_of_mem _ hs), fun s hs => h.sound s (mem_cons_of_mem _ hs),
    (pairwise_cons.1 h.apart).2⟩

theorem head_ok : r.Ok := h.ok r mem_cons_self

theorem head_sound : r.Sound := h.sound r mem_cons_self

/-- The pages of the first region are in no other one. -/
theorem head_page_ne (hs : r' ∈ regs) (hi : i < r.bmap.bits) (hj : j < r'.bmap.bits) :
    r.page i ≠ r'.page j :=
  ((pairwise_cons.1 h.apart).1 r' hs).page_ne h.head_ok (h.ok r' (mem_cons_of_mem _ hs)) hi hj

end

section

variable (h : RegionsOk regs) (hr : r ∈ regs)
include h hr

/-- A page belongs to one region. -/
theorem page_unique (hr' : r' ∈ regs) (hi : i < r.bmap.bits) (hj : j < r'.bmap.bits)
    (heq : r.page i = r'.page j) :
    r = r' ∧ i = j := by
  have hsymm : Std.Symm (@Region.Apart σ) := ⟨fun s t hst a ha => hst a ha.symm⟩
  by_cases hne : r = r'
  · subst hne
    exact ⟨rfl, Region.page_inj.1 heq⟩
  · exact absurd heq ((h.apart.forall hr hr' hne).page_ne (h.ok r hr) (h.ok r' hr') hi hj)

/-- The bit of a page says whether it is taken. -/
theorem page_mem_taken (hi : i < r.bmap.bits) :
    r.page i ∈ taken regs ↔ readBit r.bmap.storage i = true := by
  constructor
  · rintro ⟨s, hs, j, hj, hbit, heq⟩
    obtain ⟨rfl, rfl⟩ := h.page_unique hr hs hi hj heq
    exact hbit
  · exact fun hbit => ⟨r, hr, i, hi, hbit, rfl⟩

end

end RegionsOk

/-- Nothing happens to regions without pages in `ps`. -/
theorem markedAll_refl_of_notMem (h : ∀ r ∈ regs, r.Sound)
    (hp : ∀ r ∈ regs, ∀ i < r.bmap.bits, r.page i ∉ ps) : MarkedAll v ps regs regs :=
  forall₂_same.2 fun r hr => .refl_of_notMem (h r hr) (hp r hr)

theorem markedAll_refl (h : ∀ r ∈ regs, r.Sound) : MarkedAll v [] regs regs :=
  markedAll_refl_of_notMem h fun _ _ _ _ => not_mem_nil

theorem MarkedAll.trans (h : MarkedAll v ps regs regs')
    (h' : MarkedAll v qs regs' regs'') : MarkedAll v (ps ++ qs) regs regs'' :=
  List.Forall₂.comp h h' fun _ _ _ hr hr' => hr.trans hr'

/-- The regions stay what they are. -/
theorem RegionsOk.marked (h : RegionsOk regs) (hm : MarkedAll v ps regs regs') :
    RegionsOk regs' := by
  refine ⟨fun r' hr' => ?_, fun r' hr' => ?_, ?_⟩
  · obtain ⟨r, hr, hrr⟩ := hm.exists_of_mem_right hr'
    exact hrr.ok (h.ok r hr)
  · obtain ⟨r, -, hrr⟩ := hm.exists_of_mem_right hr'
    exact hrr.sound
  · induction hm with
    | nil => exact .nil
    | @cons s s' _ _ hs hm ih =>
      refine pairwise_cons.2 ⟨fun r' hr' a => ?_, ih h.tail⟩
      obtain ⟨r, hr, hrr⟩ := hm.exists_of_mem_right hr'
      rw [hs.contains, hrr.contains]
      exact (pairwise_cons.1 h.apart).1 r hr a

/-- The pages that are taken afterwards, by the bits before. -/
theorem MarkedAll.mem_taken (h : MarkedAll v ps regs regs') :
    p ∈ taken regs' ↔ ∃ r ∈ regs, ∃ i < r.bmap.bits,
      (if r.page i ∈ ps then v else readBit r.bmap.storage i) = true ∧ p = r.page i := by
  constructor
  · rintro ⟨r', hr', i, hi, hbit, rfl⟩
    obtain ⟨r, hr, hm⟩ := h.exists_of_mem_right hr'
    rw [hm.bits] at hi
    exact ⟨r, hr, i, hi, (hm.bit i hi).symm.trans hbit, hm.page i⟩
  · rintro ⟨r, hr, i, hi, hbit, rfl⟩
    obtain ⟨r', hr', hm⟩ := h.exists_of_mem_left hr
    exact ⟨r', hr', i, by rwa [hm.bits], (hm.bit i hi).trans hbit, (hm.page i).symm⟩

/-- Marking pages as taken. -/
theorem MarkedAll.taken_true (h : MarkedAll true ps regs regs')
    (hps : ∀ p ∈ ps, ∃ r ∈ regs, ∃ i < r.bmap.bits, p = r.page i) :
    p ∈ taken regs' ↔ p ∈ ps ∨ p ∈ taken regs := by
  rw [h.mem_taken]
  constructor
  · rintro ⟨r, hr, i, hi, hbit, rfl⟩
    by_cases hp : r.page i ∈ ps
    · exact .inl hp
    · exact .inr ⟨r, hr, i, hi, by simpa [hp] using hbit, rfl⟩
  · rintro (hp | ⟨r, hr, i, hi, hbit, rfl⟩)
    · obtain ⟨r, hr, i, hi, rfl⟩ := hps p hp
      exact ⟨r, hr, i, hi, if_pos hp, rfl⟩
    · refine ⟨r, hr, i, hi, ?_, rfl⟩
      split_ifs
      · rfl
      · exact hbit

/-- Marking pages as free. -/
theorem MarkedAll.taken_false (h : MarkedAll false ps regs regs') :
    p ∈ taken regs' ↔ p ∉ ps ∧ p ∈ taken regs := by
  rw [h.mem_taken]
  constructor
  · rintro ⟨r, hr, i, hi, hbit, rfl⟩
    by_cases hp : r.page i ∈ ps
    · simp [hp] at hbit
    · exact ⟨hp, r, hr, i, hi, by simpa [hp] using hbit, rfl⟩
  · rintro ⟨hp, r, hr, i, hi, hbit, rfl⟩
    exact ⟨r, hr, i, hi, by rw [if_neg hp, hbit], rfl⟩

theorem MarkedAll.taken_nil (h : MarkedAll v [] regs regs') : taken regs' = taken regs := by
  ext p
  cases v
  · simpa using h.taken_false
  · simpa using h.taken_true (by simp)

theorem Holds.marked (h : Holds regs a n) (hm : MarkedAll v ps regs regs') :
    Holds regs' a n := by
  obtain ⟨r, hr, i, rfl, hpos, hlt⟩ := h
  obtain ⟨r', hr', hrr⟩ := hm.exists_of_mem_left hr
  exact ⟨r', hr', i, (hrr.page i).symm, hpos, by rwa [hrr.bits]⟩

/-! ### Allocating -/

section Exact

variable [ExactBits σ]

/-- An alignment of at most a page, or a power of two. -/
def AlignOk (align : ℤ) : Prop := 0 ≤ align ∧ align ≤ 4096 ∨ ∃ k < 63, align = 2 ^ k

variable {align : ℤ}

theorem AlignOk.mul (h : AlignOk align) :
    toUnsigned (align.tdiv pmemPagesize) = 1 ∨ 2 ∣ toUnsigned (align.tdiv pmemPagesize) := by
  rcases h with ⟨h0, h1⟩ | ⟨k, hk, rfl⟩
  · rw [toUnsigned, pmemPagesize, Int.tdiv_eq_ediv_of_nonneg h0]
    omega
  · interval_cases k <;> decide

/-- A search in one region. -/
theorem allocRegion_spec {found : Option ℕ} (hr : r.Ok) (hs : r.Sound)
    (ha : AlignOk align) (h : allocRegion fuel r n align = .ok (found, r')) :
    (found = none ∧ Marked true [] r r') ∨
    ∃ i, found = some (r.page i) ∧ 0 < pmemPages n ∧ i + pmemPages n < r.bmap.bits ∧
      Marked true (pagesOf (r.page i) n) r r' ∧
      ∀ j, i ≤ j → j < i + pmemPages n → readBit r.bmap.storage j = false := by
  have hpages := pmemPages_le n
  have hbits : r.bmap.bits ≤ 2 ^ 52 := hr.bits ▸ pmemPages_le _
  obtain ⟨⟨found', b⟩, hsearch, h⟩ := except_bind_eq_ok.1 h
  rcases bmapSearch_spec hr.bits_lt hs.2 ha.mul (by decide) hsearch with
    ⟨rfl, rfl⟩ | ⟨i, rfl, hpos, ⟨hi, hrun⟩, rfl⟩
  · cases h
    exact .inl ⟨rfl, .refl hs⟩
  have hadd : add64 i (pmemPages n) = i + pmemPages n := add64_of_lt (by omega)
  simp only [hadd] at h
  rcases hfill : bmapFill { r.bmap with hint := i + pmemPages n } true i (i + pmemPages n)
    with ⟨done, b'⟩
  simp only [hfill, Except.ok.injEq, Prod.mk.injEq] at h
  obtain ⟨rfl, rfl⟩ := h
  cases done
  · -- the run would reach the end of the bitmap
    obtain rfl := bmapFill_false hfill
    exact .inl ⟨rfl, rfl, rfl, rfl, ⟨hs.1, show i + pmemPages n + 1 < 2 ^ 64 by omega⟩,
      fun j _ => by simp⟩
  · have hlt : i + pmemPages n < r.bmap.bits := (bmapFill_lt hfill).2
    have hclear : ∀ j, i ≤ j → j < i + pmemPages n → readBit r.bmap.storage j = false :=
      fun j hij hj => by
        rw [← bmapGet_of_lt (by omega)]
        exact hrun (by omega) j hij hj
    have hlt' : r.bmap.bits < 2 ^ 64 := by omega
    have hc : Counted ({ r.bmap with hint := i + pmemPages n } : Bitmap σ) := hs.1
    obtain ⟨hbits', hhint, hc, hread⟩ := bmapFill_spec hc hlt' hfill hclear
    refine .inr ⟨i, by rw [if_pos rfl, hr.fromRegbit hi], hpos, hlt, ⟨rfl, rfl, hbits', ⟨hc, ?_⟩,
      fun j hj => ?_⟩, hclear⟩
    · rw [hhint]
      show i + pmemPages n + 1 < 2 ^ 64
      omega
    · rw [hread]
      simp [page_mem_pagesOf]

/-- One pass over the regions. -/
theorem pmemAllocHelper_spec {useFdeg : Bool} (ha : AlignOk align) :
    ∀ {regs regs' : List (Region σ)} {found : Option ℕ}, RegionsOk regs →
      pmemAllocHelper fuel n align useFdeg regs = .ok (found, regs') →
      (found = none ∧ MarkedAll true [] regs regs') ∨
      ∃ a, found = some a ∧ Holds regs a n ∧ MarkedAll true (pagesOf a n) regs regs' ∧
        ∀ p ∈ pagesOf a n, p ∉ taken regs := by
  intro regs
  induction regs with
  | nil =>
    intro regs' found _ h
    obtain ⟨rfl, rfl⟩ := h
    exact .inl ⟨rfl, .nil⟩
  | cons r regs ih =>
    intro regs' found hok h
    obtain ⟨fdeg, -, h⟩ := except_bind_eq_ok.1 h
    obtain ⟨⟨o, r'⟩, ho, h⟩ := except_bind_eq_ok.1 h
    -- a region that is skipped is a region in which nothing was found
    have hone : (o = none ∧ Marked true [] r r') ∨ ∃ i, o = some (r.page i) ∧ 0 < pmemPages n ∧
        i + pmemPages n < r.bmap.bits ∧ Marked true (pagesOf (r.page i) n) r r' ∧
        ∀ j, i ≤ j → j < i + pmemPages n → readBit r.bmap.storage j = false := by
      split_ifs at ho with hfull
      · exact allocRegion_spec hok.head_ok hok.head_sound ha ho
      · cases ho
        exact .inl ⟨rfl, .refl hok.head_sound⟩
    rcases hone with ⟨rfl, hm⟩ | ⟨i, rfl, hpos, hlt, hm, hclear⟩
    · obtain ⟨⟨q, qs⟩, hq, h⟩ := except_bind_eq_ok.1 h
      obtain ⟨rfl, rfl⟩ := h
      rcases ih hok.tail hq with ⟨rfl, hms⟩ | ⟨a, rfl, ⟨s, hs, i, rfl, hpos, hlt⟩, hms, hfree⟩
      · exact .inl ⟨rfl, .cons hm hms⟩
      have hout : ∀ j < r.bmap.bits, r.page j ∉ pagesOf (s.page i) n := fun j hj hmem => by
        obtain ⟨k, -, hk, heq⟩ := mem_pagesOf_page.1 hmem
        exact hok.head_page_ne hs hj (by omega) heq
      refine .inr ⟨_, rfl, ⟨s, mem_cons_of_mem _ hs, i, rfl, hpos, hlt⟩,
        .cons ⟨hm.start, hm.length, hm.bits, hm.sound, fun j hj => ?_⟩ hms, ?_⟩
      · rw [if_neg (hout j hj), hm.bit j hj, if_neg not_mem_nil]
      · rintro p hp ⟨t, ht, j, hj, hbit, rfl⟩
        rcases mem_cons.1 ht with rfl | ht
        · exact hout j hj hp
        · exact hfree _ hp ⟨t, ht, j, hj, hbit, rfl⟩
    · cases h
      refine .inr ⟨_, rfl, ⟨r, mem_cons_self, i, rfl, hpos, hlt⟩, .cons hm ?_, ?_⟩
      · refine markedAll_refl_of_notMem hok.tail.sound fun s hs j hj hmem => ?_
        obtain ⟨k, -, hk, heq⟩ := mem_pagesOf_page.1 hmem
        exact hok.head_page_ne hs (by omega) hj heq.symm
      rintro p hp ⟨t, ht, j, hj, hbit, rfl⟩
      obtain ⟨k, hik, hk, heq⟩ := mem_pagesOf_page.1 hp
      rcases mem_cons.1 ht with rfl | ht
      · obtain rfl := Region.page_inj.1 heq
        rw [hclear j hik hk] at hbit
        cases hbit
      · exact hok.head_page_ne ht (by omega) hj heq.symm

/-- **An allocation** marks the pages it returns, all of them free before and in one region. -/
theorem pmemAlloc_spec (hok : RegionsOk regs)
    (ha : AlignOk align) (h : pmemAlloc fuel n align regs = .ok (a, regs')) :
    Holds regs' a n ∧ MarkedAll true (pagesOf a n) regs regs' ∧
      ∀ p ∈ pagesOf a n, p ∉ taken regs := by
  obtain ⟨⟨found, regs1⟩, h1, h⟩ := except_bind_eq_ok.1 h
  rcases pmemAllocHelper_spec ha hok h1 with ⟨rfl, hm1⟩ | ⟨b, rfl, hh, hm, hfree⟩
  · obtain ⟨⟨found, regs2⟩, h2, h⟩ := except_bind_eq_ok.1 h
    rcases pmemAllocHelper_spec ha (hok.marked hm1) h2 with ⟨rfl, -⟩ | ⟨b, rfl, hh, hm, hfree⟩
    · cases h
    · cases h
      rw [hm1.taken_nil] at hfree
      exact ⟨hh.marked hm, hm1.trans hm, hfree⟩
  · cases h
    exact ⟨hh.marked hm, hm, hfree⟩

/-! ### Freeing -/

/-- Freeing in the region of the block. -/
theorem freeRegion_spec (hr : r.Ok) (hs : r.Sound) (hi : i + pmemPages n < r.bmap.bits)
    (ht : ∀ j, i ≤ j → j < i + pmemPages n → readBit r.bmap.storage j = true) :
    Marked false (pagesOf (r.page i) n) r
      { r with bmap := (bmapFill r.bmap false i (add64 i (pmemPages n))).2 } := by
  have hlt := hr.bits_lt
  rw [add64_of_lt (by omega)]
  rcases hfill : bmapFill r.bmap false i (i + pmemPages n) with ⟨done, b'⟩
  cases done
  · unfold bmapFill at hfill
    rw [if_neg (by omega)] at hfill
    cases hfill
  obtain ⟨hbits, hhint, hc, hread⟩ := bmapFill_spec hs.1 (by omega) hfill ht
  refine ⟨rfl, rfl, hbits, ⟨hc, ?_⟩, fun j hj => ?_⟩
  · rw [hhint]
    exact hs.2
  · rw [hread]
    simp [page_mem_pagesOf]

/-- **Freeing** a block that is held and taken marks its pages as free. -/
theorem pmemFree_spec (hok : RegionsOk regs) (hh : Holds regs a n)
    (ht : ∀ p ∈ pagesOf a n, p ∈ taken regs) :
    MarkedAll false (pagesOf a n) regs (pmemFree a n regs) := by
  obtain ⟨s, hs, i, rfl, hpos, hlt⟩ := hh
  have hbits : ∀ j, i ≤ j → j < i + pmemPages n → readBit s.bmap.storage j = true :=
    fun j hij hj => (hok.page_mem_taken hs (by omega)).1 (ht _ (page_mem_pagesOf.2 ⟨hij, hj⟩))
  clear ht
  induction regs with
  | nil => cases hs
  | cons r regs ih =>
    unfold pmemFree
    by_cases hc : pmemRegContains r (s.page i) = true
    · -- the first region that contains the address is the one of the block
      have hsr : s = r := by
        rcases mem_cons.1 hs with h | h
        · exact h
        · exact absurd ⟨hc, (hok.ok s hs).contains_page (by omega)⟩
            ((pairwise_cons.1 hok.apart).1 s h _)
      subst hsr
      obtain ⟨hpage, -⟩ := hok.head_ok.page_regbit (hok.head_ok.page_dvd i) hc
      rw [if_pos hc, Region.page_inj.1 hpage]
      refine .cons (freeRegion_spec hok.head_ok hok.head_sound hlt hbits) ?_
      refine markedAll_refl_of_notMem hok.tail.sound fun t ht j hj hmem => ?_
      obtain ⟨k, -, hk, heq⟩ := mem_pagesOf_page.1 hmem
      exact hok.head_page_ne ht (by omega) hj heq.symm
    · rw [if_neg hc]
      have hs' : s ∈ regs := by
        rcases mem_cons.1 hs with rfl | h
        · exact absurd (hok.head_ok.contains_page (by omega)) hc
        · exact h
      refine .cons (.refl_of_notMem hok.head_sound fun j hj hmem => ?_) (ih hok.tail hs')
      obtain ⟨k, -, hk, heq⟩ := mem_pagesOf_page.1 hmem
      exact hok.head_page_ne hs' hj (by omega) heq

end Exact

end Tachyon.Pmem
