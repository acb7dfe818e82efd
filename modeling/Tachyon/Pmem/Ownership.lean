import Tachyon.Pmem.Reserve

/-!
# Exclusive ownership of physical pages

The callers of `pmem_alloc` hold live allocations, and `pmem_reserve` has taken pages for good.
`Owners` puts them next to the regions, `PmemStep` is one call, and `Exclusive` says that every page
has at most one owner and that the bitmaps and counters tell exactly the owned pages.

* `pmem_exclusive_run`: `Exclusive` along every run from fresh regions.
-/

namespace Tachyon.Pmem

open Prog List

variable {σ : Type} {regs regs₀ regs' : List (Region σ)} {fuel : ℕ}

/-- The regions, the live allocations (address and length) and the pages reserved. -/
structure Owners (σ : Type) where
  regs : List (Region σ)
  live : List (ℕ × ℕ)
  reserved : List ℕ

/-- All pages with an owner. -/
def ownedPages (c : Owners σ) : List ℕ := c.live.flatMap (fun b => pagesOf b.1 b.2) ++ c.reserved

/-- The number of bits of all bitmaps. -/
def totalPages (regs : List (Region σ)) : ℕ := (regs.map fun r => r.bmap.bits).sum

variable {a n p : ℕ} {v : Bool} {ps : List ℕ}

theorem Holds.inRegions (h : Holds regs a n) (hp : p ∈ pagesOf a n) :
    InRegions regs p := by
  obtain ⟨r, hr, i, rfl, -, hlt⟩ := h
  obtain ⟨j, -, hj, rfl⟩ := mem_pagesOf_page.1 hp
  exact ⟨r, hr, j, by omega, rfl⟩

/-- The owned pages without those of one allocation. -/
theorem ownedPages_perm {c : Owners σ} (h : (a, n) ∈ c.live) (regs : List (Region σ)) :
    (ownedPages c).Perm (pagesOf a n ++ ownedPages ⟨regs, c.live.erase (a, n), c.reserved⟩) := by
  unfold ownedPages
  rw [← append_assoc]
  refine List.Perm.append_right _ ?_
  exact (perm_cons_erase h).flatMap_right fun b => pagesOf b.1 b.2

variable [BitStore σ] {c c' : Owners σ}

/-- One call that returns. -/
inductive PmemStep : Owners σ → Owners σ → Prop
  | alloc {c : Owners σ} {fuel n a : ℕ} {align : ℤ} {regs' : List (Region σ)} (length : 0 < n)
      (small : 0 ≤ align ∧ align ≤ 4096) (call : pmemAlloc fuel n align c.regs = .ok (a, regs')) :
      PmemStep c ⟨regs', (a, n) :: c.live, c.reserved⟩
  | free {c : Owners σ} {a n : ℕ} (own : (a, n) ∈ c.live) :
      PmemStep c ⟨pmemFree a n c.regs, c.live.erase (a, n), c.reserved⟩
  | reserve {c : Owners σ} {fuel addr length : ℕ} {done : Bool} {regs' : List (Region σ)}
      (call : pmemReserve fuel addr length c.regs = .ok (done, regs')) :
      PmemStep c ⟨regs', c.live,
        if done then reservePages fuel addr length c.regs ++ c.reserved else c.reserved⟩

/-- Regions as they are added: disjoint, with empty bitmaps. -/
structure Fresh (regs : List (Region σ)) : Prop where
  ok : ∀ r ∈ regs, r.Ok
  apart : regs.Pairwise Region.Apart
  hint : ∀ r ∈ regs, r.bmap.hint = 0
  setCnt : ∀ r ∈ regs, r.bmap.setCnt = 0
  clear : ∀ r ∈ regs, ∀ i < r.bmap.bits, readBit r.bmap.storage i = false

/-- The same bits and the same counter. -/
structure SameBits (r r' : Region σ) : Prop where
  start : r'.start = r.start
  length : r'.length = r.length
  bits : r'.bmap.bits = r.bmap.bits
  setCnt : r'.bmap.setCnt = r.bmap.setCnt
  bit : ∀ i < r.bmap.bits, readBit r'.bmap.storage i = readBit r.bmap.storage i

/-- Every page has one owner, and the bitmaps know exactly the pages that have one. -/
structure Exclusive (total : ℕ) (c : Owners σ) : Prop where
  disjoint : (ownedPages c).Nodup
  inside : ∀ a n, (a, n) ∈ c.live →
    ∃ r ∈ c.regs, r.start ≤ a ∧ a + pmemPagesize * pmemPages n ≤ r.start + r.length
  reservedInside : ∀ p ∈ c.reserved, ∃ r ∈ c.regs, r.start ≤ p ∧ p < r.start + r.length
  bits : taken c.regs = {p | p ∈ ownedPages c}
  counted : ∀ r ∈ c.regs, Counted r.bmap
  info : (pmemInfo c.regs).allocPages + (pmemInfo c.regs).freePages = total
  /-- Freeing clears the bits of the block and no other ones. -/
  free : ∀ a n, (a, n) ∈ c.live → MarkedAll false (pagesOf a n) c.regs (pmemFree a n c.regs)
  /-- Freeing what was just allocated is as if nothing had happened. -/
  undo : ∀ fuel n (align : ℤ) a regs', 0 ≤ align → align ≤ 4096 →
    pmemAlloc fuel n align c.regs = .ok (a, regs') →
      List.Forall₂ SameBits c.regs (pmemFree a n regs')

/-- What every call keeps. -/
structure PmemInv (total : ℕ) (c : Owners σ) : Prop where
  ok : RegionsOk c.regs
  total : totalPages c.regs = total
  holds : ∀ b ∈ c.live, Holds c.regs b.1 b.2
  reserved : ∀ p ∈ c.reserved, InRegions c.regs p
  nodup : (ownedPages c).Nodup
  taken : ∀ p, p ∈ taken c.regs ↔ p ∈ ownedPages c

/-! ### One call -/

theorem nodup_pagesOf (a n : ℕ) : (pagesOf a n).Nodup := by
  refine List.Nodup.map ?_ nodup_range
  intro i j hij
  simp only [pmemPagesize] at hij
  omega

theorem MarkedAll.totalPages (h : MarkedAll v ps regs regs') :
    totalPages regs' = totalPages regs := by
  induction h with
  | nil => rfl
  | cons hr _ ih =>
    simp only [Pmem.totalPages, map_cons, sum_cons] at ih ⊢
    rw [ih, hr.bits]

theorem InRegions.marked (h : InRegions regs p)
    (hm : MarkedAll v ps regs regs') : InRegions regs' p := by
  obtain ⟨r, hr, i, hi, rfl⟩ := h
  obtain ⟨r', hr', hrr⟩ := hm.exists_of_mem_left hr
  exact ⟨r', hr', i, by rwa [hrr.bits], (hrr.page i).symm⟩

variable {total : ℕ}

/-- More pages get an owner. -/
theorem PmemInv.mark (h : PmemInv total c) (hm : MarkedAll true ps c.regs c'.regs)
    (hin : ∀ p ∈ ps, InRegions c.regs p) (hps : ps.Nodup) (hfree : ∀ p ∈ ps, p ∉ Pmem.taken c.regs)
    (hown : (ownedPages c').Perm (ps ++ ownedPages c)) (hholds : ∀ b ∈ c'.live, Holds c'.regs b.1 b.2)
    (hres : ∀ p ∈ c'.reserved, InRegions c'.regs p) : PmemInv total c' := by
  refine ⟨h.ok.marked hm, hm.totalPages.trans h.total, hholds, hres, ?_, fun p => ?_⟩
  · rw [hown.nodup_iff, nodup_append]
    exact ⟨hps, h.nodup, fun p hp q hq hpq => hfree p hp ((h.taken p).2 (hpq ▸ hq))⟩
  · rw [hm.taken_true hin, h.taken, hown.mem_iff, mem_append]

section Exact

variable [ExactBits σ]

section

variable (h : PmemInv total c)
include h

theorem PmemInv.alloc {align : ℤ} (ha : 0 ≤ align ∧ align ≤ 4096)
    (hcall : pmemAlloc fuel n align c.regs = .ok (a, regs')) :
    PmemInv total ⟨regs', (a, n) :: c.live, c.reserved⟩ := by
  obtain ⟨hh, hm, hfree⟩ := pmemAlloc_spec h.ok (.inl ha) hcall
  refine h.mark hm (fun p hp => ?_) (nodup_pagesOf a n) hfree ?_ ?_ ?_
  · obtain ⟨r, hr, i, hi, rfl⟩ := hh.inRegions hp
    obtain ⟨s, hs, hrs⟩ := hm.exists_of_mem_right hr
    exact ⟨s, hs, i, hrs.bits ▸ hi, hrs.page i⟩
  · simp [ownedPages]
  · exact forall_mem_cons.2 ⟨hh, fun b hb => (h.holds b hb).marked hm⟩
  · exact fun p hp => (h.reserved p hp).marked hm

theorem PmemInv.marked_free (own : (a, n) ∈ c.live) :
    MarkedAll false (pagesOf a n) c.regs (pmemFree a n c.regs) := by
  refine pmemFree_spec h.ok (h.holds _ own) fun p hp => (h.taken p).2 ?_
  exact mem_append_left _ (mem_flatMap.2 ⟨_, own, hp⟩)

theorem PmemInv.free (own : (a, n) ∈ c.live) :
    PmemInv total ⟨pmemFree a n c.regs, c.live.erase (a, n), c.reserved⟩ := by
  have hm := h.marked_free own
  have hperm := ownedPages_perm own (pmemFree a n c.regs)
  have hnd := h.nodup
  rw [hperm.nodup_iff, nodup_append] at hnd
  refine ⟨h.ok.marked hm, hm.totalPages.trans h.total,
    fun b hb => (h.holds b (mem_of_mem_erase hb)).marked hm,
    fun p hp => (h.reserved p hp).marked hm, hnd.2.1, fun p => ?_⟩
  rw [hm.taken_false, h.taken, hperm.mem_iff, mem_append]
  constructor
  · rintro ⟨hp, hp' | hp'⟩
    · exact absurd hp' hp
    · exact hp'
  · exact fun hp => ⟨fun hp' => hnd.2.2 p hp' p hp rfl, Or.inr hp⟩

theorem PmemInv.reserve {addr length : ℕ} {done : Bool}
    (hcall : pmemReserve fuel addr length c.regs = .ok (done, regs')) :
    PmemInv total ⟨regs', c.live,
      if done then reservePages fuel addr length c.regs ++ c.reserved else c.reserved⟩ := by
  rcases pmemReserve_spec h.ok hcall with ⟨rfl, rfl⟩ | ⟨rfl, hm, hsort, hpages⟩
  · exact h
  refine h.mark hm (fun p hp => (hpages p hp).2.2.1)
    (hsort.imp fun hlt => hlt.ne) (fun p hp => (hpages p hp).2.2.2) ?_
    (fun b hb => (h.holds b hb).marked hm) fun p hp => ?_
  · simp only [ownedPages, if_true]
    exact perm_append_comm_assoc _ _ _
  · rcases mem_append.1 hp with hp | hp
    · exact (hpages p hp).2.2.1.marked hm
    · exact (h.reserved p hp).marked hm

theorem PmemInv.step (hstep : PmemStep c c') : PmemInv total c' := by
  cases hstep with
  | alloc _ small call => exact h.alloc small call
  | free own => exact h.free own
  | reserve call => exact h.reserve call

end

end Exact

/-! ### Counters -/

/-- The pages of disjoint regions are no more than the address space has. -/
theorem RegionsOk.totalPages_le (h : RegionsOk regs) : totalPages regs ≤ 2 ^ 52 := by
  have hnodup : (regs.flatMap fun r => (range r.bmap.bits).map r.page).Nodup := by
    induction regs with
    | nil => exact nodup_nil
    | cons r regs ih =>
      rw [flatMap_cons, nodup_append]
      refine ⟨nodup_range.map fun i j => Region.page_inj.1, ih h.tail, ?_⟩
      rintro p hp q hq rfl
      obtain ⟨i, hi, rfl⟩ := mem_map.1 hp
      obtain ⟨s, hs, hq⟩ := mem_flatMap.1 hq
      obtain ⟨j, hj, heq⟩ := mem_map.1 hq
      exact h.head_page_ne hs (mem_range.1 hi) (mem_range.1 hj) heq.symm
  have hpage : ∀ p ∈ regs.flatMap fun r => (range r.bmap.bits).map r.page,
      pmemPagesize ∣ p ∧ p < 2 ^ 64 := by
    intro p hp
    obtain ⟨r, hr, hp⟩ := mem_flatMap.1 hp
    obtain ⟨i, hi, rfl⟩ := mem_map.1 hp
    have hc := (h.ok r hr).contains_iff.1 ((h.ok r hr).contains_page (mem_range.1 hi))
    have hfit := (h.ok r hr).fits
    exact ⟨(h.ok r hr).page_dvd i, by omega⟩
  have hlen : totalPages regs =
      (regs.flatMap fun r => (range r.bmap.bits).map r.page).length := by
    simp [totalPages, length_flatMap]
  -- by their numbers, the pages are distinct numbers below `2 ^ 52`
  have hnum : ((regs.flatMap fun r => (range r.bmap.bits).map r.page).map
      (· / pmemPagesize)).Nodup := by
    refine hnodup.map_on fun p hp q hq hpq => ?_
    rw [← Nat.div_mul_cancel (hpage p hp).1, ← Nat.div_mul_cancel (hpage q hq).1, hpq]
  have hsub : _ ⊆ range (2 ^ 52) := fun k (hk : k ∈ (regs.flatMap fun r =>
      (range r.bmap.bits).map r.page).map (· / pmemPagesize)) => by
    obtain ⟨p, hp, rfl⟩ := mem_map.1 hk
    have := (hpage p hp).2
    rw [mem_range, pmemPagesize]
    omega
  simpa [hlen] using (hnum.subperm hsub).length_le

theorem pmemInfo_foldl : ∀ {regs : List (Region σ)} (info : Info), (∀ r ∈ regs, Counted r.bmap) →
    info.allocPages + info.freePages + totalPages regs < 2 ^ 64 →
    (regs.foldl (fun info reg => ⟨add64 info.allocPages reg.bmap.setCnt,
      add64 info.freePages (sub64 reg.bmap.bits reg.bmap.setCnt)⟩) info).allocPages +
    (regs.foldl (fun info reg => ⟨add64 info.allocPages reg.bmap.setCnt,
      add64 info.freePages (sub64 reg.bmap.bits reg.bmap.setCnt)⟩) info : Info).freePages =
    info.allocPages + info.freePages + totalPages regs := by
  intro regs
  induction regs with
  | nil => intro info _ _; rfl
  | cons r regs ih =>
    intro info hc hlt
    obtain ⟨hr, hc⟩ := forall_mem_cons.1 hc
    have htot : totalPages (r :: regs) = r.bmap.bits + totalPages regs := by simp [totalPages]
    have hle : r.bmap.setCnt ≤ r.bmap.bits := by
      rw [show r.bmap.setCnt = (setBits r.bmap).card from hr]
      exact card_setBits_le
    rw [foldl_cons, sub64_of_le hle (by omega), add64_of_lt (by omega), add64_of_lt (by omega),
      ih _ hc (by simp only; omega)]
    simp only
    omega

/-- `pmem_info` counts every page once. -/
theorem pmemInfo_total (h : RegionsOk regs) :
    (pmemInfo regs).allocPages + (pmemInfo regs).freePages = totalPages regs := by
  have hle := h.totalPages_le
  have := pmemInfo_foldl ⟨0, 0⟩ (fun r hr => (h.sound r hr).1) (by simp only; omega)
  simpa [pmemInfo] using this

/-! ### Runs -/

theorem Fresh.inv (h : Fresh regs) : PmemInv (totalPages regs) ⟨regs, [], []⟩ := by
  have hnone : ∀ p, p ∉ taken regs := by
    rintro p ⟨r, hr, i, hi, hbit, -⟩
    rw [h.clear r hr i hi] at hbit
    cases hbit
  refine ⟨⟨h.ok, fun r hr => ⟨?_, ?_⟩, h.apart⟩, rfl, by simp, by simp, nodup_nil, fun p => ?_⟩
  · have hempty : setBits r.bmap = ∅ := by
      refine Finset.eq_empty_of_forall_notMem fun i hi => ?_
      rw [mem_setBits] at hi
      rw [h.clear r hr i hi.1] at hi
      cases hi.2
    rw [Counted, h.setCnt r hr, hempty, Finset.card_empty]
  · rw [h.hint r hr]
    norm_num
  · simp [ownedPages, hnone p]

/-- Marking pages that were free, and freeing them, restores the bits. -/
theorem SameBits.of_marked {r r' r'' : Region σ} (hs : r.Sound)
    (h : Marked true ps r r') (h' : Marked false ps r' r'')
    (hfree : ∀ i < r.bmap.bits, r.page i ∈ ps → readBit r.bmap.storage i = false) :
    SameBits r r'' := by
  have hbit : ∀ i < r.bmap.bits, readBit r''.bmap.storage i = readBit r.bmap.storage i := by
    intro i hi
    rw [h'.bit i (h.bits ▸ hi), h.page, h.bit i hi]
    split_ifs with hp
    · exact (hfree i hi hp).symm
    · rfl
  refine ⟨h'.start.trans h.start, h'.length.trans h.length, h'.bits.trans h.bits, ?_, hbit⟩
  have hset : setBits r''.bmap = setBits r.bmap := by
    ext i
    rw [mem_setBits, mem_setBits, h'.bits, h.bits]
    exact and_congr_right fun hi => by rw [hbit i hi]
  rw [show r''.bmap.setCnt = _ from h'.sound.1, show r.bmap.setCnt = _ from hs.1, hset]

theorem sameBits_of_marked {regs'' : List (Region σ)}
    (h : MarkedAll true ps regs regs') (h' : MarkedAll false ps regs' regs'')
    (hs : ∀ r ∈ regs, r.Sound) (hfree : ∀ r ∈ regs, ∀ i < r.bmap.bits, r.page i ∈ ps →
      readBit r.bmap.storage i = false) : Forall₂ SameBits regs regs'' := by
  induction h generalizing regs'' with
  | nil => cases h'; exact .nil
  | cons hr _ ih =>
    cases h' with
    | cons hr' h' =>
      rw [forall_mem_cons] at hs hfree
      exact .cons (.of_marked hs.1 hr hr' hfree.1) (ih h' hs.2 hfree.2)

variable [ExactBits σ]

/-- The invariant says what the owners rely on. -/
theorem PmemInv.exclusive (h : PmemInv total c) : Exclusive total c := by
  refine ⟨h.nodup, fun a n hl => ?_, fun p hp => ?_, Set.ext h.taken,
    fun r hr => (h.ok.sound r hr).1, (pmemInfo_total h.ok).trans h.total, fun a n => h.marked_free,
    fun fuel n align a regs' h0 h1 hcall => ?_⟩
  · obtain ⟨r, hr, i, hp, -, hlt⟩ := h.holds _ hl
    simp only at hp hlt
    subst hp
    have := (h.ok.ok r hr).contains_iff.1 ((h.ok.ok r hr).contains_page hlt)
    refine ⟨r, hr, Nat.le_add_right _ _, ?_⟩
    unfold Region.page at this ⊢
    rw [Nat.mul_add] at this
    omega
  · obtain ⟨r, hr, i, hi, rfl⟩ := h.reserved p hp
    exact ⟨r, hr, (h.ok.ok r hr).contains_iff.1 ((h.ok.ok r hr).contains_page hi)⟩
  · obtain ⟨-, hm, hfree⟩ := pmemAlloc_spec h.ok (.inl ⟨h0, h1⟩) hcall
    have hm' := (h.alloc ⟨h0, h1⟩ hcall).marked_free mem_cons_self
    refine sameBits_of_marked hm hm' h.ok.sound fun r hr i hi hp => ?_
    have := hfree _ hp
    rw [h.ok.page_mem_taken hr hi] at this
    simpa using this

/-- **Exclusive ownership of physical pages.**  From disjoint, page-aligned regions with empty
bitmaps, along every run of allocations, releases and reservations: every page has at most one
owner, the set bits are the owned pages, the counters count them, and a release undoes the
allocation. -/
theorem pmem_exclusive_run (h : Fresh regs₀)
    (hrun : Relation.ReflTransGen PmemStep ⟨regs₀, [], []⟩ c) :
    Exclusive (totalPages regs₀) c := by
  refine PmemInv.exclusive ?_
  induction hrun with
  | refl => exact h.inv
  | tail _ hstep ih => exact ih.step hstep

/-- 64K of memory behind the first megabyte. -/
def smallRegion : Region (ℕ → Bool) := ⟨⟨fun _ => false, 16, 0, 0⟩, 0x100000, 0x10000⟩

/-- Two pages are allocated, and the page behind them is reserved. -/
theorem pmem_exclusive_run_small : Fresh [smallRegion] ∧
    ∃ regs : List (Region (ℕ → Bool)), Exclusive 16 ⟨regs, [(0x100000, 8000)], [0x102000]⟩ := by
  have hfresh : Fresh [smallRegion] := by
    refine ⟨?_, pairwise_singleton _ _, ?_, ?_, ?_⟩ <;> simp only [forall_mem_singleton]
    · exact ⟨by decide, by decide, by decide⟩
    · rfl
    · rfl
    · exact fun _ _ => rfl
  have halloc : pmemAlloc 20 8000 4096 [smallRegion] =
      .ok (0x100000, exec (pmemAlloc 20 8000 4096) [smallRegion]) :=
    eq_ok_of_value (by decide +kernel)
  have hreserve : pmemReserve 20 0x102000 100
      (exec (pmemAlloc 20 8000 4096) [smallRegion]) = .ok (true, exec
        (pmemReserve 20 0x102000 100) (exec (pmemAlloc 20 8000 4096) [smallRegion])) :=
    eq_ok_of_value (by decide +kernel)
  have hpages : reservePages 20 0x102000 100
      (exec (pmemAlloc 20 8000 4096) [smallRegion]) = [0x102000] := by decide +kernel
  have hfirst : PmemStep ⟨[smallRegion], [], []⟩ _ := .alloc (by decide) (by decide) halloc
  have hrun := Relation.ReflTransGen.tail (.single hfirst) (PmemStep.reserve hreserve)
  exact ⟨hfresh, _, pmem_exclusive_run hfresh hrun⟩

end Tachyon.Pmem
