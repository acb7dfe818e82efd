import Tachyon.Heap.Place
import Tachyon.Heap.Process

/-!
# `heap_alloc` returns

The search loop of `heap_alloc` step by step: it passes the blocks that do not fit
(`allocLoop_walk`), takes the first one that does (`allocLoop_fits`), or enlarges the last one
(`allocLoop_grow`).

* `Maps`: some pages are mapped, one after the other;
* `neededPages`: the number of pages by which a request enlarges the last block;
* `heapAlloc_fit_run`, `heapAlloc_total`: a request returns a new block if there is one that fits,
  or if the pages it needs are mapped;
* `RunsOut`, `heapAlloc_runsOut`: it returns `NULL` if one of its pages is not mapped.
-/

namespace Tachyon.Heap

open Prog List

variable {σ : Type} {P : Pages σ} {s : Sys σ} {pre mid post bs : List Blk}
  {e z bytes fuel flags mark phys : ℕ} {c : Blk} {g' : σ}

/-! ### The search loop -/

/-- The address of a block is in the range of the loop. -/
theorem Tiled.in_range (h : Tiled e s (pre ++ c :: post)) :
    s.heap.start + span pre ≥ s.heap.start ∧
      s.heap.start + span pre < s.heap.state.vmemMark := by
  have hmark := h.mark_eq
  simp only [span_append, span_cons, Blk.span] at hmark
  omega

/-- The loop takes a block that fits. -/
theorem allocLoop_fits (h : Tiled e s (pre ++ c :: post))
    (hfit : fits s.mem (s.heap.start + span pre) bytes = true) :
    allocLoop P (fuel + 1) bytes (s.heap.start + span pre) s =
      .ok (s.heap.start + span pre + 8, allocated s (s.heap.start + span pre) bytes) := by
  have hlt := h.lt_of_block
  simp only [Blk.span] at hlt
  have hiter : allocIter P (heapAlloc P fuel) bytes (s.heap.start + span pre) s =
      .ok (.done (s.heap.start + span pre + 8), allocated s (s.heap.start + span pre) bytes) := by
    rw [allocIter, run_get_bind, if_pos hfit, run_ok (run_set s _), blH2M, blockT,
      add64_of_lt (by omega)]
    rfl
  rw [allocLoop_succ, run_get_bind, if_pos h.in_range, run_ok hiter]
  rfl

/-- The loop passes a block that does not fit. -/
theorem allocLoop_skip (h : Tiled e s (pre ++ c :: post))
    (hfit : ¬ fits s.mem (s.heap.start + span pre) bytes = true) (hpost : post ≠ []) :
    allocLoop P (fuel + 1) bytes (s.heap.start + span pre) s =
      allocLoop P fuel bytes (s.heap.start + span pre + c.span) s := by
  have hiter : allocIter P (heapAlloc P fuel) bytes (s.heap.start + span pre) s =
      .ok (.next (s.heap.start + span pre + c.span), s) := by
    rw [allocIter, run_get_bind, if_neg hfit,
      if_neg (not_not.2 (h.hasNext_iff.2 hpost)), h.tiles.blkAt.next h.lt_of_block]
    rfl
  rw [allocLoop_succ, run_get_bind, if_pos h.in_range, run_ok hiter]

/-- At the last block the loop enlarges it. -/
theorem allocLoop_grow (h : Tiled e s (pre ++ [c]))
    (hfit : ¬ fits s.mem (s.heap.start + span pre) bytes = true) :
    allocLoop P (fuel + 1) bytes (s.heap.start + span pre) s =
      (heapGrow P (heapAlloc P fuel) (s.heap.start + span pre) c.size 0 (growPages bytes) >>=
        fun ok => if ok then allocLoop P fuel bytes (s.heap.start + span pre) else pure 0) s := by
  have hlast : ¬ blHasNext s.heap s.mem (s.heap.start + span pre) = true := by
    simp [h.hasNext_iff]
  have hiter : allocIter P (heapAlloc P fuel) bytes (s.heap.start + span pre) s =
      (heapGrow P (heapAlloc P fuel) (s.heap.start + span pre) c.size 0 (growPages bytes) >>=
        fun ok => if ok then pure (.next (s.heap.start + span pre)) else pure (.done 0)) s := by
    rw [allocIter, run_get_bind, if_neg hfit, if_pos hlast, h.tiles.blkAt.dataSz]
  rw [allocLoop_succ, run_get_bind, if_pos h.in_range, run_bind, hiter, run_bind, run_bind]
  cases heapGrow P (heapAlloc P fuel) (s.heap.start + span pre) c.size 0 (growPages bytes) s with
  | error => rfl
  | ok r => obtain ⟨_ | _, s'⟩ := r <;> rfl

section

variable (hb : bytes + 16 < 2 ^ 64)
include hb

theorem Tiled.not_fits (h : Tiled e s (pre ++ c :: post))
    (hc : c.used = false → c.size < bytes + 16) :
    ¬ fits s.mem (s.heap.start + span pre) bytes = true := by
  rw [h.fits_iff hb]
  rintro ⟨hu, hle⟩
  have := hc hu
  omega

/-- The loop passes the blocks that do not fit. -/
theorem allocLoop_walk (h : Tiled e s (pre ++ mid ++ post)) (hno : NoFit bytes mid)
    (hpost : post ≠ []) :
    allocLoop P (fuel + mid.length) bytes (s.heap.start + span pre) s =
      allocLoop P fuel bytes (s.heap.start + span (pre ++ mid)) s := by
  induction mid generalizing pre with
  | nil => simp
  | cons c mid ih =>
    have h1 : Tiled e s (pre ++ c :: (mid ++ post)) := by simpa using h
    have h2 : Tiled e s (pre ++ [c] ++ mid ++ post) := by simpa using h
    rw [length_cons, ← add_assoc, allocLoop_skip h1 (h1.not_fits hb (hno c mem_cons_self)) (by simp [hpost])]
    have hrest := ih h2 fun d hd => hno d (mem_cons_of_mem _ hd)
    simpa [add_assoc] using hrest

/-- The blocks in front that do not fit are passed. -/
theorem allocLoop_front (h : Tiled e s (pre ++ post)) (hno : NoFit bytes pre) (hpost : post ≠ []) :
    allocLoop P (fuel + pre.length) bytes s.heap.start s =
      allocLoop P fuel bytes (s.heap.start + span pre) s := by
  have h' : Tiled e s ([] ++ pre ++ post) := h
  simpa using allocLoop_walk hb h' hno hpost

end

/-- A request that some block satisfies, while the address space of the heap is active. -/
theorem heapAlloc_fit_run (h : Tiled e s (pre ++ ⟨z, false⟩ :: post)) (hact : Active P s)
    (hno : NoFit (alignUp bytes blockT) pre) (hb : alignUp bytes blockT + 16 < 2 ^ 64)
    (hz : alignUp bytes blockT + 16 ≤ z) (hfuel : pre.length < fuel) :
    heapAlloc P fuel bytes s = .ok (s.heap.start + span pre + 8,
      allocated s (s.heap.start + span pre) (alignUp bytes blockT)) := by
  obtain ⟨n, rfl⟩ : ∃ n, fuel = n + 1 + pre.length := ⟨fuel - 1 - pre.length, by omega⟩
  rw [heapAlloc, run_ok (heapCheck_run hact), run_get_bind,
    allocLoop_front hb h hno (by simp), allocLoop_fits h ((h.fits_iff hb).2 ⟨rfl, hz⟩)]

/-! ### Growth -/

variable {g g₁ g₂ : σ} {spc j k i : ℕ}

theorem pmemAlloc_run (h : P.pmemAlloc s.pages = .ok (phys, g)) :
    pmemAlloc P s = .ok (phys, { s with pages := g }) := by
  rw [pmemAlloc, zoom, h]

theorem vmemMap_run {virt : ℕ} {ok : Bool} (h : P.vmemMap spc phys virt flags g₁ = .ok (ok, g₂)) :
    vmemMap P spc phys virt flags { s with pages := g₁ } = .ok (ok, { s with pages := g₂ }) := by
  rw [vmemMap, zoom, h]

/-- Two passes. -/
theorem Maps.split (h : Maps P spc flags (j + k) mark g g') :
    ∃ g₁, Maps P spc flags j mark g g₁ ∧ Maps P spc flags k (mark + pageSize4K * j) g₁ g' := by
  induction j generalizing mark g with
  | zero =>
    rw [zero_add] at h
    exact ⟨g, .none _ _, h⟩
  | succ j ih =>
    rw [Nat.succ_add] at h
    obtain - | ⟨halloc, hmap, hrest⟩ := h
    obtain ⟨g₁, h1, h2⟩ := ih hrest
    refine ⟨g₁, .page halloc hmap h1, ?_⟩
    rwa [Nat.mul_succ, add_comm (pageSize4K * j), ← add_assoc]

/-- The last block, behind `pre` and of size `z`, was enlarged by `k` pages. -/
structure Enlarged (e : ℕ) (pre : List Blk) (z k : ℕ) (s s' : Sys σ) (g' : σ) : Prop where
  same : SameHeap s s'
  pages : s'.pages = g'
  mark : s'.heap.state.vmemMark = s.heap.state.vmemMark + pageSize4K * k
  tiled : Tiled e s' (pre ++ [⟨z + pageSize4K * k, false⟩])
  front : ∀ x, x < s.heap.start + span pre → s'.mem x = s.mem x

theorem Enlarged.trans {s1 s2 : Sys σ} (h : Enlarged e pre z j s s1 g₁)
    (h' : Enlarged e pre (z + pageSize4K * j) k s1 s2 g') : Enlarged e pre z (j + k) s s2 g' := by
  refine ⟨h.same.trans h'.same, h'.pages, ?_, ?_, fun x hx => ?_⟩
  · rw [h'.mark, h.mark, mul_add, add_assoc]
  · rw [mul_add, ← add_assoc]
    exact h'.tiled
  · rw [h'.front x (by rwa [h.same.start]), h.front x hx]

/-- One page of a growth pass. -/
theorem heapGrow_page (hng : NotGlobal s) (h : Tiled e s (pre ++ [⟨z + pageSize4K * i, false⟩]))
    (hend : s.heap.state.vmemMark + pageSize4K ≤ e)
    (halloc : P.pmemAlloc s.pages = .ok (phys, g₁))
    (hmap : P.vmemMap s.heap.space phys s.heap.state.vmemMark s.heap.pgFl g₁ = .ok (true, g₂)) :
    ∃ s', (∀ alloc, heapGrow P alloc (s.heap.start + span pre) z i (k + 1) s =
        heapGrow P alloc (s.heap.start + span pre) z (i + 1) k s') ∧
      Enlarged e pre (z + pageSize4K * i) 1 s s' g₂ := by
  have h1 : Tiled e { s with pages := g₂ } (pre ++ [⟨z + pageSize4K * i, false⟩]) :=
    h.congr rfl rfl
  obtain ⟨h2, hout⟩ := h1.grow hend
  have hmark : add64 s.heap.state.vmemMark pageSize4K = s.heap.state.vmemMark + pageSize4K := by
    have hlt := h.end_lt
    exact add64_of_lt (by omega)
  refine ⟨grown { s with pages := g₂ } (s.heap.start + span pre)
    (z + pageSize4K * i + pageSize4K), fun alloc => ?_,
    sameHeap_grown s g₂ _ _, rfl, hmark, ?_, hout⟩
  · rw [heapGrow, run_ok (pmemAlloc_run halloc), run_get_bind,
      run_ok (vmemMap_run hmap), if_pos rfl, run_ok (run_modify _ _),
      if_neg (show ¬ _ from fun hg => hg hng), h2.grown_size]
    rfl
  · rw [mul_one]
    exact h2

/-- The first `k` pages of a growth pass of a process heap, if they are mapped. -/
theorem heapGrow_maps (k j i : ℕ) (hng : NotGlobal s)
    (h : Tiled e s (pre ++ [⟨z + pageSize4K * i, false⟩]))
    (hend : s.heap.state.vmemMark + pageSize4K * k ≤ e)
    (hmaps : Maps P s.heap.space s.heap.pgFl k s.heap.state.vmemMark s.pages g') :
    ∃ s', (∀ alloc, heapGrow P alloc (s.heap.start + span pre) z i (j + k) s =
        heapGrow P alloc (s.heap.start + span pre) z (i + k) j s') ∧
      Enlarged e pre (z + pageSize4K * i) k s s' g' := by
  induction k generalizing i s with
  | zero =>
    cases hmaps
    exact ⟨s, fun _ => rfl, SameHeap.refl s, rfl, rfl, h, fun _ _ => rfl⟩
  | succ k ih =>
    obtain - | ⟨halloc, hmap, hrest⟩ := hmaps
    rw [Nat.mul_succ] at hend
    obtain ⟨s1, hstep, hone⟩ := heapGrow_page (k := j + k) hng h (by omega) halloc hmap
    have hmark := hone.mark
    obtain ⟨s', hrun, hmore⟩ := ih (i + 1) (hone.same.notGlobal hng)
      (by rw [Nat.mul_succ, ← add_assoc]; simpa using hone.tiled) (by rw [hmark]; omega)
      (by rw [hone.same.space, hone.same.pgFl, hmark, hone.pages]; exact hrest)
    refine ⟨s', fun alloc => (hstep alloc).trans ?_, ?_⟩
    · rw [← hone.same.start, hrun alloc, add_right_comm, add_assoc i k]
    · rw [add_comm k]
      refine hone.trans ?_
      rwa [mul_one, add_assoc, ← Nat.mul_succ]

/-- The search loop at the last block, if the pages of a pass are mapped. -/
theorem allocLoop_pass (h : Tiled e s (pre ++ [⟨z, false⟩])) (hng : NotGlobal s)
    (hb : bytes + 16 < 2 ^ 64) (hz : z < bytes + 16)
    (hend : s.heap.state.vmemMark + pageSize4K * growPages bytes ≤ e)
    (hmaps : Maps P s.heap.space s.heap.pgFl (growPages bytes) s.heap.state.vmemMark s.pages g') :
    ∃ s', (∀ fuel, allocLoop P (fuel + 1) bytes (s.heap.start + span pre) s =
        allocLoop P fuel bytes (s.heap.start + span pre) s') ∧
      Enlarged e pre z (growPages bytes) s s' g' := by
  obtain ⟨s', hrun, hmore⟩ :=
    heapGrow_maps (growPages bytes) 0 0 hng (by simpa using h) hend hmaps
  refine ⟨s', fun fuel => ?_, by simpa using hmore⟩
  have hgrow := hrun (heapAlloc P fuel)
  rw [zero_add] at hgrow
  rw [allocLoop_grow h (h.not_fits hb fun _ => hz), run_ok hgrow, if_pos rfl]

/-! ### Requests -/

/-- The number of pages by which a request for `bytes` enlarges the last block: none, one pass or
two. -/
def neededPages (bytes : ℕ) (bs : List Blk) : ℕ :=
  match place bytes bs, bs.getLast? with
  | none, some b =>
    if bytes + 16 ≤ b.size + pageSize4K * growPages bytes then growPages bytes
    else growPages bytes + growPages bytes
  | _, _ => 0

theorem neededPages_last (hplace : place bytes (pre ++ [c]) = none) :
    neededPages bytes (pre ++ [c]) =
      if bytes + 16 ≤ c.size + pageSize4K * growPages bytes then growPages bytes
      else growPages bytes + growPages bytes := by
  simp [neededPages, hplace]

/-- The pages that a request for `bytes` needs are mapped, and end at `e` at most. -/
def Grows (P : Pages σ) (e : ℕ) (s : Sys σ) (bs : List Blk) (bytes : ℕ) : Prop :=
  ∃ g', Maps P s.heap.space s.heap.pgFl (neededPages (alignUp bytes blockT) bs)
      s.heap.state.vmemMark s.pages g' ∧
    s.heap.state.vmemMark + pageSize4K * neededPages (alignUp bytes blockT) bs ≤ e ∧
    P.spcCurrent g' = P.spcCurrent s.pages

/-- Sizes whose rounding up to a page wraps around ask for no page. -/
theorem growPages_eq_zero (hlt : bytes < 2 ^ 64) (hwrap : 2 ^ 64 < bytes + pageSize4K) :
    growPages bytes = 0 := by
  have hps : pageSize4K = 2 ^ 12 := rfl
  rw [growPages, hps, alignUp_two_pow]
  rw [hps] at hwrap
  simp only [add64]
  omega

/-- The sizes whose rounding up to a page does not wrap around. -/
theorem growPages_ge (hb : bytes + pageSize4K ≤ 2 ^ 64) :
    bytes ≤ pageSize4K * growPages bytes := by
  have hps : pageSize4K = 2 ^ 12 := rfl
  rw [growPages, hps, alignUp_two_pow, add64_of_lt (by omega)]
  omega

theorem growPages_pos (hpos : 0 < bytes) (hb : bytes + pageSize4K ≤ 2 ^ 64) :
    0 < growPages bytes := by
  have hge := growPages_ge hb
  refine pos_of_ne_zero fun h0 => ?_
  rw [h0] at hge
  omega

/-- The passes of a request that no block satisfies. -/
theorem allocLoop_grows (h : Tiled e s (pre ++ [⟨z, false⟩])) (hng : NotGlobal s)
    (hpos : 0 < bytes) (hb : bytes + pageSize4K ≤ 2 ^ 64)
    (hplace : place bytes (pre ++ [⟨z, false⟩]) = none)
    (hend : s.heap.state.vmemMark + pageSize4K * neededPages bytes (pre ++ [⟨z, false⟩]) ≤ e)
    (hmaps : Maps P s.heap.space s.heap.pgFl (neededPages bytes (pre ++ [⟨z, false⟩]))
      s.heap.state.vmemMark s.pages g') :
    ∃ s' w, (∀ fuel, 2 < fuel → ∃ n, allocLoop P fuel bytes (s.heap.start + span pre) s =
        allocLoop P (n + 1) bytes (s.heap.start + span pre) s') ∧
      bytes + 16 ≤ w ∧ SameHeap s s' ∧ s'.pages = g' ∧ Tiled e s' (pre ++ [⟨w, false⟩]) ∧
      ∀ x, x < s.heap.start + span pre → s'.mem x = s.mem x := by
  have hps : pageSize4K = 4096 := rfl
  have hge := growPages_ge hb
  have hz : z < bytes + 16 := noFit_of_place_eq_none hplace ⟨z, false⟩ (by simp) rfl
  rw [neededPages_last hplace] at hend hmaps
  split_ifs at hend hmaps with henough
  · obtain ⟨s1, hloop, hone⟩ := allocLoop_pass h hng (by omega) hz hend hmaps
    refine ⟨s1, _, fun fuel hfuel => ⟨fuel - 2, ?_⟩, henough, hone.same, hone.pages, hone.tiled,
      hone.front⟩
    obtain ⟨n, rfl⟩ : ∃ n, fuel = n + 3 := ⟨fuel - 3, by omega⟩
    exact hloop (n + 2)
  · obtain ⟨g₁, hfirst, hsecond⟩ := hmaps.split
    rw [mul_add] at hend
    obtain ⟨s1, hloop, hone⟩ := allocLoop_pass h hng (by omega) hz (by omega) hfirst
    obtain ⟨s2, hloop', htwo⟩ := allocLoop_pass hone.tiled (hone.same.notGlobal hng)
      (by omega) (not_le.1 henough) (by rw [hone.mark]; omega)
      (by rw [hone.same.space, hone.same.pgFl, hone.mark, hone.pages]; exact hsecond)
    have hboth := hone.trans htwo
    refine ⟨s2, _, fun fuel hfuel => ⟨fuel - 3, ?_⟩, ?_, hboth.same, hboth.pages, hboth.tiled,
      hboth.front⟩
    · obtain ⟨n, rfl⟩ : ∃ n, fuel = n + 3 := ⟨fuel - 3, by omega⟩
      rw [hone.same.start] at hloop'
      rw [hloop (n + 2), hloop' (n + 1)]
      rfl
    · have hpages : pageSize4K ≤ pageSize4K * growPages bytes :=
        Nat.le_mul_of_pos_right _ (growPages_pos hpos hb)
      rw [mul_add]
      omega

/-- A request that no block satisfies: the last block is enlarged and handed out. -/
theorem heapAlloc_grow_run (h : Tiled e s (pre ++ [⟨z, false⟩])) (hng : NotGlobal s)
    (hact : Active P s) (hpos : 0 < bytes) (hb : bytes + pageSize4K ≤ 2 ^ 64)
    (hplace : place (alignUp bytes blockT) (pre ++ [⟨z, false⟩]) = none)
    (hend : s.heap.state.vmemMark +
      pageSize4K * neededPages (alignUp bytes blockT) (pre ++ [⟨z, false⟩]) ≤ e)
    (hmaps : Maps P s.heap.space s.heap.pgFl
      (neededPages (alignUp bytes blockT) (pre ++ [⟨z, false⟩])) s.heap.state.vmemMark s.pages g') :
    ∃ s1 w, alignUp bytes blockT + 16 ≤ w ∧ SameHeap s s1 ∧ s1.pages = g' ∧
      Tiled e s1 (pre ++ [⟨w, false⟩]) ∧
      (∀ x, x < s.heap.start + span pre → s1.mem x = s.mem x) ∧
      ∀ fuel, pre.length + 3 < fuel → heapAlloc P fuel bytes s =
        .ok (s1.heap.start + span pre + 8,
          allocated s1 (s1.heap.start + span pre) (alignUp bytes blockT)) := by
  obtain ⟨hwrap, haligned⟩ := noWrap_of_le hb
  obtain ⟨-, hle, -⟩ := hwrap.alignUp
  have hno := noFit_of_place_eq_none hplace
  obtain ⟨s1, w, hloop, hw, hsame, hpages, ht1, hfront⟩ :=
    allocLoop_grows h hng (by omega) haligned hplace hend hmaps
  refine ⟨s1, w, hw, hsame, hpages, ht1, hfront, fun fuel hfuel => ?_⟩
  obtain ⟨n, rfl⟩ : ∃ n, fuel = n + pre.length := ⟨fuel - pre.length, by omega⟩
  obtain ⟨m, hm⟩ := hloop n (by omega)
  rw [heapAlloc, run_ok (heapCheck_run hact), run_get_bind,
    allocLoop_front hwrap.2 h (fun c hc => hno c (mem_append_left _ hc)) (by simp), hm,
    ← hsame.start, allocLoop_fits ht1 ((ht1.fits_iff hwrap.2).2 ⟨rfl, hw⟩)]

/-- **`heap_alloc` returns a new block** of a process heap if the pages it needs are mapped. -/
theorem heapAlloc_total (h : Tiled e s bs) (hlast : LastFree bs) (hng : NotGlobal s)
    (hact : Active P s) (hpos : 0 < bytes) (hb : bytes + pageSize4K ≤ 2 ^ 64)
    (hgrow : Grows P e s bs bytes) :
    ∃ p s' bs', (∀ fuel, bs.length + 2 < fuel → heapAlloc P fuel bytes s = .ok (p, s')) ∧
      SameHeap s s' ∧ Active P s' ∧ Untouched s.mem s'.mem (live s.heap.start bs) ∧
      Tiled e s' bs' ∧
      (live s.heap.start bs').Perm ((p, alignUp bytes blockT) :: live s.heap.start bs) ∧
      p = dataAddr (alignUp bytes blockT) s.heap.start bs := by
  obtain ⟨hwrap, -⟩ := noWrap_of_le hb
  obtain ⟨h8, -, -⟩ := hwrap.alignUp
  obtain ⟨g', hmaps, hend, hcur⟩ := hgrow
  cases hplace : place (alignUp bytes blockT) bs with
  | some bs' =>
    obtain ⟨pre, z, post, rfl, hno, hz, rfl⟩ := place_eq_some hplace
    obtain ⟨ht, hunt⟩ := h.split h8 hz
    refine ⟨_, _, _, fun fuel hfuel => heapAlloc_fit_run h hact hno hwrap.2 hz ?_,
      sameHeap_allocated _ _ _, hact, hunt, ht, live_split_perm hz,
      (dataAddr_first hno (.inr hz)).symm⟩
    rw [length_append] at hfuel
    omega
  | none =>
    obtain ⟨pre, z, rfl⟩ := hlast
    obtain ⟨s1, w, hw, hsame, hpages, ht1, hfront, hrun⟩ :=
      heapAlloc_grow_run h hng hact hpos hb hplace hend hmaps
    obtain ⟨ht, hunt⟩ := ht1.split h8 hw
    have hact1 : Active P s1 := by
      unfold Active
      rw [hsame.space, hsame.pgFl, hpages, hcur]
      exact hact
    have hlive : live s1.heap.start (pre ++ [⟨w, false⟩]) =
        live s.heap.start (pre ++ [⟨z, false⟩]) := by
      rw [hsame.start]
      simp
    refine ⟨_, _, _, fun fuel hfuel => hrun fuel ?_, hsame.trans (sameHeap_allocated _ _ _), hact1, ?_,
      ht, ?_, ?_⟩
    · rw [length_append, length_singleton] at hfuel
      omega
    · rw [hlive] at hunt
      refine Untouched.trans (fun p k hp x h1 h2 => hfront x ?_) hunt
      simp only [live_append, live_cons_free, live_nil, append_nil] at hp
      have := live_bounds hp
      omega
    · rw [← hlive, ← hsame.start]
      exact live_split_perm hw
    · have hno := noFit_of_place_eq_none hplace
      rw [hsame.start]
      exact (dataAddr_first (fun c hc => hno c (mem_append_left _ hc)) (.inl rfl)).symm

/-! ### Termination -/

/-- Every page behind the heap can be allocated and mapped. -/
def Mappable (P : Pages σ) (s : Sys σ) : Prop :=
  ∀ k, s.heap.state.vmemMark + pageSize4K * k < 2 ^ 64 →
    ∃ g', Maps P s.heap.space s.heap.pgFl k s.heap.state.vmemMark s.pages g'

/-- A request that no block satisfies and whose number of pages is rounded to none maps no page, and
looks at the last block again and again. -/
theorem allocLoop_stuck (hnone : growPages bytes = 0) (h : Tiled e s (pre ++ post))
    (hno : ∀ b ∈ post, b.used = false → b.size < blDataSz2Sz bytes) (hpost : post ≠ [])
    (fuel : ℕ) : allocLoop P fuel bytes (s.heap.start + span pre) s = .error .fuel := by
  induction fuel generalizing pre post with
  | zero => rfl
  | succ fuel ih =>
    obtain ⟨c, rest, rfl⟩ := exists_cons_of_ne_nil hpost
    have hc : ¬ fits s.mem (s.heap.start + span pre) bytes = true := by
      rw [h.fits_word_iff, not_and, not_le]
      exact hno c mem_cons_self
    cases rest with
    | nil =>
      have hgrow : heapGrow P (heapAlloc P fuel) (s.heap.start + span pre) c.size 0
          (growPages bytes) s = .ok (true, s) := by
        rw [hnone]
        rfl
      rw [allocLoop_grow h hc, run_ok hgrow, if_pos rfl]
      exact ih h hno hpost
    | cons d rest =>
      rw [allocLoop_skip h hc (by simp)]
      have h' : Tiled e s (pre ++ [c] ++ d :: rest) := by simpa using h
      have hnext := ih h' (fun b hb => hno b (mem_cons_of_mem c hb)) (by simp)
      simpa [add_assoc] using hnext

theorem heapAlloc_stuck (h : Tiled e s bs) (hact : Active P s)
    (hnone : growPages (alignUp bytes blockT) = 0)
    (hno : ∀ b ∈ bs, b.used = false → b.size < blDataSz2Sz (alignUp bytes blockT)) (hbs : bs ≠ [])
    (fuel : ℕ) : heapAlloc P fuel bytes s = .error .fuel := by
  have h' : Tiled e s ([] ++ bs) := h
  rw [heapAlloc, run_ok (heapCheck_run hact), run_get_bind]
  exact allocLoop_stuck hnone h' hno hbs fuel

/-- The first free block that is large enough for the word `blDataSz2Sz bytes` is handed out, also
where that word has wrapped around. -/
theorem allocLoop_found (h : Tiled e s (pre ++ post))
    (hfit : ∃ b ∈ post, b.used = false ∧ blDataSz2Sz bytes ≤ b.size) :
    ∃ a, s.heap.start + span pre ≤ a ∧ ∀ fuel, post.length ≤ fuel →
      allocLoop P fuel bytes (s.heap.start + span pre) s = .ok (a + 8, allocated s a bytes) := by
  induction post generalizing pre with
  | nil => simp at hfit
  | cons c rest ih =>
    by_cases hc : fits s.mem (s.heap.start + span pre) bytes = true
    · refine ⟨_, le_rfl, fun fuel hfuel => ?_⟩
      obtain ⟨n, rfl⟩ := Nat.exists_eq_add_of_le' (Nat.one_le_of_lt hfuel)
      exact allocLoop_fits h hc
    · have hrest : ∃ b ∈ rest, b.used = false ∧ blDataSz2Sz bytes ≤ b.size := by
        obtain ⟨b, hb, hfree⟩ := hfit
        obtain rfl | hb := mem_cons.1 hb
        · exact absurd (h.fits_word_iff.2 hfree) hc
        · exact ⟨b, hb, hfree⟩
      have h' : Tiled e s (pre ++ [c] ++ rest) := by simpa using h
      obtain ⟨a, ha, hrun⟩ := ih h' hrest
      rw [span_append, span_cons, span_nil, add_zero, ← add_assoc] at ha hrun
      refine ⟨a, by omega, fun fuel hfuel => ?_⟩
      obtain ⟨n, rfl⟩ := Nat.exists_eq_add_of_le' (Nat.one_le_of_lt hfuel)
      rw [allocLoop_skip h hc (fun h0 => by simp [h0] at hrest)]
      exact hrun n (Nat.le_of_succ_le_succ hfuel)

theorem heapAlloc_found (h : Tiled e s bs) (hact : Active P s)
    (hfit : ∃ b ∈ bs, b.used = false ∧ blDataSz2Sz (alignUp bytes blockT) ≤ b.size) :
    ∃ a, s.heap.start ≤ a ∧ ∀ fuel, bs.length ≤ fuel →
      heapAlloc P fuel bytes s = .ok (a + 8, allocated s a (alignUp bytes blockT)) := by
  have h' : Tiled e s ([] ++ bs) := h
  obtain ⟨a, ha, hrun⟩ := allocLoop_found h' hfit
  refine ⟨a, ha, fun fuel hfuel => ?_⟩
  rw [heapAlloc, run_ok (heapCheck_run hact), run_get_bind]
  exact hrun fuel hfuel

theorem Tiled.raise {e' : ℕ} (h : Tiled e s bs) (hle : s.heap.state.vmemMark ≤ e')
    (hlt : e' < 2 ^ 64) : Tiled e' s bs :=
  { h with mark_le := hle, end_lt := hlt }

/-- **`heap_alloc` terminates** with a block exactly if the request is not empty or some free block
satisfies it. -/
theorem alloc_terminates_iff (h : Tiled e s bs) (hlast : LastFree bs) (hng : NotGlobal s)
    (hact : Active P s) (hmaps : Mappable P s) (hb : bytes < 2 ^ 47)
    (hroom : s.heap.state.vmemMark + pageSize4K * neededPages (alignUp bytes blockT) bs < 2 ^ 64) :
    (∃ p s', p ≠ 0 ∧ Returns (fun fuel => heapAlloc P fuel bytes) s p s') ↔
      0 < bytes ∨ ∃ b ∈ bs, b.used = false ∧ 16 ≤ b.size := by
  have hps : pageSize4K = 4096 := rfl
  obtain ⟨hwrap, -⟩ := noWrap_of_le (show bytes + pageSize4K ≤ 2 ^ 64 by omega)
  constructor
  · rintro ⟨p, s', -, n, hn⟩
    by_contra hcon
    rw [not_or, pos_iff_ne_zero, not_not] at hcon
    obtain ⟨rfl, hsmall⟩ := hcon
    have hno : NoFit 0 bs := by
      intro c hc hu
      by_contra hge
      exact hsmall ⟨c, hc, hu, by omega⟩
    have hcall : heapAlloc P (n + 1) 0 s = .ok (p, s') := hn (n + 1) n.lt_succ_self
    have hround : alignUp 0 blockT = 0 := by decide
    have hbs : bs ≠ [] := by
      obtain ⟨pre, z, rfl⟩ := hlast
      simp
    rw [heapAlloc_stuck h hact (by decide) (by rwa [hround]) hbs] at hcall
    cases hcall
  · intro hfit
    cases hplace : place (alignUp bytes blockT) bs with
    | some bs' =>
      obtain ⟨pre, z, post, rfl, hno, hz, rfl⟩ := place_eq_some hplace
      exact ⟨_, _, by omega, pre.length,
        fun fuel hfuel => heapAlloc_fit_run h hact hno hwrap.2 hz hfuel⟩
    | none =>
      have hno := noFit_of_place_eq_none hplace
      have hpos : 0 < bytes := by
        refine pos_of_ne_zero fun h0 => ?_
        subst h0
        obtain ⟨b, hmem, hu, hge⟩ := hfit.resolve_left (by omega)
        exact absurd (hno b hmem hu) (not_lt.2 hge)
      obtain ⟨g', hg⟩ := hmaps _ hroom
      obtain ⟨pre, z, rfl⟩ := hlast
      have hraised : Tiled (2 ^ 64 - 1) s _ := h.raise (by omega) (by omega)
      obtain ⟨s1, w, -, -, -, -, -, hrun⟩ :=
        heapAlloc_grow_run hraised hng hact hpos (by omega) hplace (by omega) hg
      exact ⟨_, _, by omega, pre.length + 3, fun fuel hfuel => hrun fuel (by omega)⟩

/-- Pages without end: `vmem_map` fails only for the last page of the address space. -/
def endlessPages : Pages Unit where
  spcCurrent _ := pageSize4K
  pmemAlloc := pure pageSize4K
  vmemMap _ _ virt _ := pure (decide (virt + pageSize4K < 2 ^ 64))

theorem endlessPages_below : endlessPages.Below (2 ^ 64 - 1) := by
  intro spc phys virt flags g g' h
  simp only [endlessPages, run_pure, Except.ok.injEq, Prod.mk.injEq, decide_eq_true_eq] at h
  omega

theorem endlessPages_maps (k : ℕ) (hk : mark + pageSize4K * k < 2 ^ 64) :
    Maps endlessPages spc flags k mark () () := by
  induction k generalizing mark with
  | zero => exact .none _ _
  | succ k ih =>
    rw [Nat.mul_succ] at hk
    have hmap : endlessPages.vmemMap spc pageSize4K mark flags () = .ok (true, ()) := by
      simp only [endlessPages, run_pure, decide_eq_true (show mark + pageSize4K < 2 ^ 64 by omega)]
    exact .page rfl hmap (ih (by omega))

theorem endlessPages_mappable (s : Sys Unit) : Mappable endlessPages s :=
  fun k hk => ⟨(), endlessPages_maps k hk⟩

/-- The small heap on such pages, after `heap_init`. -/
def endlessHeap : Sys Unit := exec (heapInit endlessPages 0) smallHeap

theorem heapInit_endless : heapInit endlessPages 0 smallHeap = .ok (true, endlessHeap) :=
  eq_ok_of_value (by decide +kernel)

theorem endlessHeap_inv : SameHeap smallHeap endlessHeap ∧
    ClientInv endlessPages (2 ^ 64 - 1) ⟨endlessHeap, []⟩ [⟨pageSize4K - 16, false⟩] [] :=
  ClientInv.init (by decide) (by decide) (by decide) endlessPages_below heapInit_endless

theorem active_endless {s : Sys Unit} (h : SameHeap smallHeap s) : Active endlessPages s := by
  refine .inl ?_
  rw [h.space]
  rfl

-- what follows does not look into the state
attribute [irreducible] endlessHeap

/-- A request of two pages. -/
theorem alloc_terminates_iff_two_pages : ∃ p s', p ≠ 0 ∧
    Returns (fun fuel => heapAlloc endlessPages fuel 8192) endlessHeap p s' := by
  obtain ⟨hsame, hinv⟩ := endlessHeap_inv
  have hmark := hinv.owns.wf.tiled.mark_eq
  rw [hsame.start] at hmark
  refine (alloc_terminates_iff hinv.owns.wf.tiled hinv.owns.wf.lastFree hinv.notGlobal
    (active_endless hsame) (endlessPages_mappable _) (by norm_num) ?_).2 (.inl (by norm_num))
  rw [hmark]
  decide

/-- After a request that leaves no byte of the page, a request for no bytes never returns. -/
theorem alloc_zero_hangs : ∃ s, heapInit endlessPages 0 smallHeap = .ok (true, endlessHeap) ∧
    heapAlloc endlessPages 1 4064 endlessHeap = .ok (pheapStart + 8, s) ∧
    Tiled (2 ^ 64 - 1) s [⟨4064, true⟩, ⟨0, false⟩] ∧ NotGlobal s ∧ Active endlessPages s ∧
    Mappable endlessPages s ∧ ∀ fuel, heapAlloc endlessPages fuel 0 s = .error .fuel := by
  obtain ⟨hsame, hinv⟩ := endlessHeap_inv
  have hstart : endlessHeap.heap.start = pheapStart := hsame.start
  have h : Tiled (2 ^ 64 - 1) endlessHeap ([] ++ ⟨4080, false⟩ :: []) := hinv.owns.wf.tiled
  have hcall : heapAlloc endlessPages 1 4064 endlessHeap =
      .ok (endlessHeap.heap.start + 8, allocated endlessHeap endlessHeap.heap.start 4064) :=
    heapAlloc_fit_run h (active_endless hsame) (by simp [NoFit]) (by decide) (by decide) (by simp)
  have ht : Tiled (2 ^ 64 - 1) (allocated endlessHeap endlessHeap.heap.start 4064)
      [⟨4064, true⟩, ⟨0, false⟩] := by
    simpa using (h.split ⟨508, by norm_num⟩ (by norm_num)).1
  have hact : Active endlessPages (allocated endlessHeap endlessHeap.heap.start 4064) :=
    active_endless (hsame.trans (sameHeap_allocated _ _ _))
  refine ⟨_, heapInit_endless, hcall.trans ?_, ht, (sameHeap_allocated _ _ _).notGlobal hinv.notGlobal,
    hact, endlessPages_mappable _, heapAlloc_stuck ht hact (by decide) (by decide) (by simp)⟩
  rw [hstart]

/-! ### When the pages run out -/

/-- A growth pass ends at a page that is not mapped. -/
theorem heapGrow_unmapped {alloc : ℕ → Prog (Sys σ) ℕ} {block : ℕ}
    (halloc : P.pmemAlloc s.pages = .ok (phys, g₁))
    (hmap : P.vmemMap s.heap.space phys s.heap.state.vmemMark s.heap.pgFl g₁ = .ok (false, g₂)) :
    heapGrow P alloc block z i (k + 1) s = .ok (false, { s with pages := g₂ }) := by
  rw [heapGrow, run_ok (pmemAlloc_run halloc), run_get_bind, run_ok (vmemMap_run hmap)]
  rfl

section

variable (h : Tiled e s (pre ++ [⟨z, false⟩])) (hng : NotGlobal s) (hb : bytes + 16 < 2 ^ 64)
include h hng hb

/-- The search loop at the last block, if the pages of a pass run out. -/
theorem allocLoop_stops (hz : z < bytes + 16) (hk : k < growPages bytes)
    (hend : s.heap.state.vmemMark + pageSize4K * k ≤ e) (hout : RunsOut P s k) :
    ∃ s' g', (∀ fuel, allocLoop P (fuel + 1) bytes (s.heap.start + span pre) s = .ok (0, s')) ∧
      Enlarged e pre z k s s' g' := by
  obtain ⟨g, phys, g₁, g₂, hmaps, halloc, hmap⟩ := hout
  obtain ⟨j, hj⟩ : ∃ j, growPages bytes = j + 1 + k := ⟨growPages bytes - 1 - k, by omega⟩
  obtain ⟨s1, hrun, hsome⟩ := heapGrow_maps k (j + 1) 0 hng (by simpa using h) hend hmaps
  refine ⟨{ s1 with pages := g₂ }, g₂, fun fuel => ?_, hsome.same.trans ⟨rfl, rfl, rfl, rfl⟩, rfl,
    hsome.mark, hsome.tiled.congr rfl rfl, hsome.front⟩
  have hgrow : heapGrow P (heapAlloc P fuel) (s.heap.start + span pre) z 0 (growPages bytes) s =
      .ok (false, { s1 with pages := g₂ }) := by
    rw [hj, hrun]
    refine heapGrow_unmapped (by rw [hsome.pages]; exact halloc) ?_
    rw [hsome.same.space, hsome.same.pgFl, hsome.mark]
    exact hmap
  rw [allocLoop_grow h (h.not_fits hb fun _ => hz), run_ok hgrow]
  rfl

/-- The pages run out in the first pass or in the second one. -/
theorem allocLoop_runsOut (hplace : place bytes (pre ++ [⟨z, false⟩]) = none)
    (hk : k < neededPages bytes (pre ++ [⟨z, false⟩]))
    (hend : s.heap.state.vmemMark + pageSize4K * k ≤ e) (hout : RunsOut P s k) :
    ∃ s' g', (∀ fuel, allocLoop P (fuel + 2) bytes (s.heap.start + span pre) s = .ok (0, s')) ∧
      Enlarged e pre z k s s' g' := by
  have hz : z < bytes + 16 := noFit_of_place_eq_none hplace ⟨z, false⟩ (by simp) rfl
  rcases lt_or_ge k (growPages bytes) with hfirst | hge
  · obtain ⟨s', g', hrun, hsome⟩ := allocLoop_stops h hng hb hz hfirst hend hout
    exact ⟨s', g', fun fuel => hrun (fuel + 1), hsome⟩
  obtain ⟨j, rfl⟩ := Nat.exists_eq_add_of_le hge
  have htwo : z + pageSize4K * growPages bytes < bytes + 16 ∧ j < growPages bytes := by
    rw [neededPages_last hplace] at hk
    split_ifs at hk with henough
    · omega
    · exact ⟨not_le.1 henough, by omega⟩
  obtain ⟨g, phys, g₁, g₂, hmaps, halloc, hmap⟩ := hout
  obtain ⟨g0, hfirst, hsecond⟩ := hmaps.split
  rw [mul_add] at hend hmap
  obtain ⟨s1, hloop, hone⟩ := allocLoop_pass h hng hb hz (by omega) hfirst
  have hout1 : RunsOut P s1 j := by
    refine ⟨g, phys, g₁, g₂, ?_, halloc, ?_⟩
    · rw [hone.same.space, hone.same.pgFl, hone.mark, hone.pages]
      exact hsecond
    · rw [hone.same.space, hone.same.pgFl, hone.mark, add_assoc]
      exact hmap
  obtain ⟨s2, g', hstop, hmore⟩ := allocLoop_stops hone.tiled
    (hone.same.notGlobal hng) hb htwo.1 htwo.2 (by rw [hone.mark]; omega) hout1
  rw [hone.same.start] at hstop
  exact ⟨s2, g', fun fuel => (hloop (fuel + 1)).trans (hstop fuel), hone.trans hmore⟩

end

/-- **`heap_alloc` returns `NULL`** and leaves the blocks in use alone if no block satisfies the
request and the pages run out.  If some are mapped before that, the last block has to be free. -/
theorem heapAlloc_runsOut (h : Tiled e s bs) (hact : Active P s) (hbs : bs ≠ [])
    (hpos : 0 < bytes) (hb : bytes + pageSize4K ≤ 2 ^ 64)
    (hplace : place (alignUp bytes blockT) bs = none) (hout : RunsOut P s k)
    (hk : k = 0 ∨ k < neededPages (alignUp bytes blockT) bs ∧
      s.heap.state.vmemMark + pageSize4K * k ≤ e ∧ LastFree bs ∧ NotGlobal s) :
    ∃ s' bs', (∀ fuel, bs.length + 1 < fuel → heapAlloc P fuel bytes s = .ok (0, s')) ∧
      SameHeap s s' ∧ Tiled e s' bs' ∧ live s.heap.start bs' = live s.heap.start bs ∧
      Untouched s.mem s'.mem (live s.heap.start bs) ∧
      s'.heap.state.vmemMark = s.heap.state.vmemMark + pageSize4K * k ∧
      (k = 0 → s'.mem = s.mem) := by
  obtain ⟨hwrap, haligned⟩ := noWrap_of_le hb
  obtain ⟨-, hround, -⟩ := hwrap.alignUp
  have hno := noFit_of_place_eq_none hplace
  obtain rfl | hk0 := k.eq_zero_or_pos
  · obtain ⟨pre, c, rfl⟩ := (eq_nil_or_concat bs).resolve_left hbs
    obtain ⟨_, phys, g₁, g₂, ⟨⟩, halloc, hmap⟩ := hout
    obtain ⟨j, hj⟩ := Nat.exists_eq_succ_of_ne_zero (growPages_pos (by omega) haligned).ne'
    rw [concat_eq_append] at h hno ⊢
    refine ⟨{ s with pages := g₂ }, pre ++ [c], fun fuel hfuel => ?_, ⟨rfl, rfl, rfl, rfl⟩,
      h.congr rfl rfl, rfl, fun _ _ _ _ _ _ => rfl, rfl, fun _ => rfl⟩
    rw [length_append, length_singleton] at hfuel
    obtain ⟨n, rfl⟩ : ∃ n, fuel = n + 1 + pre.length := ⟨fuel - 1 - pre.length, by omega⟩
    rw [heapAlloc, run_ok (heapCheck_run hact), run_get_bind,
      allocLoop_front hwrap.2 h (fun d hd => hno d (mem_append_left _ hd)) (by simp),
      allocLoop_grow h (h.not_fits hwrap.2 (hno c (by simp))), hj,
      run_ok (heapGrow_unmapped halloc hmap)]
    rfl
  · obtain ⟨hk, hend, ⟨pre, z, rfl⟩, hng⟩ := hk.resolve_left hk0.ne'
    obtain ⟨s', g', hrun, hsome⟩ := allocLoop_runsOut h hng hwrap.2 hplace hk hend hout
    refine ⟨s', _, fun fuel hfuel => ?_, hsome.same, hsome.tiled, by simp,
      fun p k hp x h1 h2 => hsome.front x ?_, hsome.mark, fun h0 => absurd h0 hk0.ne'⟩
    · rw [length_append, length_singleton] at hfuel
      obtain ⟨n, rfl⟩ : ∃ n, fuel = n + 2 + pre.length := ⟨fuel - 2 - pre.length, by omega⟩
      rw [heapAlloc, run_ok (heapCheck_run hact), run_get_bind,
        allocLoop_front hwrap.2 h (fun d hd => hno d (mem_append_left _ hd)) (by simp), hrun]
    · simp only [live_append, live_cons_free, live_nil, append_nil] at hp
      have := live_bounds hp
      omega

end Tachyon.Heap
