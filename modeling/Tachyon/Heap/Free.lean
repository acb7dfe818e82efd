import Tachyon.Heap.Alloc

/-!
# What `heap_free` does to a well-formed heap

Every block below the end of the heap passes `heap_validate` (`heapValidate_block`).  Releasing a block
in use merges it with its free neighbours, which the code finds through the footer in front and the
header behind; the result is the tiling `released` (`heapFree_spec`).
-/

namespace Tachyon.Heap

open Prog

variable {σ : Type} {P : Pages σ} {s : Sys σ} {pre post : List Blk} {b : Blk} {e z : ℕ}

section

variable (h : Tiled e s (pre ++ b :: post))
include h

/-- A block ends below `vmem_mark`. -/
theorem Tiled.block_le : s.heap.start + span pre + b.span ≤ s.heap.state.vmemMark := by
  have hmark := h.mark_eq
  simp only [span_append, span_cons] at hmark
  omega

/-- The address of a block inside its heap. -/
theorem Tiled.block_lt :
    s.heap.start + span pre + b.span ≤ e ∧ e < 2 ^ 64 ∧
      8 ∣ s.heap.start + span pre := by
  have hstart := h.start_dvd
  have hpre := (tiles_append.1 h.tiles).1.span_dvd
  refine ⟨h.block_le.trans h.mark_le, h.end_lt, ?_⟩
  rw [pageSize4K] at hstart
  omega

/-- The header of a block from the address of its data. -/
theorem Tiled.m2h : blM2H (s.heap.start + span pre + 8) = s.heap.start + span pre := by
  have hlt := h.lt_of_block
  unfold Blk.span at hlt
  rw [blM2H, blockT, sub64_of_le (by omega) (by omega), Nat.add_sub_cancel]

/-- A block is accepted exactly if its footer is not behind the end of the heap. -/
theorem heapValidate_block_iff :
    heapValidate s.heap s.mem (s.heap.start + span pre + 8) = true ↔
      s.heap.start + span pre + 8 + b.size ≤ s.heap.endAddr := by
  obtain ⟨-, -, hdvd⟩ := h.block_lt
  have hb := h.tiles.blkAt
  have hspan := h.lt_of_block
  have hal := hb.aligned
  have hnoft : ¬ (b.header &&& heapFooter ≠ 0) := by
    rw [footerBit_iff, Blk.header]
    cases b.used <;> simp <;> omega
  have hft : b.header + 2 &&& heapFooter ≠ 0 := by
    rw [footerBit_iff, Blk.header]
    cases b.used <;> simp <;> omega
  have hmod : ¬ (s.heap.start + span pre + 8) % blockT ≠ 0 := by rw [blockT]; omega
  unfold heapValidate
  rw [if_neg hmod]
  simp only [h.m2h, hb.h2f hspan, hb.header, hb.footer, blB2DataSz_header hal,
    blB2DataSz_footer hal]
  constructor
  · intro hval
    split_ifs at hval
    omega
  · intro hend
    rw [if_neg (by omega), if_neg (by omega), if_neg (by simp)]

/-- No word of a block is behind `vmem_mark`. -/
theorem validateReads_block : validateReads (s.heap.start + span pre + 8) s = .ok ((), s) := by
  have hle := h.block_le
  have hspan := h.lt_of_block
  have hmapped : ∀ a, a + 8 ≤ s.heap.state.vmemMark → unmappedWord s.heap a = false := fun a ha => by
    rw [unmappedWord, blockT, decide_eq_false_iff_not]
    omega
  have hnone : validateFault s.heap s.mem (s.heap.start + span pre + 8) = none := by
    unfold Blk.span at hle
    unfold validateFault
    simp [h.m2h, h.tiles.blkAt.h2f hspan, hmapped (s.heap.start + span pre) (by omega),
      hmapped (s.heap.start + span pre + 8 + b.size) (by omega)]
  rw [validateReads, hnone]

/-- Every block below the end of the heap is accepted. -/
theorem heapValidate_block (hend : s.heap.start + span pre + b.span ≤ s.heap.endAddr) :
    heapValidate s.heap s.mem (s.heap.start + span pre + 8) = true := by
  rw [heapValidate_block_iff h]
  unfold Blk.span at hend
  omega

end

/-- `HEAP_CHECK` passes. -/
def Active (P : Pages σ) (s : Sys σ) : Prop :=
  s.heap.space = P.spcCurrent s.pages ∨ s.heap.pgFl &&& pgGlobal ≠ 0

theorem heapCheck_run (h : Active P s) : heapCheck P s = .ok ((), s) := by
  rw [heapCheck, run_get_bind, if_neg (fun hc => h.elim hc.1 hc.2)]
  rfl

theorem active_of_heapCheck {r : Unit × Sys σ} (h : heapCheck P s = .ok r) : Active P s := by
  rw [heapCheck, run_get_bind] at h
  by_contra hact
  rw [if_pos ⟨fun hs => hact (.inl hs), fun hg => hact (.inr hg)⟩] at h
  cases h

/-- `HEAP_CHECK` changes nothing. -/
theorem wlp_heapCheck_bind {α : Type} {f : Unit → Prog (Sys σ) α} {Q : α → Sys σ → Prop}
    (h : wlp (f ()) Q s) : wlp (heapCheck P >>= f) Q s := by
  apply wlp_bind
  apply wlp_ite
  · exact fun _ => wlp_halt
  · exact fun _ => wlp_pure h

/-- The merge with the block behind. -/
theorem mergeNext_eq (h : Tiled e s (pre ++ ⟨z, true⟩ :: post)) :
    mergeNext s.heap s.mem (s.heap.start + span pre) z = z + (backFree post).1 := by
  have hnext : blNext s.mem (s.heap.start + span pre) = s.heap.start + span pre + (z + 16) := by
    rw [h.tiles.blkAt.next h.lt_of_block, Blk.span]
  cases post with
  | nil =>
    have hno : blHasNext s.heap s.mem (s.heap.start + span pre) = false := by
      simp [← Bool.not_eq_true, h.hasNext_iff]
    rw [mergeNext, hno, Bool.false_and, if_neg Bool.false_ne_true]
    rfl
  | cons d post =>
    have h' : Tiled e s ((pre ++ [⟨z, true⟩]) ++ d :: post) := by simpa using h
    have hd : BlkAt s.mem (s.heap.start + span pre + (z + 16)) d := by
      simpa [Blk.span, Nat.add_assoc] using h'.tiles.blkAt
    have hhas : blHasNext s.heap s.mem (s.heap.start + span pre) = true :=
      h.hasNext_iff.2 (by simp)
    obtain ⟨hend, hlt, -⟩ := h'.block_lt
    simp only [span_append, span_cons, span_nil, Blk.span] at hend
    rw [mergeNext, hnext, hhas, hd.present, hd.dataSz]
    obtain ⟨x, _ | _⟩ := d
    · simp only at hend
      rw [if_pos (by simp), blDataSz2Sz, blockT, add64_of_lt (show x + 8 * 2 < 2 ^ 64 by omega),
        add64_of_lt (by omega)]
      rfl
    · rw [if_neg (by simp)]
      rfl

/-- The merge with the block in front. -/
theorem mergePrev_eq (h : Tiled e s (pre ++ ⟨z, true⟩ :: post)) {w : ℕ}
    (hw : s.heap.start + span pre + w + 16 < 2 ^ 64) :
    mergePrev s.heap s.mem (s.heap.start + span pre) w =
      (s.heap.start + span (frontFree pre).1, w + (frontFree pre).2) := by
  have last : ∀ (l : List Blk) (y : Blk), pre = l ++ [y] →
      BlkAt s.mem (s.heap.start + span l) y ∧
        blPrev s.mem (s.heap.start + span pre) = s.heap.start + span l ∧
        blHasPrev s.heap (s.heap.start + span pre) = true := by
    rintro l y rfl
    have h' : Tiled e s (l ++ y :: ⟨z, true⟩ :: post) := by simpa using h
    have hy := h'.tiles.blkAt
    refine ⟨hy, ?_, ?_⟩
    · simpa [Nat.add_assoc] using hy.prev h'.lt_of_block
    · simp [blHasPrev, Blk.span]
  rcases blocks_end_cases pre with rfl | ⟨l, y, rfl⟩ | ⟨l, y, rfl⟩
  · simp [mergePrev, blHasPrev]
  · obtain ⟨hy, hprev, hhas⟩ := last l _ rfl
    simp only [span_append, span_cons, span_nil, Blk.span] at hw
    rw [mergePrev, hprev, hhas, hy.present, hy.dataSz, if_pos (by simp), blDataSz2Sz, blockT,
      add64_of_lt (show y + 8 * 2 < 2 ^ 64 by omega), add64_of_lt (by omega), frontFree_free]
  · obtain ⟨hy, hprev, hhas⟩ := last l _ rfl
    rw [mergePrev, hprev, hhas, hy.present, if_neg (by simp), frontFree_used, Nat.add_zero]

/-- The state after the block of size `z` between `pre` and `post` was released. -/
def freed (s : Sys σ) (pre : List Blk) (z : ℕ) (post : List Blk) : Sys σ :=
  { s with
    mem := blSet (fun _ => s.heap.start + span (frontFree pre).1)
      ((frontFree pre).2 + z + (backFree post).1) 0 s.mem
    heap.state.usedBytes := sub64 s.heap.state.usedBytes z
    heap.state.blockCount := sub64 s.heap.state.blockCount 1 }

/-- The edit of `heap_free`. -/
theorem Tiled.free (h : Tiled e s (pre ++ ⟨z, true⟩ :: post)) :
    Tiled e (freed s pre z post) (released pre z post) ∧
      Untouched s.mem (freed s pre z post).mem (live s.heap.start (released pre z post)) := by
  have hfront := frontFree_span pre
  have hback := backFree_span post
  have hlt := h.end_lt'
  have htile := h.tiles
  simp only [span_append, span_cons, Blk.span] at hlt
  set w := (frontFree pre).2 + z + (backFree post).1 with hw
  -- the segment that becomes one free block
  obtain ⟨mid, hmid, hspan⟩ : ∃ mid, pre ++ ⟨z, true⟩ :: post =
      (frontFree pre).1 ++ mid ++ (backFree post).2 ∧ span mid = w + 16 := by
    have hpre : ∃ l, pre = (frontFree pre).1 ++ l ∧ span l = (frontFree pre).2 := by
      rcases blocks_end_cases pre with rfl | ⟨l, y, rfl⟩ | ⟨l, y, rfl⟩
      · exact ⟨[], by simp⟩
      · exact ⟨[⟨y, false⟩], by simp [Blk.span]⟩
      · exact ⟨[], by simp⟩
    have hpost : ∃ l, post = l ++ (backFree post).2 ∧ span l = (backFree post).1 := by
      rcases post with _ | ⟨⟨x, _ | _⟩, post⟩
      · exact ⟨[], by simp [backFree]⟩
      · exact ⟨[⟨x, false⟩], by simp [backFree, Blk.span]⟩
      · exact ⟨[], by simp [backFree]⟩
    obtain ⟨l1, h1, h2⟩ := hpre
    obtain ⟨l2, h3, h4⟩ := hpost
    refine ⟨l1 ++ ⟨z, true⟩ :: l2, ?_, ?_⟩
    · conv_lhs => rw [h1, h3]
      simp
    · simp only [span_append, span_cons, Blk.span, h2, h4]
      omega
  have hdvd : 8 ∣ w := by
    rw [hmid] at htile
    have hd := ((tiles_append.1 (tiles_append.1 htile).1).2).span_dvd
    omega
  have hout : ∀ x, x < s.heap.start + span (frontFree pre).1 ∨
      s.heap.start + span (frontFree pre).1 + (w + 16) ≤ x →
        blSet (fun _ => s.heap.start + span (frontFree pre).1) w 0 s.mem x = s.mem x :=
    fun x hx => blSet_other hdvd (by omega) (by omega) (by omega)
  have hnew : Tiles (blSet (fun _ => s.heap.start + span (frontFree pre).1) w 0 s.mem)
      s.heap.start (released pre z post) s.heap.state.vmemMark := by
    rw [hmid] at htile
    have := htile.replace (blSet (fun _ => s.heap.start + span (frontFree pre).1) w 0 s.mem)
      [⟨w, false⟩] (by simp [hspan, Blk.span])
      (by rw [hspan]; exact ⟨blkAt_blSet (u := false) hdvd (by omega), rfl⟩)
      (by rw [hspan]; exact hout)
    simpa [released] using this
  have hsum : ((live s.heap.start (pre ++ ⟨z, true⟩ :: post)).map Prod.snd).sum =
      ((live s.heap.start (released pre z post)).map Prod.snd).sum + z := by
    rw [released_live]
    simp
    omega
  have hlen : (live s.heap.start (pre ++ ⟨z, true⟩ :: post)).length =
      (live s.heap.start (released pre z post)).length + 1 := by
    rw [released_live]
    simp
    omega
  have hused := h.usedBytes
  have hcount := h.blockCount
  have hbytes := liveBytes_le s.heap.start (pre ++ ⟨z, true⟩ :: post)
  simp only [span_append, span_cons, Blk.span] at hbytes
  refine ⟨?_, ?_⟩
  · constructor
    · exact hnew
    · simp only [freed]
      rw [sub64_of_le (by omega) (by omega)]
      omega
    · simp only [freed]
      rw [sub64_of_le (by omega) (by omega)]
      omega
    · simpa only [freed] using h.start_ge
    · simpa only [freed] using h.start_dvd
    · simpa only [freed] using h.mark_le
    · exact h.end_lt
  · have := untouched_of_segment s.mem
      (blSet (fun _ => s.heap.start + span (frontFree pre).1) w 0 s.mem) s.heap.start
      (frontFree pre).1 [⟨w, false⟩] (backFree post).2 (by simp) (by simpa [Blk.span] using hout)
    simpa [released, freed] using this

theorem WellFormed.free (h : WellFormed e s (pre ++ ⟨z, true⟩ :: post)) :
    WellFormed e (freed s pre z post) (released pre z post) ∧
      Untouched s.mem (freed s pre z post).mem (live s.heap.start (released pre z post)) := by
  obtain ⟨ht, hunt⟩ := h.tiled.free
  exact ⟨⟨ht, h.coalesced.released, h.lastFree.released⟩, hunt⟩

/-- `heap_free` of a block in use, while the address space of the heap is active. -/
theorem heapFree_run (h : Tiled e s (pre ++ ⟨z, true⟩ :: post)) (hact : Active P s) :
    heapFree P (s.heap.start + span pre + 8) s = .ok ((),
      if heapValidate s.heap s.mem (s.heap.start + span pre + 8) then freed s pre z post else s) := by
  obtain ⟨hend, hlt, -⟩ := h.block_lt
  have hspan := h.end_lt'
  have hback := backFree_span post
  simp only [Blk.span, span_append, span_cons] at hend hspan
  rw [heapFree, run_ok (heapCheck_run hact), run_ok (validateReads_block h), run_get_bind]
  by_cases hval : heapValidate s.heap s.mem (s.heap.start + span pre + 8) = true
  · rw [if_pos hval, if_pos hval]
    rw [h.m2h, h.tiles.blkAt.dataSz, mergeNext_eq h, mergePrev_eq h (by omega),
      show z + (backFree post).1 + (frontFree pre).2 = (frontFree pre).2 + z + (backFree post).1 by
        omega]
    rfl
  · rw [if_neg hval, if_neg hval]
    rfl

/-- **`heap_free` of a block in use** releases exactly that block, or changes nothing if the block
does not pass `heap_validate`. -/
theorem heapFree_spec (h : Tiled e s (pre ++ ⟨z, true⟩ :: post)) :
    wlp (heapFree P (s.heap.start + span pre + 8)) (fun _ s' => s' =
      if heapValidate s.heap s.mem (s.heap.start + span pre + 8) then freed s pre z post else s)
      s := by
  intro _ s' hcall
  have hact : Active P s := by
    obtain ⟨_, _, hcheck, -⟩ := bind_eq_ok.1 hcall
    exact active_of_heapCheck hcheck
  rw [heapFree_run h hact] at hcall
  cases hcall
  rfl

end Tachyon.Heap
