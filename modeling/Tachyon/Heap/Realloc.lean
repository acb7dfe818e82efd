import Tachyon.Heap.Search
import Tachyon.Heap.Owners

/-!
# `heap_realloc`

`heap_realloc` leaves the block as it is, enlarges it in place over the free block behind it, or
moves it.  In place it either keeps a rest of the block behind (`Tiled.extend`) or takes all
of it (`Tiled.merge`).  Taking all of the *last* block leaves a heap whose last block is in
use; `takesLast` is the condition under which the code does so, and a call that does not keeps what
the callers own (`Owns.realloc`).
-/

namespace Tachyon.Heap

open Prog List

variable {σ : Type} {P : Pages σ} {s : Sys σ} {pre post bs : List Blk} {e x y a block bytes m n : ℕ}
  {Q : ℕ → Sys σ → Prop}

/-! ### Enlarging in place -/

/-- Replacing some blocks of a heap by others in the same place. -/
theorem Tiled.edit {mid : List Blk} (s' : Sys σ) (mid' : List Blk)
    (h : Tiled e s (pre ++ mid ++ post))
    (hsame : SameHeap s s') (hmark : s'.heap.state.vmemMark = s.heap.state.vmemMark)
    (hspan : span mid' = span mid)
    (ht : Tiles s'.mem (s.heap.start + span pre) mid' (s.heap.start + span pre + span mid))
    (hout : ∀ a, a < s.heap.start + span pre ∨ s.heap.start + span pre + span mid ≤ a →
      s'.mem a = s.mem a)
    (hused : s'.heap.state.usedBytes + ((live (s.heap.start + span pre) mid).map Prod.snd).sum =
      s.heap.state.usedBytes + ((live (s.heap.start + span pre) mid').map Prod.snd).sum)
    (hcount : s'.heap.state.blockCount + (live (s.heap.start + span pre) mid).length =
      s.heap.state.blockCount + (live (s.heap.start + span pre) mid').length) :
    Tiled e s' (pre ++ mid' ++ post) := by
  have hu := h.usedBytes
  have hc := h.blockCount
  simp only [live_append, map_append, sum_append, length_append, span_append] at hu hc
  constructor
  · rw [hsame.start, hmark]
    exact h.tiles.replace _ _ hspan ht hout
  · simp only [hsame.start, live_append, map_append, sum_append, span_append, hspan]
    omega
  · simp only [hsame.start, live_append, length_append, span_append, hspan]
    omega
  · rw [hsame.start]
    exact h.start_ge
  · rw [hsame.start]
    exact h.start_dvd
  · rw [hmark]
    exact h.mark_le
  · exact h.end_lt

/-- The state after the block at `p` was enlarged from `x` to `n` bytes over all of the next. -/
def merged (s : Sys σ) (p x n : ℕ) : Sys σ :=
  { s with
    mem := blSet (fun _ => p) n heapPresent s.mem
    heap.state.usedBytes := add64 s.heap.state.usedBytes (sub64 n x) }

/-- The state after the block at `p` was enlarged from `x` to `n` bytes, with `w` bytes left of the
next. -/
def extended (s : Sys σ) (p x n w : ℕ) : Sys σ :=
  { s with
    mem :=
      let m := blSet (fun _ => p) n heapPresent s.mem
      let next := blNext m p
      blSet (fun _ => next) w 0 m
    heap.state.usedBytes := add64 s.heap.state.usedBytes (sub64 n x) }

section

variable (h : Coalesced (pre ++ ⟨x, true⟩ :: ⟨y, false⟩ :: post))
include h

theorem Coalesced.merge (n : ℕ) : Coalesced (pre ++ ⟨n, true⟩ :: post) := by
  unfold Coalesced at h ⊢
  rw [isChain_append, isChain_cons_cons, isChain_cons] at h
  rw [isChain_append, isChain_cons]
  exact ⟨h.1, ⟨fun _ _ => .inl rfl, h.2.1.2.2⟩, fun _ _ c hc => .inr (by cases hc; rfl)⟩

theorem Coalesced.extend (n w : ℕ) : Coalesced (pre ++ ⟨n, true⟩ :: ⟨w, false⟩ :: post) := by
  unfold Coalesced at h ⊢
  rw [isChain_append, isChain_cons_cons, isChain_cons] at h ⊢
  exact ⟨h.1, ⟨.inl rfl, h.2.1.2⟩, fun _ _ c hc => .inr (by cases hc; rfl)⟩

end

section

variable (h : LastFree (pre ++ ⟨x, true⟩ :: ⟨y, false⟩ :: post))
include h

theorem LastFree.extend (n w : ℕ) : LastFree (pre ++ ⟨n, true⟩ :: ⟨w, false⟩ :: post) := by
  by_cases hpost : post = []
  · subst hpost
    exact ⟨pre ++ [⟨n, true⟩], w, by simp⟩
  · have h' : LastFree ((pre ++ [⟨x, true⟩, ⟨y, false⟩]) ++ post) := by simpa using h
    obtain ⟨l, z, rfl⟩ := h'.of_append _ hpost
    exact ⟨pre ++ ⟨n, true⟩ :: ⟨w, false⟩ :: l, z, by simp⟩

theorem LastFree.merge (n : ℕ) (hpost : post ≠ []) : LastFree (pre ++ ⟨n, true⟩ :: post) := by
  have h' : LastFree ((pre ++ [⟨x, true⟩, ⟨y, false⟩]) ++ post) := by simpa using h
  obtain ⟨l, z, rfl⟩ := h'.of_append _ hpost
  exact ⟨pre ++ ⟨n, true⟩ :: l, z, by simp⟩

end

section InPlace

variable (h : Tiled e s (pre ++ ⟨x, true⟩ :: ⟨y, false⟩ :: post))

include h

/-- Bounds on two adjacent blocks and the counter. -/
theorem Tiled.pair_lt : s.heap.start + span pre + (x + 16 + (y + 16)) < 2 ^ 64 ∧
    s.heap.state.usedBytes + y + 16 < 2 ^ 64 ∧ 8 ∣ x ∧ 8 ∣ y := by
  have hlt := h.end_lt'
  have hx := h.tiles.aligned ⟨x, true⟩ (by simp)
  have hy := h.tiles.aligned ⟨y, false⟩ (by simp)
  have hfree := liveBytes_le s.heap.start pre
  have hfree' := liveBytes_le (s.heap.start + span pre + (x + 16) + (y + 16)) post
  have hu := h.usedBytes
  simp only [live_append, live_cons_used, live_cons_free, map_append, map_cons,
    sum_append, sum_cons, span_append, span_cons, Blk.span] at *
  refine ⟨by omega, by omega, hx, hy⟩

theorem merged_other
    (ha : a < s.heap.start + span pre ∨ s.heap.start + span pre + (x + 16 + (y + 16)) ≤ a) :
    (merged s (s.heap.start + span pre) x (x + (y + 16))).mem a = s.mem a := by
  obtain ⟨hlt, -, hx, hy⟩ := h.pair_lt
  exact blSet_other (by omega) (by decide) (by omega) (by omega)

/-- Taking all of the next block. -/
theorem Tiled.merge : Tiled e (merged s (s.heap.start + span pre) x (x + (y + 16)))
    (pre ++ ⟨x + (y + 16), true⟩ :: post) := by
  obtain ⟨hlt, hu, hx, hy⟩ := h.pair_lt
  have hspan : span [(⟨x, true⟩ : Blk), ⟨y, false⟩] = x + (y + 16) + 16 := by
    simp only [span_cons, span_nil, Blk.span]
    omega
  have h' : Tiled e s (pre ++ [⟨x, true⟩, ⟨y, false⟩] ++ post) := by simpa using h
  have hnew := h'.edit (merged s (s.heap.start + span pre) x (x + (y + 16)))
    [⟨x + (y + 16), true⟩] ⟨rfl, rfl, rfl, rfl⟩ rfl
    (by rw [hspan]; simp [Blk.span])
    (by rw [hspan]
        exact ⟨blkAt_blSet (u := true) (by omega) (by omega), by simp [Tiles, Blk.span]⟩)
    (by rw [hspan]
        exact fun a ha => merged_other h (by omega))
    (by simp only [merged, live_cons_used, live_cons_free, live_nil, map_cons, map_nil,
          sum_cons, sum_nil]
        rw [sub64_of_le (by omega) (by omega), add64_of_lt (by omega)]
        omega)
    (by simp [merged])
  simpa using hnew

section Extend

variable {n : ℕ} (hn : 8 ∣ n) (hny : n ≤ x + y)

include hn hny

/-- The header of the enlarged block, and where the rest begins. -/
theorem extended_block :
    BlkAt (blSet (fun _ => s.heap.start + span pre) n heapPresent s.mem)
        (s.heap.start + span pre) ⟨n, true⟩ ∧
      blNext (blSet (fun _ => s.heap.start + span pre) n heapPresent s.mem)
        (s.heap.start + span pre) = s.heap.start + span pre + (n + 16) := by
  obtain ⟨hlt, -, -, -⟩ := h.pair_lt
  have hblk : BlkAt (blSet (fun _ => s.heap.start + span pre) n heapPresent s.mem)
      (s.heap.start + span pre) ⟨n, true⟩ := blkAt_blSet (u := true) hn (by omega)
  exact ⟨hblk, hblk.next (by simp only [Blk.span]; omega)⟩

theorem extended_other
    (ha : a < s.heap.start + span pre ∨ s.heap.start + span pre + (x + 16 + (y + 16)) ≤ a) :
    (extended s (s.heap.start + span pre) x n (x + y - n)).mem a = s.mem a := by
  obtain ⟨hlt, -, hx, hy⟩ := h.pair_lt
  obtain ⟨-, hnext⟩ := extended_block h hn hny
  simp only [extended, hnext]
  rw [blSet_other (by omega) (by decide) (by omega) (by omega),
    blSet_other hn (by decide) (by omega) (by omega)]

/-- Keeping a rest of the block behind. -/
theorem Tiled.extend (hxn : x ≤ n) :
    Tiled e (extended s (s.heap.start + span pre) x n (x + y - n))
      (pre ++ ⟨n, true⟩ :: ⟨x + y - n, false⟩ :: post) := by
  obtain ⟨hlt, hu, hx, hy⟩ := h.pair_lt
  have hspan : span [(⟨x, true⟩ : Blk), ⟨y, false⟩] = x + y + 32 := by
    simp only [span_cons, span_nil, Blk.span]
    omega
  have h' : Tiled e s (pre ++ [⟨x, true⟩, ⟨y, false⟩] ++ post) := by simpa using h
  obtain ⟨hblk, hnext⟩ := extended_block h hn hny
  have hdvd : 8 ∣ x + y - n := by omega
  have hnew := h'.edit (extended s (s.heap.start + span pre) x n (x + y - n))
    [⟨n, true⟩, ⟨x + y - n, false⟩] ⟨rfl, rfl, rfl, rfl⟩ rfl
    (by rw [hspan]; simp only [span_cons, span_nil, Blk.span]; omega)
    (by rw [hspan]
        simp only [extended, hnext]
        refine ⟨hblk.congr fun a _ ha => ?_, blkAt_blSet (u := false) hdvd ?_, ?_⟩
        · exact blSet_other hdvd (by decide) (by omega) (.inl ha)
        · omega
        · simp only [Blk.span, Tiles]
          omega)
    (by rw [hspan]
        exact fun a ha => extended_other h hn hny (by omega))
    (by simp only [extended, live_cons_used, live_cons_free, live_nil, map_cons, map_nil,
          sum_cons, sum_nil]
        rw [sub64_of_le (by omega) (by omega), add64_of_lt (by omega)]
        omega)
    (by simp [extended])
  simpa using hnew

end Extend

end InPlace

section

variable (h : WellFormed e s (pre ++ ⟨x, true⟩ :: ⟨y, false⟩ :: post))
include h

/-- Taking all of a block that is not the last. -/
theorem WellFormed.merge (hpost : post ≠ []) :
    WellFormed e (merged s (s.heap.start + span pre) x (x + (y + 16)))
      (pre ++ ⟨x + (y + 16), true⟩ :: post) :=
  ⟨h.tiled.merge, h.coalesced.merge _, h.lastFree.merge _ hpost⟩

theorem WellFormed.extend (hn : 8 ∣ n) (hny : n ≤ x + y) (hxn : x ≤ n) :
    WellFormed e (extended s (s.heap.start + span pre) x n (x + y - n))
      (pre ++ ⟨n, true⟩ :: ⟨x + y - n, false⟩ :: post) :=
  ⟨h.tiled.extend hn hny hxn, h.coalesced.extend _ _, h.lastFree.extend _ _⟩

end

/-! ### The branches of `heap_realloc` -/

/-- The block behind a block. -/
theorem Tiled.next_blkAt {b c : Blk} (h : Tiled e s (pre ++ b :: c :: post)) :
    blNext s.mem (s.heap.start + span pre) = s.heap.start + span pre + b.span ∧
      BlkAt s.mem (s.heap.start + span pre + b.span) c := by
  have h' : Tiled e s ((pre ++ [b]) ++ c :: post) := by simpa using h
  refine ⟨h.tiles.blkAt.next h.lt_of_block, ?_⟩
  simpa [Nat.add_assoc] using h'.tiles.blkAt

/-- `heap_realloc` finds a free block behind that is large enough. -/
theorem Tiled.canExtend_iff (h : Tiled e s (pre ++ ⟨x, true⟩ :: post)) :
    canExtend s.heap s.mem (s.heap.start + span pre) bytes = true ↔
      ∃ y post', post = ⟨y, false⟩ :: post' ∧ bytes ≤ x + (y + 16) := by
  have hb := h.tiles.blkAt
  cases post with
  | nil =>
    have hno : ¬ blHasNext s.heap s.mem (s.heap.start + span pre) = true := by
      simp [h.hasNext_iff]
    simp [canExtend, hno]
  | cons d post =>
    obtain ⟨hnext, hd⟩ := h.next_blkAt
    have hlt := h.end_lt'
    have hhas : blHasNext s.heap s.mem (s.heap.start + span pre) = true := by
      simp [h.hasNext_iff]
    simp only [span_append, span_cons, Blk.span] at hlt
    obtain ⟨y, u⟩ := d
    simp only at hlt
    simp only [canExtend, hhas, hnext, hd.present, hd.dataSz, hb.dataSz, blDataSz2Sz, blockT,
      Bool.true_and, Bool.and_eq_true, Bool.not_eq_true', decide_eq_true_eq, ge_iff_le]
    rw [add64_of_lt (show y + 8 * 2 < 2 ^ 64 by omega), add64_of_lt (by omega)]
    constructor
    · rintro ⟨rfl, hle⟩
      exact ⟨y, post, rfl, by omega⟩
    · rintro ⟨y', post', heq, hle⟩
      cases heq
      exact ⟨rfl, by omega⟩

/-- When it does not take all of that block, something is left. -/
theorem Tiled.lt_of_mergesAll_eq_false
    (h : Tiled e s (pre ++ ⟨x, true⟩ :: ⟨y, false⟩ :: post)) (hx : x < bytes)
    (hle : bytes ≤ x + (y + 16))
    (hm : mergesAll s.mem (s.heap.start + span pre) bytes = false) : bytes < x + y := by
  obtain ⟨hlt, -, -, -⟩ := h.pair_lt
  obtain ⟨hnext, hd⟩ := h.next_blkAt
  simp only [mergesAll, hnext, hd.dataSz, h.tiles.blkAt.dataSz, decide_eq_false_iff_not,
    not_le] at hm
  rw [sub64_of_le hx.le (by omega)] at hm
  by_contra hge
  -- the difference is negative, so as a signed word it is not positive
  have hsub : sub64 y (bytes - x) = if bytes = x + y then 0 else 2 ^ 64 - (bytes - x - y) := by
    unfold sub64
    split_ifs <;> omega
  rw [hsub] at hm
  unfold toSigned at hm
  split_ifs at hm <;> omega

section Call

variable {fuel bytes : ℕ}

/-- A call on a block that does not pass `heap_validate`. -/
theorem heapRealloc_refuse (h : Tiled e s (pre ++ ⟨x, true⟩ :: post)) (hact : Active P s)
    (hval : ¬ heapValidate s.heap s.mem (s.heap.start + span pre + 8) = true) :
    heapRealloc P fuel (s.heap.start + span pre + 8) bytes s = .ok (0, s) := by
  rw [heapRealloc, if_neg (by omega), run_ok (heapCheck_run hact), run_ok (validateReads_block h),
    run_get_bind, if_pos hval]
  rfl

variable (h : Tiled e s (pre ++ ⟨x, true⟩ :: post)) (hact : Active P s)
  (hval : heapValidate s.heap s.mem (s.heap.start + span pre + 8) = true)

include h hact hval

/-- The block is large enough. -/
theorem heapRealloc_keep (hle : bytes ≤ x) :
    heapRealloc P fuel (s.heap.start + span pre + 8) bytes s =
      .ok (s.heap.start + span pre + 8, s) := by
  rw [heapRealloc, if_neg (by omega), run_ok (heapCheck_run hact),
    run_ok (validateReads_block h), run_get_bind, if_neg (not_not.2 hval), h.m2h, h.tiles.blkAt.dataSz, if_pos hle]
  rfl

/-- The block is moved. -/
theorem heapRealloc_move (hlt : x < bytes)
    (hext : canExtend s.heap s.mem (s.heap.start + span pre) bytes = false) :
    heapRealloc P fuel (s.heap.start + span pre + 8) bytes s = (do
      let new ← heapAlloc P fuel bytes
      let t ← .get
      moveData new (s.heap.start + span pre + 8)
        (blB2DataSz (read64 t.mem (s.heap.start + span pre)))
      heapFree P (s.heap.start + span pre + 8)
      pure new : Prog (Sys σ) ℕ) s := by
  rw [heapRealloc, if_neg (by omega), run_ok (heapCheck_run hact),
    run_ok (validateReads_block h), run_get_bind, if_neg (not_not.2 hval), h.m2h, h.tiles.blkAt.dataSz,
    if_neg (not_le.2 hlt), if_neg (Bool.eq_false_iff.1 hext)]

end Call

section CallInPlace

variable {fuel bytes : ℕ} (h : Tiled e s (pre ++ ⟨x, true⟩ :: ⟨y, false⟩ :: post))
  (hact : Active P s) (hval : heapValidate s.heap s.mem (s.heap.start + span pre + 8) = true)
  (hlt : x < bytes) (hle : bytes ≤ x + (y + 16))

include h hact hval hlt hle

/-- The block takes all of the next. -/
theorem heapRealloc_merge (hall : mergesAll s.mem (s.heap.start + span pre) bytes = true) :
    heapRealloc P fuel (s.heap.start + span pre + 8) bytes s =
      .ok (s.heap.start + span pre + 8, merged s (s.heap.start + span pre) x (x + (y + 16))) := by
  obtain ⟨hpair, -, -, -⟩ := h.pair_lt
  rw [heapRealloc, if_neg (by omega), run_ok (heapCheck_run hact),
    run_ok (validateReads_block h), run_get_bind, if_neg (not_not.2 hval), h.m2h, h.tiles.blkAt.dataSz,
    if_neg (not_le.2 hlt), if_pos (h.canExtend_iff.2 ⟨y, post, rfl, hle⟩), if_pos hall,
    h.next_blkAt.1, h.next_blkAt.2.dataSz, blDataSz2Sz, blockT, add64_of_lt (show y + 8 * 2 < 2 ^ 64 by omega),
    add64_of_lt (show x + (y + 8 * 2) < 2 ^ 64 by omega)]
  rfl

/-- The block takes a part of the next. -/
theorem heapRealloc_split (hall : mergesAll s.mem (s.heap.start + span pre) bytes = false) :
    heapRealloc P fuel (s.heap.start + span pre + 8) bytes s =
      .ok (s.heap.start + span pre + 8,
        extended s (s.heap.start + span pre) x bytes (x + y - bytes)) := by
  obtain ⟨hpair, -, -, -⟩ := h.pair_lt
  have hrest := h.lt_of_mergesAll_eq_false hlt hle hall
  have hnsz : sub64 y (sub64 bytes x) = x + y - bytes := by
    rw [sub64_of_le hlt.le (by omega), sub64_of_le (by omega) (by omega)]
    omega
  rw [heapRealloc, if_neg (by omega), run_ok (heapCheck_run hact),
    run_ok (validateReads_block h), run_get_bind, if_neg (not_not.2 hval), h.m2h, h.tiles.blkAt.dataSz,
    if_neg (not_le.2 hlt), if_pos (h.canExtend_iff.2 ⟨y, post, rfl, hle⟩),
    if_neg (Bool.eq_false_iff.1 hall), h.next_blkAt.1, h.next_blkAt.2.dataSz, hnsz]
  rfl

end CallInPlace

/-- `heap_realloc` takes all of the last block. -/
def takesLast (s : Sys σ) (m bytes : ℕ) : Bool :=
  decide (blB2DataSz (read64 s.mem (blM2H m)) < bytes) &&
    canExtend s.heap s.mem (blM2H m) bytes && mergesAll s.mem (blM2H m) bytes &&
      !blHasNext s.heap s.mem (blNext s.mem (blM2H m))

/-! ### Owned blocks -/

/-- The sizes: non-zero multiples of 8 that leave room for a header and a footer. -/
def SizeOk (n : ℕ) : Prop := n ≠ 0 ∧ 8 ∣ n ∧ n + 16 < 2 ^ 64

instance (n : ℕ) : Decidable (SizeOk n) := inferInstanceAs (Decidable (_ ∧ _ ∧ _))

theorem SizeOk.alignUp_eq (h : SizeOk n) : alignUp n blockT = n := by
  obtain ⟨-, h8, hlt⟩ := h
  rw [show blockT = 2 ^ 3 from rfl, alignUp_two_pow, add64_of_lt (by omega)]
  omega

theorem SizeOk.noWrap (h : SizeOk n) : NoWrap n := by
  refine ⟨?_, ?_⟩
  · have := h.2.2
    omega
  · rw [h.alignUp_eq]
    exact h.2.2

section Owners

variable {O : List (ℕ × ℕ)} {lost : List ℕ}

/-- A change of memory inside an owned block and the free one behind keeps the others. -/
theorem Owns.keeps_pair {m' : Mem} (h : Owns e s (pre ++ ⟨x, true⟩ :: ⟨y, false⟩ :: post) O lost)
    (hm : (s.heap.start + span pre + 8, n) ∈ O)
    (hout : ∀ a, a < s.heap.start + span pre ∨
      s.heap.start + span pre + (x + 16 + (y + 16)) ≤ a → m' a = s.mem a) :
    Keeps s.mem m' (O.erase (s.heap.start + span pre + 8, n)) := by
  intro p k hp a h1 h2
  have hne := h.ne_of_mem_erase hm hp
  obtain ⟨w, hw, hk⟩ := h.size p k (mem_of_mem_erase hp)
  simp only [live_append, live_cons_used, live_cons_free, mem_append, mem_cons, Prod.mk.injEq] at hw
  refine hout a ?_
  rcases hw with hw | hw | hw
  · have := live_bounds hw
    omega
  · exact absurd hw.1 hne
  · have := live_bounds hw
    omega

/-- The end of a move: the data is copied into the new block and the old one released. -/
theorem Owns.move {p : ℕ} (h : Owns e s bs ((p, bytes) :: O) lost)
    (hm : (m, n) ∈ O) (hcap : blB2DataSz (read64 s.mem block) = x) (hpos : 0 < x)
    (hlt : x < bytes) :
    wlp (do
      moveData p m (blB2DataSz (read64 s.mem block))
      heapFree P m
      pure p) (fun q s' => q = p ∧ SameHeap s s' ∧ s'.globMap = s.globMap ∧
        s'.heap.state.vmemMark = s.heap.state.vmemMark ∧ Keeps s.mem s'.mem (O.erase (m, n)) ∧
        ∃ bs' lost', Owns e s' bs' ((p, bytes) :: O.erase (m, n)) lost') s := by
  have hge : ¬ p < pageSize4K := by
    obtain ⟨pre, z, post, -, hp, -⟩ := h.block mem_cons_self
    have := h.wf.start_ge
    omega
  have hne : p ≠ m := by
    rintro rfl
    have hnd := h.nodup
    rw [map_cons, nodup_cons] at hnd
    exact hnd.1 (mem_map.2 ⟨_, hm, rfl⟩)
  rw [hcap, moveData, if_neg (by omega), store, if_neg hge]
  apply wlp_modify_bind
  -- the copy stays inside the new block
  have h₁ : Owns e { s with mem := memmove s.mem p m x } bs ((p, bytes) :: O) lost :=
    h.write fun a ha => memmove_of_not_mem (by
      have := ha p bytes mem_cons_self
      omega)
  refine wlp_seq (h₁.free (mem_cons_of_mem _ hm)) ?_
  rintro _ s' ⟨hsame, hglob, hmark, hkeep, bs', lost', howns, -⟩
  rw [erase_cons_tail (by simp [hne])] at hkeep howns
  refine wlp_pure ⟨rfl, ⟨hsame.1, hsame.2, hsame.3, hsame.4⟩, hglob, hmark, ?_, bs', lost', howns⟩
  intro q k hq a h1 h2
  rw [hkeep q k (mem_cons_of_mem _ hq) a h1 h2]
  have hapart := h.apart (mem_cons_of_mem _ (mem_of_mem_erase hq)) mem_cons_self (fun heq => by
      have hnd := h.nodup
      rw [map_cons, nodup_cons] at hnd
      exact hnd.1 (mem_map.2 ⟨_, mem_of_mem_erase hq, heq⟩))
  unfold Apart at hapart
  exact memmove_of_not_mem (by omega)

/-- A move to `NULL` faults. -/
theorem wlp_move_null {f : Unit → Prog (Sys σ) ℕ} (hpos : 0 < blB2DataSz (read64 s.mem block)) :
    wlp (moveData 0 m (blB2DataSz (read64 s.mem block)) >>= f) Q s := by
  rw [moveData, if_neg (by omega), store, if_pos (by decide)]
  exact wlp_bind wlp_halt

/-- **`heap_realloc` of an owned block** that does not take the last block: the block is refused,
changes its size in place or is moved. -/
theorem Owns.realloc (h : Owns e s bs O lost) {fuel : ℕ} (hm : (m, n) ∈ O)
    (hb : SizeOk bytes) (hkeep : takesLast s m bytes = false)
    (hnull : Q 0 s)
    (hplace : ∀ s' bs', SameHeap s s' → s'.globMap = s.globMap →
      s'.heap.state.vmemMark = s.heap.state.vmemMark → Keeps s.mem s'.mem (O.erase (m, n)) →
      Owns e s' bs' ((m, bytes) :: O.erase (m, n)) lost → Q m s')
    (hmove : capacity s m < bytes → wlp (do
      let new ← heapAlloc P fuel bytes
      let s ← .get
      moveData new m (blB2DataSz (read64 s.mem (blM2H m)))
      heapFree P m
      pure new) Q s) :
    wlp (heapRealloc P fuel m bytes) Q s := by
  obtain ⟨pre, x, post, rfl, rfl, hn⟩ := h.block hm
  have hwf := h.wf.tiled
  rw [hwf.capacity_eq, hwf.m2h] at hmove
  intro p s' hcall
  have hact : Active P s := by
    obtain ⟨_, _, hcheck, -⟩ := bind_eq_ok.1 hcall
    exact active_of_heapCheck hcheck
  by_cases hval : heapValidate s.heap s.mem (s.heap.start + span pre + 8) = true
  swap
  · rw [heapRealloc_refuse hwf hact hval] at hcall
    cases hcall
    exact hnull
  rcases Nat.lt_or_ge x bytes with hlt | hle
  swap
  · -- no shrinking
    rw [heapRealloc_keep hwf hact hval hle] at hcall
    cases hcall
    exact hplace _ _ (SameHeap.refl _) rfl rfl (Keeps.refl _ _)
      (h.resize hm (SameHeap.refl _) h.wf rfl hle)
  by_cases hext : canExtend s.heap s.mem (s.heap.start + span pre) bytes = true
  swap
  · rw [heapRealloc_move hwf hact hval hlt (Bool.eq_false_iff.2 hext)] at hcall
    exact hmove hlt p s' hcall
  obtain ⟨y, post, rfl, hle⟩ := hwf.canExtend_iff.1 hext
  by_cases hall : mergesAll s.mem (s.heap.start + span pre) bytes = true
  · -- all of the next block is taken, so it is not the last one
    have hpost : post ≠ [] := by
      rintro rfl
      have h' : Tiled e s ((pre ++ [⟨x, true⟩]) ++ [⟨y, false⟩]) := by simpa using hwf
      have hlast : blHasNext s.heap s.mem
          (s.heap.start + span pre + (⟨x, true⟩ : Blk).span) = false := by
        have := h'.hasNext_iff
        simp only [span_append, span_cons, span_nil, ← Nat.add_assoc, Nat.add_zero, ne_eq,
          not_true_eq_false, iff_false, Bool.not_eq_true] at this
        exact this
      simp [takesLast, hwf.m2h, hwf.tiles.blkAt.dataSz, hlt, hext, hall, hwf.next_blkAt.1,
        hlast] at hkeep
    rw [heapRealloc_merge hwf hact hval hlt hle hall] at hcall
    cases hcall
    refine hplace _ _ ⟨rfl, rfl, rfl, rfl⟩ rfl rfl (h.keeps_pair hm fun a ha => merged_other hwf ha)
      (h.resize hm ⟨rfl, rfl, rfl, rfl⟩ (h.wf.merge hpost) ?_ (by omega))
    rw [live_cons_free, show s.heap.start + span pre + (x + (y + 16) + 16) =
      s.heap.start + span pre + (x + 16) + (y + 16) by omega]
  · rw [Bool.not_eq_true] at hall
    have hrest := hwf.lt_of_mergesAll_eq_false hlt hle hall
    rw [heapRealloc_split hwf hact hval hlt hle hall] at hcall
    cases hcall
    refine hplace _ _ ⟨rfl, rfl, rfl, rfl⟩ rfl rfl
      (h.keeps_pair hm fun a ha => extended_other hwf hb.2.1 hrest.le ha)
      (h.resize hm ⟨rfl, rfl, rfl, rfl⟩ (h.wf.extend hb.2.1 hrest.le hlt.le) ?_ le_rfl)
    rw [live_cons_free, live_cons_free, show s.heap.start + span pre + (bytes + 16) +
      (x + y - bytes + 16) = s.heap.start + span pre + (x + 16) + (y + 16) by omega]

end Owners

end Tachyon.Heap
