import Tachyon.Heap.Tiling

/-!
# What `heap_alloc` does to a well-formed heap

`Tiled e s bs` says that the heap is tiled by `bs` and ends at `e` at most, and that the counters
count the blocks in use.  `WellFormed e s bs` is the invariant of the heap: it is tiled, no two
neighbours are free, and the last block is free.  Both have one lemma for each edit of `heap_alloc`:
`Tiled.split` and `WellFormed.split` for the block handed out, `Tiled.grow` and `WellFormed.grow` for
one more page.
-/

namespace Tachyon.Heap

open List

variable {σ : Type} {bs : List Blk} {e n p : ℕ} {m : Mem} {s : Sys σ}

/-- The heap is tiled by the blocks `bs`, ends at `e` at most, and its counters are exact. -/
structure Tiled (e : ℕ) (s : Sys σ) (bs : List Blk) : Prop where
  tiles : Tiles s.mem s.heap.start bs s.heap.state.vmemMark
  usedBytes : s.heap.state.usedBytes = ((live s.heap.start bs).map Prod.snd).sum
  blockCount : s.heap.state.blockCount = (live s.heap.start bs).length
  start_ge : pageSize4K ≤ s.heap.start
  start_dvd : pageSize4K ∣ s.heap.start
  mark_le : s.heap.state.vmemMark ≤ e
  end_lt : e < 2 ^ 64

/-- The heap is well formed: no two free blocks are neighbours, and the last block is free. -/
structure WellFormed (e : ℕ) (s : Sys σ) (bs : List Blk) : Prop extends tiled : Tiled e s bs where
  coalesced : Coalesced bs
  lastFree : LastFree bs

/-- The configuration of the heap is the same. -/
structure SameHeap (s s' : Sys σ) : Prop where
  start : s'.heap.start = s.heap.start
  endAddr : s'.heap.endAddr = s.heap.endAddr
  pgFl : s'.heap.pgFl = s.heap.pgFl
  space : s'.heap.space = s.heap.space

theorem SameHeap.refl (s : Sys σ) : SameHeap s s := ⟨rfl, rfl, rfl, rfl⟩

theorem SameHeap.trans {t u : Sys σ} (h : SameHeap s t) (h' : SameHeap t u) : SameHeap s u :=
  ⟨h'.start.trans h.start, h'.endAddr.trans h.endAddr, h'.pgFl.trans h.pgFl, h'.space.trans h.space⟩

/-- The bytes of the blocks of `L`, headers and footers included, are the same in `m'` as in `m`. -/
def Untouched (m m' : Mem) (L : List (ℕ × ℕ)) : Prop :=
  ∀ p z, (p, z) ∈ L → ∀ x, p - 8 ≤ x → x < p + z + 8 → m' x = m x

theorem Untouched.refl (m : Mem) (L : List (ℕ × ℕ)) : Untouched m m L := fun _ _ _ _ _ _ => rfl

theorem Untouched.trans {m1 m2 m3 : Mem} {L : List (ℕ × ℕ)} (h : Untouched m1 m2 L)
    (h' : Untouched m2 m3 L) : Untouched m1 m3 L :=
  fun p z hp x h1 h2 => (h' p z hp x h1 h2).trans (h p z hp x h1 h2)

/-- A change inside free blocks touches no block in use. -/
theorem untouched_of_segment (m m' : Mem) (a : ℕ) (pre mid post : List Blk)
    (hmid : live (a + span pre) mid = [])
    (hm : ∀ x, x < a + span pre ∨ a + span pre + span mid ≤ x → m' x = m x) :
    Untouched m m' (live a (pre ++ mid ++ post)) := by
  intro p z hp x h1 h2
  simp only [live_append, hmid, append_nil, span_append] at hp
  rcases mem_append.1 hp with hp | hp
  · have := live_bounds hp
    exact hm x (.inl (by omega))
  · have := live_bounds hp
    exact hm x (.inr (by omega))

theorem liveBytes_le (a : ℕ) (bs : List Blk) :
    ((live a bs).map Prod.snd).sum + 16 * (live a bs).length ≤ span bs := by
  induction bs generalizing a with
  | nil => simp
  | cons b bs ih =>
    have hb := ih (a + b.span)
    obtain ⟨z, _ | _⟩ := b
    · simp only [live_cons_free, span_cons, Blk.span] at hb ⊢
      omega
    · simp only [live_cons_used, map_cons, sum_cons, length_cons, span_cons, Blk.span] at hb ⊢
      omega

section Edits

variable {e : ℕ} {s : Sys σ} {pre post rest bs : List Blk} {b : Blk} {z : ℕ}

theorem Tiled.mark_eq (h : Tiled e s bs) :
    s.heap.state.vmemMark = s.heap.start + span bs := h.tiles.end_eq

theorem Tiled.end_lt' (h : Tiled e s bs) : s.heap.start + span bs < 2 ^ 64 := by
  have h1 := h.mark_eq
  have h2 := h.mark_le
  have h3 := h.end_lt
  omega

theorem blDataSz2Sz_of_lt {n : ℕ} (h : n + 16 < 2 ^ 64) : blDataSz2Sz n = n + 16 := by
  rw [blDataSz2Sz, blockT, add64_of_lt h]

section

variable (h : Tiled e s (pre ++ b :: rest))
include h

theorem Tiled.lt_of_block : s.heap.start + span pre + b.span < 2 ^ 64 := by
  have := h.end_lt'
  simp only [span_append, span_cons] at this
  omega

theorem Tiled.hasNext_iff :
    blHasNext s.heap s.mem (s.heap.start + span pre) = true ↔ rest ≠ [] := by
  have hmark := h.mark_eq
  simp only [blHasNext, h.tiles.blkAt.next h.lt_of_block, hmark, span_append, span_cons,
    Bool.not_eq_true', decide_eq_false_iff_not, ge_iff_le, not_le]
  cases rest with
  | nil => simp [Nat.add_assoc]
  | cons d rest =>
    simp only [span_cons, Blk.span, ne_eq, reduceCtorEq, not_false_eq_true, iff_true]
    omega

theorem Tiled.fits_word_iff {bytes : ℕ} : fits s.mem (s.heap.start + span pre) bytes = true ↔
    b.used = false ∧ blDataSz2Sz bytes ≤ b.size := by
  simp [fits, h.tiles.blkAt.present, h.tiles.blkAt.dataSz]

theorem Tiled.fits_iff {bytes : ℕ} (hb : bytes + 16 < 2 ^ 64) :
    fits s.mem (s.heap.start + span pre) bytes = true ↔ b.used = false ∧ bytes + 16 ≤ b.size := by
  rw [h.fits_word_iff, blDataSz2Sz_of_lt hb]

end

/-- The state after the block at `p` was handed out with `n` bytes. -/
def allocated (s : Sys σ) (p n : ℕ) : Sys σ :=
  { s with
    mem := splitBlock p n s.mem
    heap.state.usedBytes := add64 s.heap.state.usedBytes n
    heap.state.blockCount := add64 s.heap.state.blockCount 1 }

theorem sameHeap_allocated (s : Sys σ) (p n : ℕ) : SameHeap s (allocated s p n) :=
  ⟨rfl, rfl, rfl, rfl⟩

/-- The state after one more page was mapped behind the last block, at `p`, now of size `z`. -/
def grown (s : Sys σ) (p z : ℕ) : Sys σ :=
  { s with
    heap.state.vmemMark := add64 s.heap.state.vmemMark pageSize4K
    mem := blSet (fun _ => p) z 0 s.mem }

/-- The size that the growth loop computes for page `i` is that of the enlarged block. -/
theorem Tiled.grown_size {i : ℕ} {u : Bool}
    (h : Tiled e s (pre ++ [⟨z + pageSize4K * i + pageSize4K, u⟩])) :
    add64 z (mul64 pageSize4K (i + 1)) = z + pageSize4K * i + pageSize4K := by
  have hlt := h.lt_of_block
  simp only [Blk.span] at hlt
  have hmul : pageSize4K * (i + 1) = pageSize4K * i + pageSize4K := Nat.mul_succ _ _
  rw [mul64_of_lt (by omega), add64_of_lt (by omega)]
  omega

/-- `HEAP_BL_SET` on the next block: writing its header does not move it. -/
theorem blSet_next {y : ℕ} (hm : BlkAt m p ⟨n, true⟩) (hy : 8 ∣ y)
    (hlt : p + n + 16 + y + 16 < 2 ^ 64) :
    blSet (fun m => blNext m p) y 0 m = blSet (fun _ => p + n + 16) y 0 m := by
  have hnext : blNext m p = p + n + 16 := by
    rw [hm.next (by simp only [Blk.span]; omega), Blk.span, Nat.add_assoc]
  have hm' : BlkAt (write64 m (p + n + 16) (y ||| 0)) p ⟨n, true⟩ :=
    hm.congr fun x h1 h2 => write64_of_not_mem (by simp only [Blk.span] at h2; omega)
  have hnext' : blNext (write64 m (p + n + 16) (y ||| 0)) p = p + n + 16 := by
    rw [hm'.next (by simp only [Blk.span]; omega), Blk.span, Nat.add_assoc]
  simp only [blSet, hnext, hnext']

/-- Splitting a free block writes a block in use and a free one behind it, inside the old block. -/
theorem splitBlock_spec (hb : BlkAt m p ⟨z, false⟩) (hn : 8 ∣ n)
    (hfit : n + 16 ≤ z) (hlt : p + (z + 16) < 2 ^ 64) :
    Tiles (splitBlock p n m) p [⟨n, true⟩, ⟨z - (n + 16), false⟩] (p + (z + 16)) ∧
      ∀ x, x < p ∨ p + (z + 16) ≤ x → splitBlock p n m x = m x := by
  have hz : 8 ∣ z := hb.aligned
  have hfree : sub64 (blB2DataSz (read64 m p)) (blDataSz2Sz n) = z - (n + 16) := by
    rw [hb.dataSz, blDataSz2Sz, blockT, add64_of_lt (by omega), sub64_of_le hfit (by omega)]
  have hdvd : 8 ∣ z - (n + 16) := by omega
  have h1 : BlkAt (blSet (fun _ => p) n heapPresent m) p ⟨n, true⟩ :=
    blkAt_blSet (u := true) hn (by omega)
  have hsplit : splitBlock p n m =
      blSet (fun _ => p + n + 16) (z - (n + 16)) 0 (blSet (fun _ => p) n heapPresent m) := by
    simp only [splitBlock, hfree]
    exact blSet_next h1 hdvd (by omega)
  have h2 : BlkAt (splitBlock p n m) (p + n + 16) ⟨z - (n + 16), false⟩ := by
    rw [hsplit]
    exact blkAt_blSet (u := false) hdvd (by omega)
  have h1' : BlkAt (splitBlock p n m) p ⟨n, true⟩ := by
    rw [hsplit]
    exact h1.congr fun x _ hx => blSet_other hdvd (by omega) (by omega)
      (.inl (by simp only [Blk.span] at hx; omega))
  refine ⟨⟨h1', ?_, ?_⟩, fun x hx => ?_⟩
  · rw [Blk.span, ← Nat.add_assoc]
    exact h2
  · simp only [Tiles, Blk.span]
    omega
  · rw [hsplit, blSet_other hdvd (by omega) (by omega) (by omega),
      blSet_other hn (by decide) (by omega) (by omega)]

/-- The edit of a successful `heap_alloc`. -/
theorem Tiled.split (h : Tiled e s (pre ++ ⟨z, false⟩ :: post)) (hn : 8 ∣ n) (hfit : n + 16 ≤ z) :
    Tiled e (allocated s (s.heap.start + span pre) n)
        (pre ++ ⟨n, true⟩ :: ⟨z - (n + 16), false⟩ :: post) ∧
      Untouched s.mem (allocated s (s.heap.start + span pre) n).mem
        (live s.heap.start (pre ++ ⟨z, false⟩ :: post)) := by
  have hlt := h.end_lt'
  simp only [span_append, span_cons, Blk.span] at hlt
  obtain ⟨ht, hout⟩ := splitBlock_spec h.tiles.blkAt hn hfit (by omega)
  have hseg : span [(⟨n, true⟩ : Blk), ⟨z - (n + 16), false⟩] = span [(⟨z, false⟩ : Blk)] := by
    simp only [span_cons, Blk.span, span_nil]
    omega
  have hone : s.heap.start + span pre + span [(⟨z, false⟩ : Blk)] =
      s.heap.start + span pre + (z + 16) := by simp [Blk.span]
  have htail : s.heap.start + span pre + (n + 16) + (z - (n + 16) + 16) =
      s.heap.start + span pre + (z + 16) := by omega
  have hsum : ((live s.heap.start (pre ++ ⟨n, true⟩ :: ⟨z - (n + 16), false⟩ :: post)).map
      Prod.snd).sum = s.heap.state.usedBytes + n := by
    rw [h.usedBytes]
    simp [htail]
    omega
  have hlen : (live s.heap.start (pre ++ ⟨n, true⟩ :: ⟨z - (n + 16), false⟩ :: post)).length =
      s.heap.state.blockCount + 1 := by
    rw [h.blockCount]
    simp [htail]
    omega
  have hbytes := liveBytes_le s.heap.start (pre ++ ⟨n, true⟩ :: ⟨z - (n + 16), false⟩ :: post)
  simp only [span_append, span_cons, Blk.span] at hbytes
  refine ⟨?_, ?_⟩
  · constructor
    · have h0 : Tiles s.mem s.heap.start (pre ++ [⟨z, false⟩] ++ post) s.heap.state.vmemMark := by
        simpa using h.tiles
      have h1 := h0.replace _ _ hseg (by rw [hone]; exact ht) (by rw [hone]; exact hout)
      simpa [allocated] using h1
    · simp only [allocated]
      rw [add64_of_lt (by omega), hsum]
    · simp only [allocated]
      rw [add64_of_lt (by omega), hlen]
    · simpa only [allocated] using h.start_ge
    · simpa only [allocated] using h.start_dvd
    · simpa only [allocated] using h.mark_le
    · exact h.end_lt
  · have := untouched_of_segment s.mem (splitBlock (s.heap.start + span pre) n s.mem)
      s.heap.start pre [⟨z, false⟩] post (by simp) (by rw [hone]; exact hout)
    simpa [allocated] using this

theorem WellFormed.split (h : WellFormed e s (pre ++ ⟨z, false⟩ :: post)) (hn : 8 ∣ n)
    (hfit : n + 16 ≤ z) :
    WellFormed e (allocated s (s.heap.start + span pre) n)
        (pre ++ ⟨n, true⟩ :: ⟨z - (n + 16), false⟩ :: post) ∧
      Untouched s.mem (allocated s (s.heap.start + span pre) n).mem
        (live s.heap.start (pre ++ ⟨z, false⟩ :: post)) := by
  obtain ⟨ht, hunt⟩ := h.tiled.split hn hfit
  exact ⟨⟨ht, h.coalesced.split, h.lastFree.split⟩, hunt⟩

/-- The edit of one page of growth. -/
theorem Tiled.grow (h : Tiled e s (pre ++ [⟨z, false⟩]))
    (hend : s.heap.state.vmemMark + pageSize4K ≤ e) :
    Tiled e (grown s (s.heap.start + span pre) (z + pageSize4K))
        (pre ++ [⟨z + pageSize4K, false⟩]) ∧
      ∀ x, x < s.heap.start + span pre →
        (grown s (s.heap.start + span pre) (z + pageSize4K)).mem x = s.mem x := by
  have hmark := h.mark_eq
  have hlt := h.end_lt
  have hz : 8 ∣ z := h.tiles.blkAt.aligned
  have hps : pageSize4K = 4096 := rfl
  simp only [span_append, span_cons, Blk.span, span_nil] at hmark
  have hdvd : 8 ∣ z + pageSize4K := by omega
  have hout : ∀ x, x < s.heap.start + span pre →
      blSet (fun _ => s.heap.start + span pre) (z + pageSize4K) 0 s.mem x = s.mem x :=
    fun x hx => blSet_other hdvd (by omega) (by omega) (.inl hx)
  refine ⟨?_, hout⟩
  have hmk : add64 s.heap.state.vmemMark pageSize4K =
      s.heap.start + span pre + (z + pageSize4K + 16) := by
    rw [add64_of_lt (by omega)]
    omega
  constructor
  · simp only [grown]
    refine h.tiles.replace_last ⟨blkAt_blSet (u := false) hdvd (by omega), ?_⟩ hout
    rw [hmk]
    rfl
  · simp only [grown]
    rw [h.usedBytes]
    simp
  · simp only [grown]
    rw [h.blockCount]
    simp
  · simpa only [grown] using h.start_ge
  · simpa only [grown] using h.start_dvd
  · simp only [grown]
    omega
  · exact h.end_lt

theorem WellFormed.grow (h : WellFormed e s (pre ++ [⟨z, false⟩]))
    (hend : s.heap.state.vmemMark + pageSize4K ≤ e) :
    WellFormed e (grown s (s.heap.start + span pre) (z + pageSize4K))
        (pre ++ [⟨z + pageSize4K, false⟩]) ∧
      ∀ x, x < s.heap.start + span pre →
        (grown s (s.heap.start + span pre) (z + pageSize4K)).mem x = s.mem x := by
  obtain ⟨ht, hout⟩ := h.tiled.grow hend
  exact ⟨⟨ht, h.coalesced.resize, pre, _, rfl⟩, hout⟩

end Edits

end Tachyon.Heap
