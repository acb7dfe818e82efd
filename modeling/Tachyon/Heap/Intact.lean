import Tachyon.Heap.Growth
import Tachyon.Heap.Resize

/-!
# What `heap_realloc` leaves intact

* `realloc_structure_iff`: the heap stays tiled exactly if the block and the new one are not behind
  the end of the heap, and a split gets a size that is a multiple of 8, because the low bits of a size
  are the flags of the block;
* `realloc_preserves_data`: when the data of the block and of all others is kept;
* `realloc_failure_iff`: what a call loses whose pages run out.
-/

namespace Tachyon.Heap

open Prog List

variable {σ : Type} {P : Pages σ} {s s' : Sys σ} {pre post bs bs' : List Blk}
  {e m p x y bytes a bytes : ℕ}

/-! ### The structure of the heap -/

/-- `HEAP_BL_SET` with a size that need not be a multiple of 8. -/
theorem blSet_header (mem : Mem) {n f : ℕ} (hw : n ||| f < 2 ^ 64)
    (hlt : a + 16 + blB2DataSz (n ||| f) < 2 ^ 64) :
    read64 (blSet (fun _ => a) n f mem) a = n ||| f ∧
      blNext (blSet (fun _ => a) n f mem) a = a + 16 + blB2DataSz (n ||| f) ∧
      ∀ i, i < a → blSet (fun _ => a) n f mem i = mem i := by
  have hft : blH2F (write64 mem a (n ||| f)) a = a + 8 + blB2DataSz (n ||| f) := by
    simp (disch := omega) only [blH2F, read64_write64, blockT, add64_of_lt]
  have hhead : read64 (blSet (fun _ => a) n f mem) a = n ||| f := by
    simp only [blSet, hft]
    rw [read64_of_disjoint (by omega), read64_write64 hw]
  refine ⟨hhead, ?_, fun i hi => ?_⟩
  · simp (disch := omega) only [blNext, blH2F, hhead, blockT, add64_of_lt]
    omega
  · simp only [blSet, hft]
    rw [write64_of_not_mem (by omega), write64_of_not_mem (by omega)]

/-- The header that a split writes for a size that need not be a multiple of 8. -/
theorem extended_header (h : Tiled e s (pre ++ ⟨x, true⟩ :: ⟨y, false⟩ :: post))
    (hny : bytes < x + y) :
    read64 (extended s (s.heap.start + span pre) x bytes (x + y - bytes)).mem
      (s.heap.start + span pre) = bytes ||| 1 := by
  obtain ⟨hlt, -, -, -⟩ := h.pair_lt
  have hor := or_one_eq bytes
  have hsz : blB2DataSz (bytes ||| 1) ≤ bytes := by
    rw [blB2DataSz_eq]
    omega
  have hsz2 : blB2DataSz ((x + y - bytes) ||| 0) ≤ x + y - bytes := by
    rw [blB2DataSz_eq, Nat.or_zero]
    omega
  obtain ⟨hhead, hnext, -⟩ := blSet_header s.mem (a := s.heap.start + span pre)
    (n := bytes) (f := heapPresent) (by rw [heapPresent]; omega) (by rw [heapPresent]; omega)
  obtain ⟨-, -, hlow⟩ := blSet_header
    (blSet (fun _ => s.heap.start + span pre) bytes heapPresent s.mem)
    (a := s.heap.start + span pre + 16 + blB2DataSz (bytes ||| heapPresent))
    (n := x + y - bytes) (by rw [Nat.or_zero]; omega) (by rw [heapPresent]; omega)
  simp only [extended, hnext]
  rw [read64_congr fun i h1 h2 => hlow i (by omega), hhead]
  rfl

/-- The heap is tiled and its counters are exact; the block at `p` is in use, is accepted by
`heap_validate` and holds `bytes` bytes. -/
def WellStructured (s : Sys σ) (p bytes : ℕ) : Prop :=
  ∃ e bs z, Tiled e s bs ∧ (p, z) ∈ live s.heap.start bs ∧ bytes ≤ z ∧
    heapValidate s.heap s.mem p = true

theorem Tiled.validate_live_iff (h : Tiled e s bs) (hp : (p, x) ∈ live s.heap.start bs) :
    heapValidate s.heap s.mem p = true ↔ p + x ≤ s.heap.endAddr := by
  obtain ⟨pre, post, rfl, rfl⟩ := mem_live_iff.1 hp
  exact heapValidate_block_iff h

theorem Resized.wellStructured_iff (h : Resized e s bs m x bytes p s' bs')
    (hp : (p, y) ∈ live s.heap.start bs') :
    WellStructured s' p bytes ↔ p + y ≤ s.heap.endAddr := by
  rw [← h.same.start] at hp
  rw [← h.same.endAddr, ← h.tiled.validate_live_iff hp]
  refine ⟨fun ⟨_, _, _, _, _, _, hval⟩ => hval, fun hval => ?_⟩
  obtain ⟨z, hz, hperm⟩ := h.size
  refine ⟨e, bs', z, h.tiled, ?_, hz, hval⟩
  rw [h.same.start]
  exact hperm.mem_iff.2 mem_cons_self

/-- No block of a tiled heap is that large. -/
theorem WellStructured.size_le (h : WellStructured s p bytes) :
    p ≠ 0 ∧ bytes + pageSize4K ≤ 2 ^ 64 := by
  obtain ⟨e, bs, z, ht, hp, hz, -⟩ := h
  have hin := live_bounds hp
  have hmark := ht.mark_eq
  have hstart := ht.start_ge
  have hle := ht.mark_le
  have hlt := ht.end_lt
  omega

/-- A block that is refused is not resized. -/
theorem heapRealloc_refused {fuel : ℕ} (h : Tiled e s bs) (hact : Active P s)
    (hm : (m, x) ∈ live s.heap.start bs) (hend : ¬ m + x ≤ s.heap.endAddr) :
    heapRealloc P fuel m bytes s = .ok (0, s) := by
  rw [← h.validate_live_iff hm] at hend
  obtain ⟨pre, post, rfl, rfl⟩ := mem_live_iff.1 hm
  rw [heapRealloc, if_neg (by omega), run_ok (heapCheck_run hact), run_ok (validateReads_block h),
    run_get_bind, if_pos hend]
  rfl

/-- A split with a size that is not a multiple of 8 breaks the structure. -/
theorem not_wellStructured_extended
    (h : Tiled e s (pre ++ ⟨x, true⟩ :: ⟨y, false⟩ :: post)) (hny : bytes < x + y)
    (h8 : ¬ 8 ∣ bytes) :
    ¬ WellStructured (extended s (s.heap.start + span pre) x bytes (x + y - bytes))
      (s.heap.start + span pre + 8) bytes := by
  rintro ⟨_, ts, z, hts, hp, hz, -⟩
  have hhead := extended_header h hny
  have hor := or_one_eq bytes
  obtain ⟨pre', post', rfl, haddr⟩ := mem_live_iff.1 hp
  have hd := hts.tiles.blkAt
  have hsize := hd.aligned
  have hheader := hd.header
  rw [show (extended s (s.heap.start + span pre) x bytes (x + y - bytes)).heap.start + span pre' =
    s.heap.start + span pre by omega, hhead] at hheader
  simp only [Blk.header, Bool.toNat_true] at hheader hsize
  omega

/-- **`heap_realloc` keeps the structure of the heap** exactly if the block is accepted by
`heap_validate`, the new one ends in front of the end of the heap and does not wrap around, and the
size is a multiple of 8 where a block is split. -/
theorem realloc_structure_iff (h : Tiled e s bs) (hlast : LastFree bs)
    (hng : NotGlobal s) (hact : Active P s) (hm : (m, x) ∈ live s.heap.start bs)
    (hgrow : moves s m bytes = true → bytes + pageSize4K ≤ 2 ^ 64 → Grows P e s bs bytes) :
    (∃ p s', Returns (fun fuel => heapRealloc P fuel m bytes) s p s' ∧
        WellStructured s' p bytes) ↔
      m + x ≤ s.heap.endAddr ∧ newEnd s bs m bytes ≤ s.heap.endAddr ∧
        bytes + pageSize4K ≤ 2 ^ 64 ∧ (8 ∣ bytes ∨ splits s m bytes = false) := by
  constructor
  · rintro ⟨p, s', hret, hstruct⟩
    obtain ⟨hp, hb⟩ := hstruct.size_le
    have hend : m + x ≤ s.heap.endAddr := by
      by_contra hout
      obtain ⟨rfl, rfl⟩ := hret.unique ⟨0, fun fuel _ => heapRealloc_refused h hact hm hout⟩
      exact hp rfl
    have hsize : 8 ∣ bytes ∨ splits s m bytes = false := by
      by_contra hcon
      obtain ⟨h8, hsplit⟩ := not_or.1 hcon
      obtain ⟨pre, post, rfl, rfl⟩ := mem_live_iff.1 hm
      have hval := (heapValidate_block_iff h).2 hend
      simp only [splits, h.capacity_eq, h.m2h, Bool.not_eq_false, Bool.and_eq_true,
        decide_eq_true_eq, Bool.not_eq_true'] at hsplit
      obtain ⟨⟨hlt, hext⟩, hall⟩ := hsplit
      obtain ⟨y, post, rfl, hle⟩ := h.canExtend_iff.1 hext
      have hrun : Returns
          (fun fuel => heapRealloc P fuel (s.heap.start + span pre + 8) bytes) s _ _ :=
        ⟨0, fun fuel _ => heapRealloc_split h hact hval hlt hle hall⟩
      obtain ⟨rfl, rfl⟩ := hret.unique hrun
      exact not_wellStructured_extended h (h.lt_of_mergesAll_eq_false hlt hle hall) h8 hstruct
    obtain ⟨q, t, bs', z, hret', hres, hz, hnew⟩ :=
      heapRealloc_total h hact hend hm hb hlast hng hsize fun hmv => hgrow hmv hb
    obtain ⟨rfl, rfl⟩ := hret.unique hret'
    rw [← hnew]
    exact ⟨hend, (hres.wellStructured_iff hz).1 hstruct, hb, hsize⟩
  · rintro ⟨hend, hnew, hb, hsize⟩
    obtain ⟨p, s', bs', z, hret, hres, hz, heq⟩ :=
      heapRealloc_total h hact hend hm hb hlast hng hsize fun hmv => hgrow hmv hb
    rw [← heq] at hnew
    exact ⟨p, s', hret, (hres.wellStructured_iff hz).2 hnew⟩

/-- The small heap with one block of 8 bytes: its bounds, its counters and its blocks. -/
theorem smallHeapOne_state : smallHeapOne.heap.start = pheapStart ∧
    smallHeapOne.heap.endAddr = pheapStart + 0x100000 ∧
    smallHeapOne.heap.state.vmemMark = pheapStart + 4096 ∧
    smallHeapOne.heap.state.usedBytes = 8 ∧ smallHeapOne.heap.state.blockCount = 1 ∧
    smallHeapOne.heap.space = pageSize4K ∧ NotGlobal smallHeapOne ∧
    read64 smallHeapOne.mem pheapStart = 9 ∧ read64 smallHeapOne.mem (pheapStart + 16) = 11 ∧
    read64 smallHeapOne.mem (pheapStart + 24) = 4056 ∧
    read64 smallHeapOne.mem (pheapStart + 4088) = 4058 := by
  decide +kernel

theorem smallHeapOne_tiled :
    Tiled smallHeapOne.heap.endAddr smallHeapOne [⟨8, true⟩, ⟨4056, false⟩] := by
  obtain ⟨hstart, hend, hmark, hused, hcount, -, -, hhead, hfoot, hhead', hfoot'⟩ :=
    smallHeapOne_state
  refine ⟨?_, ?_, ?_, ?_, ?_, ?_, ?_⟩
  · rw [hstart, hmark]
    exact ⟨⟨hhead, hfoot, by decide⟩, ⟨hhead', hfoot', by decide⟩, rfl⟩
  · rw [hused, hstart]
    decide
  · rw [hcount, hstart]
    decide
  · rw [hstart]
    decide
  · rw [hstart]
    decide
  · rw [hmark, hend]
    decide
  · rw [hend]
    decide

theorem smallHeapOne_block :
    (pheapStart + 8, 8) ∈ live smallHeapOne.heap.start [⟨8, true⟩, ⟨4056, false⟩] := by
  decide

/-- The block can grow by the free one behind it. -/
theorem smallHeapOne_canExtend :
    canExtend smallHeapOne.heap smallHeapOne.mem (blM2H (pheapStart + 8)) bytes = true ↔
      bytes ≤ 4080 := by
  have h : Tiled _ smallHeapOne ([] ++ ⟨8, true⟩ :: [⟨4056, false⟩]) := smallHeapOne_tiled
  have hblock : blM2H (pheapStart + 8) = smallHeapOne.heap.start + span [] := by
    decide
  rw [hblock, h.canExtend_iff]
  simp

theorem smallHeapOne_grows
    (hneed : neededPages (alignUp bytes blockT) [⟨8, true⟩, ⟨4056, false⟩] = 2) :
    Grows smallPages smallHeapOne.heap.endAddr smallHeapOne [⟨8, true⟩, ⟨4056, false⟩] bytes := by
  obtain ⟨-, hend, hmark, -⟩ := smallHeapOne_state
  have hmap : ∀ spc phys virt flags, virt + pageSize4K ≤ pheapStart + 0x100000 →
      smallPages.vmemMap spc phys virt flags () = .ok (true, ()) := by
    intro spc phys virt flags hle
    show Except.ok (decide _, ()) = _
    rw [decide_eq_true hle]
  refine ⟨(), ?_, ?_, rfl⟩
  · rw [hneed, hmark]
    exact .page rfl (hmap _ _ _ _ (by decide)) (.page rfl (hmap _ _ _ _ (by decide)) (.none _ _))
  · rw [hneed, hmark, hend]
    decide

/-- A block of 8 bytes is moved to one of 5004 bytes. -/
theorem realloc_structure_iff_move :
    ∃ p s', Returns (fun fuel => heapRealloc smallPages fuel (pheapStart + 8) 5004) smallHeapOne
      p s' ∧ WellStructured s' p 5004 := by
  obtain ⟨-, hend, -, -, -, hspace, hng, -⟩ := smallHeapOne_state
  have hext : canExtend smallHeapOne.heap smallHeapOne.mem (blM2H (pheapStart + 8)) 5004 = false :=
    Bool.eq_false_iff.2 (mt smallHeapOne_canExtend.1 (by decide))
  have hsplit : splits smallHeapOne (pheapStart + 8) 5004 = false := by
    rw [splits, hext, Bool.and_false, Bool.false_and]
  have hcap : capacity smallHeapOne (pheapStart + 8) = 8 := by
    decide +kernel
  have hnew : newEnd smallHeapOne [⟨8, true⟩, ⟨4056, false⟩] (pheapStart + 8) 5004 =
      pheapStart + 32 + 5008 := by
    rw [newEnd, hcap, hext]
    decide
  refine (realloc_structure_iff smallHeapOne_tiled ⟨[⟨8, true⟩], 4056, rfl⟩ hng (.inl hspace)
    smallHeapOne_block (fun _ _ => smallHeapOne_grows (by decide))).2 ?_
  rw [hnew, hend]
  exact ⟨by decide, by decide, by decide, .inr hsplit⟩

/-- A block of 8 bytes that gets 10 bytes in place: the size is 8, and the flag of a footer is set
in the header. -/
theorem realloc_breaks_structure : ∃ s,
    heapRealloc smallPages 1 (pheapStart + 8) 10 smallHeapOne = .ok (pheapStart + 8, s) ∧
      capacity s (pheapStart + 8) = 8 ∧
      heapValidate s.heap s.mem (pheapStart + 8) = false := by
  obtain ⟨hvalue, hrest⟩ :
      (heapRealloc smallPages 1 (pheapStart + 8) 10).value smallHeapOne = some (pheapStart + 8) ∧
      let s := exec (heapRealloc smallPages 1 (pheapStart + 8) 10) smallHeapOne
      capacity s (pheapStart + 8) = 8 ∧
      heapValidate s.heap s.mem (pheapStart + 8) = false := by
    decide +kernel
  exact ⟨_, eq_ok_of_value hvalue, hrest⟩

/-! ### Data -/

/-- The block of size `x` at `m` became the block at `p`, with the same data; the other blocks in use
are as they were. -/
def DataKept (s : Sys σ) (bs : List Blk) (m x bytes p : ℕ) (s' : Sys σ) : Prop :=
  (∀ i < min x bytes, s'.mem (p + i) = s.mem (m + i)) ∧
    (∀ q k, (q, k) ∈ live s.heap.start bs → q ≠ m →
      ∀ i < k, s'.mem (q + i) = s.mem (q + i)) ∧
    ∃ bs' z, Tiles s'.mem s'.heap.start bs' s'.heap.state.vmemMark ∧
      (live s'.heap.start bs').Perm ((p, z) :: (live s.heap.start bs).erase (m, x))

theorem Resized.dataKept (h : Resized e s bs m x bytes p s' bs') :
    DataKept s bs m x bytes p s' := by
  obtain ⟨z, -, hperm⟩ := h.size
  refine ⟨fun i hi => h.data i (by omega), fun q k hq hne i hi => ?_, bs', z, h.tiled.tiles, ?_⟩
  · have hq' : (q, k) ∈ (live s.heap.start bs).erase (m, x) :=
      (List.mem_erase_of_ne (by simp [hne])).2 hq
    exact h.others q k hq' _ (by omega) (by omega)
  · rw [h.same.start]
    exact hperm

/-- A size whose pages are rounded to none: the `heap_alloc` of the move does not return. -/
theorem heapRealloc_stuck (h : Tiled e s bs) (hact : Active P s)
    (hm : (m, x) ∈ live s.heap.start bs) (hend : m + x ≤ s.heap.endAddr)
    (hwrap : 2 ^ 64 < bytes + pageSize4K) (hb : bytes + 24 ≤ 2 ^ 64) (fuel : ℕ) :
    heapRealloc P fuel m bytes s = .error .fuel := by
  have hround : NoWrap bytes := by
    have h8 := alignUp_two_pow bytes 3
    rw [add64_of_lt (by omega)] at h8
    exact ⟨by omega, by rw [show blockT = 2 ^ 3 from rfl, h8]; omega⟩
  obtain ⟨-, hle, -⟩ := hround.alignUp
  have hlt := hround.2
  have hnone : growPages (alignUp bytes blockT) = 0 := growPages_eq_zero (by omega) (by omega)
  have hsmall : ∀ b ∈ bs, b.size + pageSize4K < 2 ^ 64 := by
    intro b hb
    obtain ⟨pre, post, rfl⟩ := append_of_mem hb
    have hlt := h.lt_of_block
    have hge := h.start_ge
    simp only [Blk.span] at hlt
    omega
  obtain ⟨pre, post, rfl, rfl⟩ := mem_live_iff.1 hm
  have hx : x + pageSize4K < 2 ^ 64 := hsmall ⟨x, true⟩ (by simp)
  have hext : canExtend s.heap s.mem (s.heap.start + span pre) bytes = false := by
    rw [Bool.eq_false_iff, Ne, h.canExtend_iff]
    rintro ⟨y, post, rfl, hle⟩
    obtain ⟨hlt, -⟩ := h.pair_lt
    have hge := h.start_ge
    omega
  have hstuck := heapAlloc_stuck h hact hnone (fun b hb _ => by
    have := hsmall b hb
    rw [blDataSz2Sz_of_lt hlt]
    omega) (by simp) fuel
  rw [heapRealloc_move h hact ((heapValidate_block_iff h).2 hend) (by omega) hext, run_bind, hstuck]

/-- The block of size `x` at `m` is in use with its contents, and the counters are the same. -/
def NothingLost (s s' : Sys σ) (m x : ℕ) : Prop :=
  ∃ bs, Tiles s'.mem s'.heap.start bs s'.heap.state.vmemMark ∧ (m, x) ∈ live s'.heap.start bs ∧
    (∀ i < x, s'.mem (m + i) = s.mem (m + i)) ∧
    s'.heap.state.usedBytes = s.heap.state.usedBytes ∧
    s'.heap.state.blockCount = s.heap.state.blockCount

/-- A released block is not in use any more. -/
theorem not_nothingLost_freed (h : Tiled e s (pre ++ ⟨x, true⟩ :: post)) (t : Sys σ) :
    ¬ NothingLost t (freed s pre x post) (s.heap.start + span pre + 8) x := by
  rintro ⟨ts, hts, hm, -⟩
  rw [hts.unique h.free.1.tiles] at hm
  change _ ∈ live s.heap.start (released pre x post) at hm
  rw [released_live] at hm
  rcases mem_append.1 hm with hm | hm
  · have := live_bounds hm
    omega
  · have := live_bounds hm
    omega

/-- A move to `NULL` does not return, or it releases an empty block. -/
theorem move_null (h : Tiled e s (pre ++ ⟨x, true⟩ :: post))
    (hval : heapValidate s.heap s.mem (s.heap.start + span pre + 8) = true)
    (hrun : (do
      moveData 0 (s.heap.start + span pre + 8) x
      heapFree P (s.heap.start + span pre + 8)
      pure 0 : Prog (Sys σ) ℕ) s = .ok (p, s')) : p = 0 ∧ s' = freed s pre x post := by
  obtain ⟨_, s1, hmove, hrest⟩ := bind_eq_ok.1 hrun
  rw [moveData] at hmove
  split_ifs at hmove with h0
  · cases hmove
    obtain ⟨_, s2, hfree, hpure⟩ := bind_eq_ok.1 hrest
    have hs2 := heapFree_spec h _ _ hfree
    rw [if_pos hval] at hs2
    cases hpure
    exact ⟨rfl, hs2⟩
  · rw [store, if_pos (by decide)] at hmove
    cases hmove

theorem NothingLost.of_live (h : Tiled e s bs) (h' : Tiled e s' bs') (hsame : SameHeap s s')
    (hlive : live s.heap.start bs' = live s.heap.start bs)
    (hunt : Untouched s.mem s'.mem (live s.heap.start bs)) (hm : (m, x) ∈ live s.heap.start bs) :
    NothingLost s s' m x := by
  refine ⟨bs', h'.tiles, ?_, fun i hi => hunt m x hm _ (by omega) (by omega), ?_, ?_⟩
  · rwa [hsame.start, hlive]
  · rw [h'.usedBytes, h.usedBytes, hsame.start, hlive]
  · rw [h'.blockCount, h.blockCount, hsame.start, hlive]

section

variable (h : Tiled e s (pre ++ ⟨x, true⟩ :: post)) (hact : Active P s)
  (hend : s.heap.start + span pre + 8 + x ≤ s.heap.endAddr)
include h hact hend

/-- A call that needs no page returns a block. -/
theorem heapRealloc_fit (hb : NoWrap bytes)
    (hfit : moves s (s.heap.start + span pre + 8) bytes = true →
      (place (alignUp bytes blockT) (pre ++ ⟨x, true⟩ :: post)).isSome = true) :
    ∃ p s', Returns (fun fuel => heapRealloc P fuel (s.heap.start + span pre + 8) bytes) s p s' ∧
      p ≠ 0 := by
  have hval := (heapValidate_block_iff h).2 hend
  simp only [moves, h.capacity_eq, h.m2h] at hfit
  have hne : s.heap.start + span pre + 8 ≠ 0 := by omega
  rcases Nat.lt_or_ge x bytes with hlt | hle
  swap
  · exact ⟨_, _, ⟨0, fun fuel _ => heapRealloc_keep h hact hval hle⟩, hne⟩
  by_cases hext : canExtend s.heap s.mem (s.heap.start + span pre) bytes = true
  · obtain ⟨y, post, rfl, hle⟩ := h.canExtend_iff.1 hext
    by_cases hall : mergesAll s.mem (s.heap.start + span pre) bytes = true
    · exact ⟨_, _, ⟨0, fun fuel _ => heapRealloc_merge h hact hval hlt hle hall⟩, hne⟩
    · rw [Bool.not_eq_true] at hall
      exact ⟨_, _, ⟨0, fun fuel _ => heapRealloc_split h hact hval hlt hle hall⟩, hne⟩
  · rw [Bool.not_eq_true] at hext
    obtain ⟨bs', hplace⟩ := Option.isSome_iff_exists.1 (hfit (by simp [hlt, hext]))
    obtain ⟨xs, w, ys, hbs, hno, hw, -⟩ := place_eq_some hplace
    have h' := h
    rw [hbs] at h'
    obtain ⟨ht, hunt⟩ := h'.split hb.alignUp.1 hw
    obtain ⟨s', -, hrun, -, -⟩ := resized_of_alloc h hact hend hb hlt hext
      (fun fuel hfuel => heapAlloc_fit_run h' hact hno hb.2 hw hfuel) ⟨rfl, rfl, rfl, rfl⟩ hact
      (by rw [hbs]; exact hunt) ht (by rw [hbs]; exact live_split_perm hw)
    exact ⟨_, s', ⟨_, hrun⟩, by omega⟩

/-- The internal `heap_alloc` of a move returns `NULL`: the data goes to address 0. -/
theorem heapRealloc_null {k : ℕ} (hlt : x < bytes)
    (hext : canExtend s.heap s.mem (s.heap.start + span pre) bytes = false)
    (hb : bytes + pageSize4K ≤ 2 ^ 64)
    (hplace : place (alignUp bytes blockT) (pre ++ ⟨x, true⟩ :: post) = none) (hout : RunsOut P s k)
    (hk : k = 0 ∨ k < neededPages (alignUp bytes blockT) (pre ++ ⟨x, true⟩ :: post) ∧
      s.heap.state.vmemMark + pageSize4K * k ≤ e ∧ LastFree (pre ++ ⟨x, true⟩ :: post) ∧ NotGlobal s) :
    ∃ s1 n, (∀ fuel, n < fuel → heapAlloc P fuel bytes s = .ok (0, s1)) ∧
      NothingLost s s1 (s.heap.start + span pre + 8) x ∧
      ∀ fuel, n < fuel → ∀ p s', heapRealloc P fuel (s.heap.start + span pre + 8) bytes s =
        .ok (p, s') → p = 0 ∧ ¬ NothingLost s s' (s.heap.start + span pre + 8) x := by
  have hval := (heapValidate_block_iff h).2 hend
  have hm : (s.heap.start + span pre + 8, x) ∈ live s.heap.start (pre ++ ⟨x, true⟩ :: post) := by
    simp
  obtain ⟨s1, bs1, halloc, hsame, h1, hlive, hunt, -⟩ :=
    heapAlloc_runsOut h hact (by simp) (by omega) hb hplace hout hk
  refine ⟨s1, _, halloc, .of_live h h1 hsame hlive hunt hm, fun fuel hfuel p s' hrun => ?_⟩
  have hm1 : (s.heap.start + span pre + 8, x) ∈ live s1.heap.start bs1 := by
    rw [hsame.start, hlive]
    exact hm
  obtain ⟨pre1, post1, rfl, haddr⟩ := mem_live_iff.1 hm1
  have hblock : s.heap.start + span pre = s1.heap.start + span pre1 := by omega
  have hval1 : heapValidate s1.heap s1.mem (s1.heap.start + span pre1 + 8) = true := by
    rw [heapValidate_block_iff h1, hsame.endAddr, ← hblock]
    exact hend
  rw [heapRealloc_move h hact hval hlt hext, run_ok (halloc _ hfuel),
    run_get_bind, hblock, h1.tiles.blkAt.dataSz] at hrun
  obtain ⟨rfl, rfl⟩ := move_null h1 hval1 hrun
  rw [hblock]
  exact ⟨rfl, not_nothingLost_freed h1 s⟩

end

/-- **A `heap_realloc` whose pages run out loses nothing** exactly if it needs none.  The failed
`heap_alloc` inside of it does not lose anything either, but its result is not checked. -/
theorem realloc_failure_iff {k : ℕ} (h : Tiled e s bs) (hact : Active P s)
    (hmark : s.heap.state.vmemMark ≤ s.heap.endAddr) (hm : (m, x) ∈ live s.heap.start bs)
    (hb : bytes + pageSize4K ≤ 2 ^ 64) (hout : RunsOut P s k)
    (hk : k = 0 ∨ k < neededPages (alignUp bytes blockT) bs ∧
      s.heap.state.vmemMark + pageSize4K * k ≤ e ∧ LastFree bs ∧ NotGlobal s) :
    ((∃ p s', Returns (fun fuel => heapRealloc P fuel m bytes) s p s' ∧
        (p = 0 → NothingLost s s' m x)) ↔
      (moves s m bytes = true → (place (alignUp bytes blockT) bs).isSome = true)) ∧
    (moves s m bytes = true → place (alignUp bytes blockT) bs = none →
      ∃ s₁, Returns (fun fuel => heapAlloc P fuel bytes) s 0 s₁ ∧ NothingLost s s₁ m x) := by
  obtain ⟨pre, post, rfl, rfl⟩ := mem_live_iff.1 hm
  have hend : s.heap.start + span pre + 8 + x ≤ s.heap.endAddr := by
    have hle := h.block_le.trans hmark
    simp only [Blk.span] at hle
    omega
  have hmoves : moves s (s.heap.start + span pre + 8) bytes = true ↔
      x < bytes ∧ canExtend s.heap s.mem (s.heap.start + span pre) bytes = false := by
    simp [moves, h.capacity_eq, h.m2h]
  rw [hmoves]
  refine ⟨⟨?_, fun hfit => ?_⟩, ?_⟩
  · rintro ⟨p, s', ⟨n, hret⟩, hlost⟩ ⟨hlt, hext⟩
    by_contra hplace
    obtain ⟨s₁, n₁, -, -, hnull⟩ :=
      heapRealloc_null h hact hend hlt hext hb (by simpa using hplace) hout hk
    obtain ⟨rfl, hgone⟩ :=
      hnull (n + n₁ + 1) (by omega) p s' (hret (n + n₁ + 1) (by omega))
    exact hgone (hlost rfl)
  · obtain ⟨p, s', hret, hne⟩ := heapRealloc_fit h hact hend (noWrap_of_le hb).1
      fun hmv => hfit (hmoves.1 hmv)
    exact ⟨p, s', hret, fun h0 => absurd h0 hne⟩
  · rintro ⟨hlt, hext⟩ hplace
    obtain ⟨s₁, n, halloc, hlost, -⟩ :=
      heapRealloc_null h hact hend hlt hext hb hplace hout hk
    exact ⟨s₁, ⟨n, halloc⟩, hlost⟩

/-- The pages of the small heap, none of which can be mapped any more. -/
def noPages : Pages Unit := { smallPages with vmemMap := fun _ _ _ _ => pure false }

theorem realloc_failure_iff_extend :
    ∃ p s', Returns (fun fuel => heapRealloc noPages fuel (pheapStart + 8) 4000) smallHeapOne p s' ∧
      (p = 0 → NothingLost smallHeapOne s' (pheapStart + 8) 8) := by
  obtain ⟨-, -, -, -, -, hspace, -⟩ := smallHeapOne_state
  have hmoves : moves smallHeapOne (pheapStart + 8) 4000 = false := by
    rw [moves, smallHeapOne_canExtend.2 (by decide), Bool.not_true, Bool.and_false]
  have hout : RunsOut noPages smallHeapOne 0 := ⟨_, _, _, _, .none _ _, rfl, rfl⟩
  refine (realloc_failure_iff smallHeapOne_tiled (.inl hspace) smallHeapOne_tiled.mark_le
    smallHeapOne_block (by decide) hout (.inl rfl)).1.2 fun hmove => ?_
  cases hmove

/-- The internal `heap_alloc` returns `NULL`, and the data is moved there. -/
theorem realloc_null_faults :
    (heapAlloc noPages 3 5000).value smallHeapOne = some 0 ∧
      heapRealloc noPages 3 (pheapStart + 8) 5000 smallHeapOne = .error (.pageFault 0) := by
  have hrun : (heapAlloc noPages 3 5000).value smallHeapOne = some 0 ∧
      (heapRealloc noPages 3 (pheapStart + 8) 5000).halted smallHeapOne = some (.pageFault 0) := by
    decide +kernel
  exact ⟨hrun.1, eq_error_of_halted hrun.2⟩

end Tachyon.Heap
