import Tachyon.Heap.KernelRuns
import Tachyon.Pmem.Counters

/-!
# Bitmaps on the kernel heap

`bmap_new` takes a bitmap and its storage from the kernel heap.  The storage gets `bitcnt / 8`
bytes, which `heap_alloc` rounds up to a multiple of 8.  It is used in words of 64 bits, up to the
word of the index `bitcnt`, which `bmap_get` and `bmap_set` let through.

* `MemWords`: words in memory as the storage of a bitmap; `wordAddr` is the word of a bit, and
  `words_writeBit` relates the memory to the array of `Words`;
* `bmapLoad`, `bmapSave`: a `bitmap_t` in memory; `bmapNew`: the source;
* `Confined`: calls write only the words of the bits they accept;
* `bmap_storage_iff`: these words lie inside of the block exactly if `8 ≤ bitcnt % 64`, and then no
  run of calls breaks the kernel heap.
-/

namespace Tachyon.Pmem

open Heap Prog List

/-- The words of a bitmap at `base` in memory. -/
structure MemWords where
  mem : Mem
  base : ℕ

/-- `&storage[bit / 64]`. -/
def wordAddr (base bit : ℕ) : ℕ := add64 base (8 * (bit / 64))

/-- The storage as an array of words. -/
def MemWords.words (w : MemWords) : Words :=
  ⟨fun idx => BitVec.ofNat 64 (read64 w.mem (add64 w.base (8 * idx)))⟩

instance : BitStore MemWords where
  readBit w i := readBit w.words i
  writeBit w i v :=
    { w with mem := write64 w.mem (wordAddr w.base i) (w.words.update (i / 64) (i % 64) v).toNat }

theorem wordAddr_eq {base bit : ℕ} (h : base + 8 * (bit / 64) < 2 ^ 64) :
    wordAddr base bit = base + 8 * (bit / 64) := add64_of_lt h

/-- Writing a bit in memory writes it in the array. -/
theorem words_writeBit (w : MemWords) (i : ℕ) (v : Bool) {idx : ℕ}
    (hi : w.base + 8 * (i / 64) < 2 ^ 64) (hidx : w.base + 8 * idx < 2 ^ 64) :
    (writeBit w i v).words.word idx = (writeBit w.words i v).word idx := by
  show BitVec.ofNat 64 (read64 (write64 w.mem (wordAddr w.base i) _) (add64 w.base (8 * idx))) =
    if idx = i / 64 then w.words.update idx (i % 64) v else w.words.word idx
  rw [wordAddr_eq hi, add64_of_lt hidx]
  split_ifs with heq
  · rw [heq, read64_write64 (BitVec.isLt _), BitVec.ofNat_toNat, BitVec.setWidth_eq]
  · rw [read64_of_disjoint (by omega), ← add64_of_lt hidx]
    rfl

/-! ### What calls write -/

/-- From `b` to `b'` only words of accepted bits were written. -/
structure Confined (b b' : Bitmap MemWords) : Prop where
  base : b'.storage.base = b.storage.base
  bits : b'.bits = b.bits
  mem : ∀ a, (∀ bit ≤ b.bits, a < wordAddr b.storage.base bit ∨
    wordAddr b.storage.base bit + 8 ≤ a) → b'.storage.mem a = b.storage.mem a

theorem Confined.refl (b : Bitmap MemWords) : Confined b b := ⟨rfl, rfl, fun _ _ => rfl⟩

theorem Confined.trans {b1 b2 b3 : Bitmap MemWords} (h : Confined b1 b2) (h' : Confined b2 b3) :
    Confined b1 b3 := by
  refine ⟨h'.base.trans h.base, h'.bits.trans h.bits, fun a ha => ?_⟩
  rw [h'.mem a (by rwa [h.base, h.bits]), h.mem a ha]

section

variable (b : Bitmap MemWords)

theorem confined_bmapSet (bit : ℕ) (v : Bool) : Confined b (bmapSet b bit v) := by
  rw [bmapSet]
  by_cases hbit : b.bits < bit
  · rw [if_pos hbit]
    exact .refl b
  · rw [if_neg hbit]
    exact ⟨rfl, rfl, fun a ha => write64_of_not_mem (ha bit (not_lt.1 hbit))⟩

theorem confined_fillLoop (v : Bool) (n start : ℕ) : Confined b (fillLoop v n start b) := by
  induction n generalizing start b with
  | zero => exact .refl b
  | succ n ih => exact (confined_bmapSet b start v).trans (ih _ _)

theorem confined_bmapFill (v : Bool) (start stop : ℕ) :
    Confined b (bmapFill b v start stop).2 := by
  rw [bmapFill]
  split_ifs
  · exact .refl b
  · exact confined_fillLoop b v _ start

theorem confined_bmapClear (v : Bool) : Confined b (bmapClear b v) :=
  have h := confined_bmapFill b v 0 (sub64 b.bits 1)
  ⟨h.base, h.bits, h.mem⟩

theorem confined_run (op : BitOp) : Confined b (op.run b) := by
  cases op with
  | set bit v => exact confined_bmapSet b bit v
  | fill v start stop => exact confined_bmapFill b v start stop
  | clear v => exact confined_bmapClear b v

end

theorem confined_runOps (ops : List BitOp) (b : Bitmap MemWords) : Confined b (runOps ops b) := by
  induction ops generalizing b with
  | nil => exact .refl b
  | cons op ops ih => exact (confined_run b op).trans (ih (op.run b))

/-- The words of accepted bits are contiguous. -/
theorem Confined.mem_eq {b b' : Bitmap MemWords} {a : ℕ} (h : Confined b b')
    (hend : b.storage.base + 8 * (b.bits / 64) < 2 ^ 64)
    (ha : a < b.storage.base ∨ b.storage.base + 8 * (b.bits / 64) + 8 ≤ a) :
    b'.storage.mem a = b.storage.mem a := by
  refine h.mem a fun bit hbit => ?_
  rw [wordAddr_eq (by omega)]
  omega

/-! ### Bitmaps in memory -/

/-- `sizeof(bitmap_t)`. -/
def sizeofBitmap : ℕ := 40

/-- The `bitmap_t` at `bmap`. -/
def bmapLoad (m : Mem) (bmap : ℕ) : Bitmap MemWords :=
  ⟨⟨m, read64 m bmap⟩, read64 m (bmap + 8), read64 m (bmap + 16), read64 m (bmap + 32)⟩

/-- The memory with the fields of a bitmap at `bmap`; `allocated` is not one of them. -/
def bmapSave (bmap : ℕ) (b : Bitmap MemWords) : Mem :=
  let m := write64 b.storage.mem bmap b.storage.base
  let m := write64 m (bmap + 8) b.bits
  let m := write64 m (bmap + 16) b.hint
  write64 m (bmap + 32) b.setCnt

/-- `bmap_init` on a `bitmap_t` in memory. -/
def bmapInitAt (bmap storage bitcnt : ℕ) (m : Mem) : Mem :=
  -- `allocated = 0`
  let m := writeLE m (bmap + 24) 1 0
  bmapSave bmap (bmapInit (bmapLoad m bmap) ⟨m, storage⟩ bitcnt)

/-- `bmap_new`; `bmap_init` fails for `NULL` only. -/
def bmapNew {σ : Type} (P : Pages σ) (fuel bitcnt : ℕ) : Prog (Sys σ) ℕ := do
  let bmap ← heapAlloc P fuel sizeofBitmap
  if bmap = 0 then pure 0
  else
    let storage ← heapAlloc P fuel (bitcnt / 8)
    if storage = 0 then pure 0
    else
      .modify fun s => { s with mem := bmapInitAt bmap storage bitcnt s.mem }
      pure bmap

theorem bmapSave_other {bmap x : ℕ} (b : Bitmap MemWords)
    (hx : x < bmap ∨ bmap + sizeofBitmap ≤ x) : bmapSave bmap b x = b.storage.mem x := by
  rw [sizeofBitmap] at hx
  rw [bmapSave, write64_of_not_mem (by omega), write64_of_not_mem (by omega),
    write64_of_not_mem (by omega), write64_of_not_mem (by omega)]

theorem bmapLoad_bmapSave (bmap : ℕ) {b : Bitmap MemWords} (hbase : b.storage.base < 2 ^ 64)
    (hbits : b.bits < 2 ^ 64) :
    (bmapLoad (bmapSave bmap b) bmap).storage.base = b.storage.base ∧
      (bmapLoad (bmapSave bmap b) bmap).bits = b.bits := by
  constructor
  · show read64 (bmapSave bmap b) bmap = _
    rw [bmapSave, read64_of_disjoint (by omega), read64_of_disjoint (by omega),
      read64_of_disjoint (by omega), read64_write64 hbase]
  · show read64 (bmapSave bmap b) (bmap + 8) = _
    rw [bmapSave, read64_of_disjoint (by omega), read64_of_disjoint (by omega),
      read64_write64 hbits]

/-- `bmap_init` writes the fields of the bitmap and words of accepted bits. -/
theorem bmapInitAt_spec (bmap : ℕ) {p bitcnt : ℕ} (m : Mem) (hp : p + 8 * (bitcnt / 64) < 2 ^ 64)
    (hlt : bitcnt < 2 ^ 64) :
    (bmapLoad (bmapInitAt bmap p bitcnt m) bmap).storage.base = p ∧
      (bmapLoad (bmapInitAt bmap p bitcnt m) bmap).bits = bitcnt ∧
      ∀ a, (a < bmap ∨ bmap + sizeofBitmap ≤ a) → (a < p ∨ p + 8 * (bitcnt / 64) + 8 ≤ a) →
        bmapInitAt bmap p bitcnt m a = m a := by
  have hconf := confined_bmapClear { bmapLoad (writeLE m (bmap + 24) 1 0) bmap with
      storage := ⟨writeLE m (bmap + 24) 1 0, p⟩, hint := 0, bits := bitcnt } false
  obtain ⟨hbase, hbits⟩ := bmapLoad_bmapSave bmap
    (hconf.base.trans_lt (show p < 2 ^ 64 by omega)) (hconf.bits.trans_lt hlt)
  refine ⟨hbase.trans hconf.base, hbits.trans hconf.bits, fun a ha hap => ?_⟩
  rw [bmapInitAt, bmapSave_other _ ha]
  refine (hconf.mem_eq hp hap).trans ?_
  rw [sizeofBitmap] at ha
  exact writeLE_of_not_mem (by omega)

/-! ### On the kernel heap -/

section Kernel

variable {σ : Type} {P : Pages σ} {c : KernelClient σ} {s s' : Sys σ} {bs : List Blk}
  {O l : List (ℕ × ℕ)} {lost : List ℕ} {e fuel bitcnt bmap p n r : ℕ}

/-- A call of `bmap_new` that returns a bitmap has allocated two blocks, and has initialised the
bitmap in them. -/
theorem bmapNew_blocks (h : KernelInv P e c bs l lost) (hlt : bitcnt < 2 ^ 64)
    (hroom : ∀ q s1, heapAlloc P fuel sizeofBitmap c.sys = .ok (q, s1) →
      HasRoom s1 (bitcnt / 8))
    (hcall : bmapNew P fuel bitcnt c.sys = .ok (bmap, s')) (hne : bmap ≠ 0) :
    ∃ p s2 bs2 l2, KernelInv P e
        ⟨s2, (p, bitcnt / 8) :: (bmap, sizeofBitmap) :: c.owned, c.registered⟩ bs2 l2 lost ∧
      capacity s2 p = alignUp (bitcnt / 8) blockT ∧
      s' = { s2 with mem := bmapInitAt bmap p bitcnt s2.mem } := by
  obtain ⟨q, s1, hfirst, hrest⟩ := bind_eq_ok.1 hcall
  split_ifs at hrest with hq
  · cases hrest
    exact absurd rfl hne
  obtain ⟨p, s2, hsecond, hrest⟩ := bind_eq_ok.1 hrest
  split_ifs at hrest with hp
  · cases hrest
    exact absurd rfl hne
  cases hrest
  obtain ⟨bs1, new1, hgrew1⟩ := h.alloc (by decide) (h.hasRoom (by decide)) hfirst
  rw [if_neg hq] at hgrew1
  have h1 := h.grew hgrew1
  have hb : NoWrap (bitcnt / 8) := (noWrap_of_le (by rw [pageSize4K]; omega)).1
  obtain ⟨bs2, new2, hgrew2, hlive, -⟩ := heapAlloc_kernel_block h1.reg h1.global h1.below hb
    (hroom _ _ hfirst bs1 h1.reg.owns.wf.tiles) _ _ hsecond
  rw [if_neg hp] at hgrew2
  have h2 := h1.grew hgrew2
  exact ⟨p, s2, bs2, _, h2,
    h2.reg.owns.wf.tiled.capacity_untouched (Untouched.refl _ _) (hlive hp), rfl⟩

section

variable (h : KernelInv P e ⟨s, (p, n) :: (bmap, sizeofBitmap) :: O, r⟩ bs l lost)
include h

/-- Where the blocks of a bitmap and of its storage lie. -/
theorem bitmap_apart :
    8 ≤ p ∧ p + capacity s p + 8 ≤ 2 ^ 64 ∧ sizeofBitmap ≤ capacity s bmap ∧
      (p + capacity s p + 16 ≤ bmap ∨ bmap + sizeofBitmap + 16 ≤ p) := by
  obtain ⟨hp, -⟩ := h.live (m := p) (n := n) (by simp)
  obtain ⟨hbmap, hle⟩ := h.live (m := bmap) (n := sizeofBitmap) (by simp)
  have hnd := h.reg.owns.nodup
  simp only [cons_append, map_cons, nodup_cons, mem_cons, not_or] at hnd
  have hapart := live_apart hp hbmap hnd.1.1
  have hbounds := live_bounds hp
  have ht := h.reg.owns.wf.tiled
  have hmark := ht.mark_eq
  have hle' := ht.mark_le
  have hend := ht.end_lt
  simp only [Apart] at hapart
  dsimp only at *
  omega

/-- Changes inside of the two blocks. -/
theorem bitmap_write {mem' : Mem}
    (hmem : ∀ a, (a < bmap ∨ bmap + sizeofBitmap ≤ a) → (a < p ∨ p + capacity s p ≤ a) →
      mem' a = s.mem a) :
    KernelInv P e ⟨{ s with mem := mem' }, (p, n) :: (bmap, sizeofBitmap) :: O, r⟩ bs l lost := by
  obtain ⟨-, -, hle, -⟩ := bitmap_apart h
  refine h.write fun a ha => hmem a ?_ (ha p n (by simp))
  have hbmap := ha bmap sizeofBitmap (by simp)
  dsimp only at hbmap
  omega

end

/-- The storage of a bitmap covers the words of all accepted bits. -/
theorem words_fit_iff {z : ℕ} (h8 : 8 ∣ z) (hge : bitcnt / 8 ≤ z) (hlt : z < bitcnt / 8 + 8) :
    8 * (bitcnt / 64) + 8 ≤ z ↔ 8 ≤ bitcnt % 64 := by
  omega

/-- **The storage of a bitmap is large enough** exactly if the last word has at least 8 bits.  Then
all calls leave the rest of the kernel heap alone. -/
theorem bmap_storage_iff {s₀ s₁ : Sys σ} {fuel₀ : ℕ} (hglob : s₀.globMap = 0)
    (hP : P.Below (2 ^ 64 - 1)) (hinit : kheapInit P fuel₀ s₀ = .ok ((), s₁))
    (hrun : Relation.ReflTransGen (KernelStep P) ⟨s₁, [], 0⟩ c) (hlt : bitcnt < 2 ^ 64)
    (hroom : ∀ q s₁, heapAlloc P fuel sizeofBitmap c.sys = .ok (q, s₁) →
      HasRoom s₁ (bitcnt / 8))
    (hcall : bmapNew P fuel bitcnt c.sys = .ok (bmap, s')) (hne : bmap ≠ 0) :
    let b := bmapLoad s'.mem bmap
    ((∀ bit ≤ b.bits, b.storage.base ≤ wordAddr b.storage.base bit ∧
        wordAddr b.storage.base bit + 8 ≤ b.storage.base + capacity s' b.storage.base) ↔
      8 ≤ bitcnt % 64) ∧
    (8 ≤ bitcnt % 64 → ∀ ops, KernelSafe
      ⟨{ s' with mem := bmapSave bmap (runOps ops b) },
        (b.storage.base, bitcnt / 8) :: (bmap, sizeofBitmap) :: c.owned, c.registered⟩) := by
  intro b
  obtain ⟨bs, l, lost, h⟩ := KernelInv.run hglob hP hinit hrun
  obtain ⟨p, s₂, bs₂, l₂, h₂, hcap, rfl⟩ := bmapNew_blocks h hlt hroom hcall hne
  obtain ⟨hpos, hend, hle, hapart⟩ := bitmap_apart h₂
  have hb : NoWrap (bitcnt / 8) := (noWrap_of_le (by rw [pageSize4K]; omega)).1
  obtain ⟨h8, hge, hround⟩ := hb.alignUp
  have hfit := words_fit_iff h8 hge hround
  obtain ⟨hbase, hbits, hother⟩ := bmapInitAt_spec bmap s₂.mem
    (show p + 8 * (bitcnt / 64) < 2 ^ 64 by omega) hlt
  -- the header of the storage is not written
  have hcap' : capacity { s₂ with mem := bmapInitAt bmap p bitcnt s₂.mem } p =
      alignUp (bitcnt / 8) blockT := by
    rw [← hcap, capacity, capacity, blM2H, blockT, sub64_of_le hpos (by omega)]
    rw [read64_congr fun a h1 h2 => hother a (by omega) (by omega)]
  rw [hbase, hbits, hcap', ← hfit]
  refine ⟨⟨fun hall => ?_, fun hin bit hbit => ?_⟩, fun hin ops => ?_⟩
  · have hlast := (hall bitcnt le_rfl).2
    rw [wordAddr_eq (by omega)] at hlast
    omega
  · have hword : bit / 64 ≤ bitcnt / 64 := Nat.div_le_div_right hbit
    rw [wordAddr_eq (by omega)]
    omega
  · have h₃ := bitmap_write h₂ fun a ha hap => hother a ha (by omega)
    refine (bitmap_write h₃ fun a ha hap => ?_).safe
    have hconf := confined_runOps ops b
    rw [bmapSave_other _ ha]
    refine hconf.mem_eq ?_ ?_
    · rw [hbase, hbits]
      omega
    · rw [hbase, hbits]
      omega

/-- A storage of at most one page always has room. -/
theorem bmapNew_room (h : KernelInv P e c bs l lost)
    (hb : growPages (alignUp (bitcnt / 8) blockT) ≤ 1) {q : ℕ} {s1 : Sys σ}
    (hcall : heapAlloc P fuel sizeofBitmap c.sys = .ok (q, s1)) : HasRoom s1 (bitcnt / 8) := by
  obtain ⟨bs1, new1, hgrew⟩ := h.alloc (by decide) (h.hasRoom (by decide)) hcall
  exact (h.grew hgrew).hasRoom hb

end Kernel

theorem bmap_storage_iff_half_word :
    let s := exec (bmapNew kernelPages 16 32) kernelReady
    let b := bmapLoad s.mem (kheapStart + 120)
    (∀ bit ≤ b.bits, b.storage.base ≤ wordAddr b.storage.base bit ∧
        wordAddr b.storage.base bit + 8 ≤ b.storage.base + capacity s b.storage.base) ∧
    ∀ ops, KernelSafe ⟨{ s with mem := bmapSave (kheapStart + 120) (runOps ops b) },
      [(b.storage.base, 4), (kheapStart + 120, sizeofBitmap)], 0⟩ := by
  have hcall : bmapNew kernelPages 16 32 kernelReady =
      .ok (kheapStart + 120, exec (bmapNew kernelPages 16 32) kernelReady) :=
    eq_ok_of_value (by decide +kernel)
  obtain ⟨-, bs, a, hinv⟩ :=
    KernelInv.init rfl kernelPages_below (by decide) kheapInit_kernelBoot
  have h := bmap_storage_iff rfl kernelPages_below
    kheapInit_kernelBoot .refl (by decide) (fun _ _ => bmapNew_room hinv (by decide)) hcall
    (by decide)
  exact ⟨h.1.2 (by decide), h.2 (by decide)⟩

/-- A bitmap of 67 bits: the second word is the footer of the storage, and already `bmap_init`
clears its flag. -/
theorem bmap_new_breaks_footer : kheapInit kernelPages 16 kernelBoot = .ok ((), kernelReady) ∧
    ∃ s, bmapNew kernelPages 16 67 kernelReady = .ok (kheapStart + 120, s) ∧
      (bmapLoad s.mem (kheapStart + 120)).storage.base = kheapStart + 176 ∧
      capacity s (kheapStart + 176) = 8 ∧
      wordAddr (kheapStart + 176) 67 = kheapStart + 176 + 8 ∧
      heapValidate s.heap s.mem (kheapStart + 176) = false := by
  obtain ⟨hvalue, hrest⟩ :
      (bmapNew kernelPages 16 67).value kernelReady = some (kheapStart + 120) ∧
      let s := exec (bmapNew kernelPages 16 67) kernelReady
      (bmapLoad s.mem (kheapStart + 120)).storage.base = kheapStart + 176 ∧
      capacity s (kheapStart + 176) = 8 ∧
      wordAddr (kheapStart + 176) 67 = kheapStart + 176 + 8 ∧
      heapValidate s.heap s.mem (kheapStart + 176) = false := by
    decide +kernel
  exact ⟨kheapInit_kernelBoot, _, eq_ok_of_value hvalue, hrest⟩

end Tachyon.Pmem
