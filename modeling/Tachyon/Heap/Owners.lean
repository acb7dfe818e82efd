import Tachyon.Heap.Free

/-!
# Owners of heap blocks

The callers of the heap own blocks: addresses with the number of bytes they asked for.  `Owns` says
that the blocks in use are exactly the owned ones (and those at `lost`, which were released and
which `heap_free` refused).  It is kept by what an allocation, a release, a change of size in place
and a write by an owner do to the tiling.

`Keeps` is the frame condition: the bytes of the owned blocks are the same.
-/

namespace Tachyon.Heap

open Prog List

variable {σ : Type} {P : Pages σ} {s s' : Sys σ} {bs bs' pre post : List Blk} {e bytes : ℕ}
  {O : List (ℕ × ℕ)} {lost : List ℕ}

/-- The blocks in use are those of `O`, each at least as large as requested, and those at `lost`. -/
structure Owns (e : ℕ) (s : Sys σ) (bs : List Blk) (O : List (ℕ × ℕ)) (lost : List ℕ) : Prop where
  wf : WellFormed e s bs
  perm : (O.map Prod.fst ++ lost).Perm ((live s.heap.start bs).map Prod.fst)
  size : ∀ m n, (m, n) ∈ O → ∃ z, (m, z) ∈ live s.heap.start bs ∧ n ≤ z

/-- The headers and the bytes of the owned blocks are the same in `m'` as in `m`. -/
def Keeps (m m' : Mem) (O : List (ℕ × ℕ)) : Prop :=
  ∀ p n, (p, n) ∈ O → ∀ x, p ≤ x + 8 → x < p + n → m' x = m x

theorem Keeps.refl (m : Mem) (O : List (ℕ × ℕ)) : Keeps m m O := fun _ _ _ _ _ _ => rfl

theorem Keeps.trans {m1 m2 m3 : Mem} (h : Keeps m1 m2 O) (h' : Keeps m2 m3 O) : Keeps m1 m3 O :=
  fun p n hp x h1 h2 => (h' p n hp x h1 h2).trans (h p n hp x h1 h2)

variable {m' mem' : Mem} {O' : List (ℕ × ℕ)} {m z a n n' p : ℕ}

theorem Keeps.mono {m : Mem} (h : Keeps m m' O) (hsub : O' ⊆ O) :
    Keeps m m' O' :=
  fun p n hp => h p n (hsub hp)

/-- The bytes of two blocks are disjoint, with a footer and a header between them. -/
def Apart (p q : ℕ × ℕ) : Prop := p.1 + p.2 + 16 ≤ q.1 ∨ q.1 + q.2 + 16 ≤ p.1

/-- Rounding the request up and adding a header and a footer does not wrap around. -/
def NoWrap (bytes : ℕ) : Prop := bytes + 7 < 2 ^ 64 ∧ alignUp bytes blockT + 16 < 2 ^ 64

instance (bytes : ℕ) : Decidable (NoWrap bytes) :=
  inferInstanceAs (Decidable (bytes + 7 < 2 ^ 64 ∧ alignUp bytes blockT + 16 < 2 ^ 64))

theorem NoWrap.alignUp (h : NoWrap bytes) :
    8 ∣ alignUp bytes blockT ∧ bytes ≤ alignUp bytes blockT ∧ alignUp bytes blockT < bytes + 8 := by
  have h1 := h.1
  rw [show blockT = 2 ^ 3 from rfl, alignUp_two_pow, add64_of_lt (by omega)]
  omega

theorem noWrap_of_le (hb : bytes + pageSize4K ≤ 2 ^ 64) :
    NoWrap bytes ∧ alignUp bytes blockT + pageSize4K ≤ 2 ^ 64 := by
  have hps : pageSize4K = 4096 := rfl
  have haligned : alignUp bytes blockT + pageSize4K ≤ 2 ^ 64 := by
    rw [show blockT = 2 ^ 3 from rfl, alignUp_two_pow, add64_of_lt (by omega)]
    omega
  exact ⟨⟨by omega, by omega⟩, haligned⟩

/-- The size of the block that holds the data at `m`, from its header. -/
def capacity (s : Sys σ) (m : ℕ) : ℕ := blB2DataSz (read64 s.mem (blM2H m))

/-! ### The memory of a well-formed heap -/

theorem Tiled.congr (h : Tiled e s bs) (hheap : s'.heap = s.heap) (hmem : s'.mem = s.mem) :
    Tiled e s' bs := by
  obtain ⟨heap', mem', globMap', pages'⟩ := s'
  subst hheap hmem
  exact ⟨h.1, h.2, h.3, h.4, h.5, h.6, h.7⟩

theorem WellFormed.congr (h : WellFormed e s bs) (hheap : s'.heap = s.heap)
    (hmem : s'.mem = s.mem) : WellFormed e s' bs :=
  ⟨h.tiled.congr hheap hmem, h.coalesced, h.lastFree⟩

/-- The capacity of a block of the tiling. -/
theorem Tiled.capacity_eq {b : Blk} (h : Tiled e s (pre ++ b :: post)) :
    capacity s (s.heap.start + span pre + 8) = b.size := by
  rw [capacity, h.m2h, h.tiles.blkAt.dataSz]

/-- The capacity of a block in use, also after a change that leaves the blocks in use alone. -/
theorem Tiled.capacity_untouched (h : Tiled e s bs)
    (hu : Untouched s.mem s'.mem (live s.heap.start bs)) (hm : (m, z) ∈ live s.heap.start bs) :
    capacity s' m = z := by
  obtain ⟨pre, post, rfl, rfl⟩ := mem_live_iff.1 hm
  refine Eq.trans ?_ h.capacity_eq
  rw [capacity, capacity, h.m2h, read64_congr fun a h1 h2 => hu _ z hm a (by omega) (by omega)]

/-- A walk over the headers only reads outside the data of the blocks in use. -/
theorem Tiles.write {m : Mem} {b : ℕ} (h : Tiles m a bs b)
    (hm : ∀ x, a ≤ x → (∀ p z, (p, z) ∈ live a bs → x < p ∨ p + z ≤ x) → m' x = m x) :
    Tiles m' a bs b := by
  induction bs generalizing a with
  | nil => exact h
  | cons c bs ih =>
    obtain ⟨hblk, hrest⟩ := h
    have hbehind : ∀ x, x < a + c.span →
        ∀ p z, (p, z) ∈ live (a + c.span) bs → x < p ∨ p + z ≤ x := by
      intro x hx p z hp
      have := live_bounds hp
      omega
    obtain ⟨z, u⟩ := c
    cases u with
    | false =>
      exact ⟨hblk.congr fun x h1 h2 => hm x h1 (hbehind x h2),
        ih hrest fun x hx => hm x (by simp only [Blk.span] at hx; omega)⟩
    | true =>
      -- outside its data, the bytes of the first block are the same
      have hout : ∀ x, a ≤ x → x < a + 8 ∨ a + 8 + z ≤ x →
          (∀ p w, (p, w) ∈ live (a + (z + 16)) bs → x < p ∨ p + w ≤ x) → m' x = m x := by
        intro x hx hdata hrest
        refine hm x hx fun p w hp => ?_
        rcases mem_cons.1 hp with heq | hp
        · cases heq
          exact hdata
        · exact hrest p w hp
      refine ⟨⟨?_, ?_, hblk.aligned⟩, ih hrest fun x hx hlive => ?_⟩
      · rw [read64_congr fun x h1 h2 => hout x h1 (by omega)
          (hbehind x (by simp only [Blk.span]; omega)), hblk.header]
      · have hfoot := hblk.footer
        simp only at hfoot ⊢
        rw [read64_congr fun x h1 h2 => hout x (by omega) (by omega)
          (hbehind x (by simp only [Blk.span]; omega)), hfoot]
      · simp only [Blk.span] at hx
        exact hout x (by omega) (by omega) hlive

section

variable (hm : ∀ x, (∀ p z, (p, z) ∈ live s.heap.start bs → x < p ∨ p + z ≤ x) → mem' x = s.mem x)
include hm

/-- A change of memory inside the blocks in use leaves the tiling alone. -/
theorem Tiled.write (h : Tiled e s bs) :
    Tiled e { s with mem := mem' } bs :=
  ⟨h.tiles.write fun x _ => hm x, h.2, h.3, h.4, h.5, h.6, h.7⟩

theorem WellFormed.write (h : WellFormed e s bs) :
    WellFormed e { s with mem := mem' } bs :=
  ⟨h.tiled.write hm, h.coalesced, h.lastFree⟩

end

theorem Keeps.capacity (h : Keeps s.mem s'.mem O)
    (hm : (m, n) ∈ O) (hge : pageSize4K < m ∧ m + n < 2 ^ 64) : capacity s' m = capacity s m := by
  rw [pageSize4K] at hge
  have hm2h : blM2H m = m - 8 := by rw [blM2H, blockT, sub64_of_le (by omega) (by omega)]
  rw [Heap.capacity, Heap.capacity, hm2h,
    read64_congr fun x h1 h2 => h m n hm x (by omega) (by omega)]

/-! ### Ownership -/

/-- An owned block is a block of the tiling. -/
theorem Owns.block (h : Owns e s bs O lost) (hm : (m, n) ∈ O) :
    ∃ pre z post, bs = pre ++ ⟨z, true⟩ :: post ∧ m = s.heap.start + span pre + 8 ∧ n ≤ z := by
  obtain ⟨z, hz, hn⟩ := h.size m n hm
  obtain ⟨pre, post, rfl, rfl⟩ := mem_live_iff.1 hz
  exact ⟨pre, z, post, rfl, rfl, hn⟩

theorem Owns.nodup (h : Owns e s bs O lost) : (O.map Prod.fst).Nodup :=
  (h.perm.nodup_iff.2 (live_addr_nodup _ _)).of_append_left

/-- A block that is left after another one was taken out has another address. -/
theorem addr_ne_of_mem_erase (hnd : (O.map Prod.fst).Nodup) {m' : ℕ} (hm : (m, n) ∈ O)
    (hm' : (m', n') ∈ O.erase (m, n)) : m' ≠ m := by
  rintro rfl
  rw [((perm_cons_erase hm).map Prod.fst).nodup_iff, map_cons, nodup_cons] at hnd
  exact hnd.1 (mem_map.2 ⟨_, hm', rfl⟩)

theorem Owns.ne_of_mem_erase (h : Owns e s bs O lost) {m' : ℕ} (hm : (m, n) ∈ O)
    (hm' : (m', n') ∈ O.erase (m, n)) : m' ≠ m :=
  addr_ne_of_mem_erase h.nodup hm hm'

/-- Two blocks in use are the same or apart. -/
theorem live_apart {q w : ℕ} (hp : (p, z) ∈ live a bs) (hq : (q, w) ∈ live a bs)
    (hne : p ≠ q) : Apart (p, z) (q, w) := by
  have hdis : (live a bs).Pairwise fun x y => x.1 ≠ y.1 → Apart x y :=
    (live_sorted a bs).imp fun hqr _ => Or.inl (by omega)
  have hflip : (live a bs).Pairwise fun x y => y.1 ≠ x.1 → Apart y x :=
    (live_sorted a bs).imp fun hqr _ => Or.inr (by omega)
  exact hdis.forall_of_forall_of_flip (fun x _ hx => absurd rfl hx) hflip hp hq hne

section

variable (h : Owns e s bs O lost)
include h

/-- Two owned blocks are apart. -/
theorem Owns.apart {m' : ℕ} (hm : (m, n) ∈ O) (hm' : (m', n') ∈ O) (hne : m ≠ m') :
    Apart (m, n) (m', n') := by
  obtain ⟨z, hz, hn⟩ := h.size m n hm
  obtain ⟨z', hz', hn'⟩ := h.size m' n' hm'
  have := live_apart hz hz' hne
  unfold Apart at this ⊢
  omega

/-- What leaves the blocks in use alone keeps the bytes of the owned ones. -/
theorem Owns.keeps (hm : Untouched s.mem m' (live s.heap.start bs)) : Keeps s.mem m' O := by
  intro p n hp x h1 h2
  obtain ⟨z, hz, hn⟩ := h.size p n hp
  exact hm p z hz x (by omega) (by omega)

theorem Owns.of_perm (hO : O.Perm O') : Owns e s bs O' lost :=
  ⟨h.wf, ((hO.map Prod.fst).symm.append_right lost).trans h.perm,
    fun m n hmn => h.size m n (hO.mem_iff.2 hmn)⟩

theorem Owns.congr (hheap : s'.heap = s.heap) (hmem : s'.mem = s.mem) : Owns e s' bs O lost :=
  ⟨h.wf.congr hheap hmem, by rw [hheap]; exact h.perm, by rw [hheap]; exact h.size⟩

/-- The blocks in use stay the same. -/
theorem Owns.same (hsame : SameHeap s s') (hwf : WellFormed e s' bs')
    (hl : live s.heap.start bs' = live s.heap.start bs) : Owns e s' bs' O lost := by
  refine ⟨hwf, ?_, ?_⟩
  · rw [hsame.start, hl]
    exact h.perm
  · rw [hsame.start, hl]
    exact h.size

/-- One more block is in use. -/
theorem Owns.add (hsame : SameHeap s s') (hwf : WellFormed e s' bs')
    (hl : (live s.heap.start bs').Perm ((p, z) :: live s.heap.start bs)) (hn : n ≤ z) :
    Owns e s' bs' ((p, n) :: O) lost := by
  refine ⟨hwf, ?_, ?_⟩
  · rw [hsame.start, map_cons, cons_append]
    exact (h.perm.cons p).trans (hl.map Prod.fst).symm
  intro m k hmk
  rw [hsame.start]
  rcases mem_cons.1 hmk with heq | hmk
  · cases heq
    exact ⟨z, hl.mem_iff.2 (by simp), hn⟩
  · obtain ⟨w, hw, hle⟩ := h.size m k hmk
    exact ⟨w, hl.mem_iff.2 (mem_cons_of_mem _ hw), hle⟩

/-- An owner that gives its block away. -/
theorem Owns.forget (hm : (m, n) ∈ O) : Owns e s bs (O.erase (m, n)) (m :: lost) := by
  refine ⟨h.wf, ?_, fun m' n' hmem => h.size m' n' (mem_of_mem_erase hmem)⟩
  refine List.Perm.trans ?_ h.perm
  refine perm_middle.trans ?_
  exact ((perm_cons_erase hm).map Prod.fst).symm.append_right lost

end

/-- A block that got another size in place. -/
theorem Owns.resize {post' : List Blk} {x x' : ℕ} (h : Owns e s (pre ++ ⟨x, true⟩ :: post) O lost)
    (hm : (s.heap.start + span pre + 8, n) ∈ O) (hsame : SameHeap s s')
    (hwf : WellFormed e s' (pre ++ ⟨x', true⟩ :: post'))
    (hlive : live (s.heap.start + span pre + (x' + 16)) post' =
      live (s.heap.start + span pre + (x + 16)) post) (hle : bytes ≤ x') :
    Owns e s' (pre ++ ⟨x', true⟩ :: post')
      ((s.heap.start + span pre + 8, bytes) :: O.erase (s.heap.start + span pre + 8, n)) lost := by
  have hforget := h.forget hm
  refine ⟨hwf, ?_, ?_⟩
  · have hperm := hforget.perm
    simp only [hsame.start, live_append, live_cons_used, hlive, map_append, map_cons,
      cons_append] at hperm ⊢
    exact perm_middle.symm.trans hperm
  · intro m' n' hmem
    rw [hsame.start]
    rcases mem_cons.1 hmem with heq | hmem
    · cases heq
      exact ⟨x', by simp, hle⟩
    obtain ⟨z, hz, hn⟩ := hforget.size m' n' hmem
    refine ⟨z, ?_, hn⟩
    have hne := h.ne_of_mem_erase hm hmem
    simp only [live_append, live_cons_used, hlive, mem_append, mem_cons, Prod.mk.injEq] at hz ⊢
    tauto

/-- A write inside the owned blocks. -/
theorem Owns.write (h : Owns e s bs O lost)
    (hm : ∀ x, (∀ m n, (m, n) ∈ O → x < m ∨ m + n ≤ x) → mem' x = s.mem x) :
    Owns e { s with mem := mem' } bs O lost := by
  refine ⟨h.wf.write fun x hx => hm x fun m n hmn => ?_, h.perm, h.size⟩
  obtain ⟨z, hz, hn⟩ := h.size m n hmn
  have := hx m z hz
  omega

/-! ### Release -/

theorem Owns.release (h : Owns e s (pre ++ ⟨z, true⟩ :: post) O lost)
    (hm : (s.heap.start + span pre + 8, n) ∈ O) :
    Owns e (freed s pre z post) (released pre z post)
      (O.erase (s.heap.start + span pre + 8, n)) lost := by
  refine ⟨h.wf.free.1, ?_, ?_⟩
  · have h1 := (((perm_cons_erase hm).map Prod.fst).symm.append_right lost).trans h.perm
    have h2 : ((live s.heap.start (pre ++ ⟨z, true⟩ :: post)).map Prod.fst).Perm
        ((s.heap.start + span pre + 8) ::
          (live s.heap.start (released pre z post)).map Prod.fst) := by
      rw [released_live]
      simp only [live_append, live_cons_used, map_append, map_cons]
      exact perm_middle
    exact (h1.trans h2).cons_inv
  · intro m' n' hmem
    obtain ⟨z', hz', hle⟩ := h.size m' n' (mem_of_mem_erase hmem)
    refine ⟨z', ?_, hle⟩
    have hne := h.ne_of_mem_erase hm hmem
    rw [released_live]
    simp only [live_append, live_cons_used, mem_append, mem_cons, Prod.mk.injEq] at hz' ⊢
    tauto

/-- **`heap_free` of an owned block** keeps the others; below the end of the heap no block is
lost. -/
theorem Owns.free (h : Owns e s bs O lost) (hm : (m, n) ∈ O) :
    wlp (heapFree P m) (fun _ s' => SameHeap s s' ∧ s'.globMap = s.globMap ∧
      s'.heap.state.vmemMark = s.heap.state.vmemMark ∧ Keeps s.mem s'.mem (O.erase (m, n)) ∧
      ∃ bs' lost', Owns e s' bs' (O.erase (m, n)) lost' ∧
        (e ≤ s.heap.endAddr → lost' = lost)) s := by
  obtain ⟨pre, z, post, rfl, rfl, -⟩ := h.block hm
  refine wlp_mono (heapFree_spec h.wf.tiled) ?_
  rintro _ s' rfl
  by_cases hval : heapValidate s.heap s.mem (s.heap.start + span pre + 8) = true
  · rw [if_pos hval]
    have hrel := h.release hm
    refine ⟨⟨rfl, rfl, rfl, rfl⟩, rfl, rfl, ?_, _, _, hrel, fun _ => rfl⟩
    intro p k hp x h1 h2
    obtain ⟨w, hw, hk⟩ := hrel.size p k hp
    exact h.wf.free.2 p w hw x (by omega) (by omega)
  · rw [if_neg hval]
    exact ⟨SameHeap.refl _, rfl, rfl, Keeps.refl _ _, _, _, h.forget hm,
      fun he => absurd (heapValidate_block h.wf.tiled (h.wf.tiled.block_lt.1.trans he)) hval⟩

end Tachyon.Heap
