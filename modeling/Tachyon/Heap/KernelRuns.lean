import Tachyon.Heap.Kernel

/-!
# Runs of the kernel heap

`KernelClient` adds to the kernel heap the blocks its callers own and the number of mappings that
were registered by others.  `KernelStep` is one call or one write by an owner, and `KernelSafe` the
state of affairs: the heap is tiled, `vmem_glob_map` is a list in memory with one node and one
record for every registered page, and the blocks of the callers, the nodes and the records are
disjoint blocks in use.

* `kernel_heap_run`: `KernelSafe` holds along every run from `kheap_init` whose allocations have
  `Room` for the mappings of their growth.
* `kernel_growth_reuses_record`: right after `kheap_init`, a request for two pages gives the second
  page the record and the node of the first.
-/

namespace Tachyon.Heap

open Prog List

variable {σ : Type} {P : Pages σ} {s s' : Sys σ} {bs bs' : List Blk}
  {e bytes flags fuel m n phys virt : ℕ} {O l O' : List (ℕ × ℕ)} {lost : List ℕ}

/-- The kernel heap with the blocks its callers own and the number of mappings they registered. -/
structure KernelClient (σ : Type) where
  sys : Sys σ
  owned : List (ℕ × ℕ)
  registered : ℕ

/-- The heap has room for the mappings that a request for `bytes` registers. -/
def HasRoom (s : Sys σ) (bytes : ℕ) : Prop :=
  ∀ bs, Tiles s.mem s.heap.start bs s.heap.state.vmemMark → Room (alignUp bytes blockT) bs

/-- One event of a run of the kernel heap. -/
inductive KernelStep (P : Pages σ) : KernelClient σ → KernelClient σ → Prop
  | alloc {c : KernelClient σ} {fuel bytes p : ℕ} {s' : Sys σ} (wrap : NoWrap bytes)
      (room : HasRoom c.sys bytes) (call : heapAlloc P fuel bytes c.sys = .ok (p, s')) :
      KernelStep P c ⟨s', if p = 0 then c.owned else (p, bytes) :: c.owned, c.registered⟩
  | free {c : KernelClient σ} {m n : ℕ} {s' : Sys σ} (own : (m, n) ∈ c.owned)
      (call : heapFree P m c.sys = .ok ((), s')) :
      KernelStep P c ⟨s', c.owned.erase (m, n), c.registered⟩
  | realloc {c : KernelClient σ} {m n fuel bytes p : ℕ} {s' : Sys σ} (own : (m, n) ∈ c.owned)
      (pos : 0 < n) (size : SizeOk bytes) (keep : takesLast c.sys m bytes = false)
      (room : HasRoom c.sys bytes) (call : heapRealloc P fuel m bytes c.sys = .ok (p, s')) :
      KernelStep P c
        ⟨s', if p = 0 then c.owned else (p, bytes) :: c.owned.erase (m, n), c.registered⟩
  | register {c : KernelClient σ} {fuel phys virt flags : ℕ} {s' : Sys σ}
      (call : vmemMgmtAddGlobalMapping (heapAlloc P fuel) phys virt flags c.sys = .ok ((), s')) :
      KernelStep P c ⟨s', c.owned, c.registered + 1⟩
  | write {c : KernelClient σ} {m n : ℕ} {mem' : Mem} (own : (m, n) ∈ c.owned)
      (inside : ∀ x, x < m ∨ m + n ≤ x → mem' x = c.sys.mem x) :
      KernelStep P c ⟨{ c.sys with mem := mem' }, c.owned, c.registered⟩
  | other {c : KernelClient σ} (g : σ) :
      KernelStep P c ⟨{ c.sys with pages := g }, c.owned, c.registered⟩

/-- The heap is tiled, and the blocks of the callers, the list of mappings, its nodes and its
records, one for each page of the heap and each mapping of others, are disjoint blocks in use. -/
def KernelSafe (c : KernelClient σ) : Prop :=
  ∃ bs l, Tiles c.sys.mem c.sys.heap.start bs c.sys.heap.state.vmemMark ∧
    (∀ b ∈ bs, 8 ∣ b.size) ∧ ListAt c.sys.mem c.sys.globMap l ∧
    c.sys.heap.start + pageSize4K * l.length =
      c.sys.heap.state.vmemMark + pageSize4K * c.registered ∧
    (c.owned ++ registryBlocks c.sys.globMap l).Pairwise Apart ∧
    ∀ m n, (m, n) ∈ c.owned ++ registryBlocks c.sys.globMap l →
      ∃ z, (m, z) ∈ live c.sys.heap.start bs ∧ n ≤ z

/-- The invariant of the kernel heap. -/
structure KernelInv (P : Pages σ) (e : ℕ) (c : KernelClient σ) (bs : List Blk)
    (l : List (ℕ × ℕ)) (lost : List ℕ) : Prop where
  reg : Registry e c.sys bs c.owned l lost
  nonempty : l ≠ []
  global : IsGlobal c.sys
  below : P.Below e
  pages : c.sys.heap.start + pageSize4K * l.length =
    c.sys.heap.state.vmemMark + pageSize4K * c.registered

section Runs

variable {c : KernelClient σ}

section

variable (h : KernelInv P e c bs l lost)
include h

theorem KernelInv.safe : KernelSafe c :=
  ⟨bs, l, h.reg.owns.wf.tiles, h.reg.owns.wf.tiles.aligned, h.reg.list, h.pages,
    h.reg.owns.pairwise_apart, h.reg.owns.size⟩

/-- A step that registers `new`, one mapping for each page of growth. -/
theorem KernelInv.grew {new : List (ℕ × ℕ)} (hg : Grew e c.sys s' bs' c.owned O' l lost new) :
    KernelInv P e ⟨s', O', c.registered⟩ bs' (l ++ new) lost := by
  refine ⟨hg.reg, by simp [h.nonempty], hg.same.isGlobal h.global, h.below, ?_⟩
  have hp := h.pages
  simp only [hg.same.start, hg.mark, length_append, Nat.mul_add]
  omega

theorem KernelInv.alloc {p : ℕ} (hb : NoWrap bytes) (hroom : HasRoom c.sys bytes)
    (hcall : heapAlloc P fuel bytes c.sys = .ok (p, s')) :
    ∃ bs' new, Grew e c.sys s' bs' c.owned (if p = 0 then c.owned else (p, bytes) :: c.owned) l
      lost new :=
  heapAlloc_kernel h.reg h.global h.below hb (hroom bs h.reg.owns.wf.tiles) _ _ hcall

/-- A step without growth that keeps the blocks `O`. -/
theorem KernelInv.same {lost' : List ℕ} (hsame : SameHeap c.sys s')
    (hglob : s'.globMap = c.sys.globMap)
    (hmark : s'.heap.state.vmemMark = c.sys.heap.state.vmemMark)
    (hkeep : Keeps c.sys.mem s'.mem (O ++ registryBlocks c.sys.globMap l))
    (howns : Owns e s' bs' (O' ++ registryBlocks c.sys.globMap l) lost') :
    KernelInv P e ⟨s', O', c.registered⟩ bs' l lost' ∧ Keeps c.sys.mem s'.mem O := by
  refine ⟨⟨⟨?_, ?_⟩, h.nonempty, hsame.isGlobal h.global, h.below, ?_⟩,
    hkeep.mono (subset_append_left _ _)⟩
  · rwa [hglob]
  · rw [hglob]
    exact h.reg.list.of_keeps (hkeep.mono (subset_append_right _ _))
  · simp only [hsame.start, hmark]
    exact h.pages

/-- A release of a block of a caller. -/
theorem KernelInv.free (hm : (m, n) ∈ c.owned)
    (hcall : heapFree P m c.sys = .ok ((), s')) : ∃ bs' lost',
    KernelInv P e ⟨s', c.owned.erase (m, n), c.registered⟩ bs' l lost' ∧
      Keeps c.sys.mem s'.mem (c.owned.erase (m, n)) := by
  obtain ⟨hsame, hglob, hmark, hkeep, bs', lost', howns, -⟩ :=
    h.reg.owns.free (mem_append_left _ hm) _ _ hcall
  rw [erase_append_left _ hm] at hkeep howns
  exact ⟨bs', lost', h.same hsame hglob hmark hkeep howns⟩

/-- A mapping registered by others. -/
theorem KernelInv.register
    (hcall : vmemMgmtAddGlobalMapping (heapAlloc P fuel) phys virt flags c.sys = .ok ((), s')) :
    ∃ bs' l', KernelInv P e ⟨s', c.owned, c.registered + 1⟩ bs' l' lost ∧
      Keeps c.sys.mem s'.mem c.owned := by
  -- a record or a node needs no more than a page
  have halloc : ∀ {n s1 bs1 O1 l1}, n = sizeofGlobMapping ∨ n = sizeofListNode →
      Registry e s1 bs1 O1 l1 lost → IsGlobal s1 → wlp (heapAlloc P fuel n) (fun p s2 => p ≠ 0 →
        ∃ bs2 new, True ∧ Grew e s1 s2 bs2 O1 ((p, n) :: O1) l1 lost new) s1 := by
    intro n s1 bs1 O1 l1 hn hreg hg p s2 hp hp0
    obtain ⟨hb, hpages⟩ : NoWrap n ∧ growPages (alignUp n blockT) ≤ 1 := by
      rcases hn with rfl | rfl <;> decide
    obtain ⟨bs2, new, hgrew⟩ := heapAlloc_kernel hreg hg h.below hb
      (room_of_growPages_le hpages hreg.owns.wf.lastFree) _ _ hp
    rw [if_neg hp0] at hgrew
    exact ⟨bs2, new, trivial, hgrew⟩
  have hspec : wlp (vmemMgmtAddGlobalMapping (heapAlloc P fuel) phys virt flags) _ c.sys :=
    addGlobalMapping_spec (fun _ _ => True) h.reg (halloc (.inl rfl) h.reg h.global)
      (fun _ _ _ _ _ hsame hreg => halloc (.inr rfl) hreg (hsame.isGlobal h.global))
      (.inl h.nonempty)
  obtain ⟨-, new1, bs2, new2, a, -, -, hsame, hglob, hmark, hkeep, hreg⟩ := hspec _ _ hcall
  refine ⟨bs2, _, ⟨hreg, by simp, hsame.isGlobal h.global, h.below, ?_⟩, hkeep⟩
  have hp := h.pages
  simp only [hsame.start, hmark, length_append, length_cons, Nat.mul_add] at hp ⊢
  omega

/-- A change of the size of a block of a caller. -/
theorem KernelInv.realloc (hm : (m, n) ∈ c.owned) (hpos : 0 < n)
    (hb : SizeOk bytes) (hkeep : takesLast c.sys m bytes = false) (hroom : HasRoom c.sys bytes) :
    wlp (heapRealloc P fuel m bytes) (fun p s' => (∃ bs' l' lost', KernelInv P e
      ⟨s', if p = 0 then c.owned else (p, bytes) :: c.owned.erase (m, n), c.registered⟩ bs' l'
        lost') ∧ Keeps c.sys.mem s'.mem (c.owned.erase (m, n))) c.sys := by
  have hall : (m, n) ∈ c.owned ++ registryBlocks c.sys.globMap l := mem_append_left _ hm
  have hm0 : m ≠ 0 := by
    have := h.reg.owns.bounds hall
    omega
  refine h.reg.owns.realloc hall hb hkeep ⟨⟨bs, l, lost, by simpa using h⟩, .refl _ _⟩ ?_ ?_
  · intro s' bs' hsame hglob hmark hkeeps howns
    rw [erase_append_left _ hm] at hkeeps howns
    rw [if_neg hm0]
    exact (h.same hsame hglob hmark hkeeps howns).imp_left fun h' => ⟨bs', l, lost, h'⟩
  · intro hlt
    apply wlp_bind
    intro p s1 hcall
    obtain ⟨bs1, new, hgrew⟩ := h.alloc hb.noWrap hroom hcall
    apply wlp_get_bind
    -- the block keeps its header over the allocation
    have hcap : blB2DataSz (read64 s1.mem (blM2H m)) = capacity c.sys m :=
      hgrew.keeps.capacity hm (h.reg.owns.bounds hall)
    have hz : 0 < capacity c.sys m := by
      obtain ⟨z, hz, hn⟩ := h.reg.owns.size m n hall
      rw [h.reg.owns.wf.tiled.capacity_untouched (Untouched.refl _ _) hz]
      omega
    by_cases hp0 : p = 0
    · subst hp0
      exact wlp_move_null (by omega)
    rw [if_neg hp0] at hgrew
    have h1 := h.grew hgrew
    have hm1 : (m, n) ∈ c.owned ++ registryBlocks s1.globMap (l ++ new) :=
      mem_append_left _ hm
    have hmove := h1.reg.owns
    rw [cons_append] at hmove
    refine wlp_mono (hmove.move hm1 hcap hz hlt) ?_
    rintro _ s' ⟨rfl, hsame, hglob, hmark, hkeeps, bs', lost', howns⟩
    rw [erase_append_left _ hm] at hkeeps howns
    rw [← cons_append] at howns
    obtain ⟨h2, hkeep2⟩ := h1.same hsame hglob hmark hkeeps howns
    rw [if_neg hp0]
    exact ⟨⟨bs', l ++ new, lost', h2⟩, (hgrew.keeps.mono erase_subset).trans hkeep2⟩

/-- A caller may use all of its block. -/
theorem KernelInv.live (hm : (m, n) ∈ c.owned) :
    (m, capacity c.sys m) ∈ live c.sys.heap.start bs ∧ n ≤ capacity c.sys m := by
  obtain ⟨z, hz, hn⟩ := h.reg.owns.size m n (mem_append_left _ hm)
  rw [h.reg.owns.wf.tiled.capacity_untouched (Untouched.refl _ _) hz]
  exact ⟨hz, hn⟩

/-- Writes inside the blocks of the callers. -/
theorem KernelInv.write {mem' : Mem}
    (hin : ∀ x, (∀ m n, (m, n) ∈ c.owned → x < m ∨ m + capacity c.sys m ≤ x) →
      mem' x = c.sys.mem x) :
    KernelInv P e ⟨{ c.sys with mem := mem' }, c.owned, c.registered⟩ bs l lost := by
  refine ⟨⟨⟨h.reg.owns.wf.write fun x hx => hin x fun m n hm => hx _ _ (h.live hm).1,
    h.reg.owns.perm, h.reg.owns.size⟩, ?_⟩, h.nonempty, h.global, h.below, h.pages⟩
  -- a block of the list is apart from the blocks of the callers
  refine h.reg.list.of_keeps fun q k hq x h1 h2 => hin x fun m n hm => ?_
  obtain ⟨w, hw, hk⟩ := h.reg.owns.size q k (mem_append_right _ hq)
  have hnd := h.reg.owns.nodup
  rw [map_append] at hnd
  have hne : m ≠ q := fun heq => (nodup_append.1 hnd).2.2 m (mem_map.2 ⟨_, hm, rfl⟩) q
    (mem_map.2 ⟨_, hq, rfl⟩) heq
  have hapart := live_apart (h.live hm).1 hw hne
  simp only [Apart] at hapart
  omega

/-- Every step keeps the invariant. -/
theorem KernelInv.step {c' : KernelClient σ} (hs : KernelStep P c c') :
    ∃ bs' l' lost', KernelInv P e c' bs' l' lost' := by
  cases hs with
  | alloc wrap room call =>
    obtain ⟨bs', new, hgrew⟩ := h.alloc wrap room call
    exact ⟨bs', _, lost, h.grew hgrew⟩
  | free own call =>
    obtain ⟨bs', lost', h', -⟩ := h.free own call
    exact ⟨bs', l, lost', h'⟩
  | realloc own pos size keep room call => exact (h.realloc own pos size keep room _ _ call).1
  | register call =>
    obtain ⟨bs', l', h', -⟩ := h.register call
    exact ⟨bs', l', lost, h'⟩
  | @write m n mem' own inside =>
    have hn := (h.live own).2
    exact ⟨bs, l, lost, h.write fun x hx => inside x (by have := hx m n own; omega)⟩
  | other g =>
    exact ⟨bs, l, lost, ⟨h.reg.owns.congr rfl rfl, h.reg.list⟩, h.nonempty, h.global, h.below,
      h.pages⟩

/-- A request of at most one page always has room. -/
theorem KernelInv.hasRoom (hb : growPages (alignUp bytes blockT) ≤ 1) :
    HasRoom c.sys bytes := by
  intro ts hts
  rw [hts.unique h.reg.owns.wf.tiles]
  exact room_of_growPages_le hb h.reg.owns.wf.lastFree

end

/-! ### Initialisation -/

/-- The list of mappings is created, empty. -/
theorem globMapReady_spec (h : Owns e s bs [] []) (hglob : s.globMap = 0)
    (hp : place sizeofList bs = some bs') :
    wlp (globMapReady (heapAlloc P fuel)) (fun _ s' => SameHeap s s' ∧
      s'.heap.state.vmemMark = s.heap.state.vmemMark ∧ Registry e s' bs' [] [] []) s := by
  apply wlp_get_bind
  rw [if_pos hglob]
  apply wlp_bind
  refine wlp_seq (heapAlloc_fit h.wf (by decide) (by decide)
    (show place (alignUp sizeofList blockT) bs = some bs' from hp)) ?_
  rintro list s1 ⟨-, hsame, -, hmark, -, hwf, hl⟩
  have h1 := h.add hsame hwf hl (le_refl sizeofList)
  apply wlp_bind
  refine wlp_store fun _ => wlp_pure ?_
  rintro _ _ ⟨⟩
  refine ⟨⟨hsame.1, hsame.2, hsame.3, hsame.4⟩, hmark, ⟨?_, ?_⟩⟩
  · have hout : ∀ x, (∀ m n, (m, n) ∈ [(list, sizeofList)] → x < m ∨ m + n ≤ x) →
        memset s1.mem list 0 sizeofList x = s1.mem x := fun x hx =>
      memset_of_not_mem (hx list sizeofList mem_cons_self)
    exact (h1.write hout).congr rfl rfl
  · have hsz : sizeofList = 24 := rfl
    have hzero : ∀ a, list ≤ a → a + 8 ≤ list + sizeofList →
        read64 (memset s1.mem list 0 sizeofList) a = 0 := fun a => read64_memset_zero
    exact ⟨hzero list le_rfl (by omega), hzero (list + 8) (by omega) (by omega),
      hzero (list + 16) (by omega) (by omega)⟩

/-- Registering a mapping starts with making the list ready. -/
theorem addGlobalMapping_ready {alloc : ℕ → Prog (Sys σ) ℕ} {Q : Unit → Sys σ → Prop}
    (h : wlp (globMapReady alloc) (fun _ s1 => s1.globMap ≠ 0 ∧
      wlp (vmemMgmtAddGlobalMapping alloc phys virt flags) Q s1) s) :
    wlp (vmemMgmtAddGlobalMapping alloc phys virt flags) Q s := by
  unfold vmemMgmtAddGlobalMapping at h ⊢
  refine wlp_seq h ?_
  rintro _ s1 ⟨hne, hrest⟩ a s2 hcall
  have hready : globMapReady alloc s1 = .ok ((), s1) := by
    rw [globMapReady, run_get_bind, if_neg hne]
    rfl
  refine hrest a s2 ?_
  rw [run_ok hready]
  exact hcall

/-- **`heap_init` on the kernel heap** leaves the list with the mapping of the first page. -/
theorem heapInit_kernel (hg : IsGlobal s) (hglob : s.globMap = 0) (hP : P.Below e)
    (hend : e < 2 ^ 64) (hstart : pageSize4K ∣ s.heap.start) :
    wlp (heapInit P fuel) (fun ok s' => ok = true → SameHeap s s' ∧
      s'.heap.state.vmemMark = s.heap.start + pageSize4K ∧
      ∃ bs' a, Registry e s' bs' [] [a] []) s := by
  refine heapInit_spec (.inl hP) hend hstart fun s1 phys hsame hglob1 hmark hwf => ?_
  refine wlp_ite (fun _ => ?_) fun hng => absurd hg hng
  apply wlp_bind
  have hown : Owns e s1 [⟨pageSize4K - 16, false⟩] [] [] := ⟨hwf, by simp, by simp⟩
  have hlist : place sizeofList [⟨pageSize4K - 16, false⟩] =
      some [⟨24, true⟩, ⟨4040, false⟩] := by decide
  have hfirst : placeMapping [⟨24, true⟩, ⟨4040, false⟩] =
      some [⟨24, true⟩, ⟨24, true⟩, ⟨16, true⟩, ⟨3968, false⟩] := by decide
  refine addGlobalMapping_ready (wlp_mono (globMapReady_spec hown (hglob1.trans hglob) hlist) ?_)
  rintro _ s2 ⟨hsame2, hmark2, hreg⟩
  have hne : s2.globMap ≠ 0 := by
    have := hreg.owns.bounds (mem_append_right _ mem_cons_self)
    omega
  refine ⟨hne, wlp_mono (addGlobalMapping_fit hreg hfirst) ?_⟩
  rintro _ s3 ⟨hsame3, -, hmark3, -, a, hreg3⟩
  exact wlp_pure fun _ => ⟨(hsame.trans hsame2).trans hsame3,
    hmark3.trans (hmark2.trans hmark), _, a, hreg3⟩

section

variable {s0 s1 : Sys σ} {fuel : ℕ} (hglob : s0.globMap = 0)
include hglob

theorem KernelInv.init (hP : P.Below e) (hend : e < 2 ^ 64)
    (hinit : kheapInit P fuel s0 = .ok ((), s1)) :
    s1.heap.state.vmemMark ≤ s1.heap.endAddr ∧ ∃ bs a, KernelInv P e ⟨s1, [], 0⟩ bs [a] [] := by
  have hspec : wlp (kheapInit P fuel) (fun _ s' => s'.heap.state.vmemMark ≤ s'.heap.endAddr ∧
      ∃ bs a, KernelInv P e ⟨s', [], 0⟩ bs [a] []) s0 := by
    apply wlp_modify_bind
    refine wlp_seq (heapInit_kernel ?_ hglob hP hend ?_) ?_
    · show _ ≠ 0
      simp only [pgGlobal, pgWritable]
      decide
    · show pageSize4K ∣ kheapStart
      decide
    · intro ok s' h
      refine wlp_ite (fun hok => wlp_pure ?_) fun _ => wlp_halt
      obtain ⟨hsame, hmark, bs, a, hreg⟩ := h hok
      refine ⟨?_, bs, a, hreg, by simp, hsame.isGlobal ?_, hP, ?_⟩
      · rw [hmark, hsame.endAddr]
        show kheapStart + pageSize4K ≤ kheapEnd
        decide
      · show _ ≠ 0
        simp only [pgGlobal, pgWritable]
        decide
      · simp only [hsame.start, hmark, length_singleton, Nat.mul_one, Nat.mul_zero, Nat.add_zero]
  exact hspec _ _ hinit

variable (hP : P.Below (2 ^ 64 - 1)) (hinit : kheapInit P fuel s0 = .ok ((), s1))
  (hrun : Relation.ReflTransGen (KernelStep P) ⟨s1, [], 0⟩ c)
include hP hinit hrun

/-- The invariant holds along every run from `kheap_init`. -/
theorem KernelInv.run : ∃ bs l lost, KernelInv P (2 ^ 64 - 1) c bs l lost := by
  induction hrun with
  | refl =>
    obtain ⟨-, bs, a, h⟩ := KernelInv.init hglob hP (by decide) hinit
    exact ⟨bs, [a], [], h⟩
  | tail _ hstep ih =>
    obtain ⟨bs, l, lost, h⟩ := ih
    exact h.step hstep

end

/-- **Re-entrant growth of the kernel heap**: after `kheap_init`, along every run whose allocations
have room for the mappings they register, the heap stays tiled, and the blocks handed out, the
records and the nodes are disjoint blocks in use. -/
theorem kernel_heap_run {s₀ s₁ : Sys σ} {fuel : ℕ} (hglob : s₀.globMap = 0)
    (hP : P.Below (2 ^ 64 - 1)) (hinit : kheapInit P fuel s₀ = .ok ((), s₁))
    (hrun : Relation.ReflTransGen (KernelStep P) ⟨s₁, [], 0⟩ c) : KernelSafe c := by
  obtain ⟨bs, l, lost, h⟩ := KernelInv.run hglob hP hinit hrun
  exact h.safe

end Runs

/-! ### A kernel heap -/

/-- Pages for the kernel heap: `pmem_alloc` counts up, and `vmem_map` succeeds inside the heap. -/
def kernelPages : Pages ℕ where
  spcCurrent _ := pageSize4K
  pmemAlloc := fun next => .ok (next, next + pageSize4K)
  vmemMap _ _ virt _ := pure (decide (virt + pageSize4K ≤ kheapEnd))

/-- The system before `kheap_init`. -/
def kernelBoot : Sys ℕ where
  heap := ⟨0, 0, 0, 0, ⟨false, 0, 0, 0⟩⟩
  mem := fun _ => 0
  globMap := 0
  pages := 0x200000

/-- The system after `kheap_init`. -/
def kernelReady : Sys ℕ := exec (kheapInit kernelPages 16) kernelBoot

theorem kheapInit_kernelBoot : kheapInit kernelPages 16 kernelBoot = .ok ((), kernelReady) :=
  eq_ok_of_value (by decide +kernel)

-- what follows does not look into the state
attribute [irreducible] kernelReady

theorem kernelPages_below : kernelPages.Below (2 ^ 64 - 1) := by
  intro spc phys virt flags g g' h
  simp only [kernelPages, run_pure, Except.ok.injEq, Prod.mk.injEq, decide_eq_true_eq] at h
  exact h.1.trans (by decide)

theorem kernel_heap_run_page : ∃ s, heapAlloc kernelPages 16 4096 kernelReady =
    .ok (kheapStart + 192, s) ∧ KernelSafe ⟨s, [(kheapStart + 192, 4096)], 0⟩ := by
  have hcall : heapAlloc kernelPages 16 4096 kernelReady =
      .ok (kheapStart + 192, exec (heapAlloc kernelPages 16 4096) kernelReady) :=
    eq_ok_of_value (by decide +kernel)
  obtain ⟨-, bs, a, hinv⟩ :=
    KernelInv.init rfl kernelPages_below (by decide) kheapInit_kernelBoot
  have hroom : HasRoom kernelReady 4096 := hinv.hasRoom (by decide)
  have hstep := KernelStep.alloc (c := ⟨kernelReady, [], 0⟩) (by decide) hroom hcall
  exact ⟨_, hcall, kernel_heap_run rfl kernelPages_below kheapInit_kernelBoot (.single hstep)⟩

/-- No list runs through a node that points to itself. -/
theorem Chain.not_loop {m : Mem} {a : ℕ} (h : Chain m a l) (ha : a ≠ 0) :
    read64 m (a + 8) ≠ a := by
  intro hloop
  induction l with
  | nil => exact ha h
  | cons b l ih =>
    obtain ⟨rfl, -, -, hrest⟩ := h
    rw [hloop] at hrest
    exact ih hrest

/-- A request for two pages right after `kheap_init`: the second page gets the record and the node
of the first, and the node points to itself. -/
theorem kernel_growth_reuses_record : kheapInit kernelPages 16 kernelBoot = .ok ((), kernelReady) ∧
    ∃ s, heapAlloc kernelPages 16 8192 kernelReady = .ok (kheapStart + 192, s) ∧
      read64 s.mem (kheapStart + 160 + 8) = kheapStart + 160 ∧
      ¬ KernelSafe ⟨s, [(kheapStart + 192, 8192)], 0⟩ := by
  -- one evaluation of the call for everything that is read from its result
  obtain ⟨hvalue, hloop, hhead, hnext⟩ :
      (heapAlloc kernelPages 16 8192).value kernelReady = some (kheapStart + 192) ∧
      let s := exec (heapAlloc kernelPages 16 8192) kernelReady
      read64 s.mem (kheapStart + 160 + 8) = kheapStart + 160 ∧
      read64 s.mem s.globMap = kheapStart + 88 ∧
      read64 s.mem (kheapStart + 88 + 8) = kheapStart + 160 := by
    decide +kernel
  refine ⟨kheapInit_kernelBoot, _, eq_ok_of_value hvalue, hloop, ?_⟩
  rintro ⟨bs, l, -, -, hlist, -⟩
  have hchain := hlist.chain
  simp only [hhead] at hchain
  cases l with
  | nil => exact absurd hchain (show kheapStart + 88 ≠ 0 by decide)
  | cons b l =>
    obtain ⟨hb, -, -, hrest⟩ := hchain
    rw [← hb, hnext] at hrest
    exact hrest.not_loop (by decide) hloop

end Tachyon.Heap
