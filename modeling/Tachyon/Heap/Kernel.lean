import Tachyon.Heap.Process
import Tachyon.Heap.Registry
import Tachyon.Heap.Realloc

/-!
# The kernel heap

The kernel heap has `PG_GLOBAL`: every page by which it grows is registered, and the registration
allocates from the same heap while the growth loop is running.  The loop keeps the address of the
last block and its old size, and rewrites the header for every page, so the registration of one page
must not take memory from that block while there are pages to come.

* `heapGrow_kernel`: a pass that `growPass` allows keeps the registry.
* `heapAlloc_kernel`: an allocation with `Room` keeps the registry and hands out a block.
-/

namespace Tachyon.Heap

open Prog List

variable {σ : Type} {P : Pages σ} {s s' : Sys σ} {bs bs' pre : List Blk} {e z fuel k : ℕ}
  {O l : List (ℕ × ℕ)} {lost : List ℕ}

/-- The heap has `PG_GLOBAL`. -/
def IsGlobal (s : Sys σ) : Prop := s.heap.pgFl &&& pgGlobal ≠ 0

theorem SameHeap.isGlobal (h : SameHeap s s') (hg : IsGlobal s) : IsGlobal s' := by
  unfold IsGlobal
  rw [h.pgFl]
  exact hg

/-- `vmem_map` fails for some page of the heap. -/
def MapFails (P : Pages σ) (s : Sys σ) : Prop :=
  ∃ phys virt g g', P.vmemMap s.heap.space phys virt s.heap.pgFl g = .ok (false, g')

theorem SameHeap.mapFails (h : SameHeap s s') (hf : MapFails P s') : MapFails P s := by
  unfold MapFails at hf
  rwa [h.space, h.pgFl] at hf

/-! ### Growth -/

/-- Registering a mapping while the heap has room. -/
theorem addGlobalMapping_fit {phys virt flags : ℕ} (h : Registry e s bs O l lost)
    (hp : placeMapping bs = some bs') :
    wlp (vmemMgmtAddGlobalMapping (heapAlloc P fuel) phys virt flags)
      (fun _ s' => SameHeap s s' ∧ s'.globMap = s.globMap ∧
        s'.heap.state.vmemMark = s.heap.state.vmemMark ∧ Keeps s.mem s'.mem O ∧
        ∃ a, Registry e s' bs' O (l ++ [a]) lost) s := by
  obtain ⟨bs1, hp1, hp2⟩ := placeMapping_eq_some hp
  refine wlp_mono (addGlobalMapping_spec (R := fun _ new ts new' => ts = bs' ∧ new = [] ∧ new' = [])
    (fun ts new => ts = bs1 ∧ new = []) h ?_ ?_
    (Or.inr fun _ _ _ _ hR => hR.2)) ?_
  · refine wlp_mono (heapAlloc_fit h.owns.wf (by decide) (by decide)
      (show place (alignUp sizeofGlobMapping blockT) bs = some bs1 from hp1)) ?_
    rintro p s1 ⟨-, hsame, hglob, hmark, hunt, hwf, hl⟩ -
    obtain ⟨hreg, hkeep⟩ := h.add hsame hglob hwf hunt hl (le_refl sizeofGlobMapping)
    exact ⟨bs1, [], ⟨rfl, rfl⟩, hsame, hglob, by simpa using hmark, hkeep, by simpa using hreg⟩
  · rintro s1 _ _ record ⟨rfl, rfl⟩ - hreg
    refine wlp_mono (heapAlloc_fit hreg.owns.wf (by decide) (by decide)
      (show place (alignUp sizeofListNode blockT) _ = some bs' from hp2)) ?_
    rintro p s2 ⟨-, hsame, hglob, hmark, hunt, hwf, hl⟩ -
    obtain ⟨hreg', hkeep⟩ := hreg.add hsame hglob hwf hunt hl (le_refl sizeofListNode)
    exact ⟨bs', [], ⟨rfl, rfl, rfl⟩, hsame, hglob, by simpa using hmark, hkeep,
      by simpa using hreg'⟩
  · rintro _ s' ⟨_, _, _, _, a, ⟨rfl, rfl⟩, ⟨rfl, -, rfl⟩, hsame, hglob, hmark, hkeep, hreg⟩
    exact ⟨hsame, hglob, by simpa using hmark, hkeep, a, by simpa using hreg⟩

/-- One more page behind the last block. -/
theorem Registry.grow {g : σ} (h : Registry e s (pre ++ [⟨z, false⟩]) O l lost)
    (hend : s.heap.state.vmemMark + pageSize4K ≤ e) :
    Registry e (grown { s with pages := g } (s.heap.start + span pre) (z + pageSize4K))
        (pre ++ [⟨z + pageSize4K, false⟩]) O l lost ∧
      Keeps s.mem (grown { s with pages := g } (s.heap.start + span pre) (z + pageSize4K)).mem O := by
  have h₁ : WellFormed e { s with pages := g } (pre ++ [⟨z, false⟩]) := h.owns.wf.congr rfl rfl
  obtain ⟨hwf, hout⟩ := h₁.grow hend
  refine h.same (sameHeap_grown s g _ _) (by simp only [grown]) hwf ?_ (by simp)
  intro p w hp x h1 h2
  simp only [live_append, live_cons_free, live_nil, append_nil] at hp
  have := live_bounds hp
  exact hout x (by simp only; omega)

/-- A step of `growPass` with pages to come: the mapping is placed in front. -/
theorem growPass_front (h : growPass (k + 1 + 1) (pre ++ [⟨z, false⟩]) = some bs') :
    ∃ pre', placeMapping pre = some pre' ∧
      growPass (k + 1) (pre' ++ [⟨z + pageSize4K, false⟩]) = some bs' := by
  rw [growPass_succ, placeMappings, Option.bind_assoc] at h
  obtain ⟨pre', hpre', h⟩ := Option.bind_eq_some_iff.1 h
  refine ⟨pre', hpre', ?_⟩
  rw [growPass_succ, show z + pageSize4K + pageSize4K * (k + 1) = z + pageSize4K * (k + 1 + 1) by
    ring]
  exact h

/-- **A growth pass of the kernel heap** that `growPass` allows registers every page it maps, and the
blocks in use stay in use. -/
theorem heapGrow_kernel (k i : ℕ) (hg : IsGlobal s) (hP : P.Below e)
    (h : Registry e s (pre ++ [⟨z + pageSize4K * i, false⟩]) O l lost)
    (hpass : growPass k (pre ++ [⟨z + pageSize4K * i, false⟩]) = some bs') :
    wlp (heapGrow P (heapAlloc P fuel) (s.heap.start + span pre) z i k)
      (fun ok s' => ∃ ts new, Grew e s s' ts O O l lost new ∧
        (ok = true → ts = bs' ∧ new.length = k) ∧ (ok = false → new.length ≤ k ∧ MapFails P s) ∧
        live s.heap.start pre ⊆ live s.heap.start ts) s := by
  induction k generalizing i s pre l with
  | zero =>
    cases hpass
    exact wlp_pure ⟨_, [], ⟨SameHeap.refl s, rfl, by simp, Keeps.refl _ _, by simpa using h⟩,
      fun _ => ⟨rfl, rfl⟩, by simp, by simp⟩
  | succ k ih =>
    apply wlp_bind
    refine wlp_zoom fun phys g1 _ => ?_
    apply wlp_get_bind
    apply wlp_bind
    refine wlp_zoom fun ok g2 hmap => ?_
    apply wlp_ite
    · intro hok
      subst hok
      have hend := hP _ _ _ _ _ _ hmap
      simp only at hend
      obtain ⟨h1, hkeep1⟩ := h.grow (g := g2) hend
      have hgrown := sameHeap_grown s g2 (s.heap.start + span pre) (z + pageSize4K * i + pageSize4K)
      have hmark : (grown { s with pages := g2 } (s.heap.start + span pre)
          (z + pageSize4K * i + pageSize4K)).heap.state.vmemMark =
          s.heap.state.vmemMark + pageSize4K := by
        have hlt := h.owns.wf.end_lt
        simp only [grown]
        rw [add64_of_lt (by omega)]
      apply wlp_modify_bind
      rw [h1.owns.wf.tiled.grown_size]
      have hglob1 : (grown { s with pages := g2 } (s.heap.start + span pre)
          (z + pageSize4K * i + pageSize4K)).globMap = s.globMap := by simp only [grown]
      change wlp _ _ (grown { s with pages := g2 } (s.heap.start + span pre)
        (z + pageSize4K * i + pageSize4K))
      refine wlp_ite (fun _ => ?_) (fun hng => absurd hg hng)
      apply wlp_bind
      have hi : z + pageSize4K * i + pageSize4K = z + pageSize4K * (i + 1) := by
        rw [Nat.mul_succ, Nat.add_assoc]
      cases k with
      | zero =>
        -- the last page: the mapping may come from the block itself
        rw [growPass_succ] at hpass
        have hlive := live_subset_of_placeMapping hpass s.heap.start
        rw [live_append] at hlive
        refine wlp_mono (addGlobalMapping_fit h1 hpass) ?_
        rintro _ s2 ⟨hsame, hglob, hmark2, hkeep2, a, hreg⟩
        refine wlp_pure ⟨bs', [a], ⟨hgrown.trans hsame, hglob.trans hglob1, ?_,
          hkeep1.trans hkeep2, hreg⟩, fun _ => ⟨rfl, rfl⟩, by simp,
          List.Subset.trans (subset_append_left _ _) hlive⟩
        rw [hmark2, hmark, length_singleton, Nat.mul_one]
      | succ k =>
        obtain ⟨pre', hpre', hpass'⟩ := growPass_front hpass
        refine wlp_mono (addGlobalMapping_fit h1 (placeMapping_append hpre' _)) ?_
        rintro _ s2 ⟨hsame, hglob, hmark2, hkeep2, a, hreg⟩
        rw [hi] at hreg hpass'
        have hsame' := hgrown.trans hsame
        have hrest := ih (i + 1) (hsame'.isGlobal hg) hreg hpass'
        rw [hsame'.start, placeMapping_span hpre'] at hrest
        refine wlp_mono hrest ?_
        rintro ok s3 ⟨ts, new, h3, hts, hfail, hlive⟩
        refine ⟨ts, a :: new, ⟨hsame'.trans h3.same, h3.globMap.trans (hglob.trans hglob1), ?_,
          (hkeep1.trans hkeep2).trans h3.keeps, by simpa using h3.reg⟩,
          fun hok => ⟨(hts hok).1, by rw [length_cons, (hts hok).2]⟩,
          fun hok => ⟨by rw [length_cons]; exact Nat.succ_le_succ (hfail hok).1,
            hsame'.mapFails (hfail hok).2⟩,
          List.Subset.trans (live_subset_of_placeMapping hpre' _) hlive⟩
        rw [h3.mark, hmark2, hmark, length_cons]
        ring
    · intro hok
      have hreg : Registry e { s with pages := g2 } (pre ++ [⟨z + pageSize4K * i, false⟩]) O l lost :=
        ⟨h.owns.congr rfl rfl, h.list⟩
      rw [Bool.not_eq_true] at hok
      subst hok
      exact wlp_pure ⟨_, [], ⟨⟨rfl, rfl, rfl, rfl⟩, rfl, by simp, Keeps.refl _ _,
        by simpa using hreg⟩, fun hf => absurd hf (by decide),
        fun _ => ⟨Nat.zero_le _, phys, _, g1, g2, hmap⟩, by simp⟩

/-! ### Allocation -/

/-- Where a growth pass cuts the list, the parts stay parts. -/
theorem growPass_split (h : growPass k (pre ++ [⟨z, false⟩]) = some bs') :
    ∃ pre' post', post' ≠ [] ∧ bs' = pre' ++ post' ∧ span pre' = span pre ∧
      ∀ m, NoFit m pre → NoFit m pre' := by
  induction k generalizing pre z with
  | zero =>
    cases h
    exact ⟨pre, [⟨z, false⟩], by simp, rfl, rfl, fun _ hm => hm⟩
  | succ k ih =>
    cases k with
    | zero =>
      rw [growPass_succ] at h
      exact placeMapping_split h (by simp)
    | succ k =>
      obtain ⟨pre', hpre', h⟩ := growPass_front h
      obtain ⟨pre2, post2, hpost2, rfl, hspan, hno⟩ := ih h
      exact ⟨pre2, post2, hpost2, rfl, hspan.trans (placeMapping_span hpre'),
        fun m hm => hno m (hm.placeMapping hpre')⟩

theorem Grew.trans {s1 s2 : Sys σ} {ts : List Blk} {O' new1 new2 : List (ℕ × ℕ)}
    (h1 : Grew e s s1 bs O O l lost new1) (h2 : Grew e s1 s2 ts O O' (l ++ new1) lost new2) :
    Grew e s s2 ts O O' l lost (new1 ++ new2) := by
  refine ⟨h1.same.trans h2.same, h2.globMap.trans h1.globMap, ?_, h1.keeps.trans h2.keeps, ?_⟩
  · rw [h2.mark, h1.mark, length_append]
    ring
  · rw [← append_assoc]
    exact h2.reg

/-- What the search of a kernel allocation for `bytes` keeps, from the blocks `bs₀` on: the registry,
the blocks `L` in use, and a bound for the pages. -/
def KernelKept (e : ℕ) (s₀ : Sys σ) (bs₀ : List Blk) (O l : List (ℕ × ℕ)) (lost : List ℕ)
    (L : List (ℕ × ℕ)) (bytes : ℕ) (s : Sys σ) (bs : List Blk) (new : List (ℕ × ℕ)) : Prop :=
  Grew e s₀ s bs O O l lost new ∧ L ⊆ live s₀.heap.start bs ∧ PassPages bytes bs₀ new.length

theorem growKeeps_kernel {s0 : Sys σ} {bs0 : List Blk} {L : List (ℕ × ℕ)} {bytes : ℕ}
    (hg : IsGlobal s0) (hP : P.Below e) :
    GrowKeeps P e
      (fun s bs => ∃ new, KernelKept e s0 bs0 O l lost L bytes s bs new ∧ Room bytes bs ∧
        ∃ j, afterPasses bytes bs0 j = some bs ∧ new.length = growPages bytes * j)
      (fun s bs => (∃ new, KernelKept e s0 bs0 O l lost L bytes s bs new) ∧ MapFails P s0)
      bytes := by
  rintro n s pre z - ⟨new, ⟨hgrew, hL, -⟩, hroom, j, hj, hlen⟩ hno
  obtain ⟨bs', hpass, hroom'⟩ := hroom.pass hno
  have hreg : Registry e s (pre ++ [⟨z + pageSize4K * 0, false⟩]) O (l ++ new) lost := by
    simpa using hgrew.reg
  refine wlp_mono (heapGrow_kernel (growPages bytes) 0 (hgrew.same.isGlobal hg) hP hreg
    (by simpa using hpass)) ?_
  rintro ok s' ⟨ts, new', hgrew', hts, hfail, hlive⟩
  have hall := hgrew.trans hgrew'
  have hL' : L ⊆ live s0.heap.start ts := by
    rw [hgrew.same.start] at hlive
    simp only [live_append, live_cons_free, live_nil, append_nil] at hL
    exact List.Subset.trans hL hlive
  -- the pages of this pass are bounded because it has begun
  have hpages : new'.length ≤ growPages bytes → PassPages bytes bs0 (new ++ new').length := by
    intro hle
    refine .inr ⟨j, _, hj, hno, ?_⟩
    rw [length_append, hlen, Nat.mul_succ]
    omega
  refine ⟨hgrew'.same, ?_⟩
  cases ok with
  | true =>
    obtain ⟨rfl, hlen'⟩ := hts rfl
    obtain ⟨pre', post', hpost', rfl, hspan, hno'⟩ := growPass_split hpass
    refine ⟨pre', post', hpost', hspan, hno' _ fun c hc => hno c (by simp [hc]),
      hall.reg.owns.wf, new ++ new', ⟨hall, hL', hpages hlen'.le⟩, hroom', j + 1, ?_, ?_⟩
    · rw [afterPasses, hj, Option.bind_some, hpass]
    · rw [length_append, hlen, hlen', Nat.mul_succ]
  | false =>
    obtain ⟨hle, hf⟩ := hfail rfl
    exact ⟨ts, hall.reg.owns.wf, ⟨new ++ new', hall, hL', hpages hle⟩, hgrew.same.mapFails hf⟩

section

variable {fuel bytes : ℕ} (h : Registry e s bs O l lost) (hg : IsGlobal s) (hP : P.Below e)
  (hb : NoWrap bytes) (hroom : Room (alignUp bytes blockT) bs)
include h hg hP hb hroom

/-- **`kheap_alloc` with room for its mappings**: a new block of the rounded size, or `NULL` if a page
cannot be mapped; the other blocks stay in use and keep their contents, and every page by which the
heap grew is registered. -/
theorem heapAlloc_kernel_block :
    wlp (heapAlloc P fuel bytes) (fun p s' => ∃ bs' new,
      Grew e s s' bs' O (if p = 0 then O else (p, bytes) :: O) l lost new ∧
      (p ≠ 0 → (p, alignUp bytes blockT) ∈ live s'.heap.start bs') ∧
      live s.heap.start bs ⊆ live s.heap.start bs' ∧
      PassPages (alignUp bytes blockT) bs new.length ∧ (p = 0 → MapFails P s)) s := by
  apply wlp_heapCheck_bind
  have hne : bs ≠ [] := by
    obtain ⟨pre, z, rfl⟩ := h.owns.wf.lastFree
    simp
  have hstart : Grew e s s bs O O l lost [] :=
    ⟨SameHeap.refl s, rfl, by simp, Keeps.refl _ _, by simpa using h⟩
  have hat : At e (alignUp bytes blockT) (fun t ts => ∃ new,
      KernelKept e s bs O l lost (live s.heap.start bs) (alignUp bytes blockT) t ts new ∧
        Room (alignUp bytes blockT) ts ∧ ∃ j, afterPasses (alignUp bytes blockT) bs j = some ts ∧
          new.length = growPages (alignUp bytes blockT) * j) s s.heap.start :=
    ⟨[], bs, hne, rfl, by simp [NoFit], h.owns.wf, [], ⟨hstart, List.Subset.refl _, .inl rfl⟩,
      hroom, 0, rfl, rfl⟩
  refine wlp_mono (allocLoop_end (growKeeps_kernel hg hP) hb.2 hat) ?_
  rintro p s' ⟨hsame, ⟨rfl, bs', hwf, ⟨new, hgrew, hlive, hpages⟩, hfail⟩ |
    ⟨t, pre, z, post, hwf, ⟨new, ⟨hgrew, hlive, hpages⟩, -⟩, -, hfit, rfl, rfl⟩⟩
  · exact ⟨bs', new, by simpa using hgrew, fun h0 => absurd rfl h0, hlive, hpages, fun _ => hfail⟩
  obtain ⟨hwf', hunt⟩ := hwf.split hb.alignUp.1 hfit
  obtain ⟨hreg, hkeep⟩ := hgrew.reg.add (sameHeap_allocated _ _ _) rfl hwf' hunt
    (live_split_perm hfit) hb.alignUp.2.1
  exact ⟨_, new, ⟨hsame, hgrew.globMap, hgrew.mark, hgrew.keeps.trans hkeep, hreg⟩,
    fun _ => (live_split_perm hfit).mem_iff.2 mem_cons_self,
    fun x hx => (live_split_perm hfit).mem_iff.2 (mem_cons_of_mem _ (hlive hx)), hpages,
    fun h0 => absurd h0 (by omega)⟩

theorem heapAlloc_kernel :
    wlp (heapAlloc P fuel bytes) (fun p s' => ∃ bs' new,
      Grew e s s' bs' O (if p = 0 then O else (p, bytes) :: O) l lost new) s := by
  refine wlp_mono (heapAlloc_kernel_block h hg hP hb hroom) ?_
  rintro p s' ⟨bs', new, hgrew, -⟩
  exact ⟨bs', new, hgrew⟩

end

end Tachyon.Heap
