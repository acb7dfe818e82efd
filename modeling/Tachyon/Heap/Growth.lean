import Tachyon.Heap.Process
import Tachyon.Heap.Realloc

/-!
# Growth and blocks in use

The growth branch of `heap_alloc` marks the last block as free and enlarges it.  That is harmless
only while the last block is free.  `GrowthSafe` says so of the calls in one state.

* `growth_safe_run`: it holds along every run in which no `heap_realloc` takes the last block.
* `growth_hands_out_owned_block`: after such a `heap_realloc`, the next allocation that grows the
  heap returns the very block its caller still owns.
-/

namespace Tachyon.Heap

open Prog List

variable {σ : Type} {P : Pages σ} {bs : List Blk} {e bytes : ℕ}

/-- One event of a run with `heap_realloc` calls that satisfy `C`. -/
inductive ReallocStep (P : Pages σ) (C : Sys σ → ℕ → ℕ → Prop) : Client σ → Client σ → Prop
  | step {c c' : Client σ} (h : Step P SizeOk c c') : ReallocStep P C c c'
  | realloc {c : Client σ} {m n fuel bytes p : ℕ} {s' : Sys σ} (own : (m, n) ∈ c.owned)
      (size : SizeOk bytes) (cond : C c.sys m bytes)
      (call : heapRealloc P fuel m bytes c.sys = .ok (p, s')) :
      ReallocStep P C c ⟨s', if p = 0 then c.owned else (p, bytes) :: c.owned.erase (m, n)⟩

/-- The loop body at block `b` finds that the block does not fit and has no successor. -/
def InGrowth (t : Sys σ) (bytes b : ℕ) : Prop :=
  t.heap.start ≤ b ∧ b < t.heap.state.vmemMark ∧ fits t.mem b bytes = false ∧
    blHasNext t.heap t.mem b = false

/-- For every request in this state: the growth branch is only reached at a block that is not in
use, and the memory that is returned overlaps no owned block. -/
def GrowthSafe (P : Pages σ) (c : Client σ) : Prop :=
  ∀ fuel bytes, SizeOk bytes →
    (∀ n t b, Visits P (alignUp bytes blockT) fuel c.sys c.sys.heap.start n t b →
      InGrowth t (alignUp bytes blockT) b →
        blPresent (read64 t.mem b) = false ∧ b + 8 ∉ c.owned.map Prod.fst) ∧
    ∀ p s', heapAlloc P fuel bytes c.sys = .ok (p, s') → p ≠ 0 →
      ∀ m n, (m, n) ∈ c.owned → p + bytes ≤ m ∨ m + capacity c.sys m ≤ p

section Safe

variable {c : Client σ} {lost : List ℕ}

/-- The header of a block in use says so. -/
theorem WellFormed.present_of_live {s : Sys σ} {p z : ℕ} (h : WellFormed e s bs)
    (hp : (p, z) ∈ live s.heap.start bs) :
    ∃ a, p = a + 8 ∧ blPresent (read64 s.mem a) = true := by
  obtain ⟨pre, post, rfl, rfl⟩ := mem_live_iff.1 hp
  exact ⟨_, rfl, h.tiles.blkAt.present⟩

/-- At the last block of a well-formed heap the header says that it is free. -/
theorem At.last_free {G : Sys σ → List Blk → Prop} {t : Sys σ} {b : ℕ} (h : At e bytes G t b)
    (hnext : blHasNext t.heap t.mem b = false) : blPresent (read64 t.mem b) = false := by
  obtain ⟨pre, rest, hne, rfl, -, hwf, -⟩ := h
  obtain ⟨d, rest, rfl⟩ := exists_cons_of_ne_nil hne
  have hrest : rest = [] := by
    by_contra hr
    rw [hwf.tiled.hasNext_iff.2 hr] at hnext
    cases hnext
  subst hrest
  obtain ⟨l, z, hl⟩ := hwf.lastFree
  obtain ⟨-, hd⟩ := append_inj' hl rfl
  cases hd
  exact hwf.tiles.blkAt.present

section

variable (h : ClientInv P e c bs lost)
include h

theorem ClientInv.growthSafe : GrowthSafe P c := by
  intro fuel bytes hb
  refine ⟨fun n t b hv hgrow => ?_, fun p s' hcall hp m n hm => ?_⟩
  · have hne : bs ≠ [] := by
      obtain ⟨pre, z, rfl⟩ := h.owns.wf.lastFree
      simp
    have hat : At e (alignUp bytes blockT) (Kept c.sys (live c.sys.heap.start bs)) c.sys
        c.sys.heap.start :=
      ⟨[], bs, hne, rfl, by simp [NoFit], h.owns.wf, SameHeap.refl _, rfl, Untouched.refl _ _⟩
    obtain ⟨-, hat'⟩ := visits_at (growKeeps_kept h.notGlobal h.below) hb.noWrap.2 hv hat
    have hfree := hat'.last_free hgrow.2.2.2
    refine ⟨hfree, fun hown => ?_⟩
    -- an owned block is still in use in `t`, so its header says so
    obtain ⟨⟨m, n⟩, hmn, hm⟩ := mem_map.1 hown
    obtain ⟨z, hz, -⟩ := h.owns.size m n hmn
    obtain ⟨pre, rest, -, -, -, hwf, hkept⟩ := hat'
    rw [← hkept.live] at hz
    obtain ⟨a, ha, hpres⟩ := hwf.present_of_live hz
    obtain rfl : a = b := by omega
    rw [hfree] at hpres
    cases hpres
  · obtain ⟨-, -, bs', -, hlive⟩ :=
      heapAlloc_process h.owns.wf h.notGlobal h.below hb.noWrap _ _ hcall
    obtain ⟨-, hperm⟩ := hlive.resolve_left fun hnull => hp hnull.1
    obtain ⟨z, hz, -⟩ := h.owns.size m n hm
    rw [h.owns.wf.tiled.capacity_untouched (Untouched.refl _ _) hz]
    -- the new block and the old one are two blocks in use after the call
    have hne : p ≠ m := by
      rintro rfl
      have hnd := live_addr_nodup c.sys.heap.start bs'
      rw [(hperm.map Prod.fst).nodup_iff, map_cons, nodup_cons] at hnd
      exact hnd.1 (mem_map.2 ⟨_, hz, rfl⟩)
    have hapart := live_apart (hperm.mem_iff.2 mem_cons_self)
      (hperm.mem_iff.2 (mem_cons_of_mem _ hz)) hne
    rw [Apart, hb.alignUp_eq] at hapart
    omega

/-- `heap_realloc` of an owned block that does not take the last block. -/
theorem ClientInv.realloc {m n fuel : ℕ} (hm : (m, n) ∈ c.owned) (hpos : 0 < n)
    (hb : SizeOk bytes) (hkeep : takesLast c.sys m bytes = false) :
    wlp (heapRealloc P fuel m bytes) (fun p s' => ∃ bs' lost', ClientInv P e
      ⟨s', if p = 0 then c.owned else (p, bytes) :: c.owned.erase (m, n)⟩ bs' lost') c.sys := by
  have hge : m ≠ 0 := by
    obtain ⟨pre, z, post, -, hp, -⟩ := h.owns.block hm
    omega
  refine h.owns.realloc hm hb hkeep ⟨bs, lost, by rwa [if_pos rfl]⟩ ?_ ?_
  · intro s' bs' hsame _ _ _ howns
    refine ⟨bs', lost, ?_, hsame.notGlobal h.notGlobal, h.below⟩
    rw [if_neg hge]
    exact howns
  · intro hlt
    apply wlp_bind
    intro p s1 hcall
    obtain ⟨hsame, hunt, bs1, hwf, hp⟩ :=
      heapAlloc_process h.owns.wf h.notGlobal h.below hb.noWrap _ _ hcall
    apply wlp_get_bind
    -- the block keeps its header over the allocation
    obtain ⟨z, hz, hn⟩ := h.owns.size m n hm
    have hcap : blB2DataSz (read64 s1.mem (blM2H m)) = z := h.owns.wf.tiled.capacity_untouched hunt hz
    rw [h.owns.wf.tiled.capacity_untouched (Untouched.refl _ _) hz] at hlt
    rcases hp with ⟨rfl, -⟩ | ⟨hp0, hl⟩
    · exact wlp_move_null (by omega)
    have h1 := h.owns.add hsame hwf hl hb.noWrap.alignUp.2.1
    refine wlp_mono (h1.move hm hcap (by omega) hlt) ?_
    rintro _ s' ⟨rfl, hsame', -, -, -, bs', lost', howns⟩
    refine ⟨bs', lost', ?_, hsame'.notGlobal (hsame.notGlobal h.notGlobal), h.below⟩
    rw [if_neg hp0]
    exact howns

/-- Every step of a run without a call that takes the last block keeps the invariant, and all
requested sizes are positive. -/
theorem ClientInv.reallocStep {c' : Client σ} (hpos : ∀ m n, (m, n) ∈ c.owned → 0 < n)
    (hs : ReallocStep P (fun s m bytes => takesLast s m bytes = false) c c') :
    (∃ bs' lost', ClientInv P e c' bs' lost') ∧ ∀ m n, (m, n) ∈ c'.owned → 0 < n := by
  cases hs with
  | step hstep =>
    obtain ⟨-, bs', lost', h', -⟩ := h.step (fun _ hn => hn.noWrap) hstep
    refine ⟨⟨bs', lost', h'⟩, ?_⟩
    cases hstep with
    | alloc size call =>
      intro m n hmn
      split_ifs at hmn with hp
      · exact hpos m n hmn
      · rcases mem_cons.1 hmn with heq | hmn
        · cases heq
          exact Nat.pos_of_ne_zero size.1
        · exact hpos m n hmn
    | free own call => exact fun m n hmn => hpos m n (mem_of_mem_erase hmn)
    | write own inside => exact hpos
    | other g => exact hpos
  | realloc own size cond call =>
    refine ⟨h.realloc own (hpos _ _ own) size cond _ _ call, fun m n hmn => ?_⟩
    split_ifs at hmn with hp
    · exact hpos m n hmn
    · rcases mem_cons.1 hmn with heq | hmn
      · cases heq
        exact Nat.pos_of_ne_zero size.1
      · exact hpos m n (mem_of_mem_erase hmn)

end

/-- **Growth never takes a block in use**, along every run of a process heap in which no
`heap_realloc` takes the last block and `vmem_mark` does not wrap around. -/
theorem growth_safe_run {s₀ s₁ : Sys σ} {fuel : ℕ} (hng : NotGlobal s₀)
    (hstart : pageSize4K ∣ s₀.heap.start) (hP : P.Below (2 ^ 64 - 1))
    (hinit : heapInit P fuel s₀ = .ok (true, s₁))
    (hrun : Relation.ReflTransGen
      (ReallocStep P fun s m bytes => takesLast s m bytes = false) ⟨s₁, []⟩ c) :
    GrowthSafe P c := by
  have hinv : (∃ bs lost, ClientInv P (2 ^ 64 - 1) c bs lost) ∧
      ∀ m n, (m, n) ∈ c.owned → 0 < n := by
    induction hrun with
    | refl =>
      obtain ⟨-, h⟩ := ClientInv.init hng hstart (by decide) hP hinit
      exact ⟨⟨_, _, h⟩, by simp⟩
    | tail _ hstep ih =>
      obtain ⟨⟨bs, lost, h⟩, hpos⟩ := ih
      exact h.reallocStep hpos hstep
  obtain ⟨⟨bs, lost, h⟩, -⟩ := hinv
  exact h.growthSafe

end Safe

/-- The small heap with one block of 8 bytes. -/
def smallHeapOne : Sys Unit := exec (heapAlloc smallPages 1 8) smallHeapReady

theorem heapAlloc_smallHeap :
    heapAlloc smallPages 1 8 smallHeapReady = .ok (pheapStart + 8, smallHeapOne) :=
  eq_ok_of_value (by decide +kernel)

theorem smallHeap_alloc (C : Sys Unit → ℕ → ℕ → Prop) :
    ReallocStep smallPages C ⟨smallHeapReady, []⟩ ⟨smallHeapOne, [(pheapStart + 8, 8)]⟩ := by
  have h : Step smallPages SizeOk ⟨smallHeapReady, []⟩ _ := .alloc (by decide) heapAlloc_smallHeap
  exact .step h

theorem smallHeap_realloc {C : Sys Unit → ℕ → ℕ → Prop} {s : Sys Unit}
    (hb : SizeOk bytes) (hC : C smallHeapOne (pheapStart + 8) bytes)
    (hcall : heapRealloc smallPages 1 (pheapStart + 8) bytes smallHeapOne =
      .ok (pheapStart + 8, s)) :
    ReallocStep smallPages C ⟨smallHeapOne, [(pheapStart + 8, 8)]⟩
      ⟨s, [(pheapStart + 8, bytes)]⟩ := by
  have h := ReallocStep.realloc (c := ⟨smallHeapOne, [(pheapStart + 8, 8)]⟩)
    mem_cons_self hb hC hcall
  rwa [if_neg (by decide), erase_cons_head] at h

/-- A run that enlarges the block in place and keeps a rest of the last one. -/
theorem growth_safe_run_extend :
    ∃ s, heapRealloc smallPages 1 (pheapStart + 8) 4000 smallHeapOne = .ok (pheapStart + 8, s) ∧
      GrowthSafe smallPages ⟨s, [(pheapStart + 8, 4000)]⟩ := by
  have hcall : heapRealloc smallPages 1 (pheapStart + 8) 4000 smallHeapOne = .ok (pheapStart + 8,
      exec (heapRealloc smallPages 1 (pheapStart + 8) 4000) smallHeapOne) :=
    eq_ok_of_value (by decide +kernel)
  have hbelow : smallPages.Below (2 ^ 64 - 1) := fun spc phys virt flags g g' h =>
    (smallPages_below spc phys virt flags g g' h).trans (by decide)
  exact ⟨_, hcall, growth_safe_run (by decide) (by decide) hbelow heapInit_smallHeap
    (.tail (.single (smallHeap_alloc _))
      (smallHeap_realloc (by decide) (by decide +kernel) hcall))⟩

/-- After a `heap_realloc` that took the last block, the growth branch is entered at the owned
block, and the allocation returns it a second time. -/
theorem growth_hands_out_owned_block : NotGlobal smallHeap ∧
    heapInit smallPages 0 smallHeap = .ok (true, smallHeapReady) ∧
    ∃ c, Relation.ReflTransGen (ReallocStep smallPages fun _ _ _ => True) ⟨smallHeapReady, []⟩ c ∧
      (pheapStart + 8, 4064) ∈ c.owned ∧
      InGrowth c.sys 8 pheapStart ∧ blPresent (read64 c.sys.mem pheapStart) = true ∧
      ∃ s', heapAlloc smallPages 2 8 c.sys = .ok (pheapStart + 8, s') := by
  have hcall : heapRealloc smallPages 1 (pheapStart + 8) 4064 smallHeapOne = .ok (pheapStart + 8,
      exec (heapRealloc smallPages 1 (pheapStart + 8) 4064) smallHeapOne) :=
    eq_ok_of_value (by decide +kernel)
  refine ⟨by decide, heapInit_smallHeap, ⟨_, [(pheapStart + 8, 4064)]⟩,
    .tail (.single (smallHeap_alloc _)) (smallHeap_realloc (by decide) trivial hcall),
    mem_cons_self, ?_, ?_, ?_⟩
  · exact ⟨by decide +kernel, by decide +kernel, by decide +kernel, by decide +kernel⟩
  · decide +kernel
  · exact ⟨_, eq_ok_of_value (by decide +kernel)⟩

end Tachyon.Heap
