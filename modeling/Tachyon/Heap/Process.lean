import Tachyon.Heap.Search
import Tachyon.Heap.Owners

/-!
# The heap of a process

A heap without `PG_GLOBAL`: growing it only maps pages, so each operation keeps the invariant by
itself.  `heapAlloc_process` and `heapInit_process` are the specifications of the two calls.

`Client` adds the view of the callers, the blocks they own with the sizes they asked for, and
`Step` is one call or one write by an owner.  `ClientInv` is kept by every step, so it holds along
every run (`process_heap_run`).
-/

namespace Tachyon.Heap

open Prog List

variable {σ : Type} {P : Pages σ} {s : Sys σ} {bs : List Blk} {e bytes fuel : ℕ}

/-- The heap does not have `PG_GLOBAL`. -/
def NotGlobal (s : Sys σ) : Prop := s.heap.pgFl &&& pgGlobal = 0

instance (s : Sys σ) : Decidable (NotGlobal s) :=
  inferInstanceAs (Decidable (s.heap.pgFl &&& pgGlobal = 0))

/-- No page that ends above `e` is mapped. -/
def Pages.Below (P : Pages σ) (e : ℕ) : Prop :=
  ∀ spc phys virt flags g g', P.vmemMap spc phys virt flags g = .ok (true, g') →
    virt + pageSize4K ≤ e

variable {s' s₀ : Sys σ}

theorem SameHeap.notGlobal (h : SameHeap s s') (hng : NotGlobal s) :
    NotGlobal s' := by
  unfold NotGlobal
  rw [h.pgFl]
  exact hng

/-! ### Growth -/

/-- `k` pages from `mark` on are mapped, one after the other. -/
inductive Maps (P : Pages σ) (spc flags : ℕ) : ℕ → ℕ → σ → σ → Prop
  | none (mark : ℕ) (g : σ) : Maps P spc flags 0 mark g g
  | page {k mark phys : ℕ} {g g₁ g₂ g' : σ} (alloc : P.pmemAlloc g = .ok (phys, g₁))
      (map : P.vmemMap spc phys mark flags g₁ = .ok (true, g₂))
      (rest : Maps P spc flags k (mark + pageSize4K) g₂ g') : Maps P spc flags (k + 1) mark g g'

/-- `k` pages are mapped for the heap, and the next one is not. -/
def RunsOut (P : Pages σ) (s : Sys σ) (k : ℕ) : Prop :=
  ∃ g phys g₁ g₂, Maps P s.heap.space s.heap.pgFl k s.heap.state.vmemMark s.pages g ∧
    P.pmemAlloc g = .ok (phys, g₁) ∧
    P.vmemMap s.heap.space phys (s.heap.state.vmemMark + pageSize4K * k) s.heap.pgFl g₁ =
      .ok (false, g₂)

theorem Maps.trans {spc flags j k mark : ℕ} {g g' g'' : σ} (h : Maps P spc flags j mark g g')
    (h' : Maps P spc flags k (mark + pageSize4K * j) g' g'') :
    Maps P spc flags (j + k) mark g g'' := by
  induction h with
  | none mark g => rwa [Nat.zero_add]
  | @page j mark _ _ _ _ _ alloc map _ ih =>
    rw [Nat.succ_add]
    refine .page alloc map (ih ?_)
    rwa [Nat.mul_succ, Nat.add_comm (pageSize4K * j), ← Nat.add_assoc] at h'

/-- The pages run out behind the first `j` ones. -/
theorem RunsOut.behind {t : Sys σ} {j k : ℕ} (hsame : SameHeap s t)
    (hmark : t.heap.state.vmemMark = s.heap.state.vmemMark + pageSize4K * j)
    (hmaps : Maps P s.heap.space s.heap.pgFl j s.heap.state.vmemMark s.pages t.pages)
    (h : RunsOut P t k) : RunsOut P s (j + k) := by
  obtain ⟨g, phys, g₁, g₂, hmore, halloc, hmap⟩ := h
  rw [hsame.space, hsame.pgFl, hmark] at hmore hmap
  refine ⟨g, phys, g₁, g₂, hmaps.trans hmore, halloc, ?_⟩
  rwa [Nat.mul_add, ← Nat.add_assoc]

theorem sameHeap_grown (s : Sys σ) (g : σ) (p z : ℕ) :
    SameHeap s (grown { s with pages := g } p z) := by
  constructor <;> simp only [grown]

/-- A growth pass of a process heap enlarges the last block by the pages it maps, and changes nothing
in front of it. -/
theorem heapGrow_process {alloc : ℕ → Prog (Sys σ) ℕ} {pre : List Blk} {z : ℕ} (k i : ℕ)
    (hng : NotGlobal s) (hend : P.Below e ∨ s.heap.state.vmemMark + pageSize4K * k ≤ e)
    (h : WellFormed e s (pre ++ [⟨z + pageSize4K * i, false⟩])) :
    wlp (heapGrow P alloc (s.heap.start + span pre) z i k)
      (fun ok s' => SameHeap s s' ∧ ∃ j ≤ k, (ok = true → j = k) ∧ (j = 0 → s'.mem = s.mem) ∧
        WellFormed e s' (pre ++ [⟨z + pageSize4K * (i + j), false⟩]) ∧
        (∀ x, x < s.heap.start + span pre → s'.mem x = s.mem x) ∧
        if ok then Maps P s.heap.space s.heap.pgFl k s.heap.state.vmemMark s.pages s'.pages
        else j < k ∧ RunsOut P s j) s := by
  induction k generalizing i s with
  | zero =>
    exact wlp_pure ⟨SameHeap.refl s, 0, le_rfl, fun _ => rfl, fun _ => rfl, h, fun _ _ => rfl,
      .none _ _⟩
  | succ k ih =>
    apply wlp_bind
    refine wlp_zoom fun phys g1 halloc => ?_
    apply wlp_get_bind
    apply wlp_bind
    refine wlp_zoom fun ok g2 hmap => ?_
    rw [Nat.mul_succ] at hend
    apply wlp_ite
    · intro hok
      subst hok
      have hle : s.heap.state.vmemMark + pageSize4K ≤ e :=
        hend.elim (fun hP => hP _ _ _ _ _ _ hmap) (by omega)
      have h1 : WellFormed e { s with pages := g2 } (pre ++ [⟨z + pageSize4K * i, false⟩]) :=
        h.congr rfl rfl
      obtain ⟨h2, hout⟩ := h1.grow hle
      have hlt := h.end_lt
      have hmark : add64 s.heap.state.vmemMark pageSize4K = s.heap.state.vmemMark + pageSize4K :=
        add64_of_lt (by omega)
      apply wlp_modify_bind
      rw [if_neg (show ¬ _ from fun hg => hg hng), h2.tiled.grown_size]
      have hgrown := sameHeap_grown s g2 (s.heap.start + span pre) (z + pageSize4K * i + pageSize4K)
      have hrest := ih (i + 1) (hgrown.notGlobal hng)
        (hend.imp_right fun hle => by simp only [grown, hmark]; omega)
        (by rw [Nat.mul_succ, ← Nat.add_assoc]; exact h2)
      rw [hgrown.start] at hrest
      refine wlp_mono hrest ?_
      rintro r s' ⟨hsame, j, hj, hok, -, hwf, hmem, hpages⟩
      have hone : Maps P s.heap.space s.heap.pgFl 1 s.heap.state.vmemMark s.pages g2 :=
        .page halloc hmap (.none _ _)
      refine ⟨hgrown.trans hsame, j + 1, by omega, fun hr => by rw [hok hr], by simp, ?_,
        fun x hx => ?_, ?_⟩
      · rwa [Nat.add_comm j, ← Nat.add_assoc]
      · rw [hmem x hx]
        exact hout x hx
      · cases r with
        | true =>
          simp only [grown, hmark] at hpages
          exact .page halloc hmap hpages
        | false =>
          refine ⟨Nat.succ_lt_succ hpages.1, ?_⟩
          rw [Nat.add_comm]
          exact hpages.2.behind hgrown (by simp only [grown, hmark, Nat.mul_one]) hone
    · intro hok
      rw [Bool.not_eq_true] at hok
      subst hok
      exact wlp_pure ⟨⟨rfl, rfl, rfl, rfl⟩, 0, Nat.zero_le _, by simp, fun _ => rfl,
        h.congr rfl rfl, fun _ _ => rfl, Nat.succ_pos k, _, phys, g1, g2, .none _ _, halloc, hmap⟩

/-- What the search keeps over growth: the blocks in use `L` and their contents. -/
structure Kept (s₀ : Sys σ) (L : List (ℕ × ℕ)) (s : Sys σ) (bs : List Blk) : Prop where
  same : SameHeap s₀ s
  live : live s.heap.start bs = L
  untouched : Untouched s₀.mem s.mem L

theorem growKeeps_kept {L : List (ℕ × ℕ)} (hng : NotGlobal s₀)
    (hP : P.Below e) : GrowKeeps P e (Kept s₀ L) (Kept s₀ L) bytes := by
  intro n s pre z hwf hk hno
  refine wlp_mono (heapGrow_process (growPages bytes) 0 (hk.same.notGlobal hng) (.inl hP)
    (by simpa using hwf)) ?_
  rintro ok s' ⟨hsame, j, -, -, -, hwf', hmem, -⟩
  have hkept : Kept s₀ L s' (pre ++ [⟨z + pageSize4K * (0 + j), false⟩]) := by
    refine ⟨hk.same.trans hsame, ?_, ?_⟩
    · rw [hsame.start, ← hk.live]
      simp
    · refine hk.untouched.trans fun p w hp x h1 h2 => hmem x ?_
      rw [← hk.live] at hp
      simp only [live_append, live_cons_free, live_nil, append_nil] at hp
      have := live_bounds hp
      omega
  refine ⟨hsame, ?_⟩
  split_ifs
  · exact ⟨pre, [_], by simp, rfl, fun c hc => hno c (by simp [hc]), hwf', hkept⟩
  · exact ⟨_, hwf', hkept⟩

/-- **`heap_alloc` on a process heap**: `NULL`, with all blocks in use as they were; or a new block
of the rounded size, the others as they were. -/
theorem heapAlloc_process (h : WellFormed e s bs) (hng : NotGlobal s)
    (hP : P.Below e) (hb : NoWrap bytes) :
    wlp (heapAlloc P fuel bytes) (fun p s' => SameHeap s s' ∧
      Untouched s.mem s'.mem (live s.heap.start bs) ∧ ∃ bs', WellFormed e s' bs' ∧
        (p = 0 ∧ live s.heap.start bs' = live s.heap.start bs ∨
          p ≠ 0 ∧ (live s.heap.start bs').Perm
            ((p, alignUp bytes blockT) :: live s.heap.start bs))) s := by
  apply wlp_heapCheck_bind
  have hne : bs ≠ [] := by
    obtain ⟨pre, z, rfl⟩ := h.lastFree
    simp
  have hat : At e (alignUp bytes blockT) (Kept s (live s.heap.start bs)) s s.heap.start :=
    ⟨[], bs, hne, rfl, by simp [NoFit], h, SameHeap.refl s, rfl, Untouched.refl _ _⟩
  refine wlp_mono (allocLoop_end (growKeeps_kept hng hP) hb.2 hat) ?_
  rintro p s' ⟨hsame, ⟨rfl, bs', hwf, hk⟩ | ⟨t, pre, z, post, hwf, hk, -, hfit, rfl, rfl⟩⟩
  · refine ⟨hsame, hk.untouched, bs', hwf, Or.inl ⟨rfl, ?_⟩⟩
    have hlive := hk.live
    rwa [hsame.start] at hlive
  obtain ⟨hwf', hunt⟩ := hwf.split hb.alignUp.1 hfit
  refine ⟨hsame, ?_, _, hwf', Or.inr ⟨by omega, ?_⟩⟩
  · rw [hk.live] at hunt
    exact hk.untouched.trans hunt
  · rw [← hk.live, ← hk.same.start]
    exact live_split_perm hfit

section

variable {fuel : ℕ} (hP : P.Below e ∨ s.heap.start + pageSize4K ≤ e) (hend : e < 2 ^ 64)
  (hstart : pageSize4K ∣ s.heap.start)
include hP hend hstart

/-- `heap_init` up to the registration of the first page: the heap is one free block. -/
theorem heapInit_spec {Q : Sys σ → Prop} (hQ : ∀ s₁ phys, SameHeap s s₁ → s₁.globMap = s.globMap →
      s₁.heap.state.vmemMark = s.heap.start + pageSize4K →
      WellFormed e s₁ [⟨pageSize4K - 16, false⟩] →
      wlp (if s.heap.pgFl &&& pgGlobal ≠ 0 then do
          vmemMgmtAddGlobalMapping (heapAlloc P fuel) phys s.heap.start s.heap.pgFl
          pure true
        else pure true) (fun ok s' => ok = true → Q s') s₁) :
    wlp (heapInit P fuel) (fun ok s' => ok = true → Q s') s := by
  refine wlp_ite (fun _ => wlp_pure (by simp)) fun hpos => ?_
  apply wlp_heapCheck_bind
  apply wlp_modify_bind
  apply wlp_bind
  refine wlp_zoom fun phys g1 _ => ?_
  refine wlp_ite (fun _ => wlp_pure (by simp)) fun _ => ?_
  apply wlp_bind
  refine wlp_zoom fun ok g2 hmap => ?_
  refine wlp_ite (fun hok => ?_) fun _ => wlp_pure (by simp)
  subst hok
  have hle : s.heap.start + pageSize4K ≤ e := hP.elim (fun hP => hP _ _ _ _ _ _ hmap) id
  have hps : pageSize4K = 4096 := rfl
  have hge : pageSize4K ≤ s.heap.start := Nat.le_of_dvd (by omega) hstart
  have hmark : add64 s.heap.start pageSize4K = s.heap.start + pageSize4K := by
    rw [add64_of_lt (by omega)]
  have hsz : blSz2DataSz pageSize4K = pageSize4K - 16 := by decide
  refine hQ _ phys ⟨rfl, rfl, rfl, rfl⟩ rfl hmark ?_
  refine ⟨?_, isChain_singleton _, [], _, rfl⟩
  constructor
  · simp only [hmark, hsz]
    exact ⟨blkAt_blSet (u := false) (by omega) (by omega), by simp only [Tiles, Blk.span]; omega⟩
  · simp
  · simp
  · simpa only using hge
  · simpa only using hstart
  · simpa only [hmark] using hle
  · exact hend

/-- **`heap_init` on a process heap** leaves one free block. -/
theorem heapInit_process (hng : NotGlobal s) :
    wlp (heapInit P fuel) (fun ok s' => ok = true →
      SameHeap s s' ∧ WellFormed e s' [⟨pageSize4K - 16, false⟩]) s := by
  refine heapInit_spec hP hend hstart fun s₁ phys hsame _ _ hwf => ?_
  exact wlp_ite (fun hg => absurd hng hg) fun _ => wlp_pure fun _ => ⟨hsame, hwf⟩

end

/-! ### Runs -/

/-- A heap with the blocks its callers own: address and requested size. -/
structure Client (σ : Type) where
  sys : Sys σ
  owned : List (ℕ × ℕ)

/-- One event of a run with requests of the sizes `S`: a call that returns, a write by an owner
inside its block, or a change of the rest of the system. -/
inductive Step (P : Pages σ) (S : ℕ → Prop) : Client σ → Client σ → Prop
  | alloc {c : Client σ} {fuel bytes p : ℕ} {s' : Sys σ} (size : S bytes)
      (call : heapAlloc P fuel bytes c.sys = .ok (p, s')) :
      Step P S c ⟨s', if p = 0 then c.owned else (p, bytes) :: c.owned⟩
  | free {c : Client σ} {m n : ℕ} {s' : Sys σ} (own : (m, n) ∈ c.owned)
      (call : heapFree P m c.sys = .ok ((), s')) : Step P S c ⟨s', c.owned.erase (m, n)⟩
  | write {c : Client σ} {m n : ℕ} {mem' : Mem} (own : (m, n) ∈ c.owned)
      (inside : ∀ x, x < m ∨ m + capacity c.sys m ≤ x → mem' x = c.sys.mem x) :
      Step P S c ⟨{ c.sys with mem := mem' }, c.owned⟩
  | other {c : Client σ} (g : σ) : Step P S c ⟨{ c.sys with pages := g }, c.owned⟩

/-- The invariant of a process heap and its callers. -/
structure ClientInv (P : Pages σ) (e : ℕ) (c : Client σ) (bs : List Blk) (lost : List ℕ) :
    Prop where
  owns : Owns e c.sys bs c.owned lost
  notGlobal : NotGlobal c.sys
  below : P.Below e

section Runs

variable {c : Client σ} {lost : List ℕ}

theorem ClientInv.alloc (h : ClientInv P e c bs lost) {p : ℕ}
    (hb : NoWrap bytes) (hcall : heapAlloc P fuel bytes c.sys = .ok (p, s')) :
    SameHeap c.sys s' ∧
      ∃ bs', ClientInv P e ⟨s', if p = 0 then c.owned else (p, bytes) :: c.owned⟩ bs' lost := by
  obtain ⟨hsame, -, bs', hwf, hp⟩ := heapAlloc_process h.owns.wf h.notGlobal h.below hb _ _ hcall
  refine ⟨hsame, bs', ?_, hsame.notGlobal h.notGlobal, h.below⟩
  rcases hp with ⟨rfl, hl⟩ | ⟨hp0, hl⟩
  · rw [if_pos rfl]
    exact h.owns.same hsame hwf hl
  · rw [if_neg hp0]
    exact h.owns.add hsame hwf hl hb.alignUp.2.1

variable {m n : ℕ} {s₁ : Sys σ}

theorem ClientInv.free (h : ClientInv P e c bs lost)
    (hm : (m, n) ∈ c.owned) (hcall : heapFree P m c.sys = .ok ((), s')) :
    SameHeap c.sys s' ∧ ∃ bs' lost', ClientInv P e ⟨s', c.owned.erase (m, n)⟩ bs' lost' ∧
      (e ≤ c.sys.heap.endAddr → lost' = lost) := by
  obtain ⟨hsame, -, -, -, bs', lost', howns, hlost⟩ := h.owns.free hm _ _ hcall
  exact ⟨hsame, bs', lost', ⟨howns, hsame.notGlobal h.notGlobal, h.below⟩, hlost⟩

/-- An owner may use all of its block, not only what it asked for. -/
theorem Owns.write_capacity {O : List (ℕ × ℕ)} {mem' : Mem} (h : Owns e s bs O lost)
    (hm : (m, n) ∈ O) (hin : ∀ x, x < m ∨ m + capacity s m ≤ x → mem' x = s.mem x) :
    Owns e { s with mem := mem' } bs O lost := by
  obtain ⟨pre, z, post, rfl, rfl, -⟩ := h.block hm
  rw [h.wf.tiled.capacity_eq] at hin
  refine ⟨h.wf.write fun x hx => hin x ?_, h.perm, h.size⟩
  exact hx _ z (mem_live_iff.2 ⟨pre, post, rfl, rfl⟩)

/-- Every step keeps the invariant. -/
theorem ClientInv.step {S : ℕ → Prop} {c' : Client σ} (h : ClientInv P e c bs lost)
    (hS : ∀ n, S n → NoWrap n) (hs : Step P S c c') :
    c'.sys.heap.endAddr = c.sys.heap.endAddr ∧
      ∃ bs' lost', ClientInv P e c' bs' lost' ∧ (e ≤ c.sys.heap.endAddr → lost' = lost) := by
  cases hs with
  | alloc size call =>
    obtain ⟨hsame, bs', h'⟩ := h.alloc (hS _ size) call
    exact ⟨hsame.endAddr, bs', lost, h', fun _ => rfl⟩
  | free own call =>
    obtain ⟨hsame, h'⟩ := h.free own call
    exact ⟨hsame.endAddr, h'⟩
  | write own inside =>
    exact ⟨rfl, bs, lost, ⟨h.owns.write_capacity own inside, h.notGlobal, h.below⟩, fun _ => rfl⟩
  | other g =>
    exact ⟨rfl, bs, lost, ⟨h.owns.congr rfl rfl, h.notGlobal, h.below⟩, fun _ => rfl⟩

section

variable (hng : NotGlobal s₀) (hstart : pageSize4K ∣ s₀.heap.start) (hend : e < 2 ^ 64)
  (hP : P.Below e)
include hng hstart hend hP

/-- After `heap_init` nobody owns a block. -/
theorem ClientInv.init (hinit : heapInit P fuel s₀ = .ok (true, s₁)) :
    SameHeap s₀ s₁ ∧ ClientInv P e ⟨s₁, []⟩ [⟨pageSize4K - 16, false⟩] [] := by
  obtain ⟨hsame, hwf⟩ := heapInit_process (.inl hP) hend hstart hng _ _ hinit rfl
  exact ⟨hsame, ⟨hwf, by simp, by simp⟩, hsame.notGlobal hng, hP⟩

/-- The invariant holds along every run from `heap_init`. -/
theorem ClientInv.run (hinit : heapInit P fuel s₀ = .ok (true, s₁))
    (hrun : Relation.ReflTransGen (Step P NoWrap) ⟨s₁, []⟩ c) :
    ∃ bs lost, ClientInv P e c bs lost := by
  induction hrun with
  | refl => exact ⟨_, _, (ClientInv.init hng hstart hend hP hinit).2⟩
  | tail _ hstep ih =>
    obtain ⟨bs, lost, h⟩ := ih
    obtain ⟨-, bs', lost', h', -⟩ := h.step (fun _ => id) hstep
    exact ⟨bs', lost', h'⟩

end

/-- **Process heap over whole runs**: after `heap_init`, along every sequence of calls and writes,
the heap is tiled by blocks whose headers and footers agree, free neighbours are merged, the last
block is free, the callers own disjoint blocks that are large enough, the counters are exact, and
an allocation that fails leaves the blocks in use and the counters alone.  `Pages.Below` says that
`vmem_mark` does not pass the end of the heap, during a call either. -/
theorem process_heap_run {s₀ s₁ : Sys σ} {fuel : ℕ} (hng : NotGlobal s₀)
    (hstart : pageSize4K ∣ s₀.heap.start) (hend : s₀.heap.endAddr < 2 ^ 64)
    (hP : P.Below s₀.heap.endAddr) (hinit : heapInit P fuel s₀ = .ok (true, s₁))
    (hrun : Relation.ReflTransGen (Step P NoWrap) ⟨s₁, []⟩ c) :
    ∃ bs, Tiles c.sys.mem c.sys.heap.start bs c.sys.heap.state.vmemMark ∧
      (∀ b ∈ bs, 8 ∣ b.size) ∧ Coalesced bs ∧ LastFree bs ∧
      (live c.sys.heap.start bs).Pairwise (fun p q => p.1 + p.2 + 16 ≤ q.1) ∧
      (c.owned.map Prod.fst).Perm ((live c.sys.heap.start bs).map Prod.fst) ∧
      (∀ m n, (m, n) ∈ c.owned → ∃ z, (m, z) ∈ live c.sys.heap.start bs ∧ n ≤ z) ∧
      c.sys.heap.state.usedBytes = ((live c.sys.heap.start bs).map Prod.snd).sum ∧
      c.sys.heap.state.blockCount = c.owned.length ∧
      ∀ fuel bytes s', NoWrap bytes → heapAlloc P fuel bytes c.sys = .ok (0, s') →
        Untouched c.sys.mem s'.mem (live c.sys.heap.start bs) ∧
        (∃ bs', Tiles s'.mem s'.heap.start bs' s'.heap.state.vmemMark ∧
          live s'.heap.start bs' = live c.sys.heap.start bs) ∧
        s'.heap.state.usedBytes = c.sys.heap.state.usedBytes ∧
        s'.heap.state.blockCount = c.sys.heap.state.blockCount := by
  -- below the end of the heap no block is ever lost
  have hinv : c.sys.heap.endAddr = s₀.heap.endAddr ∧
      ∃ bs, ClientInv P s₀.heap.endAddr c bs [] := by
    induction hrun with
    | refl =>
      obtain ⟨hsame, h⟩ := ClientInv.init hng hstart hend hP hinit
      exact ⟨hsame.endAddr, _, h⟩
    | tail _ hstep ih =>
      obtain ⟨he, bs, h⟩ := ih
      obtain ⟨he', bs', lost', h', hlost⟩ := h.step (fun _ => id) hstep
      obtain rfl := hlost he.ge
      exact ⟨he'.trans he, bs', h'⟩
  obtain ⟨-, bs, ⟨h, hng', hP'⟩⟩ := hinv
  have hperm := h.perm
  rw [append_nil] at hperm
  refine ⟨bs, h.wf.tiles, h.wf.tiles.aligned, h.wf.coalesced, h.wf.lastFree,
    live_sorted _ _, hperm, h.size, h.wf.usedBytes, ?_, ?_⟩
  · rw [h.wf.blockCount, ← length_map Prod.fst, ← hperm.length_eq, length_map]
  intro fuel bytes s' hb hcall
  obtain ⟨hsame, hunt, bs', hwf, hp⟩ :=
    heapAlloc_process h.wf hng' hP' hb _ _ hcall
  obtain ⟨-, hl⟩ := hp.resolve_right fun hne => hne.1 rfl
  rw [← hsame.start] at hl
  refine ⟨hunt, ⟨bs', hwf.tiles, by rw [hl, hsame.start]⟩, ?_, ?_⟩
  · rw [hwf.usedBytes, h.wf.usedBytes, hl, hsame.start]
  · rw [hwf.blockCount, h.wf.blockCount, hl, hsame.start]

end Runs

/-! ### A small heap -/

/-- Pages for a heap of at most a megabyte: `pmem_alloc` returns a fixed page and `vmem_map`
succeeds below the end of the heap. -/
def smallPages : Pages Unit where
  spcCurrent _ := pageSize4K
  pmemAlloc := pure pageSize4K
  vmemMap _ _ virt _ := pure (decide (virt + pageSize4K ≤ pheapStart + 0x100000))

/-- A process heap before `heap_init`. -/
def smallHeap : Sys Unit where
  heap := ⟨pheapStart, pheapStart + 0x100000, pgUser ||| pgWritable, pageSize4K, ⟨false, 0, 0, 0⟩⟩
  mem := fun _ => 0
  globMap := 0
  pages := ()

theorem smallPages_below : smallPages.Below smallHeap.heap.endAddr := by
  intro spc phys virt flags g g' h
  simp only [smallPages, run_pure, Except.ok.injEq, Prod.mk.injEq, decide_eq_true_eq] at h
  exact h.1

/-- The small heap after `heap_init`. -/
def smallHeapReady : Sys Unit := exec (heapInit smallPages 0) smallHeap

theorem heapInit_smallHeap : heapInit smallPages 0 smallHeap = .ok (true, smallHeapReady) :=
  eq_ok_of_value (by decide +kernel)

theorem process_heap_run_alloc :
    ∃ s, heapInit smallPages 0 smallHeap = .ok (true, smallHeapReady) ∧
      heapAlloc smallPages 1 100 smallHeapReady = .ok (pheapStart + 8, s) ∧
      s.heap.state.blockCount = 1 ∧
      ∃ bs, Tiles s.mem s.heap.start bs s.heap.state.vmemMark ∧ Coalesced bs ∧ LastFree bs := by
  have hcall : heapAlloc smallPages 1 100 smallHeapReady =
      .ok (pheapStart + 8, exec (heapAlloc smallPages 1 100) smallHeapReady) :=
    eq_ok_of_value (by decide +kernel)
  obtain ⟨bs, htiles, -, hco, hlast, -, -, -, -, hcount, -⟩ :=
    process_heap_run (by decide) (by decide) (by decide) smallPages_below heapInit_smallHeap
      (.single (.alloc (by decide) hcall))
  exact ⟨_, heapInit_smallHeap, hcall, hcount, bs, htiles, hco, hlast⟩

end Tachyon.Heap
