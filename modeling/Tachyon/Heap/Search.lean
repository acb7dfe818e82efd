import Tachyon.Heap.Alloc

/-!
# The search loop of `heap_alloc`

`Visits` relates the start of the loop to the states it passes, with the block it looks at in each.
If the heap is well formed at the start, it is in all of them, and the block looked at is a block
of the tiling (`visits_at`); the loop ends by handing out the block it looks at, or with `NULL`
(`allocLoop_end`).

`G` is a predicate kept over the search and `H` one that holds when it fails; `GrowKeeps` is their
proof obligation, one growth pass.
-/

namespace Tachyon.Heap

open Prog List

variable {σ : Type} {P : Pages σ} {G H : Sys σ → List Blk → Prop} {e bytes b n : ℕ} {s s' : Sys σ}

/-- The loop, started with fuel `n` at block `b` in state `s`, passes block `b'` in state `s'`. -/
inductive Visits (P : Pages σ) (bytes : ℕ) : ℕ → Sys σ → ℕ → ℕ → Sys σ → ℕ → Prop
  | here (n : ℕ) (s : Sys σ) (b : ℕ) : Visits P bytes n s b n s b
  | next {n n' : ℕ} {s s₁ s' : Sys σ} {b b₁ b' : ℕ}
      (range : s.heap.start ≤ b ∧ b < s.heap.state.vmemMark)
      (iter : allocIter P (heapAlloc P n) bytes b s = .ok (.next b₁, s₁))
      (rest : Visits P bytes n s₁ b₁ n' s' b') : Visits P bytes (n + 1) s b n' s' b'

theorem allocLoop_succ (n block : ℕ) :
    allocLoop P (n + 1) bytes block = (do
      let s ← .get
      if block ≥ s.heap.start ∧ block < s.heap.state.vmemMark then
        let r ← allocIter P (heapAlloc P n) bytes block
        match r with
        | .done p => pure p
        | .next block => allocLoop P n bytes block
      else pure 0) := rfl

/-- The loop returns from the last block it visits. -/
theorem allocLoop_ok {r : ℕ} (h : allocLoop P n bytes b s = .ok (r, s')) :
    ∃ n1 s1 b1, Visits P bytes n s b (n1 + 1) s1 b1 ∧
      ((¬ (s1.heap.start ≤ b1 ∧ b1 < s1.heap.state.vmemMark) ∧ r = 0 ∧ s' = s1) ∨
        allocIter P (heapAlloc P n1) bytes b1 s1 = .ok (.done r, s')) := by
  induction n generalizing s b with
  | zero => cases h
  | succ n ih =>
    rw [allocLoop_succ, run_get_bind] at h
    by_cases hr : b ≥ s.heap.start ∧ b < s.heap.state.vmemMark
    · rw [if_pos hr] at h
      obtain ⟨i, s1, hi, hrest⟩ := bind_eq_ok.1 h
      cases i with
      | done p =>
        cases hrest
        exact ⟨n, s, b, .here _ _ _, Or.inr hi⟩
      | next b1 =>
        obtain ⟨n2, s2, b2, hv, hend⟩ := ih hrest
        exact ⟨n2, s2, b2, .next hr hi hv, hend⟩
    · rw [if_neg hr] at h
      cases h
      exact ⟨n, _, b, .here _ _ _, Or.inl ⟨hr, rfl, rfl⟩⟩

/-- No block is free and large enough. -/
def NoFit (bytes : ℕ) (bs : List Blk) : Prop := ∀ c ∈ bs, c.used = false → c.size < bytes + 16

/-- The heap is well formed with `G`, and `b` is the address of one of its blocks; none in front of
it fits. -/
def At (e bytes : ℕ) (G : Sys σ → List Blk → Prop) (s : Sys σ) (b : ℕ) : Prop :=
  ∃ pre rest, rest ≠ [] ∧ b = s.heap.start + span pre ∧ NoFit bytes pre ∧
    WellFormed e s (pre ++ rest) ∧ G s (pre ++ rest)

/-- The outcomes of an allocation: `NULL`, or the first free block that fits handed out. -/
def AllocEnd (e : ℕ) (G H : Sys σ → List Blk → Prop) (bytes p : ℕ) (s' : Sys σ) : Prop :=
  (p = 0 ∧ ∃ bs, WellFormed e s' bs ∧ H s' bs) ∨
    ∃ s pre z post, WellFormed e s (pre ++ ⟨z, false⟩ :: post) ∧ G s (pre ++ ⟨z, false⟩ :: post) ∧
      NoFit bytes pre ∧ bytes + 16 ≤ z ∧ p = s.heap.start + span pre + 8 ∧
      s' = allocated s (s.heap.start + span pre) bytes

/-- A growth pass of a request that no block satisfies.  If it maps all its pages, it keeps the
invariant and `G`, and its block stays a block of the tiling; otherwise it ends in `H`. -/
def GrowKeeps (P : Pages σ) (e : ℕ) (G H : Sys σ → List Blk → Prop) (bytes : ℕ) : Prop :=
  ∀ n s pre z, WellFormed e s (pre ++ [⟨z, false⟩]) → G s (pre ++ [⟨z, false⟩]) →
    NoFit bytes (pre ++ [⟨z, false⟩]) →
    wlp (heapGrow P (heapAlloc P n) (s.heap.start + span pre) z 0 (growPages bytes))
      (fun ok s' => SameHeap s s' ∧
        if ok then ∃ pre' rest, rest ≠ [] ∧ span pre' = span pre ∧ NoFit bytes pre' ∧
          WellFormed e s' (pre' ++ rest) ∧ G s' (pre' ++ rest)
        else ∃ bs, WellFormed e s' bs ∧ H s' bs) s

theorem noFit_append_singleton {pre : List Blk} {c : Blk} (h : NoFit bytes pre)
    (hc : c.used = false → c.size < bytes + 16) : NoFit bytes (pre ++ [c]) := by
  intro d hd
  rcases mem_append.1 hd with hd | hd
  · exact h d hd
  · rw [mem_singleton.1 hd]
    exact hc

section Iteration

variable {s : Sys σ} {pre rest : List Blk} {b : ℕ} {c : Blk}

/-- One iteration from a block of a well-formed heap. -/
theorem allocIter_at (hG : GrowKeeps P e G H bytes) (hlt : bytes + 16 < 2 ^ 64)
    (h : At e bytes G s b) (n : ℕ) :
    wlp (allocIter P (heapAlloc P n) bytes b) (fun r s' => SameHeap s s' ∧
      match r with
      | .done p => AllocEnd e G H bytes p s'
      | .next b' => At e bytes G s' b') s := by
  obtain ⟨pre, rest, hne, rfl, hno, hwf, hg⟩ := h
  obtain ⟨c, rest, rfl⟩ := exists_cons_of_ne_nil hne
  apply wlp_ite
  · -- the block is handed out
    intro hfit
    obtain ⟨hfree, hsz⟩ := (hwf.tiled.fits_iff hlt).1 hfit
    obtain ⟨z, u⟩ := c
    subst hfree
    have hblk := hwf.tiled.lt_of_block
    simp only [Blk.span] at hblk hsz
    rintro _ _ ⟨⟩
    refine ⟨⟨rfl, rfl, rfl, rfl⟩, Or.inr ⟨s, pre, z, rest, hwf, hg, hno, hsz, ?_, rfl⟩⟩
    rw [blH2M, blockT, add64_of_lt (by omega)]
  · intro hfit
    apply wlp_ite
    · -- the growth branch: the block is the last one, so it is free
      intro hnext
      have hrest : rest = [] := by
        by_contra hr
        exact hnext ((hwf.tiled.hasNext_iff).2 hr)
      subst hrest
      obtain ⟨l, z, hl⟩ := hwf.lastFree.of_append _ (by simp : ([c] : List Blk) ≠ [])
      obtain ⟨rfl, rfl⟩ : l = [] ∧ c = ⟨z, false⟩ := by
        cases l <;> simp_all
      have hsz : NoFit bytes (pre ++ [⟨z, false⟩]) :=
        noFit_append_singleton hno fun _ => not_le.1 fun hz => hfit ((hwf.tiled.fits_iff hlt).2 ⟨rfl, hz⟩)
      rw [hwf.tiles.blkAt.dataSz]
      refine wlp_seq (hG n s pre z hwf hg hsz) ?_
      rintro ok s' ⟨hsame, hend⟩
      apply wlp_ite
      · intro hok
        rw [if_pos hok] at hend
        obtain ⟨pre', rest', hr, hspan, hno', hwf', hg'⟩ := hend
        apply wlp_pure
        refine ⟨hsame, pre', rest', hr, ?_, hno', hwf', hg'⟩
        rw [hsame.start, hspan]
      · intro hok
        rw [if_neg hok] at hend
        exact wlp_pure ⟨hsame, Or.inl ⟨rfl, hend⟩⟩
    · intro hnext
      have hr : rest ≠ [] := hwf.tiled.hasNext_iff.1 (by simpa using hnext)
      apply wlp_pure
      refine ⟨SameHeap.refl s, pre ++ [c], rest, hr, ?_, ?_, by simpa using hwf, by simpa using hg⟩
      · rw [hwf.tiles.blkAt.next hwf.tiled.lt_of_block]
        simp [Nat.add_assoc]
      · exact noFit_append_singleton hno fun hu =>
          not_le.1 fun hz => hfit ((hwf.tiled.fits_iff hlt).2 ⟨hu, hz⟩)

end Iteration

section

variable (hG : GrowKeeps P e G H bytes) (hlt : bytes + 16 < 2 ^ 64)
include hG hlt

/-- Every state the search passes is well formed, at one of its blocks. -/
theorem visits_at {n' b' : ℕ} (hv : Visits P bytes n s b n' s' b') (h : At e bytes G s b) :
    SameHeap s s' ∧ At e bytes G s' b' := by
  induction hv with
  | here => exact ⟨SameHeap.refl _, h⟩
  | next _ iter _ ih =>
    obtain ⟨hsame, hat⟩ := allocIter_at hG hlt h _ _ _ iter
    obtain ⟨hsame', hat'⟩ := ih hat
    exact ⟨hsame.trans hsame', hat'⟩

/-- **The search ends** by handing out a free block that is large enough, or with `NULL`. -/
theorem allocLoop_end (h : At e bytes G s b) :
    wlp (allocLoop P n bytes b) (fun p s' => SameHeap s s' ∧ AllocEnd e G H bytes p s') s := by
  intro p s' hp
  obtain ⟨n1, s1, b1, hv, hend⟩ := allocLoop_ok hp
  obtain ⟨hsame, hat⟩ := visits_at hG hlt hv h
  rcases hend with ⟨hout, -, -⟩ | hiter
  · obtain ⟨pre, rest, hne, rfl, -, hwf, -⟩ := hat
    obtain ⟨c, rest, rfl⟩ := exists_cons_of_ne_nil hne
    refine absurd ⟨by omega, ?_⟩ hout
    rw [hwf.tiled.mark_eq]
    simp only [span_append, span_cons, Blk.span]
    omega
  · obtain ⟨hsame', hend⟩ := allocIter_at hG hlt hat _ _ _ hiter
    exact ⟨hsame.trans hsame', hend⟩

end

end Tachyon.Heap
