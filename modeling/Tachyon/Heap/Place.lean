import Tachyon.Heap.Search
import Tachyon.Heap.Free

/-!
# First fit on block lists

`place n bs` is the block list after `n` bytes were taken from the first free block that fits.
When there is one, `heap_alloc` does just that (`heapAlloc_fit`); in particular it does not grow
the heap.

Growing the kernel heap by one page places a mapping record and a list node (`placeMapping`).  A
growth pass of several pages is harmless when the blocks in front of the last one have room for
these, for each page but the last (`growPass`).  `Room` says so for every pass of a request.
-/

namespace Tachyon.Heap

open Prog List

variable {n k z bytes m : ℕ} {bs bs' pre pre' post : List Blk}

/-- Take `n` bytes from the first free block that fits. -/
def place (n : ℕ) : List Blk → Option (List Blk)
  | [] => none
  | b :: bs =>
    if b.used = false ∧ n + 16 ≤ b.size then
      some (⟨n, true⟩ :: ⟨b.size - (n + 16), false⟩ :: bs)
    else (place n bs).map (b :: ·)

theorem place_first (hpre : NoFit n pre) (hz : n + 16 ≤ z) (post : List Blk) :
    place n (pre ++ ⟨z, false⟩ :: post) =
      some (pre ++ ⟨n, true⟩ :: ⟨z - (n + 16), false⟩ :: post) := by
  induction pre with
  | nil => simp [place, hz]
  | cons b pre ih =>
    have hb := hpre b mem_cons_self
    rw [cons_append, place, if_neg (fun h => by have := hb h.1; omega),
      ih fun c hc => hpre c (mem_cons_of_mem _ hc)]
    rfl

/-- Where the data of a request for `n` bytes begins, in a process heap whose blocks begin at `a`: in
the first free block that has room, or else in the last one, which grows. -/
def dataAddr (n a : ℕ) : List Blk → ℕ
  | [] => a + 8
  | [_] => a + 8
  | b :: c :: bs =>
    if b.used = false ∧ n + 16 ≤ b.size then a + 8 else dataAddr n (a + b.span) (c :: bs)

theorem dataAddr_first {a : ℕ} (hpre : NoFit n pre) (hz : post = [] ∨ n + 16 ≤ z) :
    dataAddr n a (pre ++ ⟨z, false⟩ :: post) = a + span pre + 8 := by
  induction pre generalizing a with
  | nil =>
    cases post with
    | nil => rfl
    | cons c post =>
      rw [nil_append, dataAddr, if_pos ⟨rfl, hz.resolve_left (by simp)⟩, span_nil, Nat.add_zero]
  | cons b pre ih =>
    have hb := hpre b mem_cons_self
    have hrest := ih (a := a + b.span) fun c hc => hpre c (mem_cons_of_mem _ hc)
    obtain ⟨c, rest, heq⟩ := exists_cons_of_ne_nil
      (show pre ++ ⟨z, false⟩ :: post ≠ [] by simp)
    rw [cons_append, heq, dataAddr, if_neg fun hc => absurd hc.2 (not_le.2 (hb hc.1)), ← heq, hrest,
      span_cons, Nat.add_assoc a]

theorem place_eq_some (h : place n bs = some bs') : ∃ pre z post, bs = pre ++ ⟨z, false⟩ :: post ∧
    NoFit n pre ∧ n + 16 ≤ z ∧ bs' = pre ++ ⟨n, true⟩ :: ⟨z - (n + 16), false⟩ :: post := by
  induction bs generalizing bs' with
  | nil => cases h
  | cons b bs ih =>
    rw [place] at h
    split_ifs at h with hb
    · obtain ⟨z, u⟩ := b
      obtain ⟨rfl, hz⟩ := hb
      cases h
      exact ⟨[], z, bs, rfl, by simp [NoFit], hz, rfl⟩
    · obtain ⟨bs1, hbs1, rfl⟩ := Option.map_eq_some_iff.1 h
      obtain ⟨pre, z, post, rfl, hpre, hz, rfl⟩ := ih hbs1
      refine ⟨b :: pre, z, post, rfl, ?_, hz, rfl⟩
      intro c hc
      rcases mem_cons.1 hc with rfl | hc
      · exact fun hu => not_le.1 fun hle => hb ⟨hu, hle⟩
      · exact hpre c hc

theorem noFit_of_place_eq_none (h : place n bs = none) : NoFit n bs := by
  induction bs with
  | nil => simp [NoFit]
  | cons b bs ih =>
    rw [place] at h
    split_ifs at h with hb
    intro c hc
    rcases mem_cons.1 hc with rfl | hc
    · exact fun hu => not_le.1 fun hle => hb ⟨hu, hle⟩
    · exact ih (Option.map_eq_none_iff.1 h) c hc

/-- Blocks behind do not matter when there is room in front. -/
theorem place_append (h : place n pre = some pre') (post : List Blk) :
    place n (pre ++ post) = some (pre' ++ post) := by
  obtain ⟨xs, z, ys, rfl, hxs, hz, rfl⟩ := place_eq_some h
  simpa using place_first hxs hz (ys ++ post)

theorem place_span (h : place n bs = some bs') : span bs' = span bs := by
  obtain ⟨pre, z, post, rfl, -, hz, rfl⟩ := place_eq_some h
  simp only [span_append, span_cons, Blk.span]
  omega

/-- The blocks in use stay in use. -/
theorem live_subset_of_place (h : place n bs = some bs') (a : ℕ) : live a bs ⊆ live a bs' := by
  obtain ⟨pre, z, post, rfl, -, hz, rfl⟩ := place_eq_some h
  exact fun x hx => (live_split_perm hz).mem_iff.2 (mem_cons_of_mem _ hx)

/-- Taking a block does not make room for a larger one. -/
theorem NoFit.place (hno : NoFit m bs) (h : place n bs = some bs') : NoFit m bs' := by
  obtain ⟨pre, z, post, rfl, -, hz, rfl⟩ := place_eq_some h
  intro c hc
  rcases mem_append.1 hc with hc | hc
  · exact hno c (mem_append_left _ hc)
  rcases mem_cons.1 hc with rfl | hc
  · simp
  · rcases mem_cons.1 hc with rfl | hc
    · have := hno ⟨z, false⟩ (by simp) rfl
      simp only at this ⊢
      omega
    · exact hno c (by simp [hc])

/-- A mapping record and a list node. -/
def placeMapping (bs : List Blk) : Option (List Blk) :=
  (place sizeofGlobMapping bs).bind (place sizeofListNode)

/-- The records and nodes of `k` pages. -/
def placeMappings : ℕ → List Blk → Option (List Blk)
  | 0, bs => some bs
  | k + 1, bs => (placeMapping bs).bind (placeMappings k)

/-- A growth pass of `k` pages.  The records and nodes of all pages but the last one have to fit in
front of the last block, which the pass keeps enlarging. -/
def growPass : ℕ → List Blk → Option (List Blk)
  | 0, bs => some bs
  | k + 1, bs =>
    match bs.getLast? with
    | none => none
    | some b => (placeMappings k bs.dropLast).bind fun pre =>
        placeMapping (pre ++ [⟨b.size + pageSize4K * (k + 1), false⟩])

/-- The first `n` growth passes of a request for `bytes` are harmless. -/
def passesSafe (bytes : ℕ) : ℕ → List Blk → Bool
  | 0, _ => true
  | n + 1, bs =>
    bs.any (fun b => !b.used && decide (bytes + 16 ≤ b.size)) ||
      match growPass (growPages bytes) bs with
      | none => false
      | some bs' => passesSafe bytes n bs'

/-- Every growth pass of a request for `bytes` is harmless. -/
def Room (bytes : ℕ) (bs : List Blk) : Prop := ∀ n, passesSafe bytes n bs = true

/-- The blocks after `j` growth passes of a request for `bytes`. -/
def afterPasses (bytes : ℕ) (bs : List Blk) : ℕ → Option (List Blk)
  | 0 => some bs
  | j + 1 => (afterPasses bytes bs j).bind (growPass (growPages bytes))

/-- A request for `bytes` maps `q` pages at most: a pass begins only where no block has room. -/
def PassPages (bytes : ℕ) (bs : List Blk) (q : ℕ) : Prop :=
  q = 0 ∨ ∃ j ts, afterPasses bytes bs j = some ts ∧ NoFit bytes ts ∧ q ≤ growPages bytes * (j + 1)

theorem placeMapping_eq_some (h : placeMapping bs = some bs') :
    ∃ bs1, place sizeofGlobMapping bs = some bs1 ∧ place sizeofListNode bs1 = some bs' :=
  Option.bind_eq_some_iff.1 h

theorem placeMapping_append (h : placeMapping pre = some pre') (post : List Blk) :
    placeMapping (pre ++ post) = some (pre' ++ post) := by
  obtain ⟨xs, h1, h2⟩ := placeMapping_eq_some h
  rw [placeMapping, place_append h1, Option.bind_some, place_append h2]

theorem placeMapping_span (h : placeMapping bs = some bs') : span bs' = span bs := by
  obtain ⟨xs, h1, h2⟩ := placeMapping_eq_some h
  rw [place_span h2, place_span h1]

theorem live_subset_of_placeMapping (h : placeMapping bs = some bs') (a : ℕ) :
    live a bs ⊆ live a bs' := by
  obtain ⟨bs1, h1, h2⟩ := placeMapping_eq_some h
  exact List.Subset.trans (live_subset_of_place h1 a) (live_subset_of_place h2 a)

theorem NoFit.placeMapping (hno : NoFit m bs) (h : placeMapping bs = some bs') :
    NoFit m bs' := by
  obtain ⟨xs, h1, h2⟩ := placeMapping_eq_some h
  exact (hno.place h1).place h2

theorem place_append_of_noFit (hno : NoFit n pre) (post : List Blk) :
    place n (pre ++ post) = (place n post).map (pre ++ ·) := by
  induction pre with
  | nil => simp
  | cons b pre ih =>
    have hb := hno b mem_cons_self
    rw [cons_append, place, if_neg (fun h => by have := hb h.1; omega),
      ih fun c hc => hno c (mem_cons_of_mem _ hc), Option.map_map]
    rfl

/-- Where a list is cut, the parts stay parts. -/
theorem place_split (h : place n (pre ++ post) = some bs') (hpost : post ≠ []) :
    ∃ pre' post', post' ≠ [] ∧ bs' = pre' ++ post' ∧ span pre' = span pre ∧
      ∀ m, NoFit m pre → NoFit m pre' := by
  by_cases hp : ∃ pre', place n pre = some pre'
  · obtain ⟨pre', hpre'⟩ := hp
    rw [place_append hpre'] at h
    cases h
    exact ⟨pre', post, hpost, rfl, place_span hpre', fun m hm => hm.place hpre'⟩
  · have hnone : place n pre = none := by
      by_contra hne
      exact hp (Option.ne_none_iff_exists'.1 hne)
    rw [place_append_of_noFit (noFit_of_place_eq_none hnone)] at h
    obtain ⟨post', hpost', rfl⟩ := Option.map_eq_some_iff.1 h
    refine ⟨pre, post', ?_, rfl, rfl, fun m hm => hm⟩
    obtain ⟨xs, w, ys, -, -, -, rfl⟩ := place_eq_some hpost'
    simp

theorem placeMapping_split (h : placeMapping (pre ++ post) = some bs') (hpost : post ≠ []) :
    ∃ pre' post', post' ≠ [] ∧ bs' = pre' ++ post' ∧ span pre' = span pre ∧
      ∀ m, NoFit m pre → NoFit m pre' := by
  obtain ⟨bs1, h1, h2⟩ := placeMapping_eq_some h
  obtain ⟨pre1, post1, hpost1, rfl, hspan1, hno1⟩ := place_split h1 hpost
  obtain ⟨pre2, post2, hpost2, rfl, hspan2, hno2⟩ := place_split h2 hpost1
  exact ⟨pre2, post2, hpost2, rfl, hspan2.trans hspan1, fun m hm => hno2 m (hno1 m hm)⟩

/-- A last block that fits is enough. -/
theorem place_last (pre : List Blk) (hz : n + 16 ≤ z) : ∃ pre' w,
    place n (pre ++ [⟨z, false⟩]) = some (pre' ++ [⟨w, false⟩]) ∧ z ≤ w + (n + 16) := by
  by_cases hp : ∃ pre', place n pre = some pre'
  · obtain ⟨pre', hpre'⟩ := hp
    exact ⟨pre', z, place_append hpre' _, by omega⟩
  have hnone : place n pre = none := by
    by_contra hne
    exact hp (Option.ne_none_iff_exists'.1 hne)
  refine ⟨pre ++ [⟨n, true⟩], z - (n + 16), ?_, by omega⟩
  rw [place_first (noFit_of_place_eq_none hnone) hz]
  simp

/-- After one more page there is room for a record and a node. -/
theorem placeMapping_last (pre : List Blk) (hz : pageSize4K ≤ z) :
    ∃ pre' w, placeMapping (pre ++ [⟨z, false⟩]) = some (pre' ++ [⟨w, false⟩]) := by
  have hps : pageSize4K = 4096 := rfl
  have h24 : sizeofGlobMapping = 24 := rfl
  have h16 : sizeofListNode = 16 := rfl
  obtain ⟨pre1, w1, h1, hw1⟩ := place_last (n := sizeofGlobMapping) pre (z := z) (by omega)
  obtain ⟨pre2, w2, h2, -⟩ := place_last (n := sizeofListNode) pre1 (z := w1) (by omega)
  exact ⟨pre2, w2, by rw [placeMapping, h1, Option.bind_some, h2]⟩

/-! ### Passes -/

theorem growPass_succ (pre : List Blk) (z k : ℕ) : growPass (k + 1) (pre ++ [⟨z, false⟩]) =
    (placeMappings k pre).bind fun pre => placeMapping (pre ++ [⟨z + pageSize4K * (k + 1), false⟩]) := by
  simp [growPass]

/-- The next pass of a request that nothing fits. -/
theorem Room.pass (h : Room bytes bs) (hno : NoFit bytes bs) :
    ∃ bs', growPass (growPages bytes) bs = some bs' ∧ Room bytes bs' := by
  have hany : bs.any (fun b => !b.used && decide (bytes + 16 ≤ b.size)) = false := by
    rw [any_eq_false]
    intro b hb hfit
    simp only [Bool.and_eq_true, Bool.not_eq_true', decide_eq_true_eq] at hfit
    have := hno b hb hfit.1
    omega
  have hpass : ∀ n, ∃ bs', growPass (growPages bytes) bs = some bs' ∧
      passesSafe bytes n bs' = true := by
    intro n
    have hn := h (n + 1)
    rw [passesSafe, hany, Bool.false_or] at hn
    split at hn
    · cases hn
    · exact ⟨_, by assumption, hn⟩
  obtain ⟨bs', hbs', -⟩ := hpass 0
  refine ⟨bs', hbs', fun n => ?_⟩
  obtain ⟨bs'', hbs'', hn⟩ := hpass n
  rw [hbs'] at hbs''
  cases hbs''
  exact hn

/-- Passes of a single page are always harmless. -/
theorem room_of_growPages_le (hb : growPages bytes ≤ 1) (h : LastFree bs) :
    Room bytes bs := by
  intro n
  induction n generalizing bs with
  | zero => rfl
  | succ n ih =>
    obtain ⟨pre, z, rfl⟩ := h
    rw [passesSafe, Bool.or_eq_true]
    right
    obtain hk | hk : growPages bytes = 0 ∨ growPages bytes = 0 + 1 := by omega
    · rw [hk]
      exact ih ⟨pre, z, rfl⟩
    · obtain ⟨pre', w, hplace⟩ := placeMapping_last pre (z := z + pageSize4K * (0 + 1)) (by omega)
      rw [hk, growPass_succ]
      simp only [placeMappings, Option.bind_some, hplace]
      exact ih ⟨pre', w, rfl⟩

/-! ### The allocation -/

section Fit

variable {σ : Type} {P : Pages σ} {s : Sys σ} {e : ℕ}

/-- **`heap_alloc` when a block fits** takes the first one, and does not grow the heap. -/
theorem heapAlloc_fit {fuel : ℕ} (h : WellFormed e s bs) (hb : alignUp bytes blockT + 16 < 2 ^ 64)
    (h8 : 8 ∣ alignUp bytes blockT) (hp : place (alignUp bytes blockT) bs = some bs') :
    wlp (heapAlloc P fuel bytes) (fun p s' => p ≠ 0 ∧ SameHeap s s' ∧ s'.globMap = s.globMap ∧
      s'.heap.state.vmemMark = s.heap.state.vmemMark ∧
      Untouched s.mem s'.mem (live s.heap.start bs) ∧ WellFormed e s' bs' ∧
      (live s.heap.start bs').Perm ((p, alignUp bytes blockT) :: live s.heap.start bs)) s := by
  apply wlp_heapCheck_bind
  obtain ⟨xs, w, ys, hbs, hxs, hw, rfl⟩ := place_eq_some hp
  have hgrow : GrowKeeps P e (fun t ts => t = s ∧ ts = bs) (fun _ _ => False)
      (alignUp bytes blockT) := by
    rintro n t pre z - ⟨rfl, heq⟩ hno
    rw [heq, hbs] at hno
    have := hno ⟨w, false⟩ (by simp) rfl
    simp only at this
    omega
  have hat : At e (alignUp bytes blockT) (fun t ts => t = s ∧ ts = bs) s s.heap.start :=
    ⟨[], bs, by rw [hbs]; simp, rfl, by simp [NoFit], h, rfl, rfl⟩
  refine wlp_mono (allocLoop_end hgrow hb hat) ?_
  rintro p s' ⟨hsame, ⟨-, -, -, hfalse⟩ | ⟨t, pre, z, post, hwf, ⟨rfl, heq⟩, hno, hz, rfl, rfl⟩⟩
  · exact hfalse.elim
  have hplace := place_first hno hz post
  rw [heq, hp] at hplace
  simp only [Option.some.injEq] at hplace
  obtain ⟨hwf', hunt⟩ := hwf.split h8 hz
  rw [← hplace] at hwf'
  rw [heq] at hunt
  refine ⟨by omega, hsame, rfl, rfl, hunt, hwf', ?_⟩
  rw [hplace, ← heq]
  exact live_split_perm hz
end Fit

end Tachyon.Heap
