import Tachyon.Heap.Total

/-!
# What an allocation from a process heap leaves

`Stretched k` relates a heap to the one after a search that has mapped `k` pages: the last block is
larger by these pages, and the others are as they were.  `heapAlloc_stretched` says how every call of
`heap_alloc` ends, with the pages it has mapped bounded by `neededPages`.

* `free_undoes_alloc`: releasing what was just allocated restores the blocks and the counters,
  exactly if the request has room below the end of the heap (`dataAddr`: where it goes).
-/

namespace Tachyon.Heap

open Prog List

variable {σ : Type} {P : Pages σ} {s s' t : Sys σ} {bs pre post : List Blk} {e k n z bytes : ℕ}

/-! ### Searching -/

/-- A search has mapped `k` pages: the last block is larger by them. -/
structure Stretched (e k : ℕ) (s : Sys σ) (bs : List Blk) (t : Sys σ) : Prop where
  same : SameHeap s t
  wf : WellFormed e t (enlarge (pageSize4K * k) bs)
  unmapped : k = 0 → t.mem = s.mem
  front : ∀ pre b, bs = pre ++ [b] → ∀ x, x < s.heap.start + span pre → t.mem x = s.mem x

theorem Stretched.refl (h : WellFormed e s bs) : Stretched e 0 s bs s :=
  ⟨SameHeap.refl s, by rwa [mul_zero, h.lastFree.enlarge_zero], fun _ => rfl, fun _ _ _ _ _ => rfl⟩

/-- The pages of a pass are enough for the data, or there are none because the rounding wraps
around. -/
theorem growPages_cases (hn : n < 2 ^ 64) : growPages n = 0 ∨ n ≤ pageSize4K * growPages n := by
  rcases lt_or_ge (2 ^ 64) (n + pageSize4K) with hwrap | hle
  · exact Or.inl (growPages_eq_zero hn hwrap)
  · exact Or.inr (growPages_ge hle)

/-- Enlarging the last block does not make a request fit that fitted before. -/
theorem place_eq_none_of_enlarge (hno : NoFit n (enlarge k (pre ++ [⟨z, false⟩]))) :
    place n (pre ++ [⟨z, false⟩]) = none := by
  by_contra hsome
  obtain ⟨bs', hsome⟩ := Option.ne_none_iff_exists'.1 hsome
  obtain ⟨front, w, back, heq, -, hw, -⟩ := place_eq_some hsome
  rw [enlarge_concat] at hno
  have hmem : (⟨w, false⟩ : Blk) ∈ pre ++ [⟨z, false⟩] := by
    rw [heq]
    simp
  rcases mem_append.1 hmem with hmem | hmem
  · exact absurd (hno _ (mem_append_left _ hmem) rfl) (not_lt.2 hw)
  · have hz := hno ⟨z + k, false⟩ (by simp) rfl
    simp only [mem_singleton, Blk.mk.injEq, and_true] at hmem
    simp only at hz
    omega

/-- A pass begins only where no block fits, so all passes together stay below the pages needed. -/
theorem pass_le_neededPages (hn : n < 2 ^ 64) (hlast : LastFree bs) (hk : growPages n ∣ k)
    (hno : NoFit n (enlarge (pageSize4K * k) bs)) : k + growPages n ≤ neededPages n bs := by
  have hps : pageSize4K = 4096 := rfl
  obtain ⟨pre, z, rfl⟩ := hlast
  have hplace := place_eq_none_of_enlarge hno
  have hz : z + pageSize4K * k < n + 16 := hno ⟨z + pageSize4K * k, false⟩ (by simp) rfl
  obtain ⟨m, rfl⟩ := hk
  rcases growPages_cases hn with h0 | hge
  · simp [h0]
  rw [neededPages_last hplace]
  simp only [hps] at hz hge ⊢
  -- the last block has less than the data and 16 bytes, so one pass was made at most
  obtain rfl | rfl | hm : m = 0 ∨ m = 1 ∨ 2 ≤ m := by omega
  · split_ifs <;> omega
  · rw [mul_one] at hz ⊢
    rw [if_neg (by omega)]
  · have htwo : growPages n * 2 ≤ growPages n * m := Nat.mul_le_mul_left _ hm
    have hgp : growPages n = 0 := by omega
    simp [hgp]

/-- What a search keeps: it has mapped the pages of some passes. -/
def Searched (P : Pages σ) (e n : ℕ) (s : Sys σ) (bs : List Blk) (t : Sys σ) (ts : List Blk) :
    Prop :=
  ∃ k ≤ neededPages n bs, growPages n ∣ k ∧ ts = enlarge (pageSize4K * k) bs ∧
    Stretched e k s bs t ∧ Maps P s.heap.space s.heap.pgFl k s.heap.state.vmemMark s.pages t.pages

/-- What a search that fails leaves: the pages have run out before there were enough. -/
def SearchFailed (P : Pages σ) (e n : ℕ) (s : Sys σ) (bs : List Blk) (t : Sys σ) (_ : List Blk) :
    Prop :=
  ∃ k < neededPages n bs, Stretched e k s bs t ∧ RunsOut P s k

theorem growKeeps_stretched (hn : n < 2 ^ 64) (h : WellFormed e s bs) (hng : NotGlobal s)
    (hend : P.Below e ∨ s.heap.state.vmemMark + pageSize4K * neededPages n bs ≤ e) :
    GrowKeeps P e (Searched P e n s bs) (SearchFailed P e n s bs) n := by
  rintro fuel t front y hwf ⟨k, -, hdvd, heq, hst, hmaps⟩ hno
  have hroom : k + growPages n ≤ neededPages n bs :=
    pass_le_neededPages hn h.lastFree hdvd (heq ▸ hno)
  obtain ⟨pre, z, rfl⟩ := h.lastFree
  rw [enlarge_concat] at heq
  obtain ⟨rfl, hlast⟩ := append_inj' heq rfl
  simp only [cons.injEq, Blk.mk.injEq, and_true] at hlast
  subst hlast
  have hmark := hst.wf.tiled.mark_eq
  have hmark0 := h.tiled.mark_eq
  rw [enlarge_concat, hst.same.start] at hmark
  simp only [span_append, span_cons, span_nil, Blk.span] at hmark hmark0
  have hend' : P.Below e ∨ t.heap.state.vmemMark + pageSize4K * growPages n ≤ e := by
    refine hend.imp_right fun hle => ?_
    have := Nat.mul_le_mul_left pageSize4K hroom
    rw [mul_add] at this
    omega
  refine wlp_mono (heapGrow_process (growPages n) 0 (hst.same.notGlobal hng) hend'
    (by simpa using hwf)) ?_
  rintro ok t' ⟨hsame, j, hj, hok, hzero, hwf', hmem, hpages⟩
  have hmark' : t.heap.state.vmemMark = s.heap.state.vmemMark + pageSize4K * k := by omega
  have hmore : Stretched e (k + j) s (front ++ [⟨z, false⟩]) t' := by
    refine ⟨hst.same.trans hsame, ?_, fun h0 => ?_, fun pre b heq x hx => ?_⟩
    · rw [enlarge_concat, mul_add, ← add_assoc]
      simpa using hwf'
    · rw [hzero (by omega), hst.unmapped (by omega)]
    · rw [hmem x ?_, hst.front pre b heq x hx]
      obtain ⟨rfl, -⟩ := append_inj' heq rfl
      rwa [hst.same.start]
  refine ⟨hsame, ?_⟩
  split_ifs with hr
  · obtain rfl := hok hr
    refine ⟨front, [_], by simp, rfl, fun c hc => hno c (by simp [hc]), hwf', k + growPages n,
      hroom, (Nat.dvd_add_right hdvd).2 dvd_rfl, ?_, hmore, hmaps.trans ?_⟩
    · simp [mul_add, add_assoc]
    · rwa [if_pos hr, hst.same.space, hst.same.pgFl, hmark'] at hpages
  · rw [if_neg hr] at hpages
    exact ⟨_, hwf', k + j, by omega, hmore, hpages.2.behind hst.same hmark' hmaps⟩

/-- The block of `n` bytes at `p` is the front of the first free block of `bs` that has room. -/
def Handed (n : ℕ) (bs : List Blk) (t : Sys σ) (p : ℕ) (s' : Sys σ) : Prop :=
  ∃ pre z post, bs = pre ++ ⟨z, false⟩ :: post ∧ NoFit n pre ∧ n + 16 ≤ z ∧
    p = t.heap.start + span pre + 8 ∧ s' = allocated t (t.heap.start + span pre) n

/-- **How `heap_alloc` ends** on a process heap: it has mapped no more pages than needed, and returns
`NULL` or the front of the first free block that has room. -/
theorem heapAlloc_stretched {fuel : ℕ} (h : WellFormed e s bs) (hng : NotGlobal s)
    (hb : alignUp bytes blockT + 16 < 2 ^ 64) (hend : P.Below e ∨
      s.heap.state.vmemMark + pageSize4K * neededPages (alignUp bytes blockT) bs ≤ e) :
    wlp (heapAlloc P fuel bytes) (fun p s' => ∃ k ≤ neededPages (alignUp bytes blockT) bs,
      ∃ t, Stretched e k s bs t ∧ (p = 0 ∧ s' = t ∧
        k < neededPages (alignUp bytes blockT) bs ∧ RunsOut P s k ∨
        Handed (alignUp bytes blockT) (enlarge (pageSize4K * k) bs) t p s')) s := by
  apply wlp_heapCheck_bind
  have hne : bs ≠ [] := by
    obtain ⟨pre, z, rfl⟩ := h.lastFree
    simp
  have hat : At e (alignUp bytes blockT) (Searched P e (alignUp bytes blockT) s bs) s s.heap.start :=
    ⟨[], bs, hne, rfl, by simp [NoFit], h, 0, Nat.zero_le _, dvd_zero _,
      h.lastFree.enlarge_zero.symm, Stretched.refl h, .none _ _⟩
  refine wlp_mono (allocLoop_end (growKeeps_stretched (by omega) h hng hend) hb hat) ?_
  rintro p s' ⟨-, ⟨rfl, -, -, k, hk, hst, hout⟩ |
    ⟨t, pre, z, post, -, ⟨k, hk, -, heq, hst, -⟩, hno, hfit, rfl, rfl⟩⟩
  · exact ⟨k, hk.le, s', hst, Or.inl ⟨rfl, rfl, hk, hout⟩⟩
  · exact ⟨k, hk, t, hst, Or.inr ⟨pre, z, post, heq.symm, hno, hfit, rfl, rfl⟩⟩

/-! ### Releasing what was just allocated -/

/-- The blocks of `s` with `k` pages more at the end, and its counters. -/
structure Restored (k : ℕ) (s : Sys σ) (bs : List Blk) (s' : Sys σ) : Prop where
  start : s'.heap.start = s.heap.start
  mark : s'.heap.state.vmemMark = s.heap.state.vmemMark + pageSize4K * k
  tiles : Tiles s'.mem s'.heap.start (enlarge (pageSize4K * k) bs) s'.heap.state.vmemMark
  usedBytes : s'.heap.state.usedBytes = s.heap.state.usedBytes
  blockCount : s'.heap.state.blockCount = s.heap.state.blockCount

/-- Neither the start nor the counters depend on the size of the last block. -/
theorem WellFormed.restored (h : WellFormed e s bs) (hsame : SameHeap s t)
    (hwf : WellFormed e t (enlarge (pageSize4K * k) bs)) : Restored k s bs t := by
  refine ⟨hsame.start, ?_, hwf.tiles, ?_, ?_⟩
  · have hmark := hwf.tiled.mark_eq
    have hmark0 := h.tiled.mark_eq
    obtain ⟨pre, z, rfl⟩ := h.lastFree
    rw [enlarge_concat, hsame.start] at hmark
    simp only [span_append, span_cons, span_nil, Blk.span] at hmark hmark0
    omega
  · rw [hwf.usedBytes, h.usedBytes, hsame.start, h.lastFree.live_enlarge]
  · rw [hwf.blockCount, h.blockCount, hsame.start, h.lastFree.live_enlarge]

theorem sameHeap_freed (s : Sys σ) (pre : List Blk) (z : ℕ) (post : List Blk) :
    SameHeap s (freed s pre z post) :=
  ⟨rfl, rfl, rfl, rfl⟩

/-- The block handed out is in use, and releasing it restores the blocks if its footer is not behind
the end of the heap. -/
theorem Handed.release {p : ℕ} (h : Handed n bs t p s') (hwf : WellFormed e t bs) (hn : 8 ∣ n)
    (hact : Active P s') : ∃ s'', heapFree P p s' = .ok ((), s'') ∧ SameHeap t s'' ∧
      if p + n ≤ t.heap.endAddr then WellFormed e s'' bs
      else s''.heap.state.blockCount = t.heap.state.blockCount + 1 := by
  obtain ⟨pre, z, post, rfl, -, hz, rfl, rfl⟩ := h
  obtain ⟨hwf', -⟩ := hwf.split hn hz
  have hfree := hwf'.free.1
  rw [released_split hwf.coalesced hz] at hfree
  have hval := heapValidate_block_iff hwf'.tiled
  refine ⟨_, heapFree_run hwf'.tiled hact, ?_, ?_⟩
  · split_ifs
    · exact (sameHeap_allocated _ _ _).trans (sameHeap_freed _ _ _ _)
    · exact sameHeap_allocated _ _ _
  split_ifs with hend hacc hacc
  · exact hfree
  · exact absurd (hval.2 hend) hacc
  · exact absurd (hval.1 hacc) hend
  · rw [hwf'.blockCount, hwf.blockCount]
    exact (live_split_perm hz).length_eq

theorem Handed.dataAddr_eq {p : ℕ} (h : Handed n (enlarge k bs) t p s') (hlast : LastFree bs) :
    dataAddr n t.heap.start bs = p := by
  obtain ⟨pre, z, post, heq, hno, hz, rfl, -⟩ := h
  obtain ⟨xs, y, rfl⟩ := hlast
  rw [enlarge_concat] at heq
  -- the block is the last one, or one in front of it
  rcases eq_nil_or_concat post with rfl | ⟨post, d, rfl⟩
  · obtain ⟨rfl, -⟩ := append_inj' heq rfl
    exact dataAddr_first hno (.inl rfl)
  · rw [concat_eq_append, ← cons_append, ← append_assoc] at heq
    obtain ⟨rfl, -⟩ := append_inj' heq rfl
    rw [append_assoc, cons_append]
    exact dataAddr_first hno (.inr hz)

/-- **`heap_free` undoes `heap_alloc`** on every process heap, up to the pages by which the last free
block was enlarged, exactly if the request has room in front of the end of the heap, where it goes. -/
theorem free_undoes_alloc {s₀ s₁ : Sys σ} {c : Client σ} {init fuel p : ℕ} (hng : NotGlobal s₀)
    (hstart : pageSize4K ∣ s₀.heap.start) (hP : P.Below (2 ^ 64 - 1))
    (hinit : heapInit P init s₀ = .ok (true, s₁))
    (hrun : Relation.ReflTransGen (Step P NoWrap) ⟨s₁, []⟩ c)
    (hts : Tiles c.sys.mem c.sys.heap.start bs c.sys.heap.state.vmemMark) (hb : NoWrap bytes)
    (hcall : heapAlloc P fuel bytes c.sys = .ok (p, s)) (hp : p ≠ 0) (hact : Active P s) :
    LastFree bs ∧ ∃ k s', s.heap.state.vmemMark = c.sys.heap.state.vmemMark + pageSize4K * k ∧
      heapFree P p s = .ok ((), s') ∧
      (Restored k c.sys bs s' ↔ dataAddr (alignUp bytes blockT) c.sys.heap.start bs +
        alignUp bytes blockT ≤ c.sys.heap.endAddr) := by
  obtain ⟨bs', lost, hinv⟩ := ClientInv.run hng hstart (by norm_num) hP hinit hrun
  have hwf := hinv.owns.wf
  obtain rfl := hts.unique hwf.tiles
  obtain ⟨k, -, t, hst, hend⟩ :=
    heapAlloc_stretched hwf hinv.notGlobal hb.2 (.inl hP) _ _ hcall
  have hhand := hend.resolve_left fun h => hp h.1
  have hgrown := hwf.restored hst.same hst.wf
  obtain ⟨s', hfree, hsame, hafter⟩ := hhand.release hst.wf hb.alignUp.1 hact
  have haddr := hhand.dataAddr_eq hwf.lastFree
  rw [hst.same.start] at haddr
  rw [hst.same.endAddr] at hafter
  refine ⟨hwf.lastFree, k, s', ?_, hfree, ?_⟩
  · obtain ⟨pre, z, post, -, -, -, -, rfl⟩ := hhand
    exact hgrown.mark
  rw [haddr]
  constructor
  · intro hres
    by_contra hout
    rw [if_neg hout, hgrown.blockCount, hres.blockCount] at hafter
    omega
  · intro hin
    rw [if_pos hin] at hafter
    exact hwf.restored (hst.same.trans hsame) hafter

/-- A request for which the heap grows by two pages. -/
theorem heapAlloc_endless_grown : heapAlloc endlessPages 2 5000 endlessHeap =
    .ok (pheapStart + 8, exec (heapAlloc endlessPages 2 5000) endlessHeap) :=
  eq_ok_of_value (by decide +kernel)

theorem free_undoes_alloc_grown : ∃ s s' k,
    heapAlloc endlessPages 2 5000 endlessHeap = .ok (pheapStart + 8, s) ∧
      heapFree endlessPages (pheapStart + 8) s = .ok ((), s') ∧
      Restored k endlessHeap [⟨pageSize4K - 16, false⟩] s' := by
  obtain ⟨hsame, hinv⟩ := endlessHeap_inv
  have hend : endlessHeap.heap.endAddr = pheapStart + 0x100000 := hsame.endAddr
  have hstart : endlessHeap.heap.start = pheapStart := hsame.start
  have hact : Active endlessPages (exec (heapAlloc endlessPages 2 5000) endlessHeap) :=
    Or.inl (by decide +kernel)
  obtain ⟨-, k, s', -, hfree, hiff⟩ := free_undoes_alloc (by decide) (by decide)
    endlessPages_below heapInit_endless .refl hinv.owns.wf.tiles (by decide) heapAlloc_endless_grown
    (by decide) hact
  refine ⟨_, s', k, heapAlloc_endless_grown, hfree, hiff.2 ?_⟩
  show dataAddr _ endlessHeap.heap.start _ + _ ≤ endlessHeap.heap.endAddr
  rw [hend, hstart]
  decide

/-- A heap whose window is one page. -/
def tinyHeap : Sys Unit := { smallHeap with heap.endAddr := pheapStart + pageSize4K }

/-- The heap after `heap_init`. -/
def tinyHeapReady : Sys Unit := exec (heapInit endlessPages 0) tinyHeap

/-- The heap after a request that makes it grow behind its end. -/
def tinyHeapGrown : Sys Unit := exec (heapAlloc endlessPages 2 5000) tinyHeapReady

theorem tinyHeap_run : (heapInit endlessPages 0).value tinyHeap = some true ∧
    tinyHeapReady.heap.state.blockCount = 0 ∧
    (heapAlloc endlessPages 2 5000).value tinyHeapReady = some (pheapStart + 8) ∧
    tinyHeapGrown.heap.endAddr < tinyHeapGrown.heap.state.vmemMark ∧
    tinyHeapGrown.heap.endAddr < pheapStart + 8 + 5000 ∧
    heapValidate tinyHeapGrown.heap tinyHeapGrown.mem (pheapStart + 8) = false ∧
    (heapFree endlessPages (pheapStart + 8)).value tinyHeapGrown = some () ∧
    (exec (heapFree endlessPages (pheapStart + 8)) tinyHeapGrown).heap.state.blockCount = 1 := by
  decide +kernel

/-- The block of a request that makes the heap grow behind its end is not released. -/
theorem free_refuses_alloc : ∃ s₁ s s', heapInit endlessPages 0 tinyHeap = .ok (true, s₁) ∧
    s₁.heap.state.blockCount = 0 ∧
    heapAlloc endlessPages 2 5000 s₁ = .ok (pheapStart + 8, s) ∧
    heapFree endlessPages (pheapStart + 8) s = .ok ((), s') ∧ s'.heap.state.blockCount = 1 := by
  obtain ⟨hinit, hcount, halloc, -, -, -, hfree, hcount'⟩ := tinyHeap_run
  exact ⟨_, _, _, eq_ok_of_value hinit, hcount, eq_ok_of_value halloc, eq_ok_of_value hfree,
    hcount'⟩

end Tachyon.Heap
