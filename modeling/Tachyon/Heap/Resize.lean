import Tachyon.Heap.Realloc
import Tachyon.Heap.Total

/-!
# What `heap_realloc` returns

On a tiled heap without `PG_GLOBAL` whose last block is free, `heap_realloc` leaves the block where
it is, takes of the block behind, or moves the block.  It returns in each case, if the pages that a
move needs are mapped.

* `splits`, `moves`: which way a call goes;
* `Resized`: the state after a call, with the block that is returned; `resized_keep`,
  `resized_merge`, `resized_extend` and `resized_of_alloc` are its cases;
* `heapRealloc_total`: a call returns a resized block.
-/

namespace Tachyon.Heap

open Prog List

variable {σ : Type} {P : Pages σ} {s s' : Sys σ} {pre post bs bs' : List Blk}
  {e m p x y z bytes n : ℕ} {m' : Mem}

/-- `heap_realloc` takes a part of the next block. -/
def splits (s : Sys σ) (m bytes : ℕ) : Bool :=
  decide (capacity s m < bytes) && canExtend s.heap s.mem (blM2H m) bytes &&
    !mergesAll s.mem (blM2H m) bytes

/-- `heap_realloc` moves the block. -/
def moves (s : Sys σ) (m bytes : ℕ) : Bool :=
  decide (capacity s m < bytes) && !canExtend s.heap s.mem (blM2H m) bytes

/-- The block of size `x` at `m` became the block at `p` with at least `bytes` bytes, with the same
data; the other blocks in use are as they were. -/
structure Resized (e : ℕ) (s : Sys σ) (bs : List Blk) (m x bytes p : ℕ) (s' : Sys σ)
    (bs' : List Blk) : Prop where
  same : SameHeap s s'
  tiled : Tiled e s' bs'
  size : ∃ z, bytes ≤ z ∧
    (live s.heap.start bs').Perm ((p, z) :: (live s.heap.start bs).erase (m, x))
  data : ∀ i < x, s'.mem (p + i) = s.mem (m + i)
  others : Untouched s.mem s'.mem ((live s.heap.start bs).erase (m, x))

/-- The other blocks in use. -/
theorem live_erase (a x : ℕ) (pre post : List Blk) :
    ((live a (pre ++ ⟨x, true⟩ :: post)).erase (a + span pre + 8, x)).Perm
      (live a pre ++ live (a + span pre + (x + 16)) post) := by
  have hm : (a + span pre + 8, x) ∈ live a (pre ++ ⟨x, true⟩ :: post) := by simp
  have hlive : (live a (pre ++ ⟨x, true⟩ :: post)).Perm
      ((a + span pre + 8, x) :: (live a pre ++ live (a + span pre + (x + 16)) post)) := by
    simp only [live_append, live_cons_used]
    exact perm_middle
  exact ((perm_cons_erase hm).symm.trans hlive).cons_inv

theorem Untouched.of_perm {m : Mem} {L L' : List (ℕ × ℕ)} (h : Untouched m m' L)
    (hL : L.Perm L') : Untouched m m' L' :=
  fun p z hp => h p z (hL.mem_iff.2 hp)

/-- A block that got another size in place. -/
theorem Resized.in_place {post' : List Blk} (hsame : SameHeap s s')
    (ht : Tiled e s' (pre ++ ⟨z, true⟩ :: post')) (hz : bytes ≤ z)
    (hlive : live (s.heap.start + span pre + (z + 16)) post' =
      live (s.heap.start + span pre + (x + 16)) post)
    (hdata : ∀ i < x, s'.mem (s.heap.start + span pre + 8 + i) =
      s.mem (s.heap.start + span pre + 8 + i))
    (hothers : Untouched s.mem s'.mem (live s.heap.start pre ++
      live (s.heap.start + span pre + (x + 16)) post)) :
    Resized e s (pre ++ ⟨x, true⟩ :: post) (s.heap.start + span pre + 8) x bytes
      (s.heap.start + span pre + 8) s' (pre ++ ⟨z, true⟩ :: post') := by
  have herase := live_erase s.heap.start x pre post
  refine ⟨hsame, ht, ⟨z, hz, ?_⟩, hdata, hothers.of_perm herase.symm⟩
  refine List.Perm.trans ?_ (herase.symm.cons _)
  simp only [live_append, live_cons_used, hlive]
  exact perm_middle

/-- The block is large enough. -/
theorem resized_keep (h : Tiled e s (pre ++ ⟨x, true⟩ :: post)) (hle : bytes ≤ x) :
    Resized e s (pre ++ ⟨x, true⟩ :: post) (s.heap.start + span pre + 8) x bytes
      (s.heap.start + span pre + 8) s (pre ++ ⟨x, true⟩ :: post) :=
  .in_place (SameHeap.refl s) h hle rfl (fun _ _ => rfl) (Untouched.refl _ _)

/-- A change inside two adjacent blocks leaves the other blocks in use alone. -/
theorem untouched_pair (hout : ∀ a, a < s.heap.start + span pre ∨
      s.heap.start + span pre + (x + 16 + (y + 16)) ≤ a → m' a = s.mem a) :
    Untouched s.mem m' (live s.heap.start pre ++
      live (s.heap.start + span pre + (x + 16)) (⟨y, false⟩ :: post)) := by
  intro q k hq a h1 h2
  rcases mem_append.1 hq with hq | hq
  · have := live_bounds hq
    exact hout a (by omega)
  · rw [live_cons_free] at hq
    have := live_bounds hq
    exact hout a (by omega)

section

variable (h : Tiled e s (pre ++ ⟨x, true⟩ :: ⟨y, false⟩ :: post))
include h

theorem resized_merge (hle : bytes ≤ x + (y + 16)) :
    Resized e s (pre ++ ⟨x, true⟩ :: ⟨y, false⟩ :: post) (s.heap.start + span pre + 8) x bytes
      (s.heap.start + span pre + 8) (merged s (s.heap.start + span pre) x (x + (y + 16)))
      (pre ++ ⟨x + (y + 16), true⟩ :: post) := by
  obtain ⟨hlt, -, hx, hy⟩ := h.pair_lt
  refine .in_place ⟨rfl, rfl, rfl, rfl⟩ h.merge hle ?_ (fun i hi => ?_)
    (untouched_pair fun a ha => merged_other h ha)
  · rw [live_cons_free, show s.heap.start + span pre + (x + (y + 16) + 16) =
      s.heap.start + span pre + (x + 16) + (y + 16) by omega]
  · exact blSet_other (by omega) (by decide) (by omega) (by omega)

theorem resized_extend (hn : 8 ∣ bytes) (hxn : x ≤ bytes) (hny : bytes ≤ x + y) :
    Resized e s (pre ++ ⟨x, true⟩ :: ⟨y, false⟩ :: post) (s.heap.start + span pre + 8) x bytes
      (s.heap.start + span pre + 8)
      (extended s (s.heap.start + span pre) x bytes (x + y - bytes))
      (pre ++ ⟨bytes, true⟩ :: ⟨x + y - bytes, false⟩ :: post) := by
  obtain ⟨hlt, -, hx, hy⟩ := h.pair_lt
  refine .in_place ⟨rfl, rfl, rfl, rfl⟩ (h.extend hn hny hxn) le_rfl ?_ (fun i hi => ?_)
    (untouched_pair fun a ha => extended_other h hn hny ha)
  · rw [live_cons_free, live_cons_free, show s.heap.start + span pre + (bytes + 16) +
      (x + y - bytes + 16) = s.heap.start + span pre + (x + 16) + (y + 16) by omega]
  · obtain ⟨-, hnext⟩ := extended_block h hn hny
    simp only [extended, hnext]
    rw [blSet_other (by omega) (by decide) (by omega) (by omega),
      blSet_other hn (by decide) (by omega) (by omega)]

end

/-! ### Moves -/

theorem moveData_run {new : ℕ} (hnew : pageSize4K ≤ new) :
    moveData new m n s = .ok ((), { s with mem := memmove s.mem new m n }) := by
  rw [moveData]
  split_ifs with h0
  · subst h0
    rw [show memmove s.mem new m 0 = s.mem from funext fun a => memmove_of_not_mem (by omega)]
    rfl
  · rw [store, if_neg (not_lt.2 hnew)]
    rfl

section

variable (h : Tiled e s (pre ++ ⟨x, true⟩ :: post)) (hact : Active P s)
  (hend : s.heap.start + span pre + 8 + x ≤ s.heap.endAddr)
include h hact hend

/-- The end of a move to another block: the data is copied and the old block released. -/
theorem move_total
    (hp : (p, n) ∈ live s.heap.start pre ++ live (s.heap.start + span pre + (x + 16)) post)
    (hx : x ≤ n) :
    ∃ s' bs', (do
        moveData p (s.heap.start + span pre + 8) x
        heapFree P (s.heap.start + span pre + 8)
        pure p : Prog (Sys σ) ℕ) s = .ok (p, s') ∧ SameHeap s s' ∧ Tiled e s' bs' ∧
      live s.heap.start bs' =
        live s.heap.start pre ++ live (s.heap.start + span pre + (x + 16)) post ∧
      (∀ i < x, s'.mem (p + i) = s.mem (s.heap.start + span pre + 8 + i)) ∧
      Untouched s.mem s'.mem ((live s.heap.start pre ++
        live (s.heap.start + span pre + (x + 16)) post).erase (p, n)) := by
  have hp0 : (p, n) ∈ live s.heap.start (pre ++ ⟨x, true⟩ :: post) := by
    rw [live_append, live_cons_used]
    exact perm_middle.mem_iff.2 (mem_cons_of_mem _ hp)
  have hge := h.start_ge
  have hpge := live_bounds hp0
  -- the copy stays inside the new block
  have h₁ : Tiled e { s with mem := memmove s.mem p (s.heap.start + span pre + 8) x }
      (pre ++ ⟨x, true⟩ :: post) := h.write fun a ha => memmove_of_not_mem (by
    have := ha p n hp0
    omega)
  obtain ⟨ht, hunt⟩ := h₁.free
  have hfree := heapFree_run h₁ hact
  rw [if_pos ((heapValidate_block_iff h₁).2 hend)] at hfree
  have hlive := released_live s.heap.start pre x post
  simp only [hlive] at hunt
  refine ⟨freed { s with mem := memmove s.mem p (s.heap.start + span pre + 8) x } pre x post, _,
    ?_, ⟨rfl, rfl, rfl, rfl⟩, ht, hlive, fun i hi => ?_, fun q k hq a h1 h2 => ?_⟩
  · rw [run_ok (moveData_run (by omega)), run_ok hfree]
    rfl
  · rw [hunt p n hp _ (by omega) (by omega)]
    exact memmove_of_mem hi
  · have hq0 := mem_of_mem_erase hq
    have hne := addr_ne_of_mem_erase (by rw [← hlive]; exact live_addr_nodup _ _) hp hq
    have hapart : Apart (q, k) (p, n) :=
      live_apart (by rw [hlive]; exact hq0) (by rw [hlive]; exact hp) hne
    simp only [Apart] at hapart
    rw [hunt q k hq0 a h1 h2]
    exact memmove_of_not_mem (by omega)

/-- **A move**: after a new block was allocated, the block is copied to it and released. -/
theorem resized_of_alloc {s1 : Sys σ} {bs1 : List Blk} (hb : NoWrap bytes) (hlt : x < bytes)
    (hext : canExtend s.heap s.mem (s.heap.start + span pre) bytes = false)
    (halloc : ∀ fuel, n < fuel → heapAlloc P fuel bytes s = .ok (p, s1)) (hsame1 : SameHeap s s1)
    (hact1 : Active P s1)
    (hunt1 : Untouched s.mem s1.mem (live s.heap.start (pre ++ ⟨x, true⟩ :: post)))
    (ht1 : Tiled e s1 bs1)
    (hperm1 : (live s.heap.start bs1).Perm
      ((p, alignUp bytes blockT) :: live s.heap.start (pre ++ ⟨x, true⟩ :: post))) :
    ∃ s' bs', (∀ fuel, n < fuel →
        heapRealloc P fuel (s.heap.start + span pre + 8) bytes s = .ok (p, s')) ∧
      Resized e s (pre ++ ⟨x, true⟩ :: post) (s.heap.start + span pre + 8) x bytes p s' bs' ∧
      (p, alignUp bytes blockT) ∈ live s.heap.start bs' := by
  have hval := (heapValidate_block_iff h).2 hend
  obtain ⟨-, hround, -⟩ := hb.alignUp
  have hm : (s.heap.start + span pre + 8, x) ∈
      live s.heap.start (pre ++ ⟨x, true⟩ :: post) := by simp
  -- the block is still in use after the allocation
  have hm1 : (s.heap.start + span pre + 8, x) ∈ live s.heap.start bs1 :=
    hperm1.mem_iff.2 (mem_cons_of_mem _ hm)
  have hne : p ≠ s.heap.start + span pre + 8 := by
    have hnd := live_addr_nodup s.heap.start bs1
    rw [(hperm1.map Prod.fst).nodup_iff, map_cons, nodup_cons] at hnd
    rintro rfl
    exact hnd.1 (mem_map.2 ⟨_, hm, rfl⟩)
  obtain ⟨pre1, post1, rfl, hmeq⟩ := mem_live_iff.1 hm1
  have hrest : (live s1.heap.start pre1 ++
      live (s1.heap.start + span pre1 + (x + 16)) post1).Perm ((p, alignUp bytes blockT) ::
        (live s.heap.start (pre ++ ⟨x, true⟩ :: post)).erase (s.heap.start + span pre + 8, x)) := by
    have herase := hperm1.erase (s.heap.start + span pre + 8, x)
    rw [erase_cons_tail (by simp [hne])] at herase
    refine List.Perm.trans ?_ herase
    rw [hmeq, hsame1.start]
    exact (live_erase s.heap.start x pre1 post1).symm
  obtain ⟨s', bs', hrun, hsame, ht, hlive, hdata, hunt⟩ := move_total (P := P) ht1 hact1
    (by rw [hsame1.endAddr, hsame1.start]; omega) (hrest.mem_iff.2 mem_cons_self)
    (by omega)
  rw [hsame1.start] at hlive
  refine ⟨s', bs', fun fuel hfuel => ?_, ⟨hsame1.trans hsame, ht,
    ⟨alignUp bytes blockT, hround, ?_⟩, fun i hi => ?_, ?_⟩, ?_⟩
  · have ha : s.heap.start + span pre = s1.heap.start + span pre1 := by
      rw [hsame1.start]
      omega
    rw [heapRealloc_move h hact hval hlt hext, run_ok (halloc fuel hfuel),
      run_get_bind, ha, ht1.tiles.blkAt.dataSz]
    exact hrun
  · rw [hsame1.start] at hrest
    rw [hlive]
    exact hrest
  · rw [hdata i hi, hsame1.start, ← hmeq]
    exact hunt1 _ x hm _ (by omega) (by omega)
  · have hleft := hrest.erase (p, alignUp bytes blockT)
    rw [erase_cons_head] at hleft
    refine Untouched.trans (fun q k hq => hunt1 q k (mem_of_mem_erase hq)) ?_
    exact hunt.of_perm hleft
  · rw [hsame1.start] at hrest
    rw [hlive]
    exact hrest.mem_iff.2 mem_cons_self

end

/-! ### Calls -/

/-- Where the data of the block that `heap_realloc` returns ends. -/
def newEnd (s : Sys σ) (bs : List Blk) (m bytes : ℕ) : ℕ :=
  if bytes ≤ capacity s m then m + capacity s m
  else if canExtend s.heap s.mem (blM2H m) bytes then
    if mergesAll s.mem (blM2H m) bytes then
      m + capacity s m + 16 + blB2DataSz (read64 s.mem (blNext s.mem (blM2H m)))
    else m + bytes
  else dataAddr (alignUp bytes blockT) s.heap.start bs + alignUp bytes blockT

/-- **`heap_realloc` returns** a block with the same data, if the pages of a move are mapped and the
size is a multiple of 8 where the next block is split. -/
theorem heapRealloc_total (h : Tiled e s bs) (hact : Active P s) (hend : m + x ≤ s.heap.endAddr)
    (hm : (m, x) ∈ live s.heap.start bs) (hb : bytes + pageSize4K ≤ 2 ^ 64) (hlast : LastFree bs)
    (hng : NotGlobal s) (hsize : 8 ∣ bytes ∨ splits s m bytes = false)
    (hgrow : moves s m bytes = true → Grows P e s bs bytes) :
    ∃ p s' bs' z, Returns (fun fuel => heapRealloc P fuel m bytes) s p s' ∧
      Resized e s bs m x bytes p s' bs' ∧ (p, z) ∈ live s.heap.start bs' ∧
      p + z = newEnd s bs m bytes := by
  obtain ⟨pre, post, rfl, rfl⟩ := mem_live_iff.1 hm
  have hval := (heapValidate_block_iff h).2 hend
  simp only [splits, moves, newEnd, h.capacity_eq, h.m2h] at hsize hgrow ⊢
  rcases Nat.lt_or_ge x bytes with hlt | hle
  swap
  · exact ⟨_, _, _, x, ⟨0, fun fuel _ => heapRealloc_keep h hact hval hle⟩, resized_keep h hle,
      hm, (if_pos hle).symm⟩
  rw [if_neg (not_le.2 hlt)]
  by_cases hext : canExtend s.heap s.mem (s.heap.start + span pre) bytes = true
  swap
  · rw [if_neg hext]
    rw [Bool.not_eq_true] at hext
    obtain ⟨p, s1, bs1, halloc, hsame1, hact1, hunt1, ht1, hperm1, rfl⟩ :=
      heapAlloc_total h hlast hng hact (by omega) hb (hgrow (by simp [hlt, hext]))
    obtain ⟨s', bs', hrun, hres, hnew⟩ := resized_of_alloc h hact hend (noWrap_of_le hb).1 hlt hext
      halloc hsame1 hact1 hunt1 ht1 hperm1
    exact ⟨_, s', bs', _, ⟨_, hrun⟩, hres, hnew, rfl⟩
  rw [if_pos hext]
  obtain ⟨y, post, rfl, hle⟩ := h.canExtend_iff.1 hext
  by_cases hall : mergesAll s.mem (s.heap.start + span pre) bytes = true
  · rw [if_pos hall, h.next_blkAt.1, h.next_blkAt.2.dataSz]
    exact ⟨_, _, _, x + (y + 16), ⟨0, fun fuel _ => heapRealloc_merge h hact hval hlt hle hall⟩,
      resized_merge h hle, mem_live_iff.2 ⟨pre, post, rfl, rfl⟩, by simp only; omega⟩
  · rw [if_neg hall]
    rw [Bool.not_eq_true] at hall
    have h8 : 8 ∣ bytes := hsize.resolve_right (by simp [hlt, hext, hall])
    exact ⟨_, _, _, bytes, ⟨0, fun fuel _ => heapRealloc_split h hact hval hlt hle hall⟩,
      resized_extend h h8 hlt.le (h.lt_of_mergesAll_eq_false hlt hle hall).le,
      mem_live_iff.2 ⟨pre, _, rfl, rfl⟩, rfl⟩

end Tachyon.Heap
