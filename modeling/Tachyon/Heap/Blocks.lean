import Mathlib.Tactic
import Mathlib.Data.List.Chain

/-!
# Block lists

A window of memory tiled by blocks, abstractly: a list of blocks, each with its data size and
whether it is in use.  A block occupies 16 bytes more than its data.

* `span`: the bytes a list of blocks occupies;
* `live a bs`: data address and size of the blocks in use, when the tiling starts at `a`;
* `Coalesced`: no two neighbours are both free; `LastFree`: the last block is free;
* the edits of an allocator (split a free block, release a block, enlarge the last block) keep
  these properties (`Coalesced.split`, `Coalesced.released`, `Coalesced.resize`);
* releasing the block that was split off last restores the list (`released_split`).
-/

namespace Tachyon.Heap

open List

variable {x y : ℕ}

/-- A block: the size of its data, and whether it is in use. -/
structure Blk where
  size : ℕ
  used : Bool
  deriving DecidableEq, Repr

/-- The bytes a block occupies, header and footer included. -/
def Blk.span (b : Blk) : ℕ := b.size + 16

/-- The bytes a list of blocks occupies. -/
def span (bs : List Blk) : ℕ := (bs.map Blk.span).sum

@[simp] theorem span_nil : span [] = 0 := rfl
@[simp] theorem span_cons (b : Blk) (bs : List Blk) : span (b :: bs) = b.span + span bs := rfl

@[simp] theorem span_append (xs ys : List Blk) : span (xs ++ ys) = span xs + span ys := by
  simp [span]

/-- The blocks in use of a tiling that starts at `a`: data address and size. -/
def live : ℕ → List Blk → List (ℕ × ℕ)
  | _, [] => []
  | a, b :: bs => if b.used then (a + 8, b.size) :: live (a + b.span) bs else live (a + b.span) bs

@[simp] theorem live_nil (a : ℕ) : live a [] = [] := rfl

@[simp] theorem live_cons_used (a z : ℕ) (bs : List Blk) :
    live a (⟨z, true⟩ :: bs) = (a + 8, z) :: live (a + (z + 16)) bs := rfl

@[simp] theorem live_cons_free (a z : ℕ) (bs : List Blk) :
    live a (⟨z, false⟩ :: bs) = live (a + (z + 16)) bs := rfl

@[simp] theorem live_append (a : ℕ) (xs ys : List Blk) :
    live a (xs ++ ys) = live a xs ++ live (a + span xs) ys := by
  induction xs generalizing a with
  | nil => rfl
  | cons b xs ih =>
    obtain ⟨z, _ | _⟩ := b <;> simp [Blk.span, ih, Nat.add_assoc]

variable {a p z n : ℕ} {bs pre post ys : List Blk}

/-- A block in use splits the tiling at its place. -/
theorem mem_live_iff :
    (p, z) ∈ live a bs ↔ ∃ pre post, bs = pre ++ ⟨z, true⟩ :: post ∧ p = a + span pre + 8 := by
  constructor
  · intro h
    induction bs generalizing a with
    | nil => simp at h
    | cons b bs ih =>
      have tail : (p, z) ∈ live (a + b.span) bs →
          ∃ pre post, b :: bs = pre ++ ⟨z, true⟩ :: post ∧ p = a + span pre + 8 := by
        intro hm
        obtain ⟨pre, post, rfl, rfl⟩ := ih hm
        exact ⟨b :: pre, post, rfl, by simp [Nat.add_assoc]⟩
      obtain ⟨y, _ | _⟩ := b
      · exact tail h
      · rw [live_cons_used] at h
        rcases mem_cons.1 h with h | h
        · cases h
          exact ⟨[], bs, rfl, rfl⟩
        · exact tail h
  · rintro ⟨pre, post, rfl, rfl⟩
    simp

/-- A block in use lies inside the tiling. -/
theorem live_bounds (h : (p, z) ∈ live a bs) :
    a + 8 ≤ p ∧ p + z + 8 ≤ a + span bs := by
  obtain ⟨pre, post, rfl, rfl⟩ := mem_live_iff.1 h
  simp only [span_append, span_cons, Blk.span]
  omega

/-- The blocks in use stand in the order of their addresses, header and footer apart. -/
theorem live_sorted (a : ℕ) (bs : List Blk) :
    (live a bs).Pairwise fun p q => p.1 + p.2 + 16 ≤ q.1 := by
  induction bs generalizing a with
  | nil => exact List.Pairwise.nil
  | cons b bs ih =>
    obtain ⟨z, _ | _⟩ := b
    · exact ih _
    · rw [live_cons_used, pairwise_cons]
      refine ⟨fun q hq => ?_, ih _⟩
      have := (live_bounds hq).1
      omega

/-- The data address identifies a block in use. -/
theorem live_addr_nodup (a : ℕ) (bs : List Blk) : ((live a bs).map Prod.fst).Nodup := by
  refine List.Pairwise.map _ (fun p q h => ?_) (live_sorted a bs)
  omega

/-- Splitting a free block puts one more block in use. -/
theorem live_split_perm (hz : n + 16 ≤ z) :
    (live a (pre ++ ⟨n, true⟩ :: ⟨z - (n + 16), false⟩ :: post)).Perm
      ((a + span pre + 8, n) :: live a (pre ++ ⟨z, false⟩ :: post)) := by
  have htail : a + span pre + (n + 16) + (z - (n + 16) + 16) = a + span pre + (z + 16) := by omega
  simp only [live_append, live_cons_used, live_cons_free, htail]
  exact perm_middle

/-- No two neighbours are both free. -/
def Coalesced (bs : List Blk) : Prop := bs.IsChain fun x y => x.used = true ∨ y.used = true

/-- The last block is free. -/
def LastFree (bs : List Blk) : Prop := ∃ pre z, bs = pre ++ [⟨z, false⟩]

theorem LastFree.append_right {xs : List Blk} (h : LastFree ys) : LastFree (xs ++ ys) := by
  obtain ⟨pre, z, rfl⟩ := h
  exact ⟨xs ++ pre, z, by simp⟩

theorem LastFree.of_append (xs : List Blk) (h : LastFree (xs ++ ys)) (hy : ys ≠ []) :
    LastFree ys := by
  obtain ⟨pre, z, h⟩ := h
  obtain ⟨l, b, rfl⟩ := eq_nil_or_concat ys |>.resolve_left hy
  rw [concat_eq_append, ← append_assoc] at h
  obtain ⟨-, hb⟩ := append_inj' h rfl
  cases hb
  exact ⟨l, z, by simp⟩

/-- A block list depends, for being coalesced, only on which blocks are in use. -/
theorem Coalesced.resize {u : Bool}
    (h : Coalesced (pre ++ ⟨y, u⟩ :: post)) : Coalesced (pre ++ ⟨z, u⟩ :: post) := by
  unfold Coalesced at h ⊢
  rw [isChain_append, isChain_cons] at h ⊢
  simpa using h

/-- Splitting a free block into one in use and a free rest. -/
theorem Coalesced.split (h : Coalesced (pre ++ ⟨x, false⟩ :: post)) :
    Coalesced (pre ++ ⟨y, true⟩ :: ⟨z, false⟩ :: post) := by
  unfold Coalesced at h ⊢
  rw [isChain_append, isChain_cons] at h
  rw [isChain_append, isChain_cons_cons, isChain_cons]
  obtain ⟨h1, ⟨h2, h3⟩, -⟩ := h
  exact ⟨h1, ⟨.inl rfl, h2, h3⟩, by simp⟩

theorem LastFree.split (h : LastFree (pre ++ ⟨x, false⟩ :: post)) :
    LastFree (pre ++ ⟨y, true⟩ :: ⟨z, false⟩ :: post) := by
  obtain ⟨l, w, hl⟩ := h.of_append pre (by simp)
  cases l with
  | nil =>
    obtain ⟨-, rfl⟩ := hl
    exact ⟨pre ++ [⟨y, true⟩], z, by simp⟩
  | cons c l =>
    obtain ⟨-, rfl⟩ := hl
    exact ⟨pre ++ ⟨y, true⟩ :: ⟨z, false⟩ :: l, w, by simp⟩

/-- Next to a free block stand only blocks in use. -/
theorem Coalesced.neighbours (pre post : List Blk)
    (h : Coalesced (pre ++ ⟨x, false⟩ :: post)) :
    (∀ b ∈ pre.getLast?, b.used = true) ∧ ∀ b ∈ post.head?, b.used = true := by
  unfold Coalesced at h
  rw [isChain_append, isChain_cons] at h
  obtain ⟨-, ⟨h2, -⟩, h4⟩ := h
  refine ⟨fun b hb => ?_, fun b hb => ?_⟩
  · simpa using h4 b hb ⟨x, false⟩ (by simp)
  · simpa using h2 b hb

/-! ### Enlarging the last block -/

/-- The last block gets `n` bytes more. -/
def enlarge (n : ℕ) (bs : List Blk) : List Blk :=
  match bs.getLast? with
  | some b => bs.dropLast ++ [⟨b.size + n, b.used⟩]
  | none => []

@[simp] theorem enlarge_concat (n : ℕ) (pre : List Blk) (b : Blk) :
    enlarge n (pre ++ [b]) = pre ++ [⟨b.size + n, b.used⟩] := by
  simp [enlarge]

theorem LastFree.enlarge_zero (h : LastFree bs) : enlarge 0 bs = bs := by
  obtain ⟨pre, z, rfl⟩ := h
  simp

theorem LastFree.live_enlarge (h : LastFree bs) (a n : ℕ) :
    live a (enlarge n bs) = live a bs := by
  obtain ⟨pre, z, rfl⟩ := h
  simp

/-! ### Releasing a block -/

/-- The blocks in front without a free last one, and the bytes that one occupied. -/
def frontFree (pre : List Blk) : List Blk × ℕ :=
  match pre.getLast? with
  | some ⟨y, false⟩ => (pre.dropLast, y + 16)
  | _ => (pre, 0)

/-- The bytes of a free first block behind, and the blocks after it. -/
def backFree : List Blk → ℕ × List Blk
  | ⟨x, false⟩ :: post => (x + 16, post)
  | post => (0, post)

/-- The tiling after the block of size `z` between `pre` and `post` was released and merged with
its free neighbours. -/
def released (pre : List Blk) (z : ℕ) (post : List Blk) : List Blk :=
  (frontFree pre).1 ++ ⟨(frontFree pre).2 + z + (backFree post).1, false⟩ :: (backFree post).2

@[simp] theorem frontFree_nil : frontFree [] = ([], 0) := rfl

@[simp] theorem frontFree_free (pre : List Blk) (y : ℕ) :
    frontFree (pre ++ [⟨y, false⟩]) = (pre, y + 16) := by
  simp [frontFree]

@[simp] theorem frontFree_used (pre : List Blk) (y : ℕ) :
    frontFree (pre ++ [⟨y, true⟩]) = (pre ++ [⟨y, true⟩], 0) := by
  simp [frontFree]

/-- A block list is empty or ends in a free block or in one in use. -/
theorem blocks_end_cases (pre : List Blk) :
    pre = [] ∨ (∃ l y, pre = l ++ [⟨y, false⟩]) ∨ ∃ l y, pre = l ++ [⟨y, true⟩] := by
  rcases eq_nil_or_concat pre with rfl | ⟨l, ⟨y, _ | _⟩, rfl⟩
  · exact .inl rfl
  · exact .inr (.inl ⟨l, y, by simp⟩)
  · exact .inr (.inr ⟨l, y, by simp⟩)

theorem frontFree_span (pre : List Blk) : span (frontFree pre).1 + (frontFree pre).2 = span pre := by
  rcases blocks_end_cases pre with rfl | ⟨l, y, rfl⟩ | ⟨l, y, rfl⟩ <;> simp [Blk.span]

theorem frontFree_live (a : ℕ) (pre : List Blk) : live a (frontFree pre).1 = live a pre := by
  rcases blocks_end_cases pre with rfl | ⟨l, y, rfl⟩ | ⟨l, y, rfl⟩ <;> simp

theorem backFree_span (post : List Blk) : (backFree post).1 + span (backFree post).2 = span post := by
  rcases post with _ | ⟨⟨x, _ | _⟩, post⟩ <;> simp [backFree, Blk.span]

theorem backFree_live (a : ℕ) (post : List Blk) :
    live (a + (backFree post).1) (backFree post).2 = live a post := by
  rcases post with _ | ⟨⟨x, _ | _⟩, post⟩ <;> simp [backFree]

/-- Exactly the released block ceases to be in use. -/
theorem released_live (a : ℕ) (pre : List Blk) (z : ℕ) (post : List Blk) :
    live a (released pre z post) = live a pre ++ live (a + span pre + (z + 16)) post := by
  have h1 := frontFree_span pre
  have h2 : a + span (frontFree pre).1 + ((frontFree pre).2 + z + (backFree post).1 + 16) =
      a + span pre + (z + 16) + (backFree post).1 := by omega
  simp [released, live_append, live_cons_free, frontFree_live, h2, backFree_live]

theorem Coalesced.front (h : Coalesced (pre ++ post)) :
    Coalesced (frontFree pre).1 ∧ ∀ b ∈ (frontFree pre).1.getLast?, b.used = true := by
  have hpre : Coalesced pre := List.IsChain.left_of_append h
  rcases blocks_end_cases pre with rfl | ⟨l, y, rfl⟩ | ⟨l, y, rfl⟩
  · simpa using hpre
  · rw [frontFree_free]
    exact ⟨List.IsChain.left_of_append hpre, (Coalesced.neighbours _ [] hpre).1⟩
  · rw [frontFree_used]
    exact ⟨hpre, by simp⟩

theorem Coalesced.back (pre post : List Blk) (h : Coalesced (pre ++ post)) :
    Coalesced (backFree post).2 ∧ ∀ b ∈ (backFree post).2.head?, b.used = true := by
  have hpost : Coalesced post := List.IsChain.right_of_append h
  rcases post with _ | ⟨⟨x, _ | _⟩, post⟩
  · exact ⟨hpost, by simp [backFree]⟩
  · exact ⟨(isChain_cons.1 hpost).2, (Coalesced.neighbours [] _ hpost).2⟩
  · exact ⟨hpost, by simp [backFree]⟩

theorem Coalesced.released
    (h : Coalesced (pre ++ ⟨z, true⟩ :: post)) : Coalesced (released pre z post) := by
  obtain ⟨h1, h2⟩ := h.front
  obtain ⟨h3, h4⟩ := Coalesced.back (pre ++ [⟨z, true⟩]) post (by simpa using h)
  unfold Coalesced at *
  rw [Heap.released, isChain_append, isChain_cons]
  exact ⟨h1, ⟨fun b hb => .inr (h4 b hb), h3⟩, fun b hb _ _ => .inl (h2 b hb)⟩

theorem LastFree.released (h : LastFree (pre ++ ⟨z, true⟩ :: post)) :
    LastFree (released pre z post) := by
  unfold Heap.released
  rcases post with _ | ⟨⟨x, _ | _⟩, post⟩
  · exact ⟨_, _, rfl⟩
  · cases post with
    | nil => exact ⟨_, _, rfl⟩
    | cons d post =>
      have hd : LastFree (d :: post) := by
        refine LastFree.of_append (pre ++ [⟨z, true⟩, ⟨x, false⟩]) ?_ (by simp)
        simpa using h
      rw [append_cons]
      exact hd.append_right
  · have hd : LastFree (⟨x, true⟩ :: post) := by
      refine LastFree.of_append (pre ++ [⟨z, true⟩]) ?_ (by simp)
      simpa using h
    rw [append_cons]
    exact hd.append_right

/-- Releasing the block that was split off from a free one restores that one. -/
theorem released_split (h : Coalesced (pre ++ ⟨z, false⟩ :: post)) (hz : n + 16 ≤ z) :
    released pre n (⟨z - (n + 16), false⟩ :: post) = pre ++ ⟨z, false⟩ :: post := by
  have hfront : frontFree pre = (pre, 0) := by
    rcases blocks_end_cases pre with rfl | ⟨l, y, rfl⟩ | ⟨l, y, rfl⟩
    · rfl
    · simpa using (Coalesced.neighbours _ _ h).1
    · simp
  have hsize : 0 + n + (z - (n + 16) + 16) = z := by omega
  rw [released, hfront, backFree, hsize]

end Tachyon.Heap
