import Mathlib.Tactic

/-!
# Singly linked chains

A memory of cells, each with a datum and the address of the next cell; `0` is no cell.
`Seg mem a l z`: following the next pointers from `a` visits the cells `l` and ends at `z`.

* `seg_append`: a chain is cut at any cell;
* `Seg.congr`: a chain depends on its own cells only;
* `Seg.nodup`: a chain that ends in `0` has no cycle;
* `Seg.insert`, `Seg.unlink`: a new cell behind a cell, and a cell taken out.
-/

namespace Tachyon

open List

/-- A cell: its datum and the address of the next cell. -/
structure Cell (δ : Type) where
  data : δ
  next : ℕ
  deriving DecidableEq, Repr

variable {δ : Type} {mem mem' : ℕ → Option (Cell δ)} {a z next : ℕ} {l xs ys : List (ℕ × δ)}

/-- From `a`, the next pointers visit the cells `l` (addresses and data) and end at `z`. -/
def Seg (mem : ℕ → Option (Cell δ)) : ℕ → List (ℕ × δ) → ℕ → Prop
  | a, [], z => a = z
  | a, (b, d) :: l, z => a = b ∧ b ≠ 0 ∧ ∃ next, mem b = some ⟨d, next⟩ ∧ Seg mem next l z

/-- The address of the last cell, or `0`. -/
def lastAddr (l : List (ℕ × δ)) : ℕ := (l.getLast?.map Prod.fst).getD 0

@[simp] theorem lastAddr_nil : lastAddr ([] : List (ℕ × δ)) = 0 := rfl

@[simp] theorem lastAddr_concat (b : ℕ × δ) : lastAddr (xs ++ [b]) = b.1 := by
  simp [lastAddr]

theorem lastAddr_append (h : ys ≠ []) : lastAddr (xs ++ ys) = lastAddr ys := by
  obtain ⟨zs, z, rfl⟩ := (eq_nil_or_concat ys).resolve_left h
  rw [concat_eq_append, ← append_assoc, lastAddr_concat, lastAddr_concat]

/-- A cell in the middle is not the last one. -/
theorem lastAddr_insert {b c : ℕ × δ} (h : ys ≠ []) :
    lastAddr (xs ++ b :: c :: ys) = lastAddr (xs ++ b :: ys) := by
  rw [append_cons xs, append_cons xs b ys, append_cons, lastAddr_append h, lastAddr_append h]

theorem seg_append : Seg mem a (xs ++ ys) z ↔ ∃ b, Seg mem a xs b ∧ Seg mem b ys z := by
  induction xs generalizing a with
  | nil => simp [Seg]
  | cons x xs ih =>
    obtain ⟨b, d⟩ := x
    simp only [cons_append, Seg, ih]
    constructor
    · rintro ⟨rfl, ha, next, hmem, c, hxs, hys⟩
      exact ⟨c, ⟨rfl, ha, next, hmem, hxs⟩, hys⟩
    · rintro ⟨c, ⟨rfl, ha, next, hmem, hxs⟩, hys⟩
      exact ⟨rfl, ha, next, hmem, c, hxs, hys⟩

/-- Cut at one cell. -/
theorem seg_cut {b : ℕ} {d : δ} : Seg mem a (xs ++ (b, d) :: ys) z ↔
    Seg mem a xs b ∧ b ≠ 0 ∧ ∃ next, mem b = some ⟨d, next⟩ ∧ Seg mem next ys z := by
  simp only [seg_append, Seg, and_left_comm, exists_eq_left]

theorem Seg.congr (h : Seg mem a l z) (hsame : ∀ b ∈ l, mem' b.1 = mem b.1) :
    Seg mem' a l z := by
  induction l generalizing a with
  | nil => exact h
  | cons x l ih =>
    obtain ⟨b, d⟩ := x
    obtain ⟨rfl, ha, next, hmem, hl⟩ := h
    rw [forall_mem_cons] at hsame
    exact ⟨rfl, ha, next, hsame.1.trans hmem, ih hl hsame.2⟩

theorem Seg.ne_zero (h : Seg mem a l z) : ∀ b ∈ l, b.1 ≠ 0 := by
  induction l generalizing a with
  | nil => simp
  | cons x l ih =>
    obtain ⟨-, hb, next, -, hl⟩ := h
    exact forall_mem_cons.2 ⟨hb, ih hl⟩

/-- The cells of a chain are there. -/
theorem Seg.isSome (h : Seg mem a l z) : ∀ b ∈ l, (mem b.1).isSome := by
  induction l generalizing a with
  | nil => simp
  | cons x l ih =>
    obtain ⟨-, -, next, hmem, hl⟩ := h
    exact forall_mem_cons.2 ⟨by rw [hmem]; rfl, ih hl⟩

/-- The memory determines the chain. -/
theorem Seg.unique (h : Seg mem a xs 0) (h' : Seg mem a ys 0) : xs = ys := by
  induction xs generalizing a ys with
  | nil =>
    cases ys with
    | nil => rfl
    | cons y ys =>
      obtain ⟨rfl, hy, -⟩ := h'
      exact absurd h hy
  | cons x xs ih =>
    obtain ⟨rfl, hx, next, hmem, hxs⟩ := h
    cases ys with
    | nil => exact absurd h' hx
    | cons y ys =>
      obtain ⟨hy, -, next', hmem', hys⟩ := h'
      rw [← hy, hmem, Option.some.injEq, Cell.mk.injEq] at hmem'
      obtain ⟨hd, rfl⟩ := hmem'
      rw [ih hxs hys, Prod.ext hy hd]

/-- A chain that ends visits no cell twice. -/
theorem Seg.nodup (h : Seg mem a l 0) : (l.map Prod.fst).Nodup := by
  induction l generalizing a with
  | nil => exact nodup_nil
  | cons x l ih =>
    have hall := h
    obtain ⟨rfl, -, next, -, hl⟩ := h
    refine nodup_cons.2 ⟨fun hmem => ?_, ih hl⟩
    obtain ⟨y, hy, hxy⟩ := mem_map.1 hmem
    obtain ⟨us, vs, rfl⟩ := append_of_mem hy
    -- the chain from `x` would be one of its own proper tails
    obtain ⟨b, -, hb⟩ := seg_append.1 hl
    have hyb : b = y.1 := hb.1
    rw [hyb, hxy] at hb
    have := congrArg length (hall.unique hb)
    simp at this
    omega

/-- Distinct addresses below `n`, none of them `0`, are fewer than `n`. -/
theorem Seg.length_lt {n : ℕ} (h : Seg mem a l 0) (hn : 0 < n) (hlt : ∀ b ∈ l, b.1 < n) :
    l.length < n := by
  have hnd : (0 :: l.map Prod.fst).Nodup := by
    refine nodup_cons.2 ⟨fun h0 => ?_, h.nodup⟩
    obtain ⟨b, hb, hb0⟩ := mem_map.1 h0
    exact h.ne_zero b hb hb0
  have hsub : (0 :: l.map Prod.fst) ⊆ range n := by
    intro b hb
    rw [mem_range]
    rcases mem_cons.1 hb with rfl | hb
    · exact hn
    · obtain ⟨c, hc, rfl⟩ := mem_map.1 hb
      exact hlt c hc
  simpa using (hnd.subperm hsub).length_le

/-! ### Changing a chain -/

section Change

variable {b new : ℕ} {d data : δ}

section

variable (h : Seg mem a (xs ++ (b, d) :: ys) 0)
include h

/-- The cells before and behind a cell are other cells. -/
theorem Seg.ne_of_cut : ∀ c ∈ xs ++ ys, c.1 ≠ b := by
  have hnd := h.nodup
  rw [map_append, map_cons, nodup_middle, nodup_cons] at hnd
  rintro c hc rfl
  refine hnd.1 ?_
  rw [← map_append]
  exact mem_map.2 ⟨c, hc, rfl⟩

/-- A cell is the last one exactly when nothing is behind it. -/
theorem Seg.lastAddr_cut : lastAddr (xs ++ (b, d) :: ys) = b ↔ ys = [] := by
  constructor
  · intro hlast
    by_contra hne
    obtain ⟨zs, z, rfl⟩ := (eq_nil_or_concat ys).resolve_left hne
    rw [concat_eq_append, ← cons_append, ← append_assoc, lastAddr_concat] at hlast
    exact h.ne_of_cut z (by simp) hlast
  · rintro rfl
    rw [lastAddr_concat]

/-- The last cell after a cell was taken out. -/
theorem Seg.lastAddr_unlink :
    (if lastAddr (xs ++ (b, d) :: ys) = b then lastAddr xs else lastAddr (xs ++ (b, d) :: ys)) =
      lastAddr (xs ++ ys) := by
  by_cases hy : ys = []
  · rw [if_pos (h.lastAddr_cut.2 hy), hy, append_nil]
  · rw [if_neg fun hlast => hy (h.lastAddr_cut.1 hlast), append_cons, lastAddr_append hy,
      lastAddr_append hy]

/-- The last cell, when a new one is linked behind `b`. -/
theorem Seg.lastAddr_link :
    (if lastAddr (xs ++ (b, d) :: ys) = b then new else lastAddr (xs ++ (b, d) :: ys)) =
      lastAddr (xs ++ (b, d) :: (new, data) :: ys) := by
  by_cases hy : ys = []
  · subst hy
    rw [if_pos (h.lastAddr_cut.2 rfl), append_cons, lastAddr_concat]
  · rw [if_neg fun hlast => hy (h.lastAddr_cut.1 hlast), lastAddr_insert hy]

end

/-- The last cell, when the first one is taken out and the rest begins at `next`. -/
theorem Seg.lastAddr_unlink_head (h : Seg mem a ((b, d) :: ys) 0)
    (hys : Seg mem' next ys 0) :
    (if lastAddr ((b, d) :: ys) = b then next else lastAddr ((b, d) :: ys)) = lastAddr ys := by
  have hcut : Seg mem a ([] ++ (b, d) :: ys) 0 := h
  refine Eq.trans (ite_congr rfl (fun hlast => ?_) fun _ => rfl) hcut.lastAddr_unlink
  obtain rfl := hcut.lastAddr_cut.1 hlast
  exact hys

/-- A new cell behind `b`. -/
theorem Seg.insert (h : Seg mem a (xs ++ (b, d) :: ys) 0) (hnew : new ≠ 0)
    (hfresh : ∀ c ∈ xs ++ (b, d) :: ys, c.1 ≠ new)
    (hsame : ∀ c, c ≠ b → c ≠ new → mem' c = mem c) (hb : mem' b = some ⟨d, new⟩)
    (hcell : ∀ next, mem b = some ⟨d, next⟩ → mem' new = some ⟨data, next⟩) :
    Seg mem' a (xs ++ (b, d) :: (new, data) :: ys) 0 := by
  have hne := h.ne_of_cut
  obtain ⟨hxs, hb0, next, hmem, hys⟩ := seg_cut.1 h
  have hkeep : ∀ c ∈ xs ++ ys, mem' c.1 = mem c.1 := fun c hc =>
    hsame c.1 (hne c hc) (hfresh c (by
      rcases mem_append.1 hc with hc | hc
      · exact mem_append_left _ hc
      · exact mem_append_right _ (mem_cons_of_mem _ hc)))
  refine seg_cut.2 ⟨hxs.congr fun c hc => hkeep c (mem_append_left _ hc), hb0, new, hb,
    rfl, hnew, next, hcell next hmem, hys.congr fun c hc => hkeep c (mem_append_right _ hc)⟩

/-- The first cell is taken out. -/
theorem Seg.unlink_head (h : Seg mem a ((b, d) :: ys) 0)
    (hb : mem b = some ⟨d, next⟩) (hsame : ∀ c, c ≠ b → mem' c = mem c) : Seg mem' next ys 0 := by
  have hcut : Seg mem a ([] ++ (b, d) :: ys) 0 := h
  have hne := hcut.ne_of_cut
  obtain ⟨-, -, next', hmem, hys⟩ := h
  rw [hb, Option.some.injEq, Cell.mk.injEq] at hmem
  obtain ⟨-, rfl⟩ := hmem
  exact hys.congr fun c hc => hsame c.1 (hne c hc)

/-- A cell behind `p` is taken out. -/
theorem Seg.unlink {p : ℕ} {e : δ} (h : Seg mem a (xs ++ (p, e) :: (b, d) :: ys) 0)
    (hsame : ∀ c, c ≠ b → c ≠ p → mem' c = mem c)
    (hp : ∀ next, mem b = some ⟨d, next⟩ → mem' p = some ⟨e, next⟩) :
    Seg mem' a (xs ++ (p, e) :: ys) 0 := by
  have hneP := h.ne_of_cut
  have hcut : Seg mem a ((xs ++ [(p, e)]) ++ (b, d) :: ys) 0 := by simpa using h
  have hneB := hcut.ne_of_cut
  obtain ⟨hxs, hp0, next, -, hrest⟩ := seg_cut.1 h
  obtain ⟨rfl, -, next', hb, hys⟩ := hrest
  have hkeep : ∀ c ∈ xs ++ ys, mem' c.1 = mem c.1 := by
    intro c hc
    rcases mem_append.1 hc with hc | hc
    · exact hsame c.1 (hneB c (by simp [hc])) (hneP c (by simp [hc]))
    · exact hsame c.1 (hneB c (by simp [hc])) (hneP c (by simp [hc]))
  refine seg_cut.2 ⟨hxs.congr fun c hc => hkeep c (mem_append_left _ hc), hp0, next',
    hp next' hb, hys.congr fun c hc => hkeep c (mem_append_right _ hc)⟩

end Change

end Tachyon
