import Tachyon.Heap.Model
import Tachyon.Heap.Blocks

/-!
# The memory of a heap as a tiling by blocks

`Tiles m a bs e` says that walking the headers of memory `m` from address `a` meets exactly the
blocks `bs` and ends at `e`, with a footer behind each block that repeats its header.  The walk
reads only the bytes it covers (`Tiles.congr`), so an edit inside a segment of the tiling leaves the
rest of it alone (`Tiles.replace`).

The macros of `heap.c` are read off on a tiled memory: `BlkAt.next`, `BlkAt.prev` and
`BlkAt.dataSz` compute on a block what the source computes from its header, and `blkAt_blSet` says
that `HEAP_BL_SET` writes a block and nothing else.
-/

namespace Tachyon.Heap

/-- The header word of a block. -/
def Blk.header (b : Blk) : ℕ := b.size + b.used.toNat

/-- A block stands at `a`: header and footer agree on its size and present bit, and only the
footer has the footer bit. -/
structure BlkAt (m : Mem) (a : ℕ) (b : Blk) : Prop where
  header : read64 m a = b.header
  footer : read64 m (a + 8 + b.size) = b.header + 2
  aligned : 8 ∣ b.size

/-- Walking the headers from `a` meets the blocks `bs` and ends at `e`. -/
def Tiles (m : Mem) : ℕ → List Blk → ℕ → Prop
  | a, [], e => a = e
  | a, b :: bs, e => BlkAt m a b ∧ Tiles m (a + b.span) bs e

section Walk

variable {m m' : Mem} {a e p p s : ℕ} {b : Blk} {bs xs ys pre mid mid' post : List Blk}

theorem BlkAt.congr (h : BlkAt m a b) (hm : ∀ x, a ≤ x → x < a + b.span → m' x = m x) :
    BlkAt m' a b := by
  unfold Blk.span at hm
  refine ⟨?_, ?_, h.aligned⟩
  · rw [read64_congr fun x h1 h2 => hm x h1 (by omega), h.header]
  · rw [read64_congr fun x h1 h2 => hm x (by omega) (by omega), h.footer]

theorem Tiles.end_eq (h : Tiles m a bs e) : e = a + span bs := by
  induction bs generalizing a with
  | nil => exact (show a = e from h).symm
  | cons b bs ih => rw [ih h.2, span_cons, Nat.add_assoc]

theorem tiles_append : Tiles m a (xs ++ ys) e ↔ Tiles m a xs (a + span xs) ∧
    Tiles m (a + span xs) ys e := by
  induction xs generalizing a with
  | nil => simp [Tiles]
  | cons b xs ih =>
    rw [List.cons_append, Tiles, ih, Tiles, span_cons, Nat.add_assoc, and_assoc]

/-- The header determines the block. -/
theorem BlkAt.unique {c : Blk} (hb : BlkAt m a b) (hc : BlkAt m a c) : b = c := by
  have heq := hb.header.symm.trans hc.header
  have h1 := hb.aligned
  have h2 := hc.aligned
  obtain ⟨y, u⟩ := b
  obtain ⟨z, v⟩ := c
  simp only [Blk.header] at heq h1 h2
  have hu : u.toNat ≤ 1 := Bool.toNat_le u
  have hv : v.toNat ≤ 1 := Bool.toNat_le v
  obtain ⟨rfl, huv⟩ : y = z ∧ u.toNat = v.toNat := by omega
  cases u <;> cases v <;> simp_all

/-- There is only one way to walk over the headers. -/
theorem Tiles.unique {bs' : List Blk} (h : Tiles m a bs e) (h' : Tiles m a bs' e) : bs = bs' := by
  induction bs generalizing a bs' with
  | nil =>
    cases bs' with
    | nil => rfl
    | cons c bs' =>
      have h1 := h'.end_eq
      simp only [Tiles, span_cons, Blk.span] at h h1
      omega
  | cons b bs ih =>
    cases bs' with
    | nil =>
      have h1 := h.end_eq
      simp only [Tiles, span_cons, Blk.span] at h' h1
      omega
    | cons c bs' =>
      obtain rfl := h.1.unique h'.1
      rw [ih h.2 h'.2]

theorem Tiles.congr (h : Tiles m a bs e) (hm : ∀ x, a ≤ x → x < e → m' x = m x) :
    Tiles m' a bs e := by
  induction bs generalizing a with
  | nil => exact h
  | cons b bs ih =>
    have he := h.2.end_eq
    exact ⟨h.1.congr fun x h1 h2 => hm x h1 (by omega), ih h.2 fun x h1 h2 => hm x (by omega) h2⟩

/-- An edit of one segment of the tiling. -/
theorem Tiles.replace (m' : Mem) (mid' : List Blk) (h : Tiles m a (pre ++ mid ++ post) e)
    (hspan : span mid' = span mid)
    (hmid : Tiles m' (a + span pre) mid' (a + span pre + span mid))
    (hm : ∀ x, x < a + span pre ∨ a + span pre + span mid ≤ x → m' x = m x) :
    Tiles m' a (pre ++ mid' ++ post) e := by
  rw [tiles_append, tiles_append] at h ⊢
  obtain ⟨⟨hpre, -⟩, hpost⟩ := h
  have he := hpost.end_eq
  simp only [span_append, hspan, ← Nat.add_assoc] at hpost he ⊢
  refine ⟨⟨hpre.congr fun x _ h2 => hm x (Or.inl h2), hmid⟩, ?_⟩
  exact hpost.congr fun x h1 _ => hm x (Or.inr h1)

/-- A new last segment, which may end elsewhere. -/
theorem Tiles.replace_last {e' : ℕ} (h : Tiles m a (pre ++ mid) e)
    (hmid : Tiles m' (a + span pre) mid' e') (hm : ∀ x, x < a + span pre → m' x = m x) :
    Tiles m' a (pre ++ mid') e' := by
  rw [tiles_append] at h ⊢
  exact ⟨h.1.congr fun x _ h2 => hm x h2, hmid⟩

/-- The block at a place of the tiling. -/
theorem Tiles.blkAt (h : Tiles m a (pre ++ b :: post) e) : BlkAt m (a + span pre) b :=
  (tiles_append.1 h).2.1

/-- The sizes of a tiling are multiples of 8. -/
theorem Tiles.aligned (h : Tiles m a bs e) : ∀ b ∈ bs, 8 ∣ b.size := by
  intro b hb
  obtain ⟨pre, post, rfl⟩ := List.append_of_mem hb
  exact h.blkAt.aligned

theorem Tiles.span_dvd (h : Tiles m a bs e) : 8 ∣ span bs := by
  induction bs generalizing a with
  | nil => simp
  | cons b bs ih =>
    have h1 := h.1.aligned
    have h2 := ih h.2
    rw [span_cons, Blk.span]
    omega

end Walk

/-! ### The macros on a block -/

section Macros

variable {m : Mem} {a e : ℕ} {b : Blk}

theorem blB2DataSz_eq (w : ℕ) : blB2DataSz w = w - w % 4 :=
  andNot_two_pow_sub_one w 2

theorem blPresent_iff (w : ℕ) : blPresent w = true ↔ w % 2 = 1 := by
  unfold blPresent heapPresent
  rw [Nat.and_one_is_mod]
  simp only [ne_eq, decide_eq_true_eq]
  omega

theorem footerBit_iff (w : ℕ) : w &&& heapFooter ≠ 0 ↔ w / 2 % 2 = 1 := by
  rw [show heapFooter = 2 ^ 1 from rfl, and_two_pow_ne_zero, Nat.testBit_eq_decide_div_mod_eq]
  simp

@[simp] theorem blB2DataSz_header (h : 8 ∣ b.size) : blB2DataSz b.header = b.size := by
  rw [blB2DataSz_eq, Blk.header]
  cases b.used <;> simp <;> omega

@[simp] theorem blB2DataSz_footer (h : 8 ∣ b.size) : blB2DataSz (b.header + 2) = b.size := by
  rw [blB2DataSz_eq, Blk.header]
  cases b.used <;> simp <;> omega

@[simp] theorem blPresent_header (h : 8 ∣ b.size) : blPresent b.header = b.used := by
  rw [Bool.eq_iff_iff, blPresent_iff, Blk.header]
  cases b.used <;> simp <;> omega

section

variable (h : BlkAt m a b)
include h

theorem BlkAt.dataSz : blB2DataSz (read64 m a) = b.size := by
  rw [h.header, blB2DataSz_header h.aligned]

theorem BlkAt.present : blPresent (read64 m a) = b.used := by
  rw [h.header, blPresent_header h.aligned]

section

variable (hlt : a + b.span < 2 ^ 64)
include hlt

theorem BlkAt.h2f : blH2F m a = a + 8 + b.size := by
  unfold Blk.span at hlt
  simp (disch := omega) only [blH2F, h.dataSz, blockT, add64_of_lt]

theorem BlkAt.next : blNext m a = a + b.span := by
  rw [blNext, h.h2f hlt, blockT, add64_of_lt (by unfold Blk.span at hlt; omega), Blk.span]
  omega

theorem BlkAt.prev : blPrev m (a + b.span) = a := by
  unfold Blk.span at hlt ⊢
  have hf : a + (b.size + 16) - 8 = a + 8 + b.size := by omega
  simp (disch := omega) only [blPrev, blF2H, blockT, sub64_of_le, hf, h.footer,
    blB2DataSz_footer h.aligned]
  omega

end

end

/-- `HEAP_BL_SET` changes no byte outside the header and the footer it writes. -/
theorem blSet_other {f x : ℕ} (hs : 8 ∣ s) (hf : f < 2) (hlt : p + s + 16 < 2 ^ 64)
    (hx : x < p ∨ (p + 8 ≤ x ∧ x < p + 8 + s) ∨ p + 16 + s ≤ x) :
    blSet (fun _ => p) s f m x = m x := by
  have hor : s ||| f = s + f := or_eq_add_of_dvd (k := 3) hs (by omega)
  have hsz : blB2DataSz (s + f) = s := by rw [blB2DataSz_eq]; omega
  have hft : blH2F (write64 m p (s + f)) p = p + 8 + s := by
    simp (disch := omega) only [blH2F, read64_write64, hsz, blockT, add64_of_lt]
  simp only [blSet, hor, hft]
  rw [write64_of_not_mem (by omega), write64_of_not_mem (by omega)]

/-- `HEAP_BL_SET` writes a block. -/
theorem blkAt_blSet {u : Bool} (hs : 8 ∣ s) (hlt : p + s + 16 < 2 ^ 64) :
    BlkAt (blSet (fun _ => p) s u.toNat m) p ⟨s, u⟩ := by
  have hu : u.toNat < 2 := by cases u <;> simp
  have hor : s ||| u.toNat = s + u.toNat := or_eq_add_of_dvd (k := 3) hs (by omega)
  have hor2 : s + u.toNat ||| heapFooter = s + u.toNat + 2 := by
    rw [← hor, Nat.or_assoc]
    have h3 : u.toNat ||| heapFooter = u.toNat + 2 := by cases u <;> rfl
    rw [h3, or_eq_add_of_dvd (k := 3) hs (by omega), hor]
    omega
  have hsz : blB2DataSz (s + u.toNat) = s := by rw [blB2DataSz_eq]; omega
  have hft : blH2F (write64 m p (s + u.toNat)) p = p + 8 + s := by
    simp (disch := omega) only [blH2F, read64_write64, hsz, blockT, add64_of_lt]
  simp only [blSet, hor, hft, hor2]
  refine ⟨?_, ?_, hs⟩
  · rw [read64_of_disjoint (by omega), read64_write64 (by omega), Blk.header]
  · rw [read64_write64 (by omega), Blk.header]

end Macros

end Tachyon.Heap
