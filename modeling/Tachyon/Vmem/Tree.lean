import Tachyon.Lib.Radix
import Tachyon.Vmem.Direct

/-!
# The tables of an address space

The tables that are reached from a PML4, as a tree of tables: depth 0 is the PML4 itself, depth 3 are
the page tables.

* `nodeAt`: the table at the end of a path of indices; `Leaf`: the entries that map a page;
* `Tree`: the tables form a tree of distinct frames, none of which the allocator will hand out;
* `Policy`: what else is to be kept about the entries, above and below each other;
* `Tree.set`, `Tree.grow`: the two ways in which the code changes the tree, a store that keeps the
  table behind the entry, and a new table;
* `leafAt`: the entry that maps an address.
-/

namespace Tachyon.Vmem

open Prog List Option

/-- Indices into a table. -/
abbrev Idx : Type := Fin 512

/-- The table behind an entry at depth `d`.  In a page directory the entry may be a large page. -/
def child (d e : ℕ) : Option ℕ :=
  if isPresent e = true ∧ d < 3 ∧ (d = 2 → isLarge e = false) then some (entryAddr e) else none

def entries (t : Tables) (f : ℕ) (i : Idx) : ℕ := t.table f i

/-- The table to which a path leads; the last index comes first. -/
def nodeAt (t : Tables) (r : ℕ) (p : List Idx) : Option ℕ := Radix.node child (entries t) r p

/-- The entry `e` maps a page. -/
def Leaf (t : Tables) (r : ℕ) (p : List Idx) (i : Idx) (e : ℕ) : Prop :=
  ∃ f, nodeAt t r p = some f ∧ t.table f i = e ∧ isPresent e = true ∧ child p.length e = none

/-- What is to be kept about the entries: `Frame` about the frames of new tables, `Upper` about
entries with a table behind them, `Leaf` about entries that map a page, and `Below` about an entry
and a present entry of the table behind it. -/
structure Policy where
  Frame : ℕ → Prop
  Upper : ℕ → Prop
  Leaf : ℕ → Prop
  Below : ℕ → ℕ → Prop

/-- The flags `u` may be added to the entries on the way to a page, from the top down. -/
structure Policy.Allows (P : Policy) (u : ℕ) : Prop where
  upper_or : ∀ e, P.Upper e → P.Upper (e ||| u)
  upper_new : ∀ g, P.Frame g → P.Upper (g ||| pgPresent ||| pgWritable ||| u)
  below_above : ∀ a e, P.Below a e → P.Below (a ||| u) e
  below_or : ∀ a e, a ||| u = a → P.Below a e → P.Below a (e ||| u)
  below_new : ∀ a g, a ||| u = a → P.Frame g → P.Below a (g ||| pgPresent ||| pgWritable ||| u)

/-- The tables of the address space `r` form a tree of distinct frames.  None of them holds the
slots, and none of them is free.  An entry of a page table that is not present holds no address. -/
structure Tree (P : Policy) (B : Boot) (r : ℕ) (t : Tables) : Prop where
  aligned : pageSize4K ∣ r
  distinct : Radix.Distinct child (entries t) r
  noSlot : ∀ p f, nodeAt t r p = some f → f ≠ B.ptTemp
  empty : ∀ p f, nodeAt t r p = some f → p.length = 3 → ∀ i : Idx,
    isPresent (t.table f i) = false → entryAddr (t.table f i) = 0
  leaf : ∀ p i e, Leaf t r p i e → P.Leaf e
  upper : ∀ p f (i : Idx) g, nodeAt t r p = some f → child p.length (t.table f i) = some g →
    P.Upper (t.table f i)
  below : ∀ p f (i : Idx) g, nodeAt t r p = some f → child p.length (t.table f i) = some g →
    ∀ j : Idx, isPresent (t.table g j) = true → P.Below (t.table f i) (t.table g j)
  fresh : ∀ g ∈ t.pmem, g ≠ 0 ∧ pageSize4K ∣ g ∧ g ≠ B.ptTemp ∧ P.Frame g ∧
    ∀ p, nodeAt t r p ≠ some g
  nodup : t.pmem.Nodup

variable {P : Policy} {B : Boot} {t t' : Tables} {r f g d e e' u : ℕ} {p q : List Idx} {i j : Idx}

/-! ### Entries -/

theorem child_eq_some : child d e = some g ↔
    (isPresent e = true ∧ d < 3 ∧ (d = 2 → isLarge e = false)) ∧ entryAddr e = g := by
  rw [child, ite_none_right_eq_some, some.injEq]

theorem child_eq_none : child d e = none ↔
    ¬ (isPresent e = true ∧ d < 3 ∧ (d = 2 → isLarge e = false)) := by
  rw [child]
  split_ifs with h
  · exact iff_of_false (by simp) (not_not.2 h)
  · exact iff_of_true rfl h

theorem child_of_not_present (h : isPresent e = false) : child d e = none := by
  rw [child_eq_none, h]
  simp

theorem nodeAt_nil : nodeAt t r [] = some r := rfl

theorem nodeAt_cons (h : nodeAt t r p = some f) :
    nodeAt t r (i :: p) = child p.length (t.table f i) := Radix.node_cons h

theorem nodeAt_cons_eq_some : nodeAt t r (i :: p) = some g ↔
    ∃ f, nodeAt t r p = some f ∧ child p.length (t.table f i) = some g := Radix.node_cons_eq_some

theorem Tables.table_set (f i e g j : ℕ) :
    (t.set f i e).table g j = if g = f ∧ j = i then e else t.table g j := rfl

namespace Tree

/-- A store touches no other entry of the tree. -/
theorem table_set_of_ne (h : Tree P B r t) (hf : nodeAt t r p = some f) (hq : nodeAt t r q = some g)
    (hne : q = p → j ≠ i) : (t.set f i e').table g j = t.table g j := by
  rw [Tables.table_set, if_neg]
  rintro ⟨rfl, hj⟩
  exact hne (h.distinct q p g hq hf) (Fin.ext hj)

/-- An entry of the tree is not the entry `i` of the table `f`, or it is that one. -/
theorem entry_cases (hf : nodeAt t r p = some f) (hq : nodeAt t r q = some g) (i j : Idx) :
    (q = p → j ≠ i) ∨ (q = p ∧ j = i ∧ g = f) := by
  by_cases hqj : q = p → j ≠ i
  · exact .inl hqj
  · simp only [Classical.not_imp, not_not] at hqj
    obtain ⟨rfl, rfl⟩ := hqj
    exact .inr ⟨rfl, rfl, some.inj (hq.symm.trans hf)⟩

theorem table_set_self (f : ℕ) (i : Idx) (e' : ℕ) : (t.set f i e').table f i = e' :=
  Tables.table_set_self f i e'

/-- A path is not the path of the table above it. -/
theorem ne_above (h : Tree P B r t) (hf : nodeAt t r p = some f)
    (hg : child p.length (t.table f i) = some g) : nodeAt t r (i :: p) = some g ∧ g ≠ f := by
  have hnode : nodeAt t r (i :: p) = some g := (nodeAt_cons hf).trans hg
  refine ⟨hnode, ?_⟩
  rintro rfl
  have := congrArg length (h.distinct (i :: p) p g hnode hf)
  simp at this

/-- An empty PML4 is a tree. -/
theorem of_empty (haligned : pageSize4K ∣ r) (hslot : r ≠ B.ptTemp)
    (hempty : ∀ i < 512, t.table r i = 0)
    (hfresh : ∀ g ∈ t.pmem, g ≠ 0 ∧ pageSize4K ∣ g ∧ g ≠ B.ptTemp ∧ P.Frame g ∧ g ≠ r)
    (hnodup : t.pmem.Nodup) : Tree P B r t := by
  have hzero : ∀ i : Idx, isPresent (t.table r i) = false := fun i => by
    rw [hempty i i.isLt]
    decide
  have hroot : ∀ {p f}, nodeAt t r p = some f → p = [] ∧ f = r := by
    intro p
    induction p with
    | nil => exact fun h => ⟨rfl, (some.inj h).symm⟩
    | cons i p ih =>
      intro f hf
      obtain ⟨g, hg, hchild⟩ := nodeAt_cons_eq_some.1 hf
      obtain ⟨rfl, rfl⟩ := ih hg
      rw [child_of_not_present (hzero i)] at hchild
      cases hchild
  refine ⟨haligned, fun p q f hp hq => ?_, fun p f hf => ?_, fun p f hf hlen => ?_, ?_, ?_, ?_,
    fun g hg => ?_, hnodup⟩
  · rw [(hroot hp).1, (hroot hq).1]
  · rwa [(hroot hf).2]
  · rw [(hroot hf).1] at hlen
    cases hlen
  · rintro p i e ⟨f, hf, rfl, hp, -⟩
    rw [(hroot hf).2, hzero i] at hp
    cases hp
  · intro p f i g hf hg
    rw [(hroot hf).2, child_of_not_present (hzero i)] at hg
    cases hg
  · intro p f i g hf hg
    rw [(hroot hf).2, child_of_not_present (hzero i)] at hg
    cases hg
  · obtain ⟨h0, hdvd, hne, hframe, hr⟩ := hfresh g hg
    exact ⟨h0, hdvd, hne, hframe, fun p hp => hr (hroot hp).2⟩

/-! ### Stores that keep the tree -/

section

variable (h : Tree P B r t) (hf : nodeAt t r p = some f)
  (hsame : child p.length e' = child p.length (t.table f i))
include h hf hsame

theorem nodeAt_set (q : List Idx) :
    nodeAt (t.set f i e') r q = nodeAt t r q := by
  refine Radix.node_keep (fun q x j hx => ?_) q
  rcases entry_cases hf hx i j with hqj | ⟨rfl, rfl, rfl⟩
  · exact congrArg _ (h.table_set_of_ne hf hx hqj)
  · exact (congrArg _ (table_set_self x j e')).trans hsame

theorem leaf_set (q : List Idx) (j : Idx) (x : ℕ) :
    Leaf (t.set f i e') r q j x ↔ if q = p ∧ j = i then
      x = e' ∧ isPresent e' = true ∧ child p.length e' = none else Leaf t r q j x := by
  unfold Leaf
  simp only [h.nodeAt_set hf hsame]
  split_ifs with hqj
  · obtain ⟨rfl, rfl⟩ := hqj
    constructor
    · rintro ⟨g, hg, rfl, hp, hc⟩
      obtain rfl : g = f := some.inj (hg.symm.trans hf)
      rw [table_set_self] at hp hc ⊢
      exact ⟨rfl, hp, hc⟩
    · rintro ⟨rfl, hp, hc⟩
      exact ⟨f, hf, table_set_self f j x, hp, hc⟩
  · refine exists_congr fun g => and_congr_right fun hg => ?_
    rw [h.table_set_of_ne hf hg fun hq hj => hqj ⟨hq, hj⟩]

end

/-- What a new content of an entry has to satisfy. -/
structure Fits (P : Policy) (t : Tables) (r : ℕ) (p : List Idx) (e' : ℕ) : Prop where
  empty : p.length = 3 → isPresent e' = false → entryAddr e' = 0
  leaf : isPresent e' = true → child p.length e' = none → P.Leaf e'
  upper : ∀ g, child p.length e' = some g → P.Upper e'
  above : ∀ g, child p.length e' = some g → ∀ j : Idx, isPresent (t.table g j) = true →
    P.Below e' (t.table g j)
  below : isPresent e' = true → ∀ q k a, p = k :: q → nodeAt t r q = some a →
    P.Below (t.table a k) e'

/-- A store that keeps the table behind the entry keeps the tree. -/
theorem set (h : Tree P B r t) (hf : nodeAt t r p = some f)
    (hsame : child p.length e' = child p.length (t.table f i)) (hfits : Fits P t r p e') :
    Tree P B r (t.set f i e') where
  aligned := h.aligned
  distinct q1 q2 x h1 h2 :=
    h.distinct q1 q2 x ((h.nodeAt_set hf hsame q1).symm.trans h1)
      ((h.nodeAt_set hf hsame q2).symm.trans h2)
  noSlot q x hx := h.noSlot q x ((h.nodeAt_set hf hsame q).symm.trans hx)
  empty q x hx hlen j hp := by
    rw [h.nodeAt_set hf hsame] at hx
    rcases entry_cases hf hx i j with hqj | ⟨rfl, rfl, rfl⟩
    · rw [h.table_set_of_ne hf hx hqj] at hp ⊢
      exact h.empty q x hx hlen j hp
    · rw [table_set_self] at hp ⊢
      exact hfits.empty hlen hp
  leaf q j x hx := by
    rw [h.leaf_set hf hsame] at hx
    split_ifs at hx
    · obtain ⟨rfl, hp, hc⟩ := hx
      exact hfits.leaf hp hc
    · exact h.leaf q j x hx
  upper q x j g hx hg := by
    rw [h.nodeAt_set hf hsame] at hx
    rcases entry_cases hf hx i j with hqj | ⟨rfl, rfl, rfl⟩
    · rw [h.table_set_of_ne hf hx hqj] at hg ⊢
      exact h.upper q x j g hx hg
    · rw [table_set_self] at hg ⊢
      exact hfits.upper g hg
  below q x j g hx hg k hk := by
    rw [h.nodeAt_set hf hsame] at hx
    rcases entry_cases hf hx i j with hqj | ⟨rfl, rfl, rfl⟩
    · rw [h.table_set_of_ne hf hx hqj] at hg ⊢
      have hnode := (h.ne_above hx hg).1
      rcases entry_cases hf hnode i k with hqk | ⟨rfl, rfl, rfl⟩
      · rw [h.table_set_of_ne hf hnode hqk] at hk ⊢
        exact h.below q x j g hx hg k hk
      · -- the new entry is in the table behind the entry `j`
        rw [table_set_self] at hk ⊢
        exact hfits.below hk q j x rfl hx
    · -- the new entry is the one above
      rw [table_set_self] at hg ⊢
      obtain ⟨hnode, -⟩ := h.ne_above hf (hsame.symm.trans hg)
      have hother : (t.set x j e').table g k = t.table g k :=
        h.table_set_of_ne hf hnode fun hq => absurd (congrArg length hq) (by simp)
      rw [hother] at hk ⊢
      exact hfits.above g hg k hk
  fresh g hg := by
    obtain ⟨h0, hdvd, hslot, hframe, hnew⟩ := h.fresh g hg
    exact ⟨h0, hdvd, hslot, hframe, fun q hq => hnew q ((h.nodeAt_set hf hsame q).symm.trans hq)⟩
  nodup := h.nodup

/-! ### New tables -/

section Grow

variable {pmem : List ℕ} (h : Tree P B r t) (hpmem : t.pmem = g :: pmem)
  (hf : nodeAt t r p = some f) (hold : isPresent (t.table f i) = false)
  (hnew : child p.length e' = some g)

/-- The tables with an empty table in the next frame, behind the entry `i` of the table `f`. -/
def grown (t : Tables) (g : ℕ) (pmem : List ℕ) (f i e' : ℕ) : Tables :=
  (Tables.clear { t with pmem := pmem } g).set f i e'

theorem table_grown_self (t : Tables) (g : ℕ) (pmem : List ℕ) (f : ℕ) (i : Idx) (e' : ℕ) :
    (grown t g pmem f i e').table f i = e' := Tables.table_set_self _ _ _

include h hpmem

theorem notMem_nodes (q : List Idx) : nodeAt t r q ≠ some g :=
  (h.fresh g (hpmem ▸ mem_cons_self)).2.2.2.2 q

include hf

theorem ne_fresh : f ≠ g := by
  rintro rfl
  exact h.notMem_nodes hpmem p hf

theorem table_grown_new (j : Idx) : (grown t g pmem f i e').table g j = 0 := by
  unfold grown
  rw [Tables.table_set, if_neg fun hj => h.ne_fresh hpmem hf hj.1.symm, Tables.clear]
  exact if_pos rfl

theorem table_grown_of_ne {x : ℕ} (hq : nodeAt t r q = some x) (hne : q = p → j ≠ i) :
    (grown t g pmem f i e').table x j = t.table x j := by
  have hx : x ≠ g := fun hx => h.notMem_nodes hpmem q (hx ▸ hq)
  unfold grown
  rw [Tables.table_set, if_neg, Tables.clear]
  · exact if_neg hx
  · rintro ⟨rfl, hj⟩
    exact hne (h.distinct q p x hq hf) (Fin.ext hj)

include hold hnew

theorem nodeAt_grown (q : List Idx) :
    nodeAt (grown t g pmem f i e') r q = if q = i :: p then some g else nodeAt t r q := by
  refine Radix.node_grow hf (child_of_not_present hold) ?_ (fun d j => ?_) (fun q x j hx hne => ?_) q
  · exact (congrArg _ (table_grown_self t g pmem f i e')).trans hnew
  · exact (congrArg _ (h.table_grown_new hpmem hf j)).trans (child_of_not_present (by decide))
  · exact congrArg _ (h.table_grown_of_ne hpmem hf hx hne)

/-- A new table maps nothing. -/
theorem leaf_grown (q : List Idx) (j : Idx) (x : ℕ) :
    Leaf (grown t g pmem f i e') r q j x ↔ Leaf t r q j x := by
  have hnone : nodeAt t r (i :: p) = none := (nodeAt_cons hf).trans (child_of_not_present hold)
  unfold Leaf
  simp only [h.nodeAt_grown hpmem hf hold hnew]
  split_ifs with hq
  · subst hq
    rw [hnone]
    refine iff_of_false ?_ (by simp)
    rintro ⟨y, hy, rfl, hp, -⟩
    cases hy
    rw [h.table_grown_new hpmem hf] at hp
    exact absurd hp (by decide)
  · refine exists_congr fun y => and_congr_right fun hy => ?_
    rcases entry_cases hf hy i j with hqj | ⟨rfl, rfl, rfl⟩
    · rw [h.table_grown_of_ne hpmem hf hy hqj]
    rw [table_grown_self]
    refine iff_of_false ?_ ?_
    · rintro ⟨rfl, -, hc⟩
      rw [hnew] at hc
      cases hc
    · rintro ⟨rfl, hp, -⟩
      rw [hold] at hp
      cases hp

/-- A new table behind an entry that was not present keeps the tree. -/
theorem grow (hupper : P.Upper e')
    (hbelow : ∀ q k a, p = k :: q → nodeAt t r q = some a → P.Below (t.table a k) e') :
    Tree P B r (grown t g pmem f i e') := by
  have hnode := h.nodeAt_grown hpmem hf hold hnew
  have hfresh : ∀ q, nodeAt t r q ≠ some g := h.notMem_nodes hpmem
  -- a table of the larger tree is the new one, or was there before
  have hcases : ∀ {q x}, nodeAt (grown t g pmem f i e') r q = some x →
      (q = i :: p ∧ x = g) ∨ nodeAt t r q = some x := by
    intro q x hx
    rw [hnode] at hx
    split_ifs at hx with hq
    · exact .inl ⟨hq, (some.inj hx).symm⟩
    · exact .inr hx
  have hzero : ∀ j : Idx, isPresent ((grown t g pmem f i e').table g j) = false := fun j => by
    rw [h.table_grown_new hpmem hf]
    decide
  exact
    { aligned := h.aligned
      distinct := h.distinct.grow hfresh hnode
      noSlot := fun q x hx0 => by
        rcases hcases hx0 with ⟨-, rfl⟩ | hx
        · exact (h.fresh x (hpmem ▸ mem_cons_self)).2.2.1
        · exact h.noSlot q x hx
      empty := fun q x hx0 hlen j hp => by
        rcases hcases hx0 with ⟨-, rfl⟩ | hx
        · rw [h.table_grown_new hpmem hf]
          decide
        · rcases entry_cases hf hx i j with hqj | ⟨rfl, rfl, rfl⟩
          · rw [h.table_grown_of_ne hpmem hf hx hqj] at hp ⊢
            exact h.empty q x hx hlen j hp
          · have := (child_eq_some.1 hnew).1.2.1
            omega
      leaf := fun q j x hx => h.leaf q j x ((h.leaf_grown hpmem hf hold hnew q j x).1 hx)
      upper := fun q x j y hx0 hy => by
        rcases hcases hx0 with ⟨rfl, rfl⟩ | hx
        · rw [child_of_not_present (hzero j)] at hy
          cases hy
        · rcases entry_cases hf hx i j with hqj | ⟨rfl, rfl, rfl⟩
          · rw [h.table_grown_of_ne hpmem hf hx hqj] at hy ⊢
            exact h.upper q x j y hx hy
          · rwa [table_grown_self]
      below := fun q x j y hx0 hy k hk => by
        rcases hcases hx0 with ⟨rfl, rfl⟩ | hx
        · rw [child_of_not_present (hzero j)] at hy
          cases hy
        rcases entry_cases hf hx i j with hqj | ⟨rfl, rfl, rfl⟩
        · rw [h.table_grown_of_ne hpmem hf hx hqj] at hy ⊢
          have hy' := (h.ne_above hx hy).1
          rcases entry_cases hf hy' i k with hqk | ⟨rfl, rfl, rfl⟩
          · rw [h.table_grown_of_ne hpmem hf hy' hqk] at hk ⊢
            exact h.below q x j y hx hy k hk
          · rw [table_grown_self]
            exact hbelow q j x rfl hx
        · rw [table_grown_self, hnew] at hy
          obtain rfl := some.inj hy
          rw [hzero k] at hk
          cases hk
      fresh := fun y hy => by
        have hmem : y ∈ t.pmem := hpmem ▸ mem_cons_of_mem g hy
        obtain ⟨h0, hdvd, hslot, hframe, hnew'⟩ := h.fresh y hmem
        refine ⟨h0, hdvd, hslot, hframe, fun q hq => ?_⟩
        rcases hcases hq with ⟨-, rfl⟩ | hq
        · have hnd := h.nodup
          rw [hpmem, nodup_cons] at hnd
          exact hnd.1 hy
        · exact hnew' q hq
      nodup := by
        have hnd := h.nodup
        rw [hpmem, nodup_cons] at hnd
        exact hnd.2 }

end Grow

end Tree

end Tachyon.Vmem
