import Tachyon.Vmem.PageMap

/-!
# The tables of several address spaces

Address spaces share tables: the PDPT of the kernel and the page table of low memory are in all of
them.  So every table gets a label, whose it is and which path leads to it.

* `Way`, `MapsTo`: the tables on the way to an address, and the frame of its small page;
* `Labelled`: the labels fit the tables, and the frames that the allocator will hand out have none;
* `Enlarged`: more tables, and the same pages in all address spaces;
* `Adds P`: the pages that the tables hold now and did not before are as `P` says;
* `Labelled.ends_map`: `vmem_map` of a small page loses no page of any address space, and adds no
  other page to its own one;
* `Labelled.ends_resolve`: `vmem_resolve` finds the page.
-/

namespace Tachyon.Vmem

open Prog List Function Option

variable {B : Boot} {t t' t1 t2 : Tables} {r virt v phys flags u f g e e' x y i j d : ℕ}
  {l : Locals} {pmem : List ℕ}

/-! ### The way to an address -/

/-- The tables on the way to an address. -/
structure Way (t : Tables) (r virt f₁ f₂ f₃ : ℕ) : Prop where
  pdpt : child 0 (t.table r (idxPml4 virt)) = some f₁
  pd : child 1 (t.table f₁ (idxPdpt virt)) = some f₂
  pt : child 2 (t.table f₂ (idxPd virt)) = some f₃

/-- The small page of an address is mapped to the frame `x`. -/
def MapsTo (t : Tables) (r virt x : ℕ) : Prop :=
  ∃ f₁ f₂ f₃, Way t r virt f₁ f₂ f₃ ∧ isPresent (t.table f₃ (idxPt virt)) = true ∧
    entryAddr (t.table f₃ (idxPt virt)) = x

variable {f₁ f₂ f₃ g1 g2 g3 : ℕ}

theorem Way.unique (h : Way t r virt f₁ f₂ f₃) (h' : Way t r virt g1 g2 g3) :
    f₁ = g1 ∧ f₂ = g2 ∧ f₃ = g3 := by
  obtain rfl : f₁ = g1 := some.inj (h.pdpt.symm.trans h'.pdpt)
  obtain rfl : f₂ = g2 := some.inj (h.pd.symm.trans h'.pd)
  exact ⟨rfl, rfl, some.inj (h.pt.symm.trans h'.pt)⟩

theorem MapsTo.unique (h : MapsTo t r virt x) (h' : MapsTo t r virt y) : x = y := by
  obtain ⟨f₁, f₂, f₃, hway, -, rfl⟩ := h
  obtain ⟨g1, g2, g3, hway', -, rfl⟩ := h'
  obtain ⟨-, -, rfl⟩ := hway.unique hway'
  rfl

theorem child_of_present (hp : isPresent e = true) (hd : d < 3)
    (hl : d = 2 → isLarge e = false) : child d e = some (entryAddr e) :=
  child_eq_some.2 ⟨⟨hp, hd, hl⟩, rfl⟩

/-- Above the page directories there are no large pages. -/
theorem child_upper (hp : isPresent e = true) (hd : d < 2) :
    child d e = some (entryAddr e) :=
  child_of_present hp (by omega) fun h => by omega

theorem Way.pdAt (h : Way t r virt f₁ f₂ f₃) : Vmem.pdAt t r virt = some f₂ := by
  obtain ⟨⟨h4, -⟩, rfl⟩ := child_eq_some.1 h.pdpt
  obtain ⟨⟨h3, -⟩, rfl⟩ := child_eq_some.1 h.pd
  exact if_pos ⟨h4, h3⟩

theorem way_of_pdAt (h : pdAt t r virt = some f) (hp : isPresent (t.table f (idxPd virt)) = true)
    (hl : isLarge (t.table f (idxPd virt)) = false) :
    ∃ f₁, Way t r virt f₁ f (entryAddr (t.table f (idxPd virt))) := by
  unfold pdAt at h
  simp only [ite_none_right_eq_some, some.injEq] at h
  obtain ⟨⟨h4, h3⟩, rfl⟩ := h
  exact ⟨_, child_upper h4 Nat.zero_lt_two, child_upper h3 Nat.one_lt_two,
    child_of_present hp (by decide) fun _ => hl⟩

/-- Addresses of the same page. -/
theorem idx_of_pageNo (h : pageNo v = pageNo virt) : idxPml4 v = idxPml4 virt ∧
    idxPdpt v = idxPdpt virt ∧ idxPd v = idxPd virt ∧ idxPt v = idxPt virt := by
  simp only [pageNo] at h
  simp only [idxPml4, idxPdpt, idxPd, idxPt, idx_eq]
  omega

theorem pageNo_of_idx (h4 : idxPml4 v = idxPml4 virt) (h3 : idxPdpt v = idxPdpt virt)
    (h2 : idxPd v = idxPd virt) (h1 : idxPt v = idxPt virt) : pageNo v = pageNo virt := by
  simp only [idxPml4, idxPdpt, idxPd, idxPt, idx_eq] at h4 h3 h2 h1
  simp only [pageNo]
  omega

theorem MapsTo.of_pageNo (h : MapsTo t r virt x) (hv : pageNo v = pageNo virt) :
    MapsTo t r v x := by
  obtain ⟨f₁, f₂, f₃, hway, hp, hx⟩ := h
  obtain ⟨h4, h3, h2, h1⟩ := idx_of_pageNo hv
  refine ⟨f₁, f₂, f₃, ⟨?_, ?_, ?_⟩, ?_, ?_⟩
  · rw [h4]
    exact hway.pdpt
  · rw [h3]
    exact hway.pd
  · rw [h2]
    exact hway.pt
  · rw [h1]
    exact hp
  · rw [h1]
    exact hx

theorem MapsTo.congr (h : MapsTo t r virt x) (ht : t'.table = t.table) : MapsTo t' r virt x := by
  obtain ⟨f₁, f₂, f₃, ⟨hpdpt, hpd, hpt⟩, hp, hx⟩ := h
  rw [← ht] at hpdpt hpd hpt hp hx
  exact ⟨f₁, f₂, f₃, ⟨hpdpt, hpd, hpt⟩, hp, hx⟩

/-! ### Labels -/

/-- The owner of a table, if it is not shared, and the path that leads to it, the last index first. -/
abbrev Label : Type := Option ℕ × List ℕ

/-- The label of the table behind the entry `i`.  The PDPT of the kernel and the page table of low
memory are shared, and so is what is behind them. -/
def Label.next (a : Label) (i : ℕ) : Label :=
  (if i :: a.2 = [511] ∨ i :: a.2 = [0, 0, 0] then none else a.1, i :: a.2)

/-- The labels of the tables behind labelled tables.  Frames that are not in use have no label. -/
structure Labelled (B : Boot) (lab : ℕ → Option Label) (t : Tables) : Prop where
  next : ∀ {f a i g}, lab f = some a → child a.2.length (t.table f i) = some g →
    lab g = some (a.next i)
  slots : lab B.ptTemp = some (none, [511, 511, 511])
  fresh : ∀ g ∈ t.pmem, lab g = none ∧ g ≠ 0 ∧ pageSize4K ∣ g
  nodup : t.pmem.Nodup

variable {lab lab' lab1 : ℕ → Option Label} {a : Label} {o : Option ℕ}

/-- The address is not in the last 2 MB, where the slots are. -/
def OffWindow (virt : ℕ) : Prop := [idxPd virt, idxPdpt virt, idxPml4 virt] ≠ [511, 511, 511]

/-- The labels on the way. -/
theorem Labelled.way (h : Labelled B lab t) (hr : lab r = some (o, []))
    (hway : Way t r virt f₁ f₂ f₃) :
    (∃ o1, lab f₁ = some (o1, [idxPml4 virt])) ∧
      (∃ o2, lab f₂ = some (o2, [idxPdpt virt, idxPml4 virt])) ∧
      ∃ o3, lab f₃ = some (o3, [idxPd virt, idxPdpt virt, idxPml4 virt]) :=
  have h1 := h.next hr hway.pdpt
  have h2 := h.next h1 hway.pd
  ⟨⟨_, h1⟩, ⟨_, h2⟩, ⟨_, h.next h2 hway.pt⟩⟩

/-- The label of the page table of an address, if the PML4 has the owner `o`. -/
def tableLabel (o : Option ℕ) (virt : ℕ) : Label :=
  ((Label.next (o, []) (idxPml4 virt)).next (idxPdpt virt)).next (idxPd virt)

/-- The label that the page of an address would have. -/
def pageLabel (o : Option ℕ) (virt : ℕ) : Label := (tableLabel o virt).next (idxPt virt)

section

variable (h : Labelled B lab t)
include h

theorem Labelled.way_pt (hr : lab r = some (o, [])) (hway : Way t r virt f₁ f₂ f₃) :
    lab f₃ = some (tableLabel o virt) :=
  h.next (h.next (h.next hr hway.pdpt) hway.pd) hway.pt

/-- The way is the same where the entries lead to the same tables. -/
theorem Labelled.way_keep
    (hchild : ∀ {f a i g}, lab f = some a → child a.2.length (t.table f i) = some g →
      child a.2.length (t'.table f i) = some g)
    (hr : lab r = some (o, [])) (hway : Way t r virt f₁ f₂ f₃) : Way t' r virt f₁ f₂ f₃ :=
  have h1 := h.next hr hway.pdpt
  have h2 := h.next h1 hway.pd
  ⟨hchild hr hway.pdpt, hchild h1 hway.pd, hchild h2 hway.pt⟩

/-- A table with another path is not the one with the slots. -/
theorem Labelled.not_isSlot (hf : lab f = some a) (ha : a.2 ≠ [511, 511, 511]) :
    ¬ B.isSlot f i := by
  rintro ⟨rfl, -⟩
  rw [h.slots] at hf
  cases hf
  exact ha rfl

theorem Labelled.avoids (hr : lab r = some (o, [])) (hv : OffWindow virt) : Avoids B t r virt := by
  refine ⟨h.not_isSlot hr (by simp), fun h4 => ?_⟩
  have hl1 := h.next hr (child_upper h4 Nat.zero_lt_two)
  refine ⟨h.not_isSlot hl1 (by simp [Label.next]), fun h3 => ?_⟩
  have hl2 := h.next hl1 (child_upper h3 Nat.one_lt_two)
  refine ⟨h.not_isSlot hl2 (by simp [Label.next]), fun h2 hlarge => ?_⟩
  exact h.not_isSlot (h.next hl2 (child_of_present h2 (Nat.lt_succ_self 2) fun _ => hlarge)) hv

end

/-! ### More tables -/

/-- There are perhaps more tables, and the same pages in all address spaces. -/
structure Enlarged (B : Boot) (lab lab' : ℕ → Option Label) (t t' : Tables) : Prop where
  tables : Labelled B lab' t'
  label : ∀ {f a}, lab f = some a → lab' f = some a
  child : ∀ {f a i g}, lab f = some a → child a.2.length (t.table f i) = some g →
    Vmem.child a.2.length (t'.table f i) = some g
  leaf : ∀ {f a} (i : ℕ), lab f = some a → a.2.length = 3 → t'.table f i = t.table f i
  maps : ∀ {r o v x}, lab r = some (o, []) → MapsTo t' r v x → MapsTo t r v x
  pmem : t'.pmem <:+ t.pmem

theorem Enlarged.refl (h : Labelled B lab t) : Enlarged B lab lab t t :=
  ⟨h, id, fun _ h => h, fun _ _ _ => rfl, fun _ h => h, suffix_rfl⟩

theorem Enlarged.trans (h : Enlarged B lab lab1 t t1) (h' : Enlarged B lab1 lab' t1 t') :
    Enlarged B lab lab' t t' where
  tables := h'.tables
  label hf := h'.label (h.label hf)
  child hf hg := h'.child (h.label hf) (h.child hf hg)
  leaf i hf ha := (h'.leaf i (h.label hf) ha).trans (h.leaf i hf ha)
  maps hr hm := h.maps hr (h'.maps (h.label hr) hm)
  pmem := h'.pmem.trans h.pmem

/-- The entry at depth `d` maps a page. -/
def Page (d e : ℕ) : Prop := d ≤ 3 ∧ isPresent e = true ∧ child d e = none

/-- The pages that are in the tables now and were not before are as `P` says of the label of the
table, the index and the entry.  New labels are those of new frames, and nothing is freed. -/
structure Adds (P : Label → ℕ → ℕ → Prop) (lab lab' : ℕ → Option Label) (t t' : Tables) : Prop where
  new : ∀ {f a}, lab' f = some a → lab f = some a ∨ f ∈ t.pmem
  page : ∀ {f a i}, lab' f = some a → Page a.2.length (t'.table f i) →
    (lab f = some a ∧ t'.table f i = t.table f i) ∨ P a i (t'.table f i)
  freed : t'.freed = t.freed

section Adds

variable {P Q : Label → ℕ → ℕ → Prop}

theorem Adds.refl : Adds P lab lab t t := ⟨.inl, fun hf _ => .inl ⟨hf, rfl⟩, rfl⟩

theorem Adds.mono (h : Adds P lab lab' t t') (hP : ∀ a i e, P a i e → Q a i e) :
    Adds Q lab lab' t t' :=
  ⟨h.new, fun hf hp => (h.page hf hp).imp id (hP _ _ _), h.freed⟩

theorem Adds.trans (h : Adds P lab lab1 t t1) (h' : Adds P lab1 lab' t1 t')
    (hpmem : t1.pmem <:+ t.pmem) : Adds P lab lab' t t' where
  new hf := by
    rcases h'.new hf with hf | hf
    · exact h.new hf
    · exact .inr (hpmem.mem hf)
  page hf hp := by
    rcases h'.page hf hp with ⟨hf, heq⟩ | hP
    · rw [heq] at hp ⊢
      exact h.page hf hp
    · exact .inr hP
  freed := h'.freed.trans h.freed

end Adds

/-- More tables, and no page that was not there before. -/
structure Grown (B : Boot) (lab lab' : ℕ → Option Label) (t t' : Tables) : Prop extends
    Enlarged B lab lab' t t', Adds (fun _ _ _ => False) lab lab' t t'

theorem Grown.trans (h : Grown B lab lab1 t t1) (h' : Grown B lab1 lab' t1 t') :
    Grown B lab lab' t t' :=
  ⟨h.toEnlarged.trans h'.toEnlarged, h.toAdds.trans h'.toAdds h.pmem⟩

/-- No page is lost. -/
theorem Enlarged.mapsTo (h : Enlarged B lab lab' t t') (ht : Labelled B lab t)
    (hr : lab r = some (o, [])) (hm : MapsTo t r v x) : MapsTo t' r v x := by
  obtain ⟨f₁, f₂, f₃, hway, hp, hx⟩ := hm
  obtain ⟨-, -, o3, h3⟩ := ht.way hr hway
  have hleaf := h.leaf (idxPt v) h3 rfl
  exact ⟨f₁, f₂, f₃, ht.way_keep h.child hr hway, hleaf ▸ hp, hleaf ▸ hx⟩

/-- No page appears if the entries of the tables lead to the same tables as before, or to empty new
ones. -/
theorem mapsTo_of_back (ht : Labelled B lab t)
    (hback : ∀ {f a i g}, lab f = some a → child a.2.length (t'.table f i) = some g →
      child a.2.length (t.table f i) = some g ∨ ∀ j, t'.table g j = 0)
    (hleaf : ∀ {f a} (i : ℕ), lab f = some a → a.2.length = 3 → t'.table f i = t.table f i)
    (hr : lab r = some (o, [])) (hm : MapsTo t' r v x) : MapsTo t r v x := by
  have hzero : ∀ {d g j}, (∀ j, t'.table g j = 0) → child d (t'.table g j) = none := fun h => by
    rw [h]
    exact child_of_not_present rfl
  obtain ⟨f₁, f₂, f₃, hway, hp, hx⟩ := hm
  rcases hback hr hway.pdpt with hpdpt | h0
  swap
  · have hpd := hway.pd
    rw [hzero h0] at hpd
    cases hpd
  have h1 := ht.next hr hpdpt
  rcases hback h1 hway.pd with hpd | h0
  swap
  · have hpt := hway.pt
    rw [hzero h0] at hpt
    cases hpt
  have h2 := ht.next h1 hpd
  rcases hback h2 hway.pt with hpt | h0
  swap
  · rw [h0] at hp
    cases hp
  have hsame := hleaf (idxPt v) (ht.next h2 hpt) rfl
  exact ⟨f₁, f₂, f₃, ⟨hpdpt, hpd, hpt⟩, hsame ▸ hp, hsame ▸ hx⟩

section

variable (h : Labelled B lab t)
include h

/-- Flags are added to an entry with a table behind it. -/
theorem Labelled.add_flags (hf : lab f = some a) (hchild : child a.2.length (t.table f i) = some g)
    (hnew : child a.2.length e' = some g) : Grown B lab lab t (t.set f i e') := by
  have hsame : ∀ {f' a' i'}, lab f' = some a' →
      child a'.2.length ((t.set f i e').table f' i') = child a'.2.length (t.table f' i') := by
    intro f' a' i' hf'
    rw [Tables.table_set]
    split_ifs with heq
    · obtain ⟨rfl, rfl⟩ := heq
      rw [hf] at hf'
      cases hf'
      rw [hnew, hchild]
    · rfl
  have hleaf : ∀ {f' a'} (i' : ℕ), lab f' = some a' → a'.2.length = 3 →
      (t.set f i e').table f' i' = t.table f' i' := by
    intro f' a' i' hf' ha'
    rw [Tables.table_set, if_neg]
    rintro ⟨rfl, rfl⟩
    rw [hf] at hf'
    cases hf'
    have := (child_eq_some.1 hnew).1.2.1
    omega
  have hpage : ∀ {f' a' i'}, lab f' = some a' → Page a'.2.length ((t.set f i e').table f' i') →
      (t.set f i e').table f' i' = t.table f' i' := by
    intro f' a' i' hf' hp
    rw [Tables.table_set] at hp ⊢
    split_ifs at hp ⊢ with heq
    · obtain ⟨rfl, rfl⟩ := heq
      rw [hf] at hf'
      cases hf'
      have hnone := hp.2.2
      cases hnew.symm.trans hnone
    · rfl
  exact
    { tables := ⟨fun hf' hg => h.next hf' ((hsame hf').symm.trans hg), h.slots, h.fresh, h.nodup⟩
      label := id
      new := .inl
      page := fun hf' hp => .inl ⟨hf', hpage hf' hp⟩
      freed := rfl
      child := fun hf' hg => (hsame hf').trans hg
      leaf := hleaf
      maps := fun hr => mapsTo_of_back h (fun hf' hg => .inl ((hsame hf').symm.trans hg)) hleaf hr
      pmem := suffix_rfl }

/-- A new table behind an entry that was not present. -/
theorem Labelled.add_table (hpmem : t.pmem = g :: pmem) (hf : lab f = some a)
    (hold : isPresent (t.table f i) = false) (hnew : child a.2.length e' = some g) :
    Grown B lab (update lab g (some (a.next i))) t (Tree.grown t g pmem f i e') := by
  have hnone := (h.fresh g (hpmem ▸ mem_cons_self)).1
  have hne : ∀ {f' a'}, lab f' = some a' → f' ≠ g := by
    rintro f' a' hf' rfl
    rw [hnone] at hf'
    cases hf'
  have hnodup := h.nodup
  rw [hpmem, nodup_cons] at hnodup
  have hself : (Tree.grown t g pmem f i e').table f i = e' := Tables.table_set_self _ _ _
  have hzero : ∀ j, (Tree.grown t g pmem f i e').table g j = 0 := fun j => by
    rw [Tree.grown, Tables.table_set, if_neg fun heq => hne hf heq.1.symm, Tables.clear]
    exact if_pos rfl
  have hother : ∀ {f' i'}, f' ≠ g → ¬ (f' = f ∧ i' = i) →
      (Tree.grown t g pmem f i e').table f' i' = t.table f' i' := by
    intro f' i' hg heq
    rw [Tree.grown, Tables.table_set, if_neg heq, Tables.clear]
    exact if_neg hg
  have hback : ∀ {f' a' i' g'}, lab f' = some a' →
      child a'.2.length ((Tree.grown t g pmem f i e').table f' i') = some g' →
      child a'.2.length (t.table f' i') = some g' ∨ (f' = f ∧ i' = i ∧ g' = g) := by
    intro f' a' i' g' hf' hg'
    by_cases heq : f' = f ∧ i' = i
    · obtain ⟨rfl, rfl⟩ := heq
      rw [hf] at hf'
      cases hf'
      rw [hself, hnew] at hg'
      exact .inr ⟨rfl, rfl, (some.inj hg').symm⟩
    · rw [hother (hne hf') heq] at hg'
      exact .inl hg'
  have hleaf : ∀ {f' a'} (i' : ℕ), lab f' = some a' → a'.2.length = 3 →
      (Tree.grown t g pmem f i e').table f' i' = t.table f' i' := by
    intro f' a' i' hf' ha'
    refine hother (hne hf') ?_
    rintro ⟨rfl, rfl⟩
    rw [hf] at hf'
    cases hf'
    have := (child_eq_some.1 hnew).1.2.1
    omega
  have hlab : ∀ {f' a'}, lab f' = some a' →
      update lab g (some (a.next i)) f' = some a' := fun hf' => by
    rw [update_of_ne (hne hf'), hf']
  exact
    { tables :=
        { next := by
            intro f' a' i' g' hf' hg'
            by_cases hfg : f' = g
            · subst hfg
              rw [hzero, child_of_not_present rfl] at hg'
              cases hg'
            rw [update_of_ne hfg] at hf'
            rcases hback hf' hg' with hg' | ⟨rfl, rfl, rfl⟩
            · exact hlab (h.next hf' hg')
            · rw [hf] at hf'
              cases hf'
              exact update_self _ _ _
          slots := hlab h.slots
          fresh := by
            intro y hy
            have hyg : y ≠ g := fun heq => hnodup.1 (heq ▸ hy)
            rw [update_of_ne hyg]
            exact h.fresh y (hpmem ▸ mem_cons_of_mem _ hy)
          nodup := hnodup.2 }
      label := hlab
      new := by
        intro f' a' hf'
        by_cases hfg : f' = g
        · rw [hfg, hpmem]
          exact .inr mem_cons_self
        · rw [update_of_ne hfg] at hf'
          exact .inl hf'
      page := by
        intro f' a' i' hf' hp
        by_cases hfg : f' = g
        · rw [hfg, hzero] at hp
          exact absurd hp.2.1 (by decide)
        rw [update_of_ne hfg] at hf'
        refine .inl ⟨hf', hother hfg ?_⟩
        rintro ⟨rfl, rfl⟩
        rw [hf] at hf'
        cases hf'
        have hnone := hp.2.2
        rw [hself, hnew] at hnone
        cases hnone
      freed := rfl
      child := by
        intro f' a' i' g' hf' hg'
        rw [hother (hne hf')]
        · exact hg'
        · rintro ⟨rfl, rfl⟩
          rw [child_of_not_present hold] at hg'
          cases hg'
      leaf := hleaf
      maps := fun hr => mapsTo_of_back h (fun hf' hg' => (hback hf' hg').imp id fun heq => by
        rw [heq.2.2]
        exact hzero) hleaf hr
      pmem := by
        rw [hpmem]
        exact suffix_cons _ _ }

/-! ### Searches -/

/-- **`VM_CHECK_ENTRY` with `VM_SPLIT_ALLOC`.** -/
theorem Labelled.ends_check (hu : u < 2 ^ 12) (hl : isLarge u = false) (hf : lab f = some a)
    (ha : a.2.length < 3)
    (hsmall : a.2.length = 2 → isPresent (t.table f i) = true → isLarge (t.table f i) = false)
    (hflags : flags &&& vmSplitAlloc ≠ 0) (p : ℕ) :
    ends (vmCheckEntry (direct B) ⟨p, f⟩ i flags u) (fun ok t' => ok = true ∧ ∃ lab',
      Grown B lab lab' t t' ∧
        child a.2.length (t'.table f i) = some (entryAddr (t'.table f i))) Starved t := by
  have hslot : ¬ B.isSlot f i := h.not_isSlot hf fun heq => by
    rw [heq] at ha
    exact absurd ha (by decide)
  refine ends_check_alloc hflags (fun hs => absurd hs hslot) (fun _ hpres => ⟨rfl, lab, ?_⟩)
    fun _ hpres => ?_
  · have hold := child_of_present hpres ha fun hd => hsmall hd hpres
    have hnew := child_or hu hpres ha fun hd => ⟨hsmall hd hpres, hl⟩
    refine ⟨h.add_flags hf hold hnew, ?_⟩
    rw [Tables.table_set_self, hnew, entryAddr_or _ hu]
  · refine ends_vmemMgmtAlloc (fun _ => .inl rfl) (fun _ _ => .inr (.inl rfl))
      (fun _ _ _ _ => .inr (.inr rfl)) (fun pmem hp => ?_) fun g pmem hp h0 hdvd _ => ⟨rfl, ?_⟩
    · have := (h.fresh _ (hp ▸ mem_cons_self)).1
      rw [h.slots] at this
      cases this
    · have hnew := child_new hu hdvd ha fun _ => hl
      refine ⟨_, h.add_table hp hf hpres hnew, ?_⟩
      rw [Tables.table_set_self, hnew, (child_eq_some.1 hnew).2]

end

/-- A search that makes tables finds the page table, or a large page. -/
def Found (t : Tables) (r virt : ℕ) (res : SplitRes × Locals) : Prop :=
  res.1 ≠ .tableNotMapped ∧ (res.1 = .splitSuccess → res.2.pt.addr ≠ 0 ∧
    res.2.ipt = idxPt virt ∧ ∃ f₁ f₂, Way t r virt f₁ f₂ res.2.pt.frame)

/-- **The search with `VM_SPLIT_ALLOC` for a small page.** -/
theorem Labelled.ends_split (h : Labelled B lab t) (hr : lab r = some (o, []))
    (hdvd : pageSize4K ∣ r) (hu : u < 2 ^ 12) (hl : isLarge u = false) :
    ends (vmemMgmtSplit (direct B) r virt vmSplitAlloc u l) (fun res t' => ∃ lab',
      Grown B lab lab' t t' ∧ Found t' r virt res) Starved t := by
  refine ends_bind (ends_map (absurd hdvd) fun _ => ?_)
  refine ends_seq (h.ends_check hu hl hr (by simp) (by simp) (by decide) _) ?_
  rintro _ t1 ⟨rfl, lab1, hext1, hpdpt⟩
  have hr1 := hext1.label hr
  refine ends_load (fun hs => absurd hs (hext1.tables.not_isSlot hr1 (by simp)))
    fun _ => ends_map_entryAddr ?_
  have hf1 := hext1.tables.next hr1 hpdpt
  refine ends_seq (hext1.tables.ends_check hu hl hf1 (by simp [Label.next])
    (by simp [Label.next]) (by decide) _) ?_
  rintro _ t2 ⟨rfl, lab2, hext2, hpd⟩
  have hf12 := hext2.label hf1
  refine ends_load (fun hs => absurd hs (hext2.tables.not_isSlot hf12
    (by simp [Label.next]))) fun _ => ends_map_entryAddr ?_
  have hf2 := hext2.tables.next hf12 hpd
  have hext := hext1.trans hext2
  have hslot := hext2.tables.not_isSlot (i := idxPd virt) hf2 (by simp [Label.next])
  refine ends_load (fun hs => absurd hs hslot) fun _ => ?_
  rw [if_neg (by decide)]
  refine ends_ite (fun hpage => ends_splitExit ?_) fun hpage => ?_
  · exact ⟨lab2, hext, by simp, fun h => by cases h⟩
  refine ends_seq (hext2.tables.ends_check hu hl hf2 (by simp [Label.next])
    (fun _ hp => by simpa [hp] using hpage) (by decide) _) ?_
  rintro _ t3 ⟨rfl, lab3, hext3, hpt⟩
  refine ends_load (fun hs => absurd hs hslot) fun _ => ends_map_entryAddr (ends_splitDone ⟨lab3, hext.trans hext3, by simp, fun _ => ?_⟩)
  have hway : child 0 (t3.table r (idxPml4 virt)) = some (entryAddr (t1.table r (idxPml4 virt))) :=
    hext3.child (hext2.label hr1) (hext2.child hr1 hpdpt)
  exact ⟨vmPsTaddr_ne_zero 0, rfl, _, _, hway, hext3.child hf12 hpd, hpt⟩

/-! ### `vmem_map` -/

/-- No page of any address space is lost. -/
structure Keeps (B : Boot) (lab lab' : ℕ → Option Label) (t t' : Tables) : Prop where
  tables : Labelled B lab' t'
  label : ∀ {f a}, lab f = some a → lab' f = some a
  child : ∀ {f a i g}, lab f = some a → child a.2.length (t.table f i) = some g →
    Vmem.child a.2.length (t'.table f i) = some g
  mapsTo : ∀ {r o v x}, lab r = some (o, []) → MapsTo t r v x → MapsTo t' r v x
  pmem : t'.pmem <:+ t.pmem

theorem Enlarged.keeps (h : Enlarged B lab lab' t t') (ht : Labelled B lab t) :
    Keeps B lab lab' t t' :=
  ⟨h.tables, h.label, h.child, h.mapsTo ht, h.pmem⟩

theorem Keeps.trans (h : Keeps B lab lab1 t t1) (h' : Keeps B lab1 lab' t1 t') :
    Keeps B lab lab' t t' where
  tables := h'.tables
  label hf := h'.label (h.label hf)
  child hf hg := h'.child (h.label hf) (h.child hf hg)
  mapsTo hr hm := h'.mapsTo (h.label hr) (h.mapsTo hr hm)
  pmem := h'.pmem.trans h.pmem

/-- A frame that is taken for a page, and perhaps labelled as one. -/
theorem Labelled.take {mark : Option Label} (h : Labelled B lab t)
    (hpmem : t.pmem = g :: pmem) (hmark : ∀ a ∈ mark, a.2.length = 4) :
    Keeps B lab (update lab g mark) t { t with pmem := pmem } ∧
      Adds (fun _ _ _ => False) lab (update lab g mark) t { t with pmem := pmem } := by
  have hnodup := h.nodup
  rw [hpmem, nodup_cons] at hnodup
  have hnone := (h.fresh g (hpmem ▸ mem_cons_self)).1
  have hlab : ∀ {f a}, lab f = some a → update lab g mark f = some a := by
    intro f a hf
    rw [update_of_ne, hf]
    rintro rfl
    cases hnone.symm.trans hf
  -- behind the label of a page there are no tables
  have hback : ∀ {f a}, update lab g mark f = some a → a.2.length ≤ 3 →
      lab f = some a := by
    intro f a hf ha
    by_cases hfg : f = g
    · subst hfg
      rw [update_self] at hf
      have := hmark a hf
      omega
    · rwa [update_of_ne hfg] at hf
  refine ⟨⟨⟨fun hf hg => ?_, hlab h.slots, fun y hy => ?_, hnodup.2⟩, hlab, fun _ h => h,
    fun _ hm => hm.congr rfl, ?_⟩, fun {f a} hf => ?_, fun hf hp => .inl ⟨hback hf hp.1, rfl⟩, rfl⟩
  · have hdepth := (child_eq_some.1 hg).1.2.1
    exact hlab (h.next (hback hf (by omega)) hg)
  · have hyg : y ≠ g := fun heq => hnodup.1 (heq ▸ hy)
    rw [update_of_ne hyg]
    exact h.fresh y (hpmem ▸ mem_cons_of_mem _ hy)
  · rw [hpmem]
    exact suffix_cons _ _
  · by_cases hfg : f = g
    · rw [hfg, hpmem]
      exact .inr mem_cons_self
    · rw [update_of_ne hfg] at hf
      exact .inl hf

/-- The entry of a page table that was not present. -/
theorem Labelled.add_page (h : Labelled B lab t) (hf : lab f = some a) (ha : a.2.length = 3)
    (hold : isPresent (t.table f i) = false) :
    Keeps B lab lab t (t.set f i e) ∧ ∀ {r o v f₁ f₂ f₃}, lab r = some (o, []) →
      Way (t.set f i e) r v f₁ f₂ f₃ → Way t r v f₁ f₂ f₃ := by
  have hother : ∀ {f' a' i'}, lab f' = some a' → a'.2.length ≠ 3 →
      (t.set f i e).table f' i' = t.table f' i' := by
    intro f' a' i' hf' ha'
    rw [Tables.table_set, if_neg]
    rintro ⟨rfl, -⟩
    rw [hf] at hf'
    cases hf'
    exact ha' ha
  have hchild : ∀ {f' a' i'}, lab f' = some a' →
      child a'.2.length ((t.set f i e).table f' i') = child a'.2.length (t.table f' i') := by
    intro f' a' i' hf'
    by_cases ha' : a'.2.length = 3
    · rw [ha', child_three, child_three]
    · rw [hother hf' ha']
  have hnext : ∀ {f' a' i' g'}, lab f' = some a' →
      child a'.2.length ((t.set f i e).table f' i') = some g' → lab g' = some (a'.next i') :=
    fun hf' hg => h.next hf' ((hchild hf').symm.trans hg)
  refine ⟨⟨⟨hnext, h.slots, h.fresh, h.nodup⟩, id, fun hf' hg => (hchild hf').trans hg, ?_,
    suffix_rfl⟩, ?_⟩
  · rintro r o v x hr ⟨f₁, f₂, f₃, hway, hp, hx⟩
    have hleaf : (t.set f i e).table f₃ (idxPt v) = t.table f₃ (idxPt v) := by
      rw [Tables.table_set, if_neg]
      rintro ⟨rfl, rfl⟩
      cases hold.symm.trans hp
    have hway' := h.way_keep (fun hf' hg => (hchild hf').trans hg) hr hway
    exact ⟨f₁, f₂, f₃, hway', hleaf ▸ hp, hleaf ▸ hx⟩
  · intro r o v f₁ f₂ f₃ hr hway
    have h1 := hnext hr hway.pdpt
    have h2 := hnext h1 hway.pd
    exact ⟨(hchild hr).symm.trans hway.pdpt, (hchild h1).symm.trans hway.pd,
      (hchild h2).symm.trans hway.pt⟩

/-- What `vmem_map` of a small page leaves behind. -/
structure MapResult (B : Boot) (lab lab' : ℕ → Option Label) (t t' : Tables) (r phys virt : ℕ)
    (ok : Bool) : Prop extends Keeps B lab lab' t t' where
  mapped : ok = true → MapsTo t' r virt phys
  only : ∀ {v x}, MapsTo t' r v x → MapsTo t r v x ∨ (pageNo v = pageNo virt ∧ x = phys)

/-- The page that `vmem_map` adds. -/
def NewPage (o : Option ℕ) (phys virt : ℕ) (ok : Bool) (a : Label) (i e : ℕ) : Prop :=
  ok = true ∧ a.next i = pageLabel o virt ∧ entryAddr e = phys

section

variable (h : Labelled B lab t) (hr : lab r = some (o, [])) (hdvd : pageSize4K ∣ r)
  (hv : OffWindow virt)
include h hr hdvd hv

/-- **`vmem_map` of a small page.** -/
theorem Labelled.ends_map (hphys : pageSize4K ∣ phys) (hflags : flags < 2 ^ 12)
    (hl : isLarge flags = false) :
    ends (vmemMap (direct B) l r phys virt flags)
      (fun ok t' => ∃ lab', MapResult B lab lab' t t' r phys virt ok ∧
        Adds (NewPage o phys virt ok) lab lab' t t') Starved t := by
  unfold vmemMap
  rw [hl]
  refine ends_seq (h.ends_split hr hdvd hflags hl) ?_
  rintro ⟨res, l'⟩ t1 ⟨lab', hext, hfound, hpt⟩
  have hadds : ∀ ok, Adds (NewPage o phys virt ok) lab lab' t t1 :=
    fun ok => hext.toAdds.mono fun _ _ _ h => h.elim
  have hfail : MapResult B lab lab' t t1 r phys virt false ∧
      Adds (NewPage o phys virt false) lab lab' t t1 :=
    ⟨⟨hext.keeps h, fun hn => absurd hn Bool.false_ne_true, fun hm => .inl (hext.maps hr hm)⟩,
      hadds false⟩
  cases res with
  | tableNotMapped => exact absurd rfl hfound
  | smallExpected => exact ends_pure ⟨lab', hfail⟩
  | largeExpected => exact ends_pure ⟨lab', hfail⟩
  | splitError => exact ends_pure ⟨lab', hfail⟩
  | splitSuccess =>
    obtain ⟨haddr, hipt, f₁, f₂, hway⟩ := hpt rfl
    obtain ⟨-, -, o3, hf3⟩ := hext.tables.way (hext.label hr) hway
    have hslot := hext.tables.not_isSlot (i := l'.ipt) hf3 hv
    have hfin : ∀ {ok t'}, MapResult B lab lab' t t' r phys virt ok ∧
        Adds (NewPage o phys virt ok) lab lab' t t' →
        ends (do unmapIf (direct B) l'.pt; unmapIf (direct B) l'.pd; pure ok)
          (fun ok t' => ∃ lab', MapResult B lab lab' t t' r phys virt ok ∧
            Adds (NewPage o phys virt ok) lab lab' t t') Starved t' := fun hres =>
      ends_unmapIf (ends_unmapIf (ends_pure ⟨lab', hres⟩))
    refine ends_bind ?_
    unfold mapEntry vmSetIfnPresent
    rw [hl, if_neg Bool.false_ne_true, if_pos haddr]
    refine ends_load (fun hs => absurd hs hslot) fun _ => ?_
    refine ends_ite (fun _ => ends_pure (hfin hfail)) fun hp => ?_
    refine ends_store (fun hs => absurd hs hslot) fun _ => ends_pure (hfin ?_)
    rw [hipt] at hp ⊢
    have hleaf : (t1.set l'.pt.frame (idxPt virt) (phys ||| pgPresent ||| flags)).table l'.pt.frame
        (idxPt virt) = phys ||| pgPresent ||| flags := Tables.table_set_self _ _ _
    obtain ⟨hkeeps, hback⟩ := hext.tables.add_page hf3 rfl (by simpa using hp)
    have hnew : Adds (NewPage o phys virt true) lab' lab' t1
        (t1.set l'.pt.frame (idxPt virt) (phys ||| pgPresent ||| flags)) := by
      refine ⟨.inl, fun {f a i} hf _ => ?_, rfl⟩
      by_cases heq : f = l'.pt.frame ∧ i = idxPt virt
      · obtain ⟨rfl, rfl⟩ := heq
        rw [hext.tables.way_pt (hext.label hr) hway] at hf
        cases hf
        refine .inr ⟨rfl, rfl, ?_⟩
        rw [hleaf]
        exact entryAddr_leaf hphys hflags
      · exact .inl ⟨hf, by rw [Tables.table_set, if_neg heq]⟩
    refine ⟨⟨(hext.keeps h).trans hkeeps, fun _ => ?_, ?_⟩, (hadds true).trans hnew hext.pmem⟩
    · refine ⟨f₁, f₂, _, hext.tables.way_keep hkeeps.child (hext.label hr) hway, ?_, ?_⟩
      · rw [hleaf]
        exact isPresent_leaf phys flags
      · rw [hleaf]
        exact entryAddr_leaf hphys hflags
    · rintro v x ⟨g1, g2, g3, hway', hp', hx⟩
      replace hway' := hback (hext.label hr) hway'
      by_cases heq : g3 = l'.pt.frame ∧ idxPt v = idxPt virt
      · -- the labels of the two page tables are the same, and so are the paths
        obtain ⟨rfl, hidx⟩ := heq
        obtain ⟨-, -, o3', hg3⟩ := hext.tables.way (hext.label hr) hway'
        rw [hf3] at hg3
        simp only [some.injEq, Prod.mk.injEq, cons.injEq, and_true] at hg3
        obtain ⟨-, h2, h3, h4⟩ := hg3
        refine .inr ⟨pageNo_of_idx h4.symm h3.symm h2.symm hidx, ?_⟩
        rw [← hx, hidx, hleaf]
        exact entryAddr_leaf hphys hflags
      · rw [Tables.table_set, if_neg heq] at hp' hx
        exact .inl (hext.maps hr ⟨g1, g2, g3, hway', hp', hx⟩)

/-! ### `vmem_resolve` -/

/-- **`vmem_resolve`** changes nothing, and finds the frame of a small page. -/
theorem Labelled.ends_resolve :
    ends (vmemResolve (direct B) l r virt) (fun res t' => t' = t ∧
      ∀ x, MapsTo t r virt x → res = x) (fun _ => False) t := by
  have havoids := h.avoids hr hv
  refine ends_bind (split_read_small (fun hn => hn hdvd) (fun hn => hn havoids) (fun hnone => ?_)
    (fun f q hf hp => ?_) (fun f q hf hp hl => ?_) fun f hf hp hl => ?_)
  · refine ends_pure ⟨rfl, ?_⟩
    rintro x ⟨f₁, f₂, f₃, hway, -⟩
    rw [hway.pdAt] at hnone
    cases hnone
  · refine ends_pure ⟨rfl, ?_⟩
    rintro x ⟨f₁, f₂, f₃, hway, -⟩
    rw [hway.pdAt] at hf
    cases hf
    have := (child_eq_some.1 hway.pt).1.1
    cases hp.symm.trans this
  · -- a large page: found by the second search
    refine ends_seq (ends_secondSearch (fun hn => hn hdvd) (fun hn => hn havoids) hf hl) ?_
    rintro _ _ ⟨rfl, rfl⟩
    have hslot : ¬ B.isSlot f (idxPd virt) := by
      have hpd := hf
      unfold pdAt at hpd
      simp only [ite_none_right_eq_some, some.injEq] at hpd
      obtain ⟨⟨h4, h3⟩, rfl⟩ := hpd
      exact ((havoids.2 h4).2 h3).1
    refine ends_load hslot fun _ => ?_
    rw [if_pos hl]
    refine ends_bind (ends_vmResUnmap_eq (i := pdi virt) hslot (ends_unmap (ends_pure ⟨rfl, ?_⟩)))
    rintro x ⟨f₁, f₂, f₃, hway, -⟩
    rw [hway.pdAt] at hf
    cases hf
    have := (child_eq_some.1 hway.pt).1.2.2 rfl
    cases hl.symm.trans this
  · obtain ⟨f₁, hway⟩ := way_of_pdAt hf hp hl
    obtain ⟨-, ⟨o2, hf2⟩, o3, hf3⟩ := h.way hr hway
    have hslot2 := h.not_isSlot (i := idxPd virt) hf2 (by simp)
    have hslot3 := h.not_isSlot (i := idxPt virt) hf3 hv
    refine ends_load hslot2 fun _ => ?_
    rw [if_neg (by rw [hl]; exact Bool.false_ne_true), if_pos (vmPsTaddr_ne_zero 0)]
    refine ends_bind (ends_vmResUnmap_eq (i := pti virt) hslot3 (ends_unmap (ends_unmap
      (ends_pure ⟨rfl, ?_⟩))))
    rintro x ⟨g1, g2, g3, hway', -, rfl⟩
    obtain ⟨-, -, rfl⟩ := hway.unique hway'
    rfl

end

end Tachyon.Vmem
