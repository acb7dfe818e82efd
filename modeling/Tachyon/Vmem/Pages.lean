import Tachyon.Vmem.Balanced
import Tachyon.Vmem.Walk

/-!
# The pages of an address space

What `vmem_map`, `vmem_unmap` and `vmem_resolve` do to the pages, with direct access to the tables of
a tree.

* `Tree.leafAt_set_small`, `Tree.leafAt_set_large`: an entry of a page table or of a page directory
  maps one page and no other;
* `Tree.map_small`, `Tree.map_large`, `Tree.find_unmap`: the functions.
-/

namespace Tachyon.Vmem

open Prog List Option

variable {P : Policy} {B : Boot} {t t' : Tables} {r f g e e' virt v phys flags a : ℕ} {p : List Idx}
  {i : Idx} {l : Locals}

/-! ### Single pages -/

/-- The addresses of the page of `virt`, which is a large or a small one. -/
def SamePage (large : Bool) (v virt : ℕ) : Prop :=
  if large = true then largeNo v = largeNo virt else pageNo v = pageNo virt

instance (large : Bool) (v virt : ℕ) : Decidable (SamePage large v virt) :=
  inferInstanceAs (Decidable (ite _ _ _))

theorem leafAt_of_pageNo (h : pageNo v = pageNo virt) : leafAt t r v = leafAt t r virt := by
  obtain ⟨hpd, hpdi⟩ := pathPd_eq_iff.2 (largeNo_of_pageNo h)
  obtain ⟨hpt, hpti⟩ := pathPt_eq_iff.2 h
  unfold leafAt
  rw [hpd, hpdi, hpt, hpti]

theorem child_three (e : ℕ) : child 3 e = none := child_eq_none.2 fun h => by omega

/-- An empty entry fits everywhere. -/
theorem Tree.fits_zero : Tree.Fits P t r p 0 where
  empty _ _ := by decide
  leaf h := absurd h (by decide)
  upper g h := by
    cases h
  above g h := by
    cases h
  below h := absurd h (by decide)

/-- An entry that maps a page fits where its flags have been added to the entry above. -/
theorem Tree.fits_leaf (hp : isPresent e' = true) (hc : child p.length e' = none) (hleaf : P.Leaf e')
    (hbelow : ∀ a, a ||| flags = a → P.Below a e') (habs : Absorbed t r p flags) :
    Tree.Fits P t r p e' where
  empty _ h := by
    cases hp.symm.trans h
  leaf _ _ := hleaf
  upper g h := by
    cases hc.symm.trans h
  above g h := by
    cases hc.symm.trans h
  below _ q k a hq ha := hbelow _ (habs q k a hq ha)

/-- Where there is a page table there is no large page. -/
theorem leafAt_ne_large (hg : nodeAt t r (pathPt virt) = some g) :
    leafAt t r virt ≠ some (true, e) := by
  rw [ne_eq, leafAt_large]
  rintro ⟨f, hf, rfl, -, hc⟩
  obtain ⟨f', hf', hchild⟩ := nodeAt_pathPt hg
  obtain rfl : f = f' := some.inj (hf.symm.trans hf')
  exact absurd (hchild.symm.trans hc) (by simp)

/-- An entry of a page table that is not present maps nothing. -/
theorem leafAt_absent (hg : nodeAt t r (pathPt virt) = some g)
    (hp : isPresent (t.table g (pti virt)) = false) : leafAt t r virt = none := by
  rw [eq_none_iff_forall_not_mem]
  rintro ⟨_ | _, e⟩ he
  · obtain ⟨g', hg', rfl, hpres, -⟩ := leafAt_small.1 he
    obtain rfl : g = g' := some.inj (hg.symm.trans hg')
    cases hp.symm.trans hpres
  · exact leafAt_ne_large hg he

/-- An entry of a page table maps one small page. -/
theorem Tree.leafAt_set_small (h : Tree P B r t) (hg : nodeAt t r (pathPt virt) = some g) (v : ℕ) :
    leafAt (t.set g (pti virt) e') r v = if pageNo v = pageNo virt then
      (if isPresent e' = true then some (false, e') else none) else leafAt t r v := by
  have hsame : child (pathPt virt).length e' = child (pathPt virt).length (t.table g (pti virt)) :=
    (child_three _).trans (child_three _).symm
  refine ext ?_
  rintro ⟨large, x⟩
  cases large with
  | true =>
    rw [leafAt_large, h.leaf_set hg hsame, if_neg fun hq => absurd (congrArg length hq.1) (by
      simp [pathPd, pathPt]), ← leafAt_large]
    split_ifs with hv hp
    · exact iff_of_false (leafAt_of_pageNo hv ▸ leafAt_ne_large hg) (by simp)
    · exact iff_of_false (leafAt_of_pageNo hv ▸ leafAt_ne_large hg) (by simp)
    · rfl
  | false =>
    rw [leafAt_small, h.leaf_set hg hsame]
    simp only [pathPt_eq_iff]
    split_ifs with hv hp
    · simp only [hp, show child (pathPt virt).length e' = none from child_three _, and_true,
        some.injEq, Prod.mk.injEq, true_and, eq_comm]
    · simp [hp]
    · rw [leafAt_small]

/-- An entry of a page directory without a table behind it maps one large page. -/
theorem Tree.leafAt_set_large (h : Tree P B r t) (hf : nodeAt t r (pathPd virt) = some f)
    (hold : child 2 (t.table f (pdi virt)) = none) (hnew : child 2 e' = none) (v : ℕ) :
    leafAt (t.set f (pdi virt) e') r v = if largeNo v = largeNo virt then
      (if isPresent e' = true then some (true, e') else none) else leafAt t r v := by
  have hsame : child (pathPd virt).length e' = child (pathPd virt).length (t.table f (pdi virt)) :=
    hnew.trans hold.symm
  refine ext ?_
  rintro ⟨large, x⟩
  cases large with
  | true =>
    rw [leafAt_large, h.leaf_set hf hsame]
    simp only [pathPd_eq_iff]
    split_ifs with hv hp
    · simp only [hp, show child (pathPd virt).length e' = none from hnew, and_true,
        some.injEq, Prod.mk.injEq, true_and, eq_comm]
    · simp [hp]
    · rw [leafAt_large]
  | false =>
    rw [leafAt_small, h.leaf_set hf hsame, if_neg fun hq => absurd (congrArg length hq.1) (by
      simp [pathPd, pathPt])]
    by_cases hv : largeNo v = largeNo virt
    -- in the same large page there is no page table
    · rw [if_pos hv]
      obtain ⟨hpd, hpdi⟩ := pathPd_eq_iff.2 hv
      refine iff_of_false ?_ (by split_ifs <;> simp)
      rintro ⟨g, hg, -⟩
      obtain ⟨f', hf', hchild⟩ := nodeAt_pathPt hg
      rw [hpd] at hf'
      rw [hpdi] at hchild
      obtain rfl : f = f' := some.inj (hf.symm.trans hf')
      exact absurd (hchild.symm.trans hold) (by simp)
    · rw [if_neg hv, leafAt_small]

/-! ### Mapping -/

theorem isPresent_leaf (phys flags : ℕ) : isPresent (phys ||| pgPresent ||| flags) = true := by
  rw [isPresent_or, isPresent_or]
  simp [show isPresent pgPresent = true by decide]

theorem ends_vmSetIfnPresent_eq {Q : Bool → Tables → Prop} (hslot : ¬ B.isSlot f i)
    (hold : isPresent (t.table f i) = true → Q false t)
    (hnew : isPresent (t.table f i) = false → Q true (t.set f i (phys ||| pgPresent ||| flags))) :
    ends (vmSetIfnPresent (direct B) ⟨a, f⟩ i phys flags) Q (fun _ => False) t := by
  refine ends_load hslot fun _ => ?_
  refine ends_ite (fun hp => ends_pure (hold hp)) fun hp => ?_
  exact ends_store hslot fun _ => ends_pure (hnew (by simpa using hp))

/-- The frames and the tree after a call, and how many frames are gone. -/
structure Kept (P : Policy) (B : Boot) (r : ℕ) (t t' : Tables) : Prop where
  tree : Tree P B r t'
  pmem : t.pmem.length ≤ t'.pmem.length + 3

section

variable (h : Tree P B r t) (hP : P.Allows flags) (hleaf : P.Leaf (phys ||| pgPresent ||| flags))
  (hbelow : ∀ a, a ||| flags = a → P.Below a (phys ||| pgPresent ||| flags))
  (hflags : flags < 2 ^ 12)
include h hP hleaf hbelow hflags

/-- **`vmem_map` of a small page** succeeds where nothing is mapped, and maps the page. -/
theorem Tree.map_small (hl : isLarge flags = false) (hpmem : 3 ≤ t.pmem.length) :
    ends (vmemMap (direct B) l r phys virt flags) (fun ok t' => Kept P B r t t' ∧
      ok = (leafAt t r virt).isNone ∧ ∀ v, leafAt t' r v =
        if ok = true ∧ pageNo v = pageNo virt then some (false, phys ||| pgPresent ||| flags)
        else leafAt t r v) (fun _ => False) t := by
  unfold vmemMap
  have hsplit := h.ends_split_small hP hflags hl hpmem virt l
  simp only [hl, Bool.false_eq_true, if_false, Nat.or_zero]
  refine ends_seq hsplit ?_
  rintro ⟨res, l1⟩ t1 ⟨hext, ⟨rfl, e, he⟩ | ⟨rfl, haddr, hg, hipt, habs⟩⟩
  · refine ends_pure ⟨⟨hext.tree, hext.pmem⟩, by rw [he]; rfl, fun v => ?_⟩
    rw [if_neg (by simp), leafAt_congr hext.leaf]
  obtain ⟨pd, ⟨a, g⟩, ipd, ipt⟩ := l1
  subst hipt
  have htree := hext.tree
  have hslot := htree.not_isSlot hg (pti virt)
  refine ends_bind ?_
  unfold mapEntry
  rw [if_neg (by simp [hl]), if_pos haddr]
  refine ends_vmSetIfnPresent_eq hslot (fun hp => ?_) fun hp => ?_
  · have hpage : leafAt t r virt = some (false, t1.table g (pti virt)) := by
      rw [← leafAt_congr hext.leaf, leafAt_small]
      exact ⟨g, hg, rfl, hp, child_three _⟩
    refine ends_unmapIf (ends_unmapIf (ends_pure ⟨⟨htree, hext.pmem⟩, ?_⟩))
    rw [hpage]
    refine ⟨rfl, fun v => ?_⟩
    rw [if_neg (by simp), leafAt_congr hext.leaf]
  · have hpage : leafAt t r virt = none :=
      (leafAt_congr hext.leaf virt).symm.trans (leafAt_absent hg hp)
    have hsame : child (pathPt virt).length (phys ||| pgPresent ||| flags) =
        child (pathPt virt).length (t1.table g (pti virt)) :=
      (child_three _).trans (child_three _).symm
    have hfits := Tree.fits_leaf (p := pathPt virt) (isPresent_leaf phys flags) (child_three _) hleaf
      hbelow habs
    refine ends_unmapIf (ends_unmapIf (ends_pure ⟨⟨htree.set hg hsame hfits, hext.pmem⟩, ?_⟩))
    rw [hpage]
    refine ⟨rfl, fun v => ?_⟩
    rw [htree.leafAt_set_small hg, if_pos (isPresent_leaf phys flags), leafAt_congr hext.leaf]
    simp

/-- **`vmem_map` of a large page** maps the page if it succeeds, and it succeeds only where nothing is
mapped. -/
theorem Tree.map_large (hl : isLarge flags = true) (hpmem : 3 ≤ t.pmem.length) :
    ends (vmemMap (direct B) l r phys virt flags) (fun ok t' => Kept P B r t t' ∧
      (ok = true → ∀ v, largeNo v = largeNo virt → leafAt t r v = none) ∧ ∀ v, leafAt t' r v =
        if ok = true ∧ largeNo v = largeNo virt then some (true, phys ||| pgPresent ||| flags)
        else leafAt t r v) (fun _ => False) t := by
  unfold vmemMap
  have hsplit := h.ends_split_large hP hflags hpmem virt l
  simp only [hl, if_true]
  refine ends_seq hsplit ?_
  rintro ⟨res, l1⟩ t1 ⟨hext, rfl | ⟨rfl, hf, hipd, habs, hpage⟩⟩
  · refine ends_pure ⟨⟨hext.tree, hext.pmem⟩, by simp, fun v => ?_⟩
    rw [if_neg (by simp), leafAt_congr hext.leaf]
  obtain ⟨⟨a, f⟩, pt, ipd, ipt⟩ := l1
  subst hipd
  have htree := hext.tree
  refine ends_bind ?_
  unfold mapEntry
  rw [if_pos hl]
  refine ends_vmSetIfnPresent_eq (htree.not_isSlot hf (pdi virt)) (fun hp => ?_) fun hp => ?_
  · refine ends_unmapIf (ends_unmapIf (ends_pure ⟨⟨htree, hext.pmem⟩, by simp, fun v => ?_⟩))
    rw [if_neg (by simp), leafAt_congr hext.leaf]
  have hold : child 2 (t1.table f (pdi virt)) = none := child_of_not_present hp
  have hlarge : isLarge (phys ||| pgPresent ||| flags) = true := by
    rw [isLarge_or, hl, Bool.or_true]
  have hnew : child 2 (phys ||| pgPresent ||| flags) = none :=
    (child_two_eq_none.2 ⟨isPresent_leaf phys flags, hlarge⟩).2
  have hnone : ∀ v, largeNo v = largeNo virt → leafAt t r v = none := fun v hv => by
    -- an empty entry in the place of the one that is not present changes nothing
    obtain ⟨hpd, hpdi⟩ := pathPd_eq_iff.2 hv
    rw [← leafAt_congr hext.leaf]
    unfold leafAt
    rw [hpd, hpdi]
    simp only [hf, show isPresent (t1.table f (pdi virt)) = false from hp, Bool.false_and,
      Bool.false_eq_true, if_false]
    have hpt : nodeAt t1 r (pathPt v) = none := by
      show nodeAt t1 r (pdi v :: pathPd v) = none
      rw [hpd, hpdi, nodeAt_cons hf]
      exact hold
    rw [hpt]
  have hsame : child (pathPd virt).length (phys ||| pgPresent ||| flags) =
      child (pathPd virt).length (t1.table f (pdi virt)) := hnew.trans hold.symm
  have hfits := Tree.fits_leaf (p := pathPd virt) (isPresent_leaf phys flags) hnew hleaf hbelow habs
  refine ends_unmapIf (ends_unmapIf (ends_pure
    ⟨⟨htree.set hf hsame hfits, hext.pmem⟩, fun _ => hnone, fun v => ?_⟩))
  rw [htree.leafAt_set_large hf hold hnew, if_pos (isPresent_leaf phys flags),
    leafAt_congr hext.leaf]
  simp

end

/-! ### Looking up and unmapping -/

theorem pdAt_eq (t : Tables) (r virt : ℕ) : pdAt t r virt = nodeAt t r (pathPd virt) := by
  unfold pdAt
  rcases hp : nodeAt t r [pml4i virt] with _ | f
  · have hnone : child 0 (t.table r (pml4i virt)) = none := (nodeAt_cons nodeAt_nil).symm.trans hp
    have habsent : ¬ isPresent (t.table r (idxPml4 virt)) = true := fun h =>
      child_eq_none.1 hnone ⟨h, by omega, by omega⟩
    rw [if_neg fun h => habsent h.1]
    exact (Radix.node_eq_none_of_cons hp).symm
  · have hsome : child 0 (t.table r (pml4i virt)) = some f := (nodeAt_cons nodeAt_nil).symm.trans hp
    obtain ⟨⟨hpres, -⟩, rfl⟩ := child_eq_some.1 hsome
    have hpres' : isPresent (t.table r (idxPml4 virt)) = true := hpres
    rw [pathPd, nodeAt_cons hp, child]
    simp only [hpres', true_and, length_cons, length_nil]
    by_cases h3 : isPresent (t.table (entryAddr (t.table r (idxPml4 virt))) (idxPdpt virt)) = true
    · rw [if_pos h3]
      exact (if_pos ⟨h3, by omega, by omega⟩).symm
    · rw [if_neg h3]
      exact (if_neg fun h => h3 h.1).symm

/-- The way to an address stays in the tree. -/
theorem Tree.avoids (h : Tree P B r t) (virt : ℕ) : Avoids B t r virt := by
  refine ⟨h.not_isSlot nodeAt_nil _, fun h4 => ?_⟩
  have hpdpt : nodeAt t r [pml4i virt] = some (entryAddr (t.table r (idxPml4 virt))) :=
    (nodeAt_cons nodeAt_nil).trans (child_eq_some.2 ⟨⟨h4, by simp, by simp⟩, rfl⟩)
  refine ⟨h.not_isSlot hpdpt _, fun h3 => ?_⟩
  have hpd := (nodeAt_cons (i := pdpti virt) hpdpt).trans
    (child_eq_some.2 ⟨⟨h3, by simp, by simp⟩, rfl⟩)
  refine ⟨h.not_isSlot hpd _, fun h2 hl => ?_⟩
  have hpt := (nodeAt_cons (i := pdi virt) hpd).trans
    (child_eq_some.2 ⟨⟨h2, by simp, fun _ => hl⟩, rfl⟩)
  exact h.not_isSlot hpt _

/-- What is returned for an address. -/
def resolved (x : Option (Bool × ℕ)) : ℕ := (x.map fun x => entryAddr x.2).getD 0

/-- Whether a large page is returned for an address. -/
def foundLarge (x : Option (Bool × ℕ)) : Bool := (x.map Prod.fst).getD false

theorem ends_vmResUnmap_eq {Q : ℕ → Tables → Prop} {unmap : Bool} (hslot : ¬ B.isSlot f i)
    (h : Q (entryAddr (t.table f i)) (if unmap = true then t.set f i 0 else t)) :
    ends (vmResUnmap (direct B) ⟨a, f⟩ i unmap) Q (fun _ => False) t := by
  refine ends_load hslot fun _ => ?_
  cases unmap with
  | true => exact ends_store hslot fun _ => ends_pure h
  | false => exact ends_pure h

/-- What `vmem_find_unmap` leaves. -/
def FoundUnmap (P : Policy) (B : Boot) (r virt : ℕ) (unmap : Bool) (t : Tables) (res : ℕ)
    (t' : Tables) : Prop :=
  Tree P B r t' ∧ t'.pmem = t.pmem ∧ res = resolved (leafAt t r virt) ∧ ∀ v, leafAt t' r v =
    if unmap = true ∧ SamePage (foundLarge (leafAt t r virt)) v virt then none else leafAt t r v

section

variable {unmap : Bool} (h : Tree P B r t)
include h

/-- Nothing is found, and nothing changes. -/
theorem Tree.foundUnmap_none (hnone : leafAt t r virt = none) :
    FoundUnmap P B r virt unmap t 0 t := by
  refine ⟨h, rfl, by rw [hnone]; rfl, fun v => ?_⟩
  rw [hnone]
  split_ifs with hv
  · exact (leafAt_of_pageNo hv.2).trans hnone
  · rfl

/-- A page table is found. -/
theorem Tree.foundUnmap_small (hg : nodeAt t r (pathPt virt) = some g) :
    FoundUnmap P B r virt unmap t (entryAddr (t.table g (pti virt)))
      (if unmap = true then t.set g (pti virt) 0 else t) := by
  have hfound : foundLarge (leafAt t r virt) = false := by
    rcases hx : leafAt t r virt with _ | ⟨_ | _, e⟩
    · rfl
    · rfl
    · exact absurd hx (leafAt_ne_large hg)
  have hres : entryAddr (t.table g (pti virt)) = resolved (leafAt t r virt) := by
    cases hp : isPresent (t.table g (pti virt)) with
    | true =>
      rw [leafAt_small.2 ⟨g, hg, rfl, hp, child_three _⟩]
      rfl
    | false =>
      rw [leafAt_absent hg hp, h.empty _ g hg rfl _ hp]
      rfl
  have hsame : child (pathPt virt).length 0 = child (pathPt virt).length (t.table g (pti virt)) :=
    (child_three _).trans (child_three _).symm
  cases unmap with
  | false => exact ⟨h, rfl, hres, fun v => by simp⟩
  | true =>
    refine ⟨h.set hg hsame Tree.fits_zero, rfl, hres, fun v => ?_⟩
    rw [if_pos rfl, h.leafAt_set_small hg, hfound]
    simp [SamePage, show isPresent 0 = false by decide]

/-- A large page is found. -/
theorem Tree.foundUnmap_large (hf : nodeAt t r (pathPd virt) = some f)
    (hp : isPresent (t.table f (pdi virt)) = true) (hl : isLarge (t.table f (pdi virt)) = true) :
    FoundUnmap P B r virt unmap t (entryAddr (t.table f (pdi virt)))
      (if unmap = true then t.set f (pdi virt) 0 else t) := by
  have hold : child 2 (t.table f (pdi virt)) = none := (child_two_eq_none.2 ⟨hp, hl⟩).2
  have hzero : child 2 0 = none := child_of_not_present (by decide)
  have hpage : leafAt t r virt = some (true, t.table f (pdi virt)) :=
    leafAt_large.2 ⟨f, hf, rfl, hp, hold⟩
  have hres : entryAddr (t.table f (pdi virt)) = resolved (leafAt t r virt) := by
    rw [hpage]
    rfl
  cases unmap with
  | false => exact ⟨h, rfl, hres, fun v => by simp⟩
  | true =>
    refine ⟨h.set hf (hzero.trans hold.symm) Tree.fits_zero, rfl, hres, fun v => ?_⟩
    rw [if_pos rfl, h.leafAt_set_large hf hold hzero, hpage]
    simp [SamePage, foundLarge, show isPresent 0 = false by decide]

/-- **`vmem_unmap` and `vmem_resolve`** return what is mapped, and `vmem_unmap` removes the page. -/
theorem Tree.find_unmap (virt : ℕ) :
    ends (vmemFindUnmap (direct B) l r virt unmap) (FoundUnmap P B r virt unmap t) (fun _ => False)
      t := by
  have hspace : ¬ pageSize4K ∣ r → False := fun hn => hn h.aligned
  have havoid : ¬ Avoids B t r virt → False := fun hn => hn (h.avoids virt)
  refine ends_bind (split_read_small hspace havoid (fun hnone => ?_) (fun f q hf hp => ?_)
    (fun f q hf hp hl => ?_) fun f hf hp hl => ?_)
  · refine ends_pure (h.foundUnmap_none ?_)
    unfold leafAt
    rw [pdAt_eq] at hnone
    rw [hnone]
  · refine ends_pure (h.foundUnmap_none ?_)
    rw [pdAt_eq] at hf
    have hpt : nodeAt t r (pathPt virt) = none :=
      (nodeAt_cons hf).trans (child_of_not_present hp)
    unfold leafAt
    rw [hf, hpt]
    simp [show isPresent (t.table f (pdi virt)) = false from hp]
  · refine ends_seq (ends_secondSearch hspace havoid hf hl) ?_
    rintro _ _ ⟨rfl, rfl⟩
    rw [pdAt_eq] at hf
    have hslot := h.not_isSlot hf (pdi virt)
    refine ends_load hslot fun _ => ?_
    rw [if_pos hl]
    refine ends_bind (ends_vmResUnmap_eq hslot ?_)
    exact ends_unmap (ends_pure (h.foundUnmap_large hf hp hl))
  · rw [pdAt_eq] at hf
    have hg : nodeAt t r (pathPt virt) = some (entryAddr (t.table f (idxPd virt))) :=
      (nodeAt_cons hf).trans (child_eq_some.2 ⟨⟨hp, by simp [pathPd], fun _ => hl⟩, rfl⟩)
    refine ends_load (h.not_isSlot hf _) fun _ => ?_
    rw [if_neg (by simp [hl]), if_pos (vmPsTaddr_ne_zero 0)]
    refine ends_bind (ends_vmResUnmap_eq (i := pti virt) (h.not_isSlot hg _) ?_)
    exact ends_unmap (ends_unmap (ends_pure (h.foundUnmap_small hg)))

end

end Tachyon.Vmem
