import Tachyon.Vmem.Tree

/-!
# Searches in the tree of tables

What `vmem_mgmt_split` does to the tables of an address space.

* `pathPd`, `pathPt`: the paths to the page directory and to the page table of an address;
* `leafAt`: the entry that maps an address, and whether it maps a large page;
* `Tree.ends_check`: `VM_CHECK_ENTRY` with `VM_SPLIT_ALLOC` adds the flags to an entry, or a new
  table.  No page is mapped or lost (`Extends`);
* `Tree.ends_split_small`, `Tree.ends_split_large`: the two kinds of searches.
-/

namespace Tachyon.Vmem

open Prog List Option

variable {P : Policy} {B : Boot} {t t' t2 : Tables} {r f g e e' u virt v flags d : ℕ}
  {p q : List Idx} {i j : Idx} {l : Locals}

/-! ### Addresses -/

theorem and_lt_512 (a : ℕ) : a &&& 0x1FF < 512 := lt_of_le_of_lt Nat.and_le_right (by decide)

def pml4i (virt : ℕ) : Idx := ⟨idxPml4 virt, and_lt_512 _⟩
def pdpti (virt : ℕ) : Idx := ⟨idxPdpt virt, and_lt_512 _⟩
def pdi (virt : ℕ) : Idx := ⟨idxPd virt, and_lt_512 _⟩
def pti (virt : ℕ) : Idx := ⟨idxPt virt, and_lt_512 _⟩

theorem val_pdi (virt : ℕ) : (pdi virt : ℕ) = idxPd virt := rfl

/-- The path to the page directory of an address. -/
def pathPd (virt : ℕ) : List Idx := [pdpti virt, pml4i virt]

/-- The path to the page table of an address. -/
def pathPt (virt : ℕ) : List Idx := [pdi virt, pdpti virt, pml4i virt]

/-- The number of the small page of an address.  Only 48 bits of an address are translated. -/
def pageNo (virt : ℕ) : ℕ := virt / 2 ^ 12 % 2 ^ 36

/-- The number of the large page of an address. -/
def largeNo (virt : ℕ) : ℕ := virt / 2 ^ 21 % 2 ^ 27

theorem idx_eq (a k : ℕ) : a >>> k &&& 0x1FF = a / 2 ^ k % 512 := by
  rw [Nat.shiftRight_eq_div_pow]
  exact Nat.and_two_pow_sub_one_eq_mod _ 9

theorem pathPd_eq_iff : pathPd v = pathPd virt ∧ pdi v = pdi virt ↔ largeNo v = largeNo virt := by
  simp only [pathPd, pdi, pdpti, pml4i, cons.injEq, Fin.mk.injEq, idxPd, idxPdpt, idxPml4, idx_eq,
    largeNo, and_true]
  omega

theorem pathPt_eq_iff : pathPt v = pathPt virt ∧ pti v = pti virt ↔ pageNo v = pageNo virt := by
  simp only [pathPt, pti, pdi, pdpti, pml4i, cons.injEq, Fin.mk.injEq, idxPt, idxPd, idxPdpt,
    idxPml4, idx_eq, pageNo, and_true]
  omega

/-- The small pages of a large page. -/
theorem largeNo_of_pageNo (h : pageNo v = pageNo virt) : largeNo v = largeNo virt := by
  unfold pageNo at h
  unfold largeNo
  omega

/-! ### Leaves -/

/-- The entry that maps an address, and whether it maps a large page. -/
def leafAt (t : Tables) (r virt : ℕ) : Option (Bool × ℕ) :=
  match nodeAt t r (pathPd virt) with
  | none => none
  | some f =>
    if isPresent (t.table f (pdi virt)) && isLarge (t.table f (pdi virt)) then
      some (true, t.table f (pdi virt))
    else
      match nodeAt t r (pathPt virt) with
      | none => none
      | some g =>
        if isPresent (t.table g (pti virt)) then some (false, t.table g (pti virt)) else none

theorem child_two_eq_none : isPresent e = true ∧ child 2 e = none ↔
    isPresent e = true ∧ isLarge e = true := by
  rw [child_eq_none]
  cases hp : isPresent e <;> cases hl : isLarge e <;> simp

/-- Behind a page table there is no large page. -/
theorem nodeAt_pathPt (h : nodeAt t r (pathPt virt) = some g) :
    ∃ f, nodeAt t r (pathPd virt) = some f ∧ child 2 (t.table f (pdi virt)) = some g :=
  nodeAt_cons_eq_some.1 h

theorem leafAt_large : leafAt t r virt = some (true, e) ↔ Leaf t r (pathPd virt) (pdi virt) e := by
  unfold leafAt Leaf
  have hlen : (pathPd virt).length = 2 := rfl
  simp only [hlen, child_two_eq_none]
  cases hf : nodeAt t r (pathPd virt) with
  | none => simp
  | some f =>
    simp only [some.injEq, exists_eq_left']
    split_ifs with hlarge
    · rw [Bool.and_eq_true] at hlarge
      simp only [some.injEq, Prod.mk.injEq, true_and]
      exact ⟨by rintro rfl; exact ⟨rfl, hlarge⟩, fun h => h.1⟩
    refine iff_of_false ?_ ?_
    · cases nodeAt t r (pathPt virt) with
      | none => simp
      | some g =>
        dsimp only
        split_ifs <;> simp
    · rintro ⟨rfl, h⟩
      exact hlarge (by rw [Bool.and_eq_true]; exact h)

theorem leafAt_small : leafAt t r virt = some (false, e) ↔ Leaf t r (pathPt virt) (pti virt) e := by
  unfold leafAt Leaf
  have hnone : child (pathPt virt).length e = none := child_eq_none.2 fun h => by
    have hlen : (pathPt virt).length = 3 := rfl
    omega
  simp only [hnone, and_true]
  cases hg : nodeAt t r (pathPt virt) with
  | none =>
    cases nodeAt t r (pathPd virt) with
    | none => simp
    | some f =>
      dsimp only
      split_ifs <;> simp
  | some g =>
    obtain ⟨f, hf, hchild⟩ := nodeAt_pathPt hg
    obtain ⟨⟨hp, -, hsmall⟩, -⟩ := child_eq_some.1 hchild
    simp only [hf, hsmall rfl, Bool.and_false, Bool.false_eq_true, if_false, some.injEq,
      exists_eq_left']
    split_ifs with hpres
    · simp only [some.injEq, Prod.mk.injEq, true_and]
      exact ⟨by rintro rfl; exact ⟨rfl, hpres⟩, fun h => h.1⟩
    · refine iff_of_false (by simp) ?_
      rintro ⟨rfl, h⟩
      exact hpres h

/-- Where the leaves are the same, the same pages are mapped. -/
theorem leafAt_congr (h : ∀ q j x, Leaf t' r q j x ↔ Leaf t r q j x) (v : ℕ) :
    leafAt t' r v = leafAt t r v := by
  refine ext ?_
  rintro ⟨large, e⟩
  cases large with
  | true => exact leafAt_large.trans ((h _ _ _).trans leafAt_large.symm)
  | false => exact leafAt_small.trans ((h _ _ _).trans leafAt_small.symm)

/-! ### One level -/

/-- The flags `u` have been added to the entry above. -/
def Absorbed (t : Tables) (r : ℕ) (p : List Idx) (u : ℕ) : Prop :=
  ∀ q k a, p = k :: q → nodeAt t r q = some a → t.table a k ||| u = t.table a k

/-- The tree has perhaps more tables, but the same pages; at most `n` frames are gone. -/
structure Extends (P : Policy) (B : Boot) (r n : ℕ) (t t' : Tables) : Prop where
  tree : Tree P B r t'
  leaf : ∀ q j x, Leaf t' r q j x ↔ Leaf t r q j x
  pmem : t.pmem.length ≤ t'.pmem.length + n

theorem Extends.trans {n n' : ℕ} (h : Extends P B r n t t') (h' : Extends P B r n' t' t2) :
    Extends P B r (n' + n) t t2 where
  tree := h'.tree
  leaf q j x := (h'.leaf q j x).trans (h.leaf q j x)
  pmem := by
    have h1 := h.pmem
    have h2 := h'.pmem
    omega

theorem Tree.not_isSlot (h : Tree P B r t) (hf : nodeAt t r p = some f) (i : ℕ) :
    ¬ B.isSlot f i := fun hs => h.noSlot p f hf hs.1

theorem child_or (hu : u < 2 ^ 12) (hp : isPresent e = true) (hd : d < 3)
    (hl : d = 2 → isLarge e = false ∧ isLarge u = false) : child d (e ||| u) = some (entryAddr e) := by
  refine child_eq_some.2 ⟨⟨?_, hd, fun h => ?_⟩, entryAddr_or e hu⟩
  · rw [isPresent_or, hp, Bool.true_or]
  · rw [isLarge_or, (hl h).1, (hl h).2, Bool.or_false]

theorem child_new (hu : u < 2 ^ 12) (hg : pageSize4K ∣ g) (hd : d < 3)
    (hl : d = 2 → isLarge u = false) :
    child d (g ||| pgPresent ||| pgWritable ||| u) = some g := by
  have haddr : entryAddr (g ||| pgPresent ||| pgWritable) = g := by
    rw [Nat.or_assoc, entryAddr_or g (by decide), entryAddr_of_dvd hg]
  refine (child_or hu ?_ hd fun h => ⟨?_, hl h⟩).trans (congrArg some haddr)
  · rw [isPresent_or, isPresent_or]
    simp [show isPresent pgPresent = true by decide]
  · rw [isLarge_or, isLarge_or, isLarge_of_dvd hg]
    decide

/-- **`VM_CHECK_ENTRY` with `VM_SPLIT_ALLOC`.**  Afterwards there is a table behind the entry, and the
entry has the flags. -/
theorem Tree.ends_check (h : Tree P B r t) (hP : P.Allows u) (hu : u < 2 ^ 12)
    (hf : nodeAt t r p = some f) (hlen : p.length < 3)
    (hl : p.length = 2 → isLarge u = false ∧
      (isPresent (t.table f i) = true → isLarge (t.table f i) = false))
    (hflags : flags &&& vmSplitAlloc ≠ 0) (hpmem : t.pmem ≠ []) (habs : Absorbed t r p u) (a : ℕ) :
    ends (vmCheckEntry (direct B) ⟨a, f⟩ i flags u) (fun ok t' => ok = true ∧
      Extends P B r 1 t t' ∧ nodeAt t' r p = some f ∧
      nodeAt t' r (i :: p) = some (entryAddr (t'.table f i)) ∧ Absorbed t' r (i :: p) u)
      (fun _ => False) t := by
  have hchild_eq : ∀ {t'}, nodeAt t' r p = some f → t'.table f i ||| u = t'.table f i →
      Absorbed t' r (i :: p) u := by
    rintro t' hf' hor q k b hq hb
    obtain ⟨rfl, rfl⟩ := cons.inj hq
    obtain rfl : b = f := some.inj (hb.symm.trans hf')
    exact hor
  refine ends_check_alloc hflags (h.not_isSlot hf i) (fun _ hpres => ⟨rfl, ?_⟩) fun _ hpres => ?_
  · -- the entry is present: the same table behind it, with more flags
    have hnew := child_or hu hpres hlen fun hd => ⟨(hl hd).2 hpres, (hl hd).1⟩
    have hold : child p.length (t.table f i) = some (entryAddr (t.table f i)) :=
      child_eq_some.2 ⟨⟨hpres, hlen, fun hd => (hl hd).2 hpres⟩, rfl⟩
    have hsame := hnew.trans hold.symm
    have hfits : Tree.Fits P t r p (t.table f i ||| u) :=
      { empty := fun hlen3 => by omega
        leaf := fun _ hc => by rw [hnew] at hc; cases hc
        upper := fun g _ => hP.upper_or _ (h.upper p f i _ hf hold)
        above := fun g hg j hj => by
          rw [hnew] at hg
          cases hg
          exact hP.below_above _ _ (h.below p f i _ hf hold j hj)
        below := fun _ q k b hq hb => by
          subst hq
          refine hP.below_or _ _ (habs q k b rfl hb) ?_
          exact h.below q b k f hb ((nodeAt_cons hb).symm.trans hf) i hpres }
    have hnode := h.nodeAt_set hf hsame
    refine ⟨⟨h.set hf hsame hfits, fun q j x => ?_, Nat.le_succ _⟩, (hnode p).trans hf, ?_, ?_⟩
    · rw [h.leaf_set hf hsame]
      split_ifs with hqj
      · obtain ⟨rfl, rfl⟩ := hqj
        refine iff_of_false (fun hx => ?_) ?_
        · rw [hnew] at hx
          cases hx.2.2
        · rintro ⟨g, hg, rfl, -, hc⟩
          obtain rfl : g = f := some.inj (hg.symm.trans hf)
          cases hold.symm.trans hc
      · rfl
    · rw [hnode, nodeAt_cons hf, hold, Tree.table_set_self, entryAddr_or _ hu]
    · refine hchild_eq ((hnode p).trans hf) ?_
      rw [Tree.table_set_self, Nat.or_assoc, Nat.or_self]
  · -- the entry is not present: a new table
    refine ends_vmemMgmtAlloc hpmem (fun pmem hp => ?_) (fun g pmem hp hn => ?_) (fun pmem hp => ?_)
      fun g pmem hp h0 hdvd hslot => ⟨rfl, ?_⟩
    · exact (h.fresh 0 (hp ▸ mem_cons_self)).1 rfl
    · exact hn (h.fresh g (hp ▸ mem_cons_self)).2.1
    · exact (h.fresh _ (hp ▸ mem_cons_self)).2.2.1 rfl
    · have hframe := (h.fresh g (hp ▸ mem_cons_self)).2.2.2.1
      have hnew := child_new hu hdvd hlen fun hd => (hl hd).1
      have hnode := h.nodeAt_grown hp hf hpres hnew
      have htree := h.grow hp hf hpres hnew (hP.upper_new g hframe) fun q k b hq hb =>
        hP.below_new _ g (habs q k b hq hb) hframe
      have hself := Tree.table_grown_self t g pmem f i (g ||| pgPresent ||| pgWritable ||| u)
      have hne : p ≠ i :: p := fun hq => absurd (congrArg length hq) (by simp)
      have hf' := (hnode p).trans ((if_neg hne).trans hf)
      refine ⟨⟨htree, h.leaf_grown hp hf hpres hnew, ?_⟩, hf', ?_, hchild_eq hf' ?_⟩
      · rw [hp]
        exact le_refl _
      · have haddr := (congrArg entryAddr hself).trans (child_eq_some.1 hnew).2
        exact (hnode (i :: p)).trans ((if_pos rfl).trans (congrArg some haddr.symm))
      · exact (congrArg (· ||| u) hself).trans
          ((by rw [Nat.or_assoc, Nat.or_self] : _ = _).trans hself.symm)

/-! ### All levels -/

theorem absorbed_nil : Absorbed t r [] u := fun _ _ _ h => by cases h

/-- The way down to the page directory. -/
theorem Tree.ends_split_alloc {Q : SplitRes × Locals → Tables → Prop} (h : Tree P B r t)
    (hP : P.Allows u) (hu : u < 2 ^ 12) (hflags : flags &&& vmSplitAlloc ≠ 0)
    (hpmem : 2 ≤ t.pmem.length)
    (hpd : ∀ t2 f p4 p3, Extends P B r 2 t t2 → nodeAt t2 r (pathPd virt) = some f →
      Absorbed t2 r (pathPd virt) u →
      ends (splitPd (direct B) virt flags u p4 p3 { l with pd := ⟨vmPsTaddr 0, f⟩ }) Q
        (fun _ => False) t2) :
    ends (vmemMgmtSplit (direct B) r virt flags u l) Q (fun _ => False) t := by
  refine ends_bind (ends_map (fun hn => hn h.aligned) fun _ => ?_)
  have hne : ∀ {t : Tables}, 1 ≤ t.pmem.length → t.pmem ≠ [] := ne_nil_of_length_pos
  refine ends_seq (h.ends_check (i := pml4i virt) hP hu nodeAt_nil (by simp) (by simp)
    hflags (hne (by omega)) absorbed_nil _) ?_
  rintro _ t1 ⟨rfl, hext1, hroot, hpdpt, habs1⟩
  have h1 := hext1.tree
  have hlen1 := hext1.pmem
  refine ends_load (h1.not_isSlot hroot _) fun _ => ?_
  refine ends_map_entryAddr ?_
  refine ends_seq (h1.ends_check (i := pdpti virt) hP hu hpdpt (by simp) (by simp)
    hflags (hne (by omega)) habs1 _) ?_
  rintro _ t2 ⟨rfl, hext2, hpdpt2, hpd2, habs2⟩
  refine ends_load (hext2.tree.not_isSlot hpdpt2 _) fun _ => ?_
  exact ends_map_entryAddr (hpd t2 _ _ _ (hext1.trans hext2) hpd2 habs2)

/-- The result of the search for a small page. -/
def SmallSearch (P : Policy) (B : Boot) (r u virt : ℕ) (t : Tables) (res : SplitRes × Locals)
    (t' : Tables) : Prop :=
  Extends P B r 3 t t' ∧ ((res.1 = .smallExpected ∧ ∃ e, leafAt t r virt = some (true, e)) ∨
    (res.1 = .splitSuccess ∧ res.2.pt.addr ≠ 0 ∧ nodeAt t' r (pathPt virt) = some res.2.pt.frame ∧
      res.2.ipt = pti virt ∧ Absorbed t' r (pathPt virt) u))

/-- The search for a small page finds a large page, or goes to the page table. -/
theorem Tree.ends_split_small (h : Tree P B r t) (hP : P.Allows u) (hu : u < 2 ^ 12)
    (hl : isLarge u = false) (hpmem : 3 ≤ t.pmem.length) (virt : ℕ) (l : Locals) :
    ends (vmemMgmtSplit (direct B) r virt vmSplitAlloc u l) (SmallSearch P B r u virt t)
      (fun _ => False) t := by
  refine h.ends_split_alloc hP hu (by decide) (by omega) fun t2 f p4 p3 hext hf habs => ?_
  have hslot : ¬ B.isSlot f (pdi virt) := hext.tree.not_isSlot hf _
  have hlen := hext.pmem
  refine ends_load hslot fun _ => ?_
  rw [if_neg (by decide)]
  refine ends_ite (fun hpage => ends_splitExit ?_) fun hpage => ?_
  · rw [Bool.and_eq_true] at hpage
    refine ⟨⟨hext.tree, hext.leaf, by omega⟩, .inl ⟨rfl, t2.table f (pdi virt), ?_⟩⟩
    rw [← leafAt_congr hext.leaf]
    exact leafAt_large.2 ⟨f, hf, rfl, child_two_eq_none.2 hpage⟩
  · refine ends_seq (hext.tree.ends_check (i := pdi virt) hP hu hf (by simp [pathPd])
      (fun _ => ⟨hl, fun hp => ?_⟩) (by decide) (ne_nil_of_length_pos (by omega)) habs _) ?_
    · rw [val_pdi] at hp ⊢
      simpa [hp] using hpage
    rintro _ t3 ⟨rfl, hext3, hf3, hpt, habs3⟩
    refine ends_load hslot fun _ => ends_map_entryAddr ?_
    exact ends_splitDone ⟨hext.trans hext3, .inr ⟨rfl, vmPsTaddr_ne_zero 0, hpt, rfl, habs3⟩⟩

/-- The result of the search for a large page. -/
def LargeSearch (P : Policy) (B : Boot) (r u virt : ℕ) (t : Tables) (res : SplitRes × Locals)
    (t' : Tables) : Prop :=
  Extends P B r 3 t t' ∧ (res.1 = .largeExpected ∨
    (res.1 = .splitSuccess ∧ nodeAt t' r (pathPd virt) = some res.2.pd.frame ∧
      res.2.ipd = pdi virt ∧ Absorbed t' r (pathPd virt) u ∧
      (isPresent (t'.table res.2.pd.frame (pdi virt)) = true →
        isLarge (t'.table res.2.pd.frame (pdi virt)) = true)))

/-- The search for a large page finds a page table, or goes to the page directory. -/
theorem Tree.ends_split_large (h : Tree P B r t) (hP : P.Allows u) (hu : u < 2 ^ 12)
    (hpmem : 3 ≤ t.pmem.length) (virt : ℕ) (l : Locals) :
    ends (vmemMgmtSplit (direct B) r virt (vmSplitAlloc ||| vmSplitLarge) u l)
      (LargeSearch P B r u virt t) (fun _ => False) t := by
  refine h.ends_split_alloc hP hu (by decide) (by omega) fun t2 f p4 p3 hext hf habs => ?_
  have hlen := hext.pmem
  refine ends_load (hext.tree.not_isSlot hf _) fun _ => ?_
  rw [if_pos (by decide)]
  have hext3 : Extends P B r 3 t t2 := ⟨hext.tree, hext.leaf, by omega⟩
  refine ends_ite (fun _ => ends_splitExit ⟨hext3, .inl rfl⟩) fun hpage => ends_splitDone ?_
  refine ⟨hext3, .inr ⟨rfl, hf, rfl, habs, fun hp => ?_⟩⟩
  dsimp only [val_pdi] at hp ⊢
  simpa [hp] using hpage

end Tachyon.Vmem
