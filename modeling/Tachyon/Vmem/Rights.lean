import Tachyon.Vmem.Hardware
import Tachyon.Vmem.PageMap

/-!
# The rights of small pages

The processor grants the rights that all entries on the way to a page grant.  `vmem_mgmt_split` makes
new entries writable, and it adds the flags of a page to the entries on the way, from the top down.
So an entry grants what the entries above it grant, and only the last entry counts.

* `rights`: the policy;
* `Tree.hwWalk_eq`: in such a tree the processor finds the last entry and its rights;
* `recorded`: the pages that are mapped after a sequence of calls, with the flags of the calls;
* `small_rights`: the processor grants the rights of the call that mapped the page.
-/

namespace Tachyon.Vmem

open Prog Option

variable {B : Boot} {t t' : Tables} {r e u v phys flags : ℕ} {l : Locals}

/-! ### Entries -/

theorem isUser_eq (e : ℕ) : isUser e = e.testBit 2 := by
  rw [isUser, Bool.eq_iff_iff, bne_iff_ne]
  exact and_two_pow_ne_zero

theorem isWritable_eq (e : ℕ) : isWritable e = e.testBit 1 := by
  rw [isWritable, Bool.eq_iff_iff, bne_iff_ne]
  exact and_two_pow_ne_zero

theorem isUser_or (a b : ℕ) : isUser (a ||| b) = (isUser a || isUser b) := by
  rw [isUser_eq, isUser_eq, isUser_eq, Nat.testBit_or]

theorem isWritable_or (a b : ℕ) : isWritable (a ||| b) = (isWritable a || isWritable b) := by
  rw [isWritable_eq, isWritable_eq, isWritable_eq, Nat.testBit_or]

variable {f : ℕ} {p : List Idx} {i : Idx}

theorem isUser_of_dvd (h : pageSize4K ∣ f) : isUser f = false :=
  (isUser_eq f).trans (testBit_of_dvd h (by decide))

theorem isWritable_of_dvd (h : pageSize4K ∣ f) : isWritable f = false :=
  (isWritable_eq f).trans (testBit_of_dvd h (by decide))

/-- The entry of a page has the rights of its flags. -/
theorem isUser_leaf (h : pageSize4K ∣ phys) (flags : ℕ) :
    isUser (phys ||| pgPresent ||| flags) = isUser flags := by
  rw [isUser_or, isUser_or, isUser_of_dvd h]
  simp [show isUser pgPresent = false by decide]

theorem isWritable_leaf (h : pageSize4K ∣ phys) (flags : ℕ) :
    isWritable (phys ||| pgPresent ||| flags) = isWritable flags := by
  rw [isWritable_or, isWritable_or, isWritable_of_dvd h]
  simp [show isWritable pgPresent = false by decide]

theorem hwAddr_eq (h : e < 2 ^ 52) : hwAddr e = entryAddr e := by
  rw [hwAddr, entryAddr_eq]
  omega

/-! ### The policy -/

/-- Entries with a table behind them are writable and not large, and an entry for the user is below
entries for the user. -/
def rights : Policy where
  Frame g := pageSize4K ∣ g ∧ g < 2 ^ 52
  Upper e := isWritable e = true ∧ isLarge e = false ∧ e < 2 ^ 52
  Leaf e := e < 2 ^ 52
  Below a e := isUser e = true → isUser a = true

theorem rights_allows (hu : u < 2 ^ 12) (hl : isLarge u = false) : rights.Allows u where
  upper_or e he := by
    refine ⟨?_, ?_, Nat.or_lt_two_pow he.2.2 (lt_trans hu (by decide))⟩
    · rw [isWritable_or, he.1, Bool.true_or]
    · rw [isLarge_or, he.2.1, hl, Bool.or_false]
  upper_new g hg := by
    refine ⟨?_, ?_, Nat.or_lt_two_pow ?_ (lt_trans hu (by decide))⟩
    · rw [isWritable_or, isWritable_or]
      simp [show isWritable pgWritable = true by decide]
    · rw [isLarge_or, isLarge_or, isLarge_or, isLarge_of_dvd hg.1, hl]
      decide
    · exact Nat.or_lt_two_pow (Nat.or_lt_two_pow hg.2 (by decide)) (by decide)
  below_above a e h he := by
    rw [isUser_or, h he, Bool.true_or]
  below_or a e ha h he := by
    rw [isUser_or, Bool.or_eq_true] at he
    rcases he with he | he
    · exact h he
    · rw [← ha, isUser_or, he, Bool.or_true]
  below_new a g ha hg he := by
    rw [isUser_or, isUser_or, isUser_or, isUser_of_dvd hg.1, Bool.or_eq_true] at he
    rcases he with he | he
    · exact absurd he (by decide)
    · rw [← ha, isUser_or, he, Bool.or_true]

/-! ### The walk -/

section Walk

variable {table : ℕ → ℕ → ℕ} {cr3 e4 e3 e2 : ℕ}

theorem hwWalk_absent₄ (hp : isPresent (table cr3 (idxPml4 v)) = false) :
    hwWalk table cr3 v = none := by
  simp [hwWalk, hp]

section

variable (h4 : table cr3 (idxPml4 v) = e4)
include h4

theorem hwWalk_absent₃ (hp : isPresent (table (hwAddr e4) (idxPdpt v)) = false) :
    hwWalk table cr3 v = none := by
  simp [hwWalk, h4, hp]

theorem hwWalk_absent₂ (h3 : table (hwAddr e4) (idxPdpt v) = e3) (hl : isLarge e3 = false)
    (hp : isPresent (table (hwAddr e3) (idxPd v)) = false) : hwWalk table cr3 v = none := by
  simp [hwWalk, h4, h3, hl, hp]

/-- The walk to a page table. -/
theorem hwWalk_pt (h3 : table (hwAddr e4) (idxPdpt v) = e3) (h2 : table (hwAddr e3) (idxPd v) = e2)
    (hp4 : isPresent e4 = true) (hl4 : isLarge e4 = false) (hp3 : isPresent e3 = true)
    (hl3 : isLarge e3 = false) (hp2 : isPresent e2 = true) (hl2 : isLarge e2 = false) :
    hwWalk table cr3 v =
      if isPresent (table (hwAddr e2) (idxPt v)) = true then
        some (translation (hwAddr (table (hwAddr e2) (idxPt v)) + v % 2 ^ 12)
          [e4, e3, e2, table (hwAddr e2) (idxPt v)])
      else none := by
  simp only [hwWalk, h4, h3, h2, hp4, hl4, hp3, hl3, hp2, hl2, Bool.not_true, Bool.or_self,
    Bool.false_eq_true, if_false]
  cases isPresent (table (hwAddr e2) (idxPt v)) <;> rfl

end

end Walk

/-- A table behind an entry, with the policy. -/
theorem Tree.rights_upper (h : Tree rights B r t) {g : ℕ}
    (hf : nodeAt t r p = some f) (hg : nodeAt t r (i :: p) = some g) :
    isPresent (t.table f i) = true ∧ isWritable (t.table f i) = true ∧
      isLarge (t.table f i) = false ∧ hwAddr (t.table f i) = g := by
  have hchild := (nodeAt_cons hf).symm.trans hg
  obtain ⟨hw, hl, hlt⟩ := h.upper p f i g hf hchild
  obtain ⟨⟨hp, -⟩, haddr⟩ := child_eq_some.1 hchild
  exact ⟨hp, hw, hl, (hwAddr_eq hlt).trans haddr⟩

/-- No table behind an entry that is not large: the entry is not present. -/
theorem not_present_of_nodeAt (hf : nodeAt t r p = some f)
    (hnone : nodeAt t r (i :: p) = none) (hlen : p.length < 3)
    (hl : p.length = 2 → isPresent (t.table f i) = true → isLarge (t.table f i) = false) :
    isPresent (t.table f i) = false := by
  have hchild := (nodeAt_cons hf).symm.trans hnone
  by_contra hp
  rw [Bool.not_eq_false] at hp
  exact child_eq_none.1 hchild ⟨hp, hlen, fun h => hl h hp⟩

/-- **In a tree of small pages the last entry counts.** -/
theorem Tree.hwWalk_eq (h : Tree rights B r t) (hsmall : ∀ e, leafAt t r v ≠ some (true, e)) :
    hwWalk t.table r v = (leafAt t r v).map fun x =>
      ⟨entryAddr x.2 + v % 2 ^ 12, isUser x.2, isWritable x.2⟩ := by
  have hnone : ∀ {p i}, nodeAt t r p = none → nodeAt t r (i :: p) = none :=
    Radix.node_eq_none_of_cons
  have hleaf : nodeAt t r (pathPt v) = none → leafAt t r v = none := fun hpt => by
    rw [eq_none_iff_forall_not_mem]
    rintro ⟨_ | _, e⟩ he
    · obtain ⟨g, hg, -⟩ := leafAt_small.1 he
      cases hpt.symm.trans hg
    · exact hsmall e he
  rcases h3 : nodeAt t r [pml4i v] with _ | f3
  · rw [hleaf (hnone (hnone h3)), hwWalk_absent₄]
    · rfl
    · exact not_present_of_nodeAt nodeAt_nil h3 (by simp) (by simp)
  obtain ⟨hp4, hw4, hl4, ha4⟩ := h.rights_upper nodeAt_nil h3
  rcases h2 : nodeAt t r (pathPd v) with _ | f2
  · rw [hleaf (hnone h2), hwWalk_absent₃ rfl]
    · rfl
    · exact ha4 ▸ not_present_of_nodeAt h3 h2 (by simp) (by simp)
  obtain ⟨hp3, hw3, hl3, ha3⟩ := h.rights_upper h3 h2
  have he3 : t.table (hwAddr (t.table r (idxPml4 v))) (idxPdpt v) = t.table f3 (pdpti v) :=
    congrArg (t.table · _) ha4
  rcases h1 : nodeAt t r (pathPt v) with _ | f1
  · rw [hleaf h1, hwWalk_absent₂ rfl he3 hl3]
    · rfl
    · rw [ha3]
      refine not_present_of_nodeAt h2 h1 (by simp [pathPd]) fun _ hp => ?_
      by_contra hl
      rw [Bool.not_eq_false] at hl
      exact hsmall _ (leafAt_large.2 ⟨f2, h2, rfl, child_two_eq_none.2 ⟨hp, hl⟩⟩)
  obtain ⟨hp2, hw2, hl2, ha2⟩ := h.rights_upper h2 h1
  have he2 : t.table (hwAddr (t.table f3 (pdpti v))) (idxPd v) = t.table f2 (pdi v) :=
    congrArg (t.table · _) ha3
  rw [hwWalk_pt rfl he3 he2 hp4 hl4 hp3 hl3 hp2 hl2, ha2]
  have hchild : ∀ {p i f g}, nodeAt t r p = some f → nodeAt t r (i :: p) = some g →
      child p.length (t.table f i) = some g := fun hf hg => (nodeAt_cons hf).symm.trans hg
  split_ifs with hp1
  · have hpage : leafAt t r v = some (false, t.table f1 (pti v)) :=
      leafAt_small.2 ⟨f1, h1, rfl, hp1, child_three _⟩
    have hlt : t.table f1 (pti v) < 2 ^ 52 := h.leaf _ _ _ (leafAt_small.1 hpage)
    -- the right of the user goes up entry by entry
    have hu2 := h.below _ f2 (pdi v) f1 h2 (hchild h2 h1) (pti v) hp1
    have hu3 := h.below _ f3 (pdpti v) f2 h3 (hchild h3 h2) (pdi v) hp2
    have hu4 := h.below _ r (pml4i v) f3 nodeAt_nil (hchild nodeAt_nil h3) (pdpti v) hp3
    have huser : [t.table r (pml4i v), t.table f3 (pdpti v), t.table f2 (pdi v),
        t.table f1 (pti v)].all isUser = isUser (t.table f1 (pti v)) := by
      cases hu : isUser (t.table f1 (pti v)) with
      | true => simp [hu, hu2 hu, hu3 (hu2 hu), hu4 (hu3 (hu2 hu))]
      | false => simp [hu]
    have hwritable : [t.table r (pml4i v), t.table f3 (pdpti v), t.table f2 (pdi v),
        t.table f1 (pti v)].all isWritable = isWritable (t.table f1 (pti v)) := by
      simp [hw4, hw3, hw2]
    rw [hpage, map_some, some.injEq, ← huser, ← hwritable, ← hwAddr_eq hlt]
    rfl
  · rw [leafAt_absent h1 (Bool.eq_false_of_not_eq_true hp1)]
    rfl

/-! ### Histories -/

/-- For every page the frame and the flags of the call that mapped it. -/
abbrev Granted : Type := ℕ → Option (ℕ × ℕ)

/-- A call of `vmem_map` that returned `true` is recorded; `vmem_unmap` removes the record. -/
def record (H : Granted) : Call → ℕ → Granted
  | .map phys virt flags, res =>
    if res = 0 then H else fun n => if n = pageNo virt then some (phys, flags) else H n
  | .unmap virt, _ => fun n => if n = pageNo virt then none else H n
  | .resolve _, _ => H

/-- The pages that are mapped after calls with their results. -/
def recorded (calls : List Call) (results : List ℕ) : Granted :=
  (calls.zip results).foldl (fun H x => record H x.1 x.2) fun _ => none

/-- Documented calls for small pages. -/
def Call.Small : Call → Prop
  | .map phys _ flags => pageSize4K ∣ phys ∧ phys < 2 ^ 52 ∧ flags ||| vmemFlags = vmemFlags ∧
      isLarge flags = false
  | _ => True

theorem steps_record {H H' : Granted} {calls : List Call} {results : List ℕ}
    (h : Steps (fun H c res H' => H' = record H c res) H calls results H') :
    H' = (calls.zip results).foldl (fun H x => record H x.1 x.2) H := by
  induction h with
  | nil H => rfl
  | cons hstep _ ih =>
    rw [ih, hstep]
    rfl

/-- The tables hold the recorded pages. -/
structure Holds (B : Boot) (r : ℕ) (H : Granted) (t : Tables) : Prop where
  tree : Tree rights B r t
  pages : ∀ v, leafAt t r v = (H (pageNo v)).map fun x => (false, x.1 ||| pgPresent ||| x.2)
  documented : ∀ n x, H n = some x → pageSize4K ∣ x.1 ∧ x.2 < 2 ^ 12

variable {H : Granted}

theorem Holds.not_large (h : Holds B r H t) (v e : ℕ) : leafAt t r v ≠ some (true, e) := by
  rw [h.pages]
  cases H (pageNo v) <;> simp

theorem Holds.hwWalk_eq (h : Holds B r H t) (v : ℕ) : hwWalk t.table r v =
    (H (pageNo v)).map fun x => ⟨x.1 + v % 2 ^ 12, isUser x.2, isWritable x.2⟩ := by
  rw [h.tree.hwWalk_eq (h.not_large v), h.pages]
  cases hx : H (pageNo v) with
  | none => rfl
  | some x =>
    obtain ⟨hphys, hflags⟩ := h.documented _ _ hx
    simp only [map_some, entryAddr_leaf hphys hflags, isUser_leaf hphys,
      isWritable_leaf hphys]

theorem Holds.resolved_eq (h : Holds B r H t) (v : ℕ) :
    resolved (leafAt t r v) = ((H (pageNo v)).map Prod.fst).getD 0 := by
  rw [h.pages]
  cases hx : H (pageNo v) with
  | none => rfl
  | some x =>
    obtain ⟨hphys, hflags⟩ := h.documented _ _ hx
    simp only [resolved, map_some, getD_some, entryAddr_leaf hphys hflags]

theorem leaf_lt (hphys : phys < 2 ^ 52) (hflags : flags < 2 ^ 12) :
    phys ||| pgPresent ||| flags < 2 ^ 52 :=
  Nat.or_lt_two_pow (Nat.or_lt_two_pow hphys (by decide)) (lt_trans hflags (by decide))

/-- A call keeps the recorded pages. -/
theorem Holds.call (c : Call) (l : Locals) (H : Granted) (t : Tables) (hc : c.Small)
    (h : Holds B r H t) (hpmem : 3 ≤ t.pmem.length) :
    ends (c.run (direct B) l r) (fun res t' => t.pmem.length ≤ t'.pmem.length + 3 ∧
      ∃ H', H' = record H c res ∧ Holds B r H' t') (fun _ => False) t := by
  cases c with
  | map phys virt flags =>
    obtain ⟨hphys, hlt, hdoc, hl⟩ := hc
    have hflags := flags_lt hdoc
    have hbelow : ∀ a, a ||| flags = a → rights.Below a (phys ||| pgPresent ||| flags) := by
      intro a ha hu
      rw [isUser_leaf hphys] at hu
      rw [← ha, isUser_or, hu, Bool.or_true]
    refine ends_seq (h.tree.map_small (rights_allows hflags hl) (leaf_lt hlt hflags)
      hbelow hflags hl hpmem) ?_
    rintro ok t' ⟨hkept, -, hpages⟩
    refine ends_pure ⟨hkept.pmem, _, rfl, hkept.tree, fun v => ?_, fun n x hx => ?_⟩
    · rw [hpages v]
      cases ok with
      | true =>
        simp only [record, true_and, Bool.toNat_true, one_ne_zero, if_false]
        split_ifs
        · rfl
        · exact h.pages v
      | false => exact h.pages v
    · cases ok with
      | true =>
        simp only [record, Bool.toNat_true, one_ne_zero, if_false] at hx
        split_ifs at hx
        · cases hx
          exact ⟨hphys, hflags⟩
        · exact h.documented n x hx
      | false => exact h.documented n x hx
  | unmap virt =>
    refine ends_mono (h.tree.find_unmap virt) ?_
    rintro res t' ⟨htree, hpmem', -, hpages⟩
    refine ⟨by rw [hpmem']; omega, _, rfl, htree, fun v => ?_, fun n x hx => ?_⟩
    · have hsmall : foundLarge (leafAt t r virt) = false := by
        rw [h.pages]
        cases H (pageNo virt) <;> rfl
      rw [hpages v, hsmall, record]
      simp only [true_and, SamePage, Bool.false_eq_true, if_false]
      split_ifs
      · rfl
      · exact h.pages v
    · simp only [record] at hx
      split_ifs at hx
      exact h.documented n x hx
  | resolve virt =>
    refine ends_mono (h.tree.find_unmap virt) ?_
    rintro res t' ⟨htree, hpmem', -, hpages⟩
    refine ⟨by rw [hpmem']; omega, _, rfl, htree, fun v => ?_, h.documented⟩
    rw [hpages v, if_neg (by simp)]
    exact h.pages v

/-- **The processor grants the rights of the call that mapped the page.**  After every sequence of
documented calls for small pages, from an empty PML4, the processor finds exactly the recorded pages,
in the frame that `vmem_resolve` returns, with the rights of their own flags. -/
theorem small_rights (B : Boot) (r : ℕ) (s : Vm) (calls : List (Locals × Call))
    (haligned : pageSize4K ∣ r) (hslot : r ≠ B.ptTemp) (hempty : ∀ i < 512, s.tables.table r i = 0)
    (hfresh : ∀ g ∈ s.tables.pmem, g ≠ 0 ∧ pageSize4K ∣ g ∧ g < 2 ^ 52 ∧ g ≠ B.ptTemp ∧ g ≠ r)
    (hnodup : s.tables.pmem.Nodup) (hm : Emptied s.mapspace)
    (hfree : 4 ≤ (freeSlots s.mapspace).card)
    (hcalls : ∀ c ∈ calls, Unused s.mapspace c.1.pd ∧ Unused s.mapspace c.1.pt ∧ c.2.Small)
    (hframes : 3 * calls.length ≤ s.tables.pmem.length) :
    ∃ results s', runCalls (slots B) r calls s = .ok (results, s') ∧
      ∀ v, hwWalk s'.tables.table r v =
          (recorded (calls.map Prod.snd) results (pageNo v)).map
            (fun x => ⟨x.1 + v % 2 ^ 12, isUser x.2, isWritable x.2⟩) ∧
        ∀ l, Unused s.mapspace l.pd → Unused s.mapspace l.pt →
          (vmemResolve (slots B) l r v).value s' =
            some (((recorded (calls.map Prod.snd) results (pageNo v)).map Prod.fst).getD 0) := by
  have htree : Tree rights B r s.tables := by
    refine Tree.of_empty haligned hslot hempty (fun g hg => ?_) hnodup
    obtain ⟨h0, hdvd, hlt, hne, hr⟩ := hfresh g hg
    exact ⟨h0, hdvd, hne, ⟨hdvd, hlt⟩, hr⟩
  have hstart : Holds B r (fun _ => none) s.tables := by
    refine ⟨htree, fun v => ?_, fun n x hx => by cases hx⟩
    have hroot : isPresent (s.tables.table r (idxPml4 v)) = false := by
      rw [hempty (idxPml4 v) (and_lt_512 _)]
      decide
    have hpd : nodeAt s.tables r (pathPd v) = none := by
      rw [← pdAt_eq, pdAt]
      simp [hroot]
    rw [leafAt, hpd]
    rfl
  obtain ⟨results, t', H, hrun, hsteps, hholds⟩ := runCalls_ok
    Holds.call ⟨hm, hfree⟩ calls hcalls
    (fun _ => none) s.tables hstart hframes
  obtain rfl : H = recorded (calls.map Prod.snd) results := steps_record hsteps
  refine ⟨results, ⟨t', s.mapspace⟩, hrun, fun v => ⟨hholds.hwWalk_eq v, fun l hpd hpt => ?_⟩⟩
  obtain ⟨res, t'', hres, -, -, rfl, -⟩ := call_slots (c := .resolve v) ⟨hm, hfree⟩ (hpd.spare hm)
    (hpt.spare hm) (hholds.tree.find_unmap v)
  have hrun' : vmemResolve (slots B) l r v ⟨t', s.mapspace⟩ = _ := hres
  rw [value, hrun', hholds.resolved_eq]

/-- A page for the user next to one for the kernel; a second call for the latter fails. -/
def mixedCalls : List (Locals × Call) :=
  [(nullLocals, .map 0x800000 0x400000 pgUser), (nullLocals, .map 0x801000 0x401000 pgWritable),
    (nullLocals, .map 0x802000 0x401000 (pgUser ||| pgWritable))]

theorem mixedCalls_small : ∀ c ∈ mixedCalls, Unused emptyVm.mapspace c.1.pd ∧
    Unused emptyVm.mapspace c.1.pt ∧ c.2.Small := by
  intro c hc
  simp only [mixedCalls, List.mem_cons, List.not_mem_nil, or_false] at hc
  rcases hc with rfl | rfl | rfl <;>
    exact ⟨unused_empty, unused_empty, by decide, by decide, by decide, by decide⟩

theorem small_rights_mixed :
    ∃ results s', runCalls (slots (bootFrames 0x101000)) 0x1000 mixedCalls emptyVm =
        .ok (results, s') ∧
      ∀ v, hwWalk s'.tables.table 0x1000 v =
          (recorded (mixedCalls.map Prod.snd) results (pageNo v)).map
            (fun x => ⟨x.1 + v % 2 ^ 12, isUser x.2, isWritable x.2⟩) ∧
        ∀ l, Unused emptyVm.mapspace l.pd → Unused emptyVm.mapspace l.pt →
          (vmemResolve (slots (bootFrames 0x101000)) l 0x1000 v).value s' =
            some (((recorded (mixedCalls.map Prod.snd) results (pageNo v)).map Prod.fst).getD 0) :=
  small_rights (bootFrames 0x101000) 0x1000 emptyVm mixedCalls (by decide) (by decide)
    (fun _ _ => rfl) (by decide) (by decide) (fun _ _ _ => rfl) (by decide) mixedCalls_small
    (by decide)

end Tachyon.Vmem
