import Tachyon.Vmem.BootTables
import Tachyon.Vmem.Slots

/-!
# The slots are balanced

`vmem_map`, `vmem_unmap` and `vmem_resolve` do through the slots what they do with direct access to
the tables, and leave the slots as they were, whatever the outcome is.

* `Call`: the calls of the three functions;
* `call_rel`: the calls with slots do what the calls with direct access do;
* `call_ends`: with direct access a call halts only if it gets no frame for a new table, or if a
  frame is misaligned;
* `call_balanced`: the two together.

The slots are the last ten entries of `x86_64_pg_pt_temp`.  A call that walks into these entries,
such as the one in `call_moves_slot`, does change them.
-/

namespace Tachyon.Vmem

open Prog

variable {B : Boot} {m m' : ℕ → ℕ} {t : Tables} {l l' : Locals} {spc virt phys flags u i : ℕ}
  {p q : Ptr} {E : Halt → Prop} {unmap : Bool}

/-! ### The functions behind the search -/

theorem vmSetIfnPresent_rel (hp : Maps m p) (hq : q.frame = p.frame) :
    Rel (vmSetIfnPresent (slots B) p i phys flags) (vmSetIfnPresent (direct B) q i phys flags)
      (fun a s' b t' => a = b ∧ s' = ⟨t', m⟩) ⟨t, m⟩ t := by
  refine rel_step (load_rel hp hq) fun e _ => ?_
  refine rel_ite (fun _ => rel_pure ⟨rfl, rfl⟩) fun _ => ?_
  refine rel_step (store_rel hp hq) fun _ _ => ?_
  exact rel_pure ⟨rfl, rfl⟩

theorem mapEntry_rel (hpd : PdOpen m m' l l') (hpt : isLarge flags = false → PtOpen m' l l') :
    Rel (mapEntry (slots B) l phys flags) (mapEntry (direct B) l' phys flags)
      (fun a s' b t' => a = b ∧ s' = ⟨t', m'⟩) ⟨t, m'⟩ t := by
  refine rel_ite (fun _ => ?_) fun hlarge => ?_
  · rw [hpd.ipd]
    exact vmSetIfnPresent_rel hpd.maps hpd.frame
  · have hopen := hpt (by simpa using hlarge)
    rw [if_pos hopen.addr, if_pos hopen.addr', hopen.ipt]
    exact vmSetIfnPresent_rel hopen.maps hopen.frame

theorem vmResUnmap_rel (hp : Maps m p) (hq : q.frame = p.frame) :
    Rel (vmResUnmap (slots B) p i unmap) (vmResUnmap (direct B) q i unmap)
      (fun a s' b t' => a = b ∧ s' = ⟨t', m⟩) ⟨t, m⟩ t := by
  refine rel_step (load_rel hp hq) fun e _ => ?_
  refine rel_ite (fun _ => ?_) fun _ => rel_pure ⟨rfl, rfl⟩
  refine rel_step (store_rel hp hq) fun _ _ => ?_
  exact rel_pure ⟨rfl, rfl⟩

/-- For a large page only the page directory is closed, so it has to be the only open slot. -/
theorem findUnmapEntry_rel (hpd : PdOpen m m' l l') (hspare : Spare m l.pd) (hspare' : Spare m l.pt)
    (hlarge : isLarge (t.table l'.pd.frame l'.ipd) → Agree m m' [l.pd])
    (hpt : isLarge (t.table l'.pd.frame l'.ipd) = false → PtOpen m' l l') :
    Rel (findUnmapEntry (slots B) l unmap) (findUnmapEntry (direct B) l' unmap)
      (fun a s' b t' => a = b ∧ s' = ⟨t', m⟩) ⟨t, m'⟩ t := by
  unfold findUnmapEntry
  rw [hpd.ipd] at hlarge hpt ⊢
  have hload : wlp ((direct B).load l'.pd l.ipd) (fun e _ => e = t.table l'.pd.frame l.ipd) t := by
    intro e t' he
    by_cases hs : B.isSlot l'.pd.frame l.ipd
    · simp [direct, hs] at he
    · cases (load_run hs).symm.trans he
      rfl
  refine rel_seq (rel_wlp (load_rel hpd.maps hpd.frame) hload) ?_
  rintro e _ _ _ ⟨⟨rfl, rfl, rfl⟩, he⟩
  refine rel_ite (fun h => ?_) fun h => ?_
  · refine rel_step (vmResUnmap_rel hpd.maps hpd.frame) fun r _ => ?_
    refine rel_step unmap_rel fun _ _ => ?_
    refine rel_pure ⟨rfl, ?_⟩
    rw [((hlarge (he ▸ h)).closeSlot hspare (by simp)).eq]
  · have hopen := hpt (by simpa [he] using h)
    rw [if_pos hopen.addr, if_pos hopen.addr', hopen.ipt]
    refine rel_step (vmResUnmap_rel hopen.maps hopen.frame) fun r _ => ?_
    refine rel_step unmap_rel fun _ _ => ?_
    refine rel_step unmap_rel fun _ _ => ?_
    refine rel_pure ⟨rfl, ?_⟩
    have h1 : Agree m (closeSlot m' l.pt) [l.pd] := hpd.agree.closeSlot hspare' (by simp)
    rw [(h1.closeSlot hspare (by simp)).eq]

/-! ### The searches with direct access -/

/-- The search of `vmem_find_unmap` for a small page finds no large one. -/
def FirstSearch (t : Tables) (spc virt : ℕ) (r : SplitRes × Locals) : Prop :=
  match r.1 with
  | .splitSuccess => isLarge (t.table r.2.pd.frame r.2.ipd) = false
  | .smallExpected => ∃ f, pdAt t spc virt = some f ∧ isLarge (t.table f (idxPd virt))
  | .tableNotMapped => True
  | _ => False

section

variable
  (hspace : ¬ pageSize4K ∣ spc → E (.fatal "misaligned physical address for paging structure.\n"))
  (hE : ¬ Avoids B t spc virt → E .undefined)
include hspace hE

theorem ends_firstSearch :
    ends (vmemMgmtSplit (direct B) spc virt 0 u l) (fun r t' => t' = t ∧ FirstSearch t spc virt r)
      E t :=
  split_read_small hspace hE (fun _ => ⟨rfl, trivial⟩) (fun _ _ _ _ => ⟨rfl, trivial⟩)
    (fun f _ hf _ hl => ⟨rfl, f, hf, hl⟩) fun _ _ _ hl => ⟨rfl, hl⟩

/-- The second search of `vmem_find_unmap` finds the large page. -/
theorem ends_secondSearch {f : ℕ} (hf : pdAt t spc virt = some f)
    (hl : isLarge (t.table f (idxPd virt))) :
    ends (vmemMgmtSplit (direct B) spc virt vmSplitLarge u l) (fun r t' => t' = t ∧
      r = (.splitSuccess, { l with pd := ⟨vmPsTaddr 0, f⟩, ipd := idxPd virt })) E t := by
  refine split_read_large hspace hE (fun h => ?_) (fun g q hg _ hn => ?_) fun g hg _ => ?_
  · cases hf.symm.trans h
  · rw [hf, Option.some.injEq] at hg
    subst hg
    cases hl.symm.trans hn
  · rw [hf, Option.some.injEq] at hg
    subst hg
    exact ⟨rfl, rfl⟩

end

/-- The reasons for which a table cannot be made. -/
def Starved (e : Halt) : Prop :=
  e = .fatal "out of physical memory\n" ∨ e = .fatal "out of physical memory for vmem_mgmt\n" ∨
    e = .fatal "misaligned physical address for paging structure.\n"

/-- The reasons for which a call with direct access halts. -/
def Stuck (e : Halt) : Prop := Starved e ∨ e = .undefined

section

variable (hf : flags &&& vmSplitAlloc ≠ 0)
include hf

/-- With `VM_SPLIT_ALLOC` there is a table behind every entry. -/
theorem ends_check_true :
    ends (vmCheckEntry (direct B) p i flags u) (fun ok _ => ok = true) Stuck t := by
  refine ends_check_alloc hf (fun _ => .inr rfl) (fun _ _ => rfl) fun _ _ => ?_
  exact ends_vmemMgmtAlloc (fun _ => .inl (.inl rfl)) (fun _ _ => .inl (.inr (.inl rfl)))
    (fun _ _ _ _ => .inl (.inr (.inr rfl))) (fun _ _ => .inr rfl) fun _ _ _ _ _ _ => rfl

theorem ends_splitPd_alloc {p4 p3 : Ptr} :
    ends (splitPd (direct B) virt flags u p4 p3 l) (fun r _ => r.1 ≠ .tableNotMapped) Stuck t := by
  refine ends_load (fun _ => .inr rfl) fun _ => ?_
  refine ends_ite (fun _ => ?_) fun _ => ?_
  · exact ends_ite (fun _ => ends_splitExit (by simp)) fun _ => ends_splitDone (by simp)
  · refine ends_ite (fun _ => ends_splitExit (by simp)) fun _ => ?_
    refine ends_seq (ends_check_true hf) ?_
    rintro _ t' rfl
    refine ends_load (fun _ => .inr rfl) fun _ => ?_
    exact ends_map_entryAddr (ends_splitDone (by simp))

theorem ends_split_alloc :
    ends (vmemMgmtSplit (direct B) spc virt flags u l) (fun r _ => r.1 ≠ .tableNotMapped) Stuck
      t := by
  refine ends_bind (ends_map (fun _ => .inl (.inr (.inr rfl))) fun _ => ?_)
  refine ends_seq (ends_check_true hf) ?_
  rintro _ t1 rfl
  refine ends_load (fun _ => .inr rfl) fun _ => ends_map_entryAddr ?_
  refine ends_seq (ends_check_true hf) ?_
  rintro _ t2 rfl
  refine ends_load (fun _ => .inr rfl) fun _ => ends_map_entryAddr ?_
  exact ends_splitPd_alloc hf

end

theorem splitFlags_alloc (flags : ℕ) :
    (vmSplitAlloc ||| if isLarge flags then vmSplitLarge else 0) &&& vmSplitAlloc ≠ 0 := by
  split_ifs <;> decide

/-! ### The calls -/

section

variable (h : Ready 4 m) (hpd : Spare m l.pd) (hpt : Spare m l.pt)
include h hpd hpt

theorem vmemFindUnmap_rel :
    Rel (vmemFindUnmap (slots B) l spc virt unmap) (vmemFindUnmap (direct B) l' spc virt unmap)
      (fun a s' b t' => a = b ∧ s' = ⟨t', m⟩) ⟨t, m⟩ t := by
  have hfirst : wlp (vmemMgmtSplit (direct B) spc virt 0 0 l')
      (fun r t' => t' = t ∧ FirstSearch t spc virt r) t :=
    (ends_firstSearch (E := fun _ => True) (fun _ => trivial) fun _ => trivial).1
  refine rel_seq (rel_wlp (split_rel h hpd hpt) hfirst) ?_
  rintro ⟨r, l1⟩ ⟨t1, m1⟩ ⟨r', l1'⟩ t' ⟨hsplit, rfl, hres⟩
  obtain rfl : r = r' := hsplit.result
  obtain rfl : t1 = t' := hsplit.tables
  cases r with
  | splitSuccess =>
    have hsmall : isLarge (t1.table l1'.pd.frame l1'.ipd) = false := hres
    refine findUnmapEntry_rel (hsplit.found rfl) hsplit.pd hsplit.pt (fun hl => ?_)
      fun _ => hsplit.foundPt rfl (by decide)
    cases hsmall.symm.trans hl
  | tableNotMapped =>
    obtain rfl : m1 = m := hsplit.failed (by simp)
    exact rel_pure ⟨rfl, rfl⟩
  | smallExpected =>
    obtain rfl : m1 = m := hsplit.failed (by simp)
    obtain ⟨f, hf, hl⟩ := hres
    have hsecond := (ends_secondSearch (B := B) (u := 0) (l := l1') (E := fun _ => True)
      (fun _ => trivial) (fun _ => trivial) hf hl).1
    refine rel_seq (rel_wlp (split_rel h hsplit.pd hsplit.pt) hsecond) ?_
    rintro ⟨r2, l2⟩ ⟨t2, m2⟩ ⟨_, _⟩ t' ⟨hsplit2, rfl, hr⟩
    cases hr
    obtain rfl : r2 = .splitSuccess := hsplit2.result
    obtain rfl : t2 = t' := hsplit2.tables
    refine findUnmapEntry_rel (hsplit2.found rfl) hsplit2.pd hsplit2.pt
      (fun _ => hsplit2.foundLarge rfl (by decide)) fun hn => ?_
    cases hl.symm.trans hn
  | largeExpected => exact hres.elim
  | splitError => exact hres.elim

theorem vmemMap_rel :
    Rel (vmemMap (slots B) l spc phys virt flags) (vmemMap (direct B) l' spc phys virt flags)
      (fun a s' b t' => a = b ∧ s' = ⟨t', m⟩) ⟨t, m⟩ t := by
  have hne : wlp (vmemMgmtSplit (direct B) spc virt
      (vmSplitAlloc ||| if isLarge flags then vmSplitLarge else 0) flags l')
      (fun r _ => r.1 ≠ .tableNotMapped) t := (ends_split_alloc (splitFlags_alloc flags)).1
  refine rel_seq (rel_wlp (split_rel h hpd hpt) hne) ?_
  rintro ⟨r, l1⟩ ⟨t1, m1⟩ ⟨r', l1'⟩ t' ⟨hsplit, hr⟩
  obtain rfl : r = r' := hsplit.result
  obtain rfl : t1 = t' := hsplit.tables
  cases r with
  | splitSuccess =>
    have hopen := hsplit.found rfl
    refine rel_seq (mapEntry_rel hopen fun hl => hsplit.foundPt rfl ?_) ?_
    · rw [hl]
      decide
    rintro ok _ _ _ ⟨rfl, rfl⟩
    refine rel_step unmapIf_rel fun _ _ => ?_
    refine rel_step unmapIf_rel fun _ _ => ?_
    refine rel_pure ⟨rfl, ?_⟩
    have h1 : Agree m (closeSlot m1 l1.pt) [l1.pd] := hopen.agree.closeSlot hsplit.pt (by simp)
    rw [(h1.closeSlot hsplit.pd (by simp)).eq]
  | tableNotMapped => exact absurd rfl hr
  | smallExpected | largeExpected | splitError =>
    obtain rfl : m1 = m := hsplit.failed (by simp)
    exact rel_pure ⟨rfl, rfl⟩

end

/-- The calls of `vmem_map`, `vmem_unmap` and `vmem_resolve`. -/
inductive Call
  | map (phys virt flags : ℕ)
  | unmap (virt : ℕ)
  | resolve (virt : ℕ)
  deriving DecidableEq, Repr

/-- A call for the address space `spc`; `l` are the local variables before they are set. -/
def Call.run {σ : Type} (A : Access σ) (l : Locals) (spc : ℕ) : Call → Prog σ ℕ
  | .map phys virt flags => do
    let ok ← vmemMap A l spc phys virt flags
    pure ok.toNat
  | .unmap virt => vmemUnmap A l spc virt
  | .resolve virt => vmemResolve A l spc virt

/-- The calls with slots do what the calls with direct access do. -/
theorem call_rel (c : Call) (h : Ready 4 m) (hpd : Spare m l.pd) (hpt : Spare m l.pt) :
    Rel (c.run (slots B) l spc) (c.run (direct B) l' spc) (fun a s' b t' => a = b ∧ s' = ⟨t', m⟩)
      ⟨t, m⟩ t := by
  cases c with
  | map phys virt flags =>
    refine rel_step (vmemMap_rel h hpd hpt) fun ok _ => ?_
    exact rel_pure ⟨rfl, rfl⟩
  | unmap virt => exact vmemFindUnmap_rel h hpd hpt
  | resolve virt => exact vmemFindUnmap_rel h hpd hpt

/-! ### Ways to halt -/

theorem ends_vmSetIfnPresent : ends (vmSetIfnPresent (direct B) p i phys flags) (fun _ _ => True)
    Stuck t := by
  refine ends_load (fun _ => .inr rfl) fun _ => ?_
  refine ends_ite (fun _ => ends_pure trivial) fun _ => ?_
  exact ends_store (fun _ => .inr rfl) fun _ => ends_pure trivial

theorem ends_vmResUnmap : ends (vmResUnmap (direct B) p i unmap) (fun _ _ => True) Stuck t := by
  refine ends_load (fun _ => .inr rfl) fun _ => ?_
  refine ends_ite (fun _ => ?_) fun _ => ends_pure trivial
  exact ends_store (fun _ => .inr rfl) fun _ => ends_pure trivial

theorem ends_findUnmapEntry :
    ends (findUnmapEntry (direct B) l unmap) (fun _ _ => True) Stuck t := by
  refine ends_load (fun _ => .inr rfl) fun _ => ?_
  refine ends_ite (fun _ => ?_) fun _ => ends_ite (fun _ => ?_) fun _ => ?_
  · exact ends_seq ends_vmResUnmap fun _ _ _ => ends_unmap (ends_pure trivial)
  · exact ends_seq ends_vmResUnmap fun _ _ _ => ends_unmap (ends_unmap (ends_pure trivial))
  · exact ends_unmap (ends_pure trivial)

theorem vmemFindUnmap_ends :
    ends (vmemFindUnmap (direct B) l spc virt unmap) (fun _ _ => True) Stuck t := by
  refine ends_seq (ends_firstSearch (fun _ => .inl (.inr (.inr rfl))) fun _ => .inr rfl) ?_
  rintro ⟨r, l1⟩ t' ⟨rfl, hres⟩
  cases r with
  | splitSuccess => exact ends_findUnmapEntry
  | tableNotMapped => exact ends_pure trivial
  | smallExpected =>
    obtain ⟨f, hf, hl⟩ := hres
    refine ends_seq
      (ends_secondSearch (fun _ => .inl (.inr (.inr rfl))) (fun _ => .inr rfl) hf hl) ?_
    rintro _ _ ⟨rfl, rfl⟩
    exact ends_findUnmapEntry
  | largeExpected => exact hres.elim
  | splitError => exact hres.elim

theorem vmemMap_ends :
    ends (vmemMap (direct B) l spc phys virt flags) (fun _ _ => True) Stuck t := by
  refine ends_seq (ends_split_alloc (splitFlags_alloc flags)) ?_
  rintro ⟨r, l1⟩ t' hr
  cases r with
  | splitSuccess =>
    have hentry : ends (mapEntry (direct B) l1 phys flags) (fun _ _ => True) Stuck t' := by
      exact ends_ite (fun _ => ends_vmSetIfnPresent) fun _ =>
        ends_ite (fun _ => ends_vmSetIfnPresent) fun _ => ends_pure trivial
    refine ends_seq hentry fun _ _ _ => ?_
    exact ends_unmapIf (ends_unmapIf (ends_pure trivial))
  | tableNotMapped => exact absurd rfl hr
  | smallExpected | largeExpected | splitError => exact ends_pure trivial

/-- With direct access a call halts only for want of frames, or outside of the tables. -/
theorem call_ends (c : Call) : ends (c.run (direct B) l spc) (fun _ _ => True) Stuck t := by
  cases c with
  | map phys virt flags => exact ends_seq vmemMap_ends fun _ _ _ => ends_pure trivial
  | unmap virt => exact vmemFindUnmap_ends
  | resolve virt => exact vmemFindUnmap_ends

/-! ### Balance -/

/-- The pointer is not the address of a slot in use. -/
def Unused (m : ℕ → ℕ) (p : Ptr) : Prop := ∀ j, slotOf p.addr = some j → isPresent (m j) = false

theorem Unused.spare (h : Unused m p) (hm : Emptied m) : Spare m p :=
  fun j hj => hm j (lt_of_slotOf hj) (h j hj)

theorem unused_empty : Unused (fun _ => 0) p := fun _ _ => (by decide : isPresent 0 = false)

/-- **The slots are balanced.**  A call returns with the slots as they were, or it gets no usable
frame for a new table.  It does not run out of slots, and it uses no pointer whose slot does not hold
its table.  What is assumed, besides four free slots: slots not in use are empty, and no entry that
the call reads or writes is itself a slot. -/
theorem call_balanced (B : Boot) (t : Tables) (m : ℕ → ℕ) (l : Locals) (spc : ℕ) (c : Call)
    (hm : Emptied m) (hfree : 4 ≤ (freeSlots m).card) (hpd : Unused m l.pd) (hpt : Unused m l.pt)
    (hslots : c.run (direct B) l spc t ≠ .error .undefined) :
    ends (c.run (slots B) l spc) (fun _ s => s.mapspace = m) Starved ⟨t, m⟩ := by
  have hrel : Rel (c.run (slots B) l spc) (c.run (direct B) l spc) _ ⟨t, m⟩ t :=
    call_rel c ⟨hm, hfree⟩ (hpd.spare hm) (hpt.spare hm)
  obtain ⟨hok, herr⟩ := hrel
  cases hrun : c.run (direct B) l spc t with
  | ok r =>
    obtain ⟨a, s', hs, -, rfl⟩ := hok r.1 r.2 hrun
    exact ends_ok hs rfl
  | error e =>
    have hne : e ≠ .undefined := fun h => hslots (h ▸ hrun)
    exact ends_error (herr e hrun hne) (((call_ends c).2 e hrun).resolve_right hne)

/-- The pointers of a caller before the search, when they happen to be zero. -/
def nullLocals : Locals := ⟨.null, .null, 0, 0⟩

/-- The first page behind those that the boot tables map. -/
theorem call_balanced_boot :
    ends ((Call.map 0x800000 0x400000 pgWritable).run (slots (bootFrames 0x101000)) nullLocals
      (x8664PgPml4 0x101000)) (fun _ s => s.mapspace = fun _ => 0) Starved
      (bootVm 0x101000 [0x700000]) :=
  call_balanced (bootFrames 0x101000) (bootVm 0x101000 [0x700000]).tables (fun _ => 0) nullLocals
    (x8664PgPml4 0x101000) (.map 0x800000 0x400000 pgWritable) (fun _ _ _ => rfl)
    (by decide) unused_empty unused_empty (ne_error_of_value (a := 1) (by decide +kernel))

/-- The last page of the address space is mapped by the last slot: a mapping for it takes the slot,
and the call returns successfully. -/
theorem call_moves_slot :
    let s := bootVm 0x101000 []
    let c := (Call.map 0x5000 0xFFFFFFFFFFFFF000 0).run (slots (bootFrames 0x101000)) nullLocals
      (x8664PgPml4 0x101000)
    Emptied s.mapspace ∧ 4 ≤ (freeSlots s.mapspace).card ∧ Unused s.mapspace nullLocals.pd ∧
      Unused s.mapspace nullLocals.pt ∧ ∃ s', c s = .ok (1, s') ∧ s'.mapspace 9 ≠ s.mapspace 9 := by
  exact ⟨fun _ _ _ => rfl, by decide, unused_empty, unused_empty, _,
    eq_ok_of_value (by decide +kernel), by decide +kernel⟩

end Tachyon.Vmem
