import Tachyon.Lib.Relate
import Tachyon.Vmem.Direct

/-!
# The walk through the slots

Each access through a slot does what the direct access to the table does, as long as the pointer is
in use.  Four free slots are enough for the walk of `vmem_mgmt_split`.

* `openSlot`, `closeSlot`: the slots after `vmem_mgmt_map` and `vmem_mgmt_unmap`;
* `Spare`: a pointer that is not the address of a used slot, as the uninitialised pointers of the
  callers have to be;
* `Agree m m' ps`: the slots `m'` differ from `m` only at the pointers `ps`, those still open;
* `split_rel`: `vmem_mgmt_split` with slots does what it does with direct access, and whatever exit
  it takes, the slots it leaves open are those of the pointers it hands to its caller.
-/

namespace Tachyon.Vmem

open Prog List Option

variable {B : Boot} {m m' : ℕ → ℕ} {t : Tables} {p q : Ptr} {k : ℕ}

/-! ### Slots -/

/-- What `vmem_mgmt_map` writes into a slot. -/
def slotEntry (phys : ℕ) : ℕ := phys ||| pgPresent ||| pgWritable ||| pgGlobal

/-- The slot of `p` holds the frame of `p`. -/
def openSlot (m : ℕ → ℕ) (p : Ptr) : ℕ → ℕ := fun j =>
  if slotOf p.addr = some j then slotEntry p.frame else m j

/-- The slot of `p` is empty. -/
def closeSlot (m : ℕ → ℕ) (p : Ptr) : ℕ → ℕ := fun j => if slotOf p.addr = some j then 0 else m j

/-- The pointer is not the address of a used slot. -/
def Spare (m : ℕ → ℕ) (p : Ptr) : Prop := ∀ j, slotOf p.addr = some j → m j = 0

/-- The slot of the pointer holds its frame. -/
def Maps (m : ℕ → ℕ) (p : Ptr) : Prop :=
  pageSize4K ∣ p.frame ∧ ∃ j, slotOf p.addr = some j ∧ m j = slotEntry p.frame

/-- The free slots. -/
def freeSlots (m : ℕ → ℕ) : Finset ℕ :=
  (Finset.range vmPsMapspaceSz).filter fun i => !isPresent (m i)

/-- A slot that is not used is empty, as `vmem_mgmt_unmap` leaves it. -/
def Emptied (m : ℕ → ℕ) : Prop := ∀ i < vmPsMapspaceSz, isPresent (m i) = false → m i = 0

variable {f i : ℕ} {ps ps' : List Ptr} {r : SplitRes}

theorem slotEntry_eq (h : pageSize4K ∣ f) : slotEntry f = f + 0x103 := by
  have h12 : 2 ^ 12 ∣ f := h
  rw [slotEntry, Nat.or_assoc, Nat.or_assoc]
  exact or_eq_add_of_dvd h12 (by decide)

theorem isPresent_slotEntry (h : pageSize4K ∣ f) : isPresent (slotEntry f) = true := by
  obtain ⟨k, rfl⟩ := h
  rw [slotEntry_eq (dvd_mul_right _ _), isPresent_eq, Nat.testBit_zero, pageSize4K, decide_eq_true_iff]
  omega

theorem entryAddr_slotEntry (h : pageSize4K ∣ f) : entryAddr (slotEntry f) = f := by
  rw [slotEntry_eq h, entryAddr_eq]
  rw [pageSize4K] at h
  omega

theorem slotOf_vmPsTaddr (h : i < vmPsMapspaceSz) : slotOf (vmPsTaddr i) = some i := by
  rw [vmPsMapspaceSz] at h
  interval_cases i <;> decide

theorem lt_of_slotOf {a j : ℕ} (h : slotOf a = some j) : j < vmPsMapspaceSz :=
  mem_range.1 (mem_of_find?_eq_some h)

theorem slotOf_zero : slotOf 0 = none := by decide

theorem spare_null : Spare m .null := fun j h => by
  rw [Ptr.null, slotOf_zero] at h
  cases h

theorem Maps.isMapped (h : Maps m p) (t : Tables) : p.isMapped ⟨t, m⟩ = true := by
  obtain ⟨hdvd, j, hj, hm⟩ := h
  rw [Ptr.isMapped, hj]
  simp only [hm, isPresent_slotEntry hdvd, entryAddr_slotEntry hdvd, Bool.true_and, beq_self_eq_true]

theorem Maps.not_spare (h : Maps m p) : ¬ Spare m p := fun hs => by
  obtain ⟨hdvd, j, hj, hm⟩ := h
  have := hs j hj
  rw [hm, slotEntry_eq hdvd] at this
  omega

/-- A slot that is free while `p` is in use is another one. -/
theorem Maps.slotOf_ne (h : Maps m p) (hq : Spare m q) : slotOf q.addr ≠ slotOf p.addr := by
  intro heq
  refine h.not_spare fun j hj => hq j (heq.trans hj)

/-- Opening another slot keeps the pointer valid. -/
theorem Maps.openSlot (h : Maps m p) (hq : Spare m q) : Maps (openSlot m q) p := by
  have hne := h.slotOf_ne hq
  obtain ⟨hdvd, j, hj, hm⟩ := h
  refine ⟨hdvd, j, hj, ?_⟩
  rw [Vmem.openSlot, if_neg (fun h => hne (h.trans hj.symm)), hm]

theorem maps_openSlot (hp : pageSize4K ∣ p.frame) (hs : ∃ j, slotOf p.addr = some j) :
    Maps (openSlot m p) p := by
  obtain ⟨j, hj⟩ := hs
  exact ⟨hp, j, hj, if_pos hj⟩

theorem closeSlot_openSlot (h : Spare m p) : closeSlot (openSlot m p) p = m := by
  funext j
  unfold closeSlot openSlot
  split_ifs with hj
  · exact (h j hj).symm
  · rfl

theorem Emptied.openSlot (h : Emptied m) (hp : pageSize4K ∣ p.frame) : Emptied (openSlot m p) := by
  intro i hi hpres
  unfold Vmem.openSlot at hpres ⊢
  split_ifs at hpres ⊢ with hj
  · rw [isPresent_slotEntry hp] at hpres
    cases hpres
  · exact h i hi hpres

theorem freeSlots_openSlot (hp : pageSize4K ∣ p.frame) (h : k + 1 ≤ (freeSlots m).card) :
    k ≤ (freeSlots (openSlot m p)).card := by
  rcases hs : slotOf p.addr with _ | j
  · have : freeSlots (openSlot m p) = freeSlots m := by
      unfold freeSlots openSlot
      simp [hs]
    rw [this]
    omega
  · have : freeSlots (openSlot m p) = (freeSlots m).erase j := by
      ext i
      simp only [freeSlots, openSlot, hs, Finset.mem_filter, Finset.mem_erase, some.injEq]
      by_cases hij : j = i
      · simp [hij, isPresent_slotEntry hp]
      · simp [hij, Ne.symm hij]
    rw [this]
    exact le_trans (by omega) Finset.pred_card_le_card_erase

/-! ### Single accesses -/

/-- The slots are as the caller expects them, with `k` free ones. -/
structure Ready (k : ℕ) (m : ℕ → ℕ) : Prop where
  emptied : Emptied m
  free : k ≤ (freeSlots m).card

theorem Ready.openSlot (h : Ready (k + 1) m) (hp : pageSize4K ∣ p.frame) :
    Ready k (openSlot m p) := ⟨h.emptied.openSlot hp, freeSlots_openSlot hp h.free⟩

theorem Ready.mono {k' : ℕ} (h : Ready k m) (hk : k' ≤ k) : Ready k' m := ⟨h.emptied, hk.trans h.free⟩

/-- `vmem_mgmt_map` finds a slot. -/
theorem map_rel (h : Ready (k + 1) m) :
    Rel ((slots B).map f) ((direct B).map f) (fun p s' q t' => p.frame = f ∧ q.frame = f ∧
      pageSize4K ∣ p.frame ∧ p.addr ≠ 0 ∧ q.addr ≠ 0 ∧ Spare m p ∧ Maps (openSlot m p) p ∧
      Ready k (openSlot m p) ∧ s' = ⟨t, openSlot m p⟩ ∧ t' = t) ⟨t, m⟩ t := by
  show Rel (vmemMgmtMap f) _ _ _ _
  by_cases ha : vmOffset f pageSize4K = 0
  · have hdvd := vmOffset_eq_zero.1 ha
    obtain ⟨i, hi⟩ := Finset.card_pos.1 (lt_of_lt_of_le (Nat.succ_pos k) h.free)
    rcases hfind : (range vmPsMapspaceSz).find? fun i => !isPresent (m i) with _ | j
    · rw [find?_eq_none] at hfind
      rw [freeSlots, Finset.mem_filter, Finset.mem_range] at hi
      exact absurd hi.2 (hfind i (mem_range.2 hi.1))
    have hj : j < vmPsMapspaceSz := mem_range.1 (mem_of_find?_eq_some hfind)
    have hfree : isPresent (m j) = false := by simpa using find?_some hfind
    have hslot := slotOf_vmPsTaddr hj
    have hrun : vmemMgmtMap f ⟨t, m⟩ = .ok (⟨vmPsTaddr j, f⟩, ⟨t, openSlot m ⟨vmPsTaddr j, f⟩⟩) := by
      unfold vmemMgmtMap
      rw [if_neg (by simp [ha]), hfind]
      simp only [Except.ok.injEq, Prod.mk.injEq, true_and, Vm.mk.injEq]
      funext i
      simp only [openSlot, hslot, some.injEq, slotEntry, eq_comm]
    refine rel_ok hrun (b := ⟨vmPsTaddr 0, f⟩) ?_ ⟨rfl, rfl, hdvd, vmPsTaddr_ne_zero j,
      vmPsTaddr_ne_zero 0, ?_, maps_openSlot hdvd ⟨j, hslot⟩, h.openSlot hdvd, rfl, rfl⟩
    · unfold direct
      simp only [ha, ne_eq, not_true_eq_false, if_false]
      rfl
    · intro i hi
      cases hslot.symm.trans hi
      exact h.emptied j hj hfree
  · have hne : vmOffset f pageSize4K ≠ 0 := ha
    refine ⟨fun b t' hb => ?_, fun e he _ => ?_⟩
    · unfold direct at hb
      simp only [if_pos hne] at hb
      cases hb
    · unfold direct at he
      simp only [if_pos hne] at he
      unfold vmemMgmtMap
      rw [if_pos hne]
      simpa using he

theorem closeSlot_of_none (h : slotOf p.addr = none) : closeSlot m p = m := by
  funext j
  simp [closeSlot, h]

theorem unmap_rel : Rel ((slots B).unmap p) ((direct B).unmap q)
    (fun a s' b t' => a = b ∧ s' = ⟨t', closeSlot m p⟩) ⟨t, m⟩ t := by
  refine rel_ok (a := ()) ?_ rfl ⟨rfl, rfl⟩
  show vmemMgmtUnmap p ⟨t, m⟩ = _
  unfold vmemMgmtUnmap
  rcases hs : slotOf p.addr with _ | i
  · rw [closeSlot_of_none hs]
    rfl
  · simp only [run_modify, Except.ok.injEq, Prod.mk.injEq, true_and, Vm.mk.injEq]
    funext j
    simp only [closeSlot, hs, some.injEq, eq_comm]

theorem unmapIf_rel : Rel (unmapIf (slots B) p) (unmapIf (direct B) q)
    (fun a s' b t' => a = b ∧ s' = ⟨t', closeSlot m p⟩) ⟨t, m⟩ t := by
  by_cases hp : p.addr = 0
  · refine rel_ok (a := ()) (u := ⟨t, m⟩) ?_ unmapIf_run ⟨rfl, ?_⟩
    · rw [unmapIf, if_neg (not_not.2 hp)]
      rfl
    · rw [closeSlot_of_none (hp ▸ slotOf_zero)]
  · obtain ⟨a, s', hrun, -, rfl⟩ := (unmap_rel (q := q)).1 () t rfl
    refine rel_ok (a := a) ?_ unmapIf_run ⟨rfl, rfl⟩
    rw [unmapIf, if_pos hp]
    exact hrun

section

variable (hp : Maps m p) (hq : q.frame = p.frame)
include hp hq

theorem load_rel :
    Rel ((slots B).load p i) ((direct B).load q i)
      (fun a s' b t' => a = b ∧ s' = ⟨t', m⟩) ⟨t, m⟩ t := by
  by_cases hslot : B.isSlot p.frame i
  · refine rel_undefined ?_
    unfold direct
    simp [hq, hslot]
  refine rel_ok (b := t.table p.frame i) (v := t) ?_ ?_ ⟨rfl, rfl⟩
  · unfold slots
    simp [hp.isMapped t, hslot]
  · unfold direct
    simp [hq, hslot]

theorem store_rel {e : ℕ} :
    Rel ((slots B).store p i e) ((direct B).store q i e)
      (fun a s' b t' => a = b ∧ s' = ⟨t', m⟩) ⟨t, m⟩ t := by
  by_cases hslot : B.isSlot p.frame i
  · refine rel_undefined ?_
    unfold direct
    simp [hq, hslot]
  refine rel_ok (b := ()) (v := t.set p.frame i e) ?_ ?_ ⟨rfl, rfl⟩
  · unfold slots
    simp [hp.isMapped t, hslot]
  · unfold direct
    simp [hq, hslot]

theorem memset_rel :
    Rel ((slots B).memset p) ((direct B).memset q)
      (fun a s' b t' => a = b ∧ s' = ⟨t', m⟩) ⟨t, m⟩ t := by
  by_cases hslot : p.frame = B.ptTemp
  · refine rel_undefined ?_
    unfold direct
    simp [hq, hslot]
  refine rel_ok (b := ()) (v := t.clear p.frame) ?_ ?_ ⟨rfl, rfl⟩
  · unfold slots
    simp [hp.isMapped t, hslot]
  · unfold direct
    simp [hq, hslot]

end

theorem pmemAlloc_rel : Rel (slots B).pmemAlloc (direct B).pmemAlloc
    (fun a s' b t' => a = b ∧ s' = ⟨t', m⟩) ⟨t, m⟩ t := by
  refine ⟨fun b t' hb => ⟨b, ⟨t', m⟩, ?_, rfl, rfl⟩, fun e he _ => ?_⟩
  · have htake : takeFrame t = .ok (b, t') := hb
    unfold slots
    simp [zoom, htake]
  · have htake : takeFrame t = .error e := he
    unfold slots
    simp [zoom, htake]

/-! ### The walk -/

theorem vmemMgmtAlloc_rel (h : Ready 1 m) :
    Rel (vmemMgmtAlloc (slots B)) (vmemMgmtAlloc (direct B))
      (fun a s' b t' => a = b ∧ s' = ⟨t', m⟩) ⟨t, m⟩ t := by
  refine rel_step pmemAlloc_rel fun phys t1 => ?_
  refine rel_ite (fun _ => rel_halt) fun _ => ?_
  refine rel_seq (map_rel h) ?_
  rintro p _ q _ ⟨hp, hq, -, -, -, hspare, hmaps, -, rfl, rfl⟩
  refine rel_step (memset_rel hmaps (hq.trans hp.symm)) fun _ t2 => ?_
  refine rel_step unmap_rel fun _ _ => ?_
  refine rel_pure ⟨rfl, ?_⟩
  rw [closeSlot_openSlot hspare]

theorem vmCheckEntry_rel {flags u : ℕ} (h : Ready 1 m) (hp : Maps m p) (hq : q.frame = p.frame) :
    Rel (vmCheckEntry (slots B) p i flags u) (vmCheckEntry (direct B) q i flags u)
      (fun a s' b t' => a = b ∧ s' = ⟨t', m⟩) ⟨t, m⟩ t := by
  refine rel_step (load_rel hp hq) fun e _ => ?_
  refine rel_ite (fun _ => ?_) fun _ => ?_
  · refine rel_ite (fun _ => ?_) fun _ => rel_pure ⟨rfl, rfl⟩
    refine rel_step (store_rel hp hq) fun _ _ => ?_
    exact rel_pure ⟨rfl, rfl⟩
  · refine rel_ite (fun _ => ?_) fun _ => rel_pure ⟨rfl, rfl⟩
    refine rel_step (vmemMgmtAlloc_rel h) fun phys _ => ?_
    refine rel_step (store_rel hp hq) fun _ _ => ?_
    refine rel_step (load_rel hp hq) fun e _ => ?_
    refine rel_step (store_rel hp hq) fun _ _ => ?_
    exact rel_pure ⟨rfl, rfl⟩

/-! ### Bookkeeping -/

/-- The slots `m'` differ from `m` at most at the pointers `ps`. -/
def Agree (m m' : ℕ → ℕ) (ps : List Ptr) : Prop :=
  ∀ j, (∀ p ∈ ps, slotOf p.addr ≠ some j) → m' j = m j

theorem Agree.refl (m : ℕ → ℕ) : Agree m m [] := fun _ _ => rfl

theorem Agree.eq (h : Agree m m' []) : m' = m := funext fun j => h j fun _ hp => by cases hp

theorem Agree.openSlot (h : Agree m m' ps) (p : Ptr) :
    Agree m (openSlot m' p) (p :: ps) := by
  intro j hj
  rw [Vmem.openSlot, if_neg (hj p mem_cons_self)]
  exact h j fun q hq => hj q (mem_cons_of_mem _ hq)

/-- A pointer that is closed need not be watched any more. -/
theorem Agree.closeSlot (h : Agree m m' ps) (hp : Spare m p)
    (hsub : ∀ q ∈ ps, q = p ∨ q ∈ ps') : Agree m (closeSlot m' p) ps' := by
  intro j hj
  unfold Vmem.closeSlot
  split_ifs with hpj
  · exact (hp j hpj).symm
  · refine h j fun q hq => ?_
    rcases hsub q hq with rfl | hq'
    · exact hpj
    · exact hj q hq'

theorem Maps.closeSlot (h : Maps m p) (hne : slotOf p.addr ≠ slotOf q.addr) :
    Maps (closeSlot m q) p := by
  obtain ⟨hdvd, j, hj, hm⟩ := h
  refine ⟨hdvd, j, hj, ?_⟩
  rw [Vmem.closeSlot, if_neg fun hq => hne (hj.trans hq.symm), hm]


theorem Agree.mono (h : Agree m m' ps) (hsub : ∀ q ∈ ps, q ∈ ps') :
    Agree m m' ps' := fun j hj => h j fun q hq => hj q (hsub q hq)

/-- A slot that is free now was free before the others were opened. -/
theorem Agree.spare (h : Agree m m' ps) (hps : ∀ p ∈ ps, Maps m' p)
    (hq : Spare m' q) : Spare m q := by
  intro j hj
  rw [← h j fun p hp hpj => (hps p hp).slotOf_ne hq (hj.trans hpj.symm)]
  exact hq j hj

/-! ### The search -/

variable {l l' : Locals} {p₄ p₃ q4 q3 : Ptr} {space virt flags pgflags : ℕ}

theorem splitExit_rel (h : Agree m m' [p₄, p₃, l.pd, l.pt]) (h4 : Spare m p₄)
    (h5 : Spare m p₃) (hpd : Spare m l.pd) (hpt : Spare m l.pt) :
    Rel (splitExit (slots B) r p₄ p₃ l) (splitExit (direct B) r q4 q3 l')
      (fun a s' b t' => a = (r, l) ∧ b = (r, l') ∧ s' = ⟨t', m⟩) ⟨t, m'⟩ t := by
  refine rel_step unmapIf_rel fun _ _ => ?_
  refine rel_step unmapIf_rel fun _ _ => ?_
  refine rel_step unmapIf_rel fun _ _ => ?_
  refine rel_step unmapIf_rel fun _ _ => ?_
  refine rel_pure ⟨rfl, rfl, ?_⟩
  have h1 : Agree m (closeSlot m' p₄) [p₃, l.pd, l.pt] := h.closeSlot h4 (by simp)
  have h2 : Agree m (closeSlot (closeSlot m' p₄) p₃) [l.pd, l.pt] := h1.closeSlot h5 (by simp)
  have h3 : Agree m (closeSlot (closeSlot (closeSlot m' p₄) p₃) l.pd) [l.pt] :=
    h2.closeSlot hpd (by simp)
  rw [(h3.closeSlot hpt (by simp)).eq]

theorem splitDone_rel : Rel (splitDone (slots B) virt p₄ p₃ l) (splitDone (direct B) virt q4 q3 l')
    (fun a s' b t' => a = (.splitSuccess, { l with ipd := idxPd virt }) ∧
      b = (.splitSuccess, { l' with ipd := idxPd virt }) ∧
      s' = ⟨t', closeSlot (closeSlot m p₄) p₃⟩) ⟨t, m⟩ t := by
  refine rel_step unmap_rel fun _ _ => ?_
  refine rel_step unmap_rel fun _ _ => ?_
  exact rel_pure ⟨rfl, rfl, rfl⟩

/-- The slots after a successful search: the page directory is open. -/
structure PdOpen (m m' : ℕ → ℕ) (l l' : Locals) : Prop where
  agree : Agree m m' [l.pd, l.pt]
  maps : Maps m' l.pd
  frame : l'.pd.frame = l.pd.frame
  ipd : l'.ipd = l.ipd

/-- After a successful search for a small page the page table is open, too. -/
structure PtOpen (m' : ℕ → ℕ) (l l' : Locals) : Prop where
  maps : Maps m' l.pt
  frame : l'.pt.frame = l.pt.frame
  addr : l.pt.addr ≠ 0
  addr' : l'.pt.addr ≠ 0
  ipt : l'.ipt = l.ipt

/-- The results of a search with slots and of one with direct access. -/
structure SplitRel (flags : ℕ) (m : ℕ → ℕ) (a : SplitRes × Locals) (s : Vm)
    (b : SplitRes × Locals) (t : Tables) : Prop where
  result : a.1 = b.1
  tables : s.tables = t
  pd : Spare m a.2.pd
  pt : Spare m a.2.pt
  failed : b.1 ≠ .splitSuccess → s.mapspace = m
  found : b.1 = .splitSuccess → PdOpen m s.mapspace a.2 b.2
  foundLarge : b.1 = .splitSuccess → flags &&& vmSplitLarge ≠ 0 → Agree m s.mapspace [a.2.pd]
  foundPt : b.1 = .splitSuccess → flags &&& vmSplitLarge = 0 → PtOpen s.mapspace a.2 b.2

theorem SplitRel.exit (hr : r ≠ .splitSuccess) (hpd : Spare m l.pd)
    (hpt : Spare m l.pt) : SplitRel flags m (r, l) ⟨t, m⟩ (r, l') t where
  result := rfl
  tables := rfl
  pd := hpd
  pt := hpt
  failed _ := rfl
  found h := absurd h hr
  foundLarge h := absurd h hr
  foundPt h := absurd h hr

/-- What is known when the page directory has been reached. -/
structure AtPd (m m' : ℕ → ℕ) (p₄ p₃ : Ptr) (l l' : Locals) : Prop where
  agree : Agree m m' [l.pd, p₃, p₄]
  maps₄ : Maps m' p₄
  maps₃ : Maps m' p₃
  maps : Maps m' l.pd
  ne₄ : slotOf l.pd.addr ≠ slotOf p₄.addr
  ne₃ : slotOf l.pd.addr ≠ slotOf p₃.addr
  spare₄ : Spare m p₄
  spare₃ : Spare m p₃
  pd : Spare m l.pd
  pt : Spare m l.pt
  frame : l'.pd.frame = l.pd.frame

section

variable (h : AtPd m m' p₄ p₃ l l')
include h

theorem AtPd.exit_rel (hr : r ≠ .splitSuccess) :
    Rel (splitExit (slots B) r p₄ p₃ l) (splitExit (direct B) r q4 q3 l') (SplitRel flags m)
      ⟨t, m'⟩ t := by
  refine rel_mono (splitExit_rel (h.agree.mono (by simp)) h.spare₄ h.spare₃ h.pd h.pt) ?_
  rintro _ _ _ _ ⟨rfl, rfl, rfl⟩
  exact .exit hr h.pd h.pt

/-- The pointers of the upper levels are closed, that of the page directory stays. -/
theorem AtPd.done_rel (hf : flags &&& vmSplitLarge ≠ 0) :
    Rel (splitDone (slots B) virt p₄ p₃ l) (splitDone (direct B) virt q4 q3 l')
      (SplitRel flags m) ⟨t, m'⟩ t := by
  refine rel_mono splitDone_rel ?_
  rintro _ _ _ _ ⟨rfl, rfl, rfl⟩
  have hagree4 : Agree m (closeSlot m' p₄) [l.pd, p₃] := h.agree.closeSlot h.spare₄ (by simp)
  have hagree : Agree m (closeSlot (closeSlot m' p₄) p₃) [l.pd] :=
    hagree4.closeSlot h.spare₃ (by simp)
  exact
    { result := rfl
      tables := rfl
      pd := h.pd
      pt := h.pt
      failed := absurd rfl
      found := fun _ =>
        { agree := hagree.mono (by simp)
          maps := (h.maps.closeSlot h.ne₄).closeSlot h.ne₃
          frame := h.frame
          ipd := rfl }
      foundLarge := fun _ _ => hagree
      foundPt := fun _ h0 => absurd h0 hf }

/-- The page table is opened before the pointers of the upper levels are closed. -/
theorem AtPd.done_pt_rel {pt pt' : Ptr} {ipt : ℕ} (hf : flags &&& vmSplitLarge = 0)
    (hspare : Spare m' pt) (hmaps : Maps (openSlot m' pt) pt) (hframe : pt'.frame = pt.frame)
    (hpt : pt.addr ≠ 0) (hpt' : pt'.addr ≠ 0) :
    Rel (splitDone (slots B) virt p₄ p₃ { l with pt := pt, ipt := ipt })
      (splitDone (direct B) virt q4 q3 { l' with pt := pt', ipt := ipt })
      (SplitRel flags m) ⟨t, openSlot m' pt⟩ t := by
  refine rel_mono splitDone_rel ?_
  rintro _ _ _ _ ⟨rfl, rfl, rfl⟩
  have hagree : Agree m (closeSlot (openSlot m' pt) p₄) [pt, l.pd, p₃] :=
    (h.agree.openSlot pt).closeSlot h.spare₄ (by simp)
  have hpd : Maps (openSlot m' pt) l.pd := h.maps.openSlot hspare
  have hpt4 := h.maps₄.slotOf_ne hspare
  have hpt3 := h.maps₃.slotOf_ne hspare
  have hin : Spare m pt := h.agree.spare (by simp [h.maps, h.maps₃, h.maps₄]) hspare
  exact
    { result := rfl
      tables := rfl
      pd := h.pd
      pt := hin
      failed := absurd rfl
      found := fun _ =>
        { agree := hagree.closeSlot h.spare₃ (by simp)
          maps := (hpd.closeSlot h.ne₄).closeSlot h.ne₃
          frame := h.frame
          ipd := rfl }
      foundLarge := fun _ hn => absurd hf hn
      foundPt := fun _ _ =>
        { maps := (hmaps.closeSlot hpt4).closeSlot hpt3
          frame := hframe
          addr := hpt
          addr' := hpt'
          ipt := rfl } }

theorem splitPd_rel (hready : Ready 1 m') :
    Rel (splitPd (slots B) virt flags pgflags p₄ p₃ l)
      (splitPd (direct B) virt flags pgflags q4 q3 l') (SplitRel flags m) ⟨t, m'⟩ t := by
  refine rel_step (load_rel h.maps h.frame) fun e _ => ?_
  refine rel_ite (fun hf => ?_) fun hf => ?_
  · exact rel_ite (fun _ => h.exit_rel (by simp)) fun _ => h.done_rel hf
  refine rel_ite (fun _ => h.exit_rel (by simp)) fun _ => ?_
  refine rel_step (vmCheckEntry_rel hready h.maps h.frame) fun ok _ => ?_
  refine rel_ite (fun _ => ?_) fun _ => h.exit_rel (by simp)
  refine rel_step (load_rel h.maps h.frame) fun e _ => ?_
  refine rel_seq (map_rel hready) ?_
  rintro pt _ pt' _ ⟨hp, hq, -, haddr, haddr', hspare, hmaps, -, rfl, rfl⟩
  exact h.done_pt_rel (not_not.1 hf) hspare hmaps (hq.trans hp.symm) haddr haddr'

end

/-- **A search through the slots is a search with direct access.** -/
theorem split_rel (h : Ready 4 m) (hpd : Spare m l.pd) (hpt : Spare m l.pt) :
    Rel (vmemMgmtSplit (slots B) space virt flags pgflags l)
      (vmemMgmtSplit (direct B) space virt flags pgflags l') (SplitRel flags m) ⟨t, m⟩ t := by
  refine rel_seq (map_rel h) ?_
  rintro p₄ _ q4 _ ⟨hp, hq, -, -, -, hspare4, hmaps4, hready1, rfl, rfl⟩
  have hframe4 := hq.trans hp.symm
  have hagree1 : Agree m (openSlot m p₄) [p₄] := (Agree.refl m).openSlot p₄
  refine rel_step (vmCheckEntry_rel (hready1.mono (by omega)) hmaps4 hframe4) fun ok _ => ?_
  refine rel_ite (fun _ => ?_) fun _ => ?_
  swap
  · refine rel_mono (splitExit_rel (hagree1.mono (by simp)) hspare4 spare_null hpd hpt) ?_
    rintro _ _ _ _ ⟨rfl, rfl, rfl⟩
    exact .exit (by simp) hpd hpt
  refine rel_step (load_rel hmaps4 hframe4) fun e4 _ => ?_
  refine rel_seq (map_rel hready1) ?_
  rintro p₃ _ q3 _ ⟨hp, hq, -, -, -, hspare3, hmaps3, hready2, rfl, rfl⟩
  have hframe3 := hq.trans hp.symm
  have hagree2 := hagree1.openSlot p₃
  have hmaps4' := hmaps4.openSlot hspare3
  have hin3 : Spare m p₃ := hagree1.spare (by simp [hmaps4]) hspare3
  refine rel_step (vmCheckEntry_rel (hready2.mono (by omega)) hmaps3 hframe3) fun ok _ => ?_
  refine rel_ite (fun _ => ?_) fun _ => ?_
  swap
  · refine rel_mono (splitExit_rel (hagree2.mono (by simp)) hspare4 hin3 hpd hpt) ?_
    rintro _ _ _ _ ⟨rfl, rfl, rfl⟩
    exact .exit (by simp) hpd hpt
  refine rel_step (load_rel hmaps3 hframe3) fun e3 _ => ?_
  refine rel_seq (map_rel hready2) ?_
  rintro pd _ pd' _ ⟨hp, hq, -, -, -, hspare, hmaps, hready3, rfl, rfl⟩
  exact splitPd_rel
    { agree := hagree2.openSlot pd
      maps₄ := hmaps4'.openSlot hspare
      maps₃ := hmaps3.openSlot hspare
      maps := hmaps
      ne₄ := hmaps4'.slotOf_ne hspare
      ne₃ := hmaps3.slotOf_ne hspare
      spare₄ := hspare4
      spare₃ := hin3
      pd := hagree2.spare (by simp [hmaps3, hmaps4']) hspare
      pt := hpt
      frame := hq.trans hp.symm } hready3

end Tachyon.Vmem
