import Tachyon.Vmem.Model

/-!
# Direct access to the tables

The rules of the single accesses of `direct`, and what the walk of `vmem_mgmt_split` finds when it
does not allocate.

* `pdAt`: the page directory on the way to an address, if there is one;
* `ends_vmemMgmtAlloc`, `ends_check_alloc`: a missing table is made from the next frame;
* `ends_split_read`: a search without `VM_SPLIT_ALLOC` changes nothing, and its result is read off the
  entries on the way.
-/

namespace Tachyon.Vmem

open Prog

variable {B : Boot} {t : Tables} {p : Ptr} {E : Halt → Prop} {i : ℕ}

/-! ### Entries -/

theorem isPresent_eq (e : ℕ) : isPresent e = e.testBit 0 := by
  rw [isPresent, Bool.eq_iff_iff, bne_iff_ne]
  exact and_two_pow_ne_zero

theorem isLarge_eq (e : ℕ) : isLarge e = e.testBit 7 := by
  rw [isLarge, Bool.eq_iff_iff, bne_iff_ne]
  exact and_two_pow_ne_zero

theorem isPresent_or (a b : ℕ) : isPresent (a ||| b) = (isPresent a || isPresent b) := by
  rw [isPresent_eq, isPresent_eq, isPresent_eq, Nat.testBit_or]

theorem isLarge_or (a b : ℕ) : isLarge (a ||| b) = (isLarge a || isLarge b) := by
  rw [isLarge_eq, isLarge_eq, isLarge_eq, Nat.testBit_or]

theorem entryAddr_eq (e : ℕ) : entryAddr e = e - e % 4096 := andNot_two_pow_sub_one e 12

theorem dvd_entryAddr (e : ℕ) : pageSize4K ∣ entryAddr e := by
  rw [entryAddr_eq, pageSize4K]
  omega

theorem entryAddr_of_dvd {f : ℕ} (h : pageSize4K ∣ f) : entryAddr f = f := by
  rw [pageSize4K] at h
  rw [entryAddr_eq]
  omega

/-- Flags are no part of the address. -/
theorem entryAddr_or {u : ℕ} (e : ℕ) (hu : u < 2 ^ 12) : entryAddr (e ||| u) = entryAddr e := by
  have hdiv : (e ||| u) / 2 ^ 12 = e / 2 ^ 12 := by
    rw [← Nat.shiftRight_eq_div_pow, Nat.shiftRight_or_distrib, Nat.shiftRight_eq_div_pow,
      Nat.shiftRight_eq_div_pow, Nat.div_eq_of_lt hu, Nat.or_zero]
  rw [entryAddr_eq, entryAddr_eq]
  omega

/-- The address of a page has no flags. -/
theorem testBit_of_dvd {f : ℕ} (h : pageSize4K ∣ f) (hi : i < 12) : f.testBit i = false := by
  obtain ⟨k, rfl⟩ := h
  rw [show pageSize4K = 2 ^ 12 from rfl, Nat.testBit_two_pow_mul, decide_eq_false (by omega),
    Bool.false_and]

theorem isLarge_of_dvd {f : ℕ} (h : pageSize4K ∣ f) : isLarge f = false :=
  (isLarge_eq f).trans (testBit_of_dvd h (by decide))

theorem vmOffset_eq_zero {a : ℕ} : vmOffset a pageSize4K = 0 ↔ pageSize4K ∣ a := by
  have : vmOffset a pageSize4K = a % 2 ^ 12 := Nat.and_two_pow_sub_one_eq_mod a 12
  rw [this, pageSize4K]
  exact Nat.dvd_iff_mod_eq_zero.symm

theorem vmPsTaddr_ne_zero (i : ℕ) : vmPsTaddr i ≠ 0 := by
  unfold vmPsTaddr vmPsMapspaceSz pageSize4K
  omega

/-! ### Single accesses -/

variable {α : Type} {Q : α → Tables → Prop} {f : Unit → Prog Tables α}

theorem ends_map {Q : Ptr → Tables → Prop} {f : ℕ}
    (hE : ¬ pageSize4K ∣ f → E (.fatal "misaligned physical address for paging structure.\n"))
    (h : pageSize4K ∣ f → Q ⟨vmPsTaddr 0, f⟩ t) : ends ((direct B).map f) Q E t := by
  by_cases hf : pageSize4K ∣ f
  · refine ends_ok ?_ (h hf)
    unfold direct
    simp only [vmOffset_eq_zero.2 hf, ne_eq, not_true_eq_false, if_false]
    rfl
  · have hne : vmOffset f pageSize4K ≠ 0 := fun h => hf (vmOffset_eq_zero.1 h)
    refine ends_error ?_ (hE hf)
    unfold direct
    simp only [if_pos hne]
    rfl

/-- The address in an entry is aligned. -/
theorem ends_map_entryAddr {e : ℕ} {f : Ptr → Prog Tables α}
    (h : ends (f ⟨vmPsTaddr 0, entryAddr e⟩) Q E t) :
    ends ((direct B).map (entryAddr e) >>= f) Q E t :=
  ends_bind (ends_map (fun hn => absurd (dvd_entryAddr e) hn) fun _ => h)

theorem ends_unmap (h : ends (f ()) Q E t) : ends ((direct B).unmap p >>= f) Q E t :=
  ends_step rfl h

theorem unmapIf_run : unmapIf (direct B) p t = .ok ((), t) := by
  unfold unmapIf
  split_ifs <;> rfl

theorem ends_unmapIf (h : ends (f ()) Q E t) : ends (unmapIf (direct B) p >>= f) Q E t :=
  ends_step unmapIf_run h

theorem load_run (hs : ¬ B.isSlot p.frame i) :
    (direct B).load p i t = .ok (t.table p.frame i, t) := by
  simp [direct, hs]

theorem ends_load {f : ℕ → Prog Tables α} (hE : B.isSlot p.frame i → E .undefined)
    (h : ¬ B.isSlot p.frame i → ends (f (t.table p.frame i)) Q E t) :
    ends ((direct B).load p i >>= f) Q E t := by
  by_cases hs : B.isSlot p.frame i
  · refine ends_bind (ends_error ?_ (hE hs))
    simp [direct, hs]
  · exact ends_step (load_run hs) (h hs)

theorem ends_store {e : ℕ} (hE : B.isSlot p.frame i → E .undefined)
    (h : ¬ B.isSlot p.frame i → ends (f ()) Q E (t.set p.frame i e)) :
    ends ((direct B).store p i e >>= f) Q E t := by
  apply ends_bind
  unfold direct
  by_cases hs : B.isSlot p.frame i
  · refine ends_error ?_ (hE hs)
    simp [hs]
  · refine ends_ok ?_ (h hs)
    simp [hs]

theorem ends_memset {Q : Unit → Tables → Prop} (hs : p.frame ≠ B.ptTemp)
    (h : Q () (t.clear p.frame)) : ends ((direct B).memset p) Q E t := by
  refine ends_ok ?_ h
  unfold direct
  simp [hs]

theorem Tables.set_set (f i a b : ℕ) : (t.set f i a).set f i b = t.set f i b := by
  unfold Tables.set
  congr 1
  funext g j
  dsimp only
  split_ifs <;> rfl

theorem Tables.table_set_self (f i a : ℕ) : (t.set f i a).table f i = a := if_pos ⟨rfl, rfl⟩

/-! ### New tables -/

theorem ends_vmemMgmtAlloc {Q : ℕ → Tables → Prop}
    (hnone : t.pmem = [] → E (.fatal "out of physical memory\n"))
    (hzero : ∀ pmem, t.pmem = 0 :: pmem → E (.fatal "out of physical memory for vmem_mgmt\n"))
    (halign : ∀ f pmem, t.pmem = f :: pmem → ¬ pageSize4K ∣ f →
      E (.fatal "misaligned physical address for paging structure.\n"))
    (hslot : ∀ pmem, t.pmem = B.ptTemp :: pmem → E .undefined)
    (h : ∀ f pmem, t.pmem = f :: pmem → f ≠ 0 → pageSize4K ∣ f → f ≠ B.ptTemp →
      Q f (Tables.clear { t with pmem := pmem } f)) :
    ends (vmemMgmtAlloc (direct B)) Q E t := by
  unfold vmemMgmtAlloc
  rcases hp : t.pmem with _ | ⟨f, pmem⟩
  · have hrun : (direct B).pmemAlloc t = .error (.fatal "out of physical memory\n") := by
      show takeFrame t = _
      rw [takeFrame, hp]
    refine ⟨fun a t' ha => ?_, fun e he => ?_⟩
    · rw [run_error hrun] at ha
      cases ha
    · rw [run_error hrun] at he
      cases he
      exact hnone hp
  · have hrun : (direct B).pmemAlloc t = .ok (f, { t with pmem := pmem }) := by
      show takeFrame t = _
      rw [takeFrame, hp]
    refine ends_step hrun ?_
    refine ends_ite (fun h0 => ends_halt (hzero pmem (h0 ▸ hp))) fun h0 => ?_
    refine ends_bind (ends_map (halign f pmem hp) fun hdvd => ends_bind ?_)
    by_cases hs : f = B.ptTemp
    · refine ends_error ?_ (hslot pmem (hs ▸ hp))
      unfold direct
      simp [hs]
    · exact ends_memset hs (ends_unmap (ends_pure (h f pmem hp h0 hdvd hs)))

/-! ### The way to an address -/

/-- The page directory on the way to an address. -/
def pdAt (t : Tables) (space virt : ℕ) : Option ℕ :=
  let e₄ := t.table space (idxPml4 virt)
  let e₃ := t.table (entryAddr e₄) (idxPdpt virt)
  if isPresent e₄ ∧ isPresent e₃ then some (entryAddr e₃) else none

/-- No entry on the way to an address is a slot. -/
def Avoids (B : Boot) (t : Tables) (space virt : ℕ) : Prop :=
  let e₄ := t.table space (idxPml4 virt)
  let e₃ := t.table (entryAddr e₄) (idxPdpt virt)
  let e₂ := t.table (entryAddr e₃) (idxPd virt)
  ¬ B.isSlot space (idxPml4 virt) ∧
    (isPresent e₄ → ¬ B.isSlot (entryAddr e₄) (idxPdpt virt) ∧
      (isPresent e₃ → ¬ B.isSlot (entryAddr e₃) (idxPd virt) ∧
        (isPresent e₂ → isLarge e₂ = false → ¬ B.isSlot (entryAddr e₂) (idxPt virt))))

variable {space virt flags u i : ℕ} {l : Locals}

theorem ends_splitExit {Q : SplitRes × Locals → Tables → Prop} {r : SplitRes} {pml4 pdpt : Ptr}
    (h : Q (r, l) t) : ends (splitExit (direct B) r pml4 pdpt l) Q E t :=
  ends_unmapIf (ends_unmapIf (ends_unmapIf (ends_unmapIf (ends_pure h))))

theorem ends_splitDone {Q : SplitRes × Locals → Tables → Prop} {pml4 pdpt : Ptr}
    (h : Q (.splitSuccess, { l with ipd := idxPd virt }) t) :
    ends (splitDone (direct B) virt pml4 pdpt l) Q E t :=
  ends_unmap (ends_unmap (ends_pure h))

/-- Without `VM_SPLIT_ALLOC` an entry is only looked at. -/
theorem ends_check_read {Q : Bool → Tables → Prop} (hf : flags &&& vmSplitAlloc = 0)
    (hE : B.isSlot p.frame i → E .undefined)
    (h : ¬ B.isSlot p.frame i → Q (isPresent (t.table p.frame i)) t) :
    ends (vmCheckEntry (direct B) p i flags u) Q E t := by
  unfold vmCheckEntry
  refine ends_load hE fun hs => ?_
  simp only [hf, ne_eq, not_true_eq_false, if_false]
  refine ends_ite (fun hp => ends_pure ?_) fun hp => ends_pure ?_
  · rw [← hp]
    exact h hs
  · have hp' : isPresent (t.table p.frame i) = false := by simpa using hp
    rw [← hp']
    exact h hs

/-- With `VM_SPLIT_ALLOC` a missing table is made, and the flags are added to the entry. -/
theorem ends_check_alloc {Q : Bool → Tables → Prop} (hf : flags &&& vmSplitAlloc ≠ 0)
    (hE : B.isSlot p.frame i → E .undefined)
    (hold : ¬ B.isSlot p.frame i → isPresent (t.table p.frame i) →
      Q true (t.set p.frame i (t.table p.frame i ||| u)))
    (hnew : ¬ B.isSlot p.frame i → isPresent (t.table p.frame i) = false →
      ends (vmemMgmtAlloc (direct B)) (fun f t' =>
        Q true (t'.set p.frame i (f ||| pgPresent ||| pgWritable ||| u))) E t) :
    ends (vmCheckEntry (direct B) p i flags u) Q E t := by
  unfold vmCheckEntry
  refine ends_load hE fun hs => ?_
  refine ends_ite (fun hp => ?_) fun hp => ?_
  · rw [if_pos hf]
    exact ends_store hE fun _ => ends_pure (hold hs hp)
  rw [if_pos hf]
  refine ends_seq (hnew hs (by simpa using hp)) fun f t' hQ => ?_
  refine ends_store hE fun _ => ends_load hE fun _ => ?_
  refine ends_store hE fun _ => ends_pure ?_
  rw [Tables.table_set_self, Tables.set_set]
  exact hQ

section Search

variable {Q : SplitRes × Locals → Tables → Prop}
  (hspace : ¬ pageSize4K ∣ space → E (.fatal "misaligned physical address for paging structure.\n"))
  (hE : ¬ Avoids B t space virt → E .undefined)
  (hnone : pdAt t space virt = none → Q (.tableNotMapped, l) t)

include hspace hE hnone

/-- The way down to the page directory. -/
theorem ends_split_read (hf : flags &&& vmSplitAlloc = 0)
    (hsome : ∀ f pml4 pdpt, pdAt t space virt = some f →
      (B.isSlot f (idxPd virt) → E .undefined) → ends
      (splitPd (direct B) virt flags u pml4 pdpt { l with pd := ⟨vmPsTaddr 0, f⟩ }) Q E t) :
    ends (vmemMgmtSplit (direct B) space virt flags u l) Q E t := by
  unfold vmemMgmtSplit
  refine ends_bind (ends_map hspace fun _ => ?_)
  have hE4 : B.isSlot space (idxPml4 virt) → E .undefined := fun hs => hE fun ha => ha.1 hs
  refine ends_bind (ends_check_read hf hE4 fun _ => ?_)
  refine ends_ite (fun h4 => ?_) fun h4 => ends_splitExit (hnone (if_neg fun h => h4 h.1))
  refine ends_load hE4 fun _ => ends_map_entryAddr ?_
  have hE3 : B.isSlot (entryAddr (t.table space (idxPml4 virt))) (idxPdpt virt) → E .undefined :=
    fun hs => hE fun ha => (ha.2 h4).1 hs
  refine ends_bind (ends_check_read hf hE3 fun _ => ?_)
  refine ends_ite (fun h3 => ?_) fun h3 => ends_splitExit (hnone (if_neg fun h => h3 h.2))
  refine ends_load hE3 fun _ => ends_map_entryAddr ?_
  exact hsome _ _ _ (if_pos ⟨h4, h3⟩) fun hs => hE fun ha => ((ha.2 h4).2 h3).1 hs

/-- The search for a large page. -/
theorem split_read_large
    (htable : ∀ f q, pdAt t space virt = some f → isPresent (t.table f (idxPd virt)) →
      isLarge (t.table f (idxPd virt)) = false → Q (.largeExpected, { l with pd := q }) t)
    (hpage : ∀ f, pdAt t space virt = some f →
      (isPresent (t.table f (idxPd virt)) → isLarge (t.table f (idxPd virt)) = true) →
      Q (.splitSuccess, { l with pd := ⟨vmPsTaddr 0, f⟩, ipd := idxPd virt }) t) :
    ends (vmemMgmtSplit (direct B) space virt vmSplitLarge u l) Q E t := by
  refine ends_split_read hspace hE hnone (by decide) fun f pml4 pdpt hf hE2 => ?_
  unfold splitPd
  refine ends_load hE2 fun _ => ?_
  rw [if_pos (by decide)]
  refine ends_ite (fun h => ends_splitExit ?_) fun h => ends_splitDone ?_
  · simp only [Bool.and_eq_true, Bool.not_eq_true'] at h
    exact htable f _ hf h.1 h.2
  · refine hpage f hf fun hp => ?_
    simpa [hp] using h

/-- The search for a small page. -/
theorem split_read_small
    (hempty : ∀ f q, pdAt t space virt = some f → isPresent (t.table f (idxPd virt)) = false →
      Q (.tableNotMapped, { l with pd := q }) t)
    (hlarge : ∀ f q, pdAt t space virt = some f → isPresent (t.table f (idxPd virt)) →
      isLarge (t.table f (idxPd virt)) → Q (.smallExpected, { l with pd := q }) t)
    (htable : ∀ f, pdAt t space virt = some f → isPresent (t.table f (idxPd virt)) →
      isLarge (t.table f (idxPd virt)) = false → Q (.splitSuccess,
        ⟨⟨vmPsTaddr 0, f⟩, ⟨vmPsTaddr 0, entryAddr (t.table f (idxPd virt))⟩, idxPd virt,
          idxPt virt⟩) t) :
    ends (vmemMgmtSplit (direct B) space virt 0 u l) Q E t := by
  refine ends_split_read hspace hE hnone (by decide) fun f pml4 pdpt hf hE2 => ?_
  unfold splitPd
  refine ends_load hE2 fun _ => ?_
  rw [if_neg (by decide)]
  refine ends_ite (fun h => ends_splitExit ?_) fun h => ?_
  · rw [Bool.and_eq_true] at h
    exact hlarge f _ hf h.1 h.2
  · refine ends_bind (ends_check_read (by decide) hE2 fun _ => ?_)
    refine ends_ite (fun hp => ?_) fun hp => ends_splitExit (hempty f _ hf (by simpa using hp))
    refine ends_load hE2 fun _ => ends_map_entryAddr (ends_splitDone ?_)
    refine htable f hf hp ?_
    simpa [hp] using h

end Search

end Tachyon.Vmem
