import Tachyon.Vmem.Balanced

/-!
# The walk of the processor

The address translation of x86-64 with four levels of tables, and what `vmem_map` with `PG_LARGE`
means for it.

* `hwWalk`: the translation;
* `Barred`: an entry of the PML4 through which the processor does not go: it is not present, or bit 7
  is set, which is reserved there;
* `map_large_walk`: `vmem_mgmt_split` adds the flags of the page to the entries on the way, so that a
  call with `PG_LARGE` bars the whole 512 GB of the PML4 entry.
-/

namespace Tachyon.Vmem

open Prog

/-! ### Translation -/

/-- What the processor finds for an address. -/
structure Translation where
  phys : ℕ
  user : Bool
  writable : Bool
  deriving DecidableEq, Repr

def isUser (e : ℕ) : Bool := e &&& pgUser != 0

def isWritable (e : ℕ) : Bool := e &&& pgWritable != 0

/-- The physical address in an entry, bits 12 to 51. -/
def hwAddr (e : ℕ) : ℕ := e / 2 ^ 12 % 2 ^ 40 * 2 ^ 12

/-- The rights are granted by all entries on the way. -/
def translation (phys : ℕ) (es : List ℕ) : Translation :=
  ⟨phys, es.all isUser, es.all isWritable⟩

/-- The base of a page of size `2 ^ k`. -/
def pageBase (k e : ℕ) : ℕ := hwAddr e - hwAddr e % 2 ^ k

/-- The walk from the PML4 in the frame `cr3`.  Bit 7 of an entry is reserved in the PML4; in the
PDPT it means a page of 1 GB, and in the page directory one of 2 MB. -/
def hwWalk (table : ℕ → ℕ → ℕ) (cr3 virt : ℕ) : Option Translation :=
  let e₄ := table cr3 (idxPml4 virt)
  let e₃ := table (hwAddr e₄) (idxPdpt virt)
  let e₂ := table (hwAddr e₃) (idxPd virt)
  let e₁ := table (hwAddr e₂) (idxPt virt)
  if !isPresent e₄ || isLarge e₄ then none
  else if !isPresent e₃ then none
  else if isLarge e₃ then some (translation (pageBase 30 e₃ + virt % 2 ^ 30) [e₄, e₃])
  else if !isPresent e₂ then none
  else if isLarge e₂ then some (translation (pageBase 21 e₂ + virt % 2 ^ 21) [e₄, e₃, e₂])
  else if !isPresent e₁ then none
  else some (translation (hwAddr e₁ + virt % 2 ^ 12) [e₄, e₃, e₂, e₁])

/-! ### Barred entries -/

/-- The processor does not go through the entry of the PML4. -/
def Barred (f i : ℕ) (t : Tables) : Prop :=
  isPresent (t.table f i) = false ∨ isLarge (t.table f i) = true

variable {B : Boot} {s : Vm} {p : Ptr} {f i j e spc virt phys flags u : ℕ} {l : Locals}

variable {t : Tables} {g : ℕ} {p4 p3 : Ptr}

theorem hwWalk_barred (h : Barred spc (idxPml4 virt) t) :
    hwWalk t.table spc virt = none := by
  refine if_pos ?_
  rcases h with h | h
  · rw [h]
    rfl
  · rw [h, Bool.or_true]

/-- An entry with bit 7 bars, and no other entry is touched. -/
theorem Barred.set (he : isLarge e = true)
    (h : Barred f i t ∨ (g = f ∧ j = i)) : Barred f i (t.set g j e) := by
  unfold Barred Tables.set
  by_cases heq : f = g ∧ i = j
  · simp only [heq, and_self, if_true]
    exact .inr he
  · simp only [heq, if_false]
    exact h.resolve_right fun h => heq ⟨h.1.symm, h.2.symm⟩

/-- An empty table bars. -/
theorem Barred.clear (h : Barred f i t) : Barred f i (t.clear g) := by
  unfold Barred Tables.clear
  by_cases heq : f = g
  · simp only [heq, if_true]
    exact .inl (by decide)
  · simp only [heq, if_false]
    exact h

/-! ### Accesses through the slots -/

theorem wlp_slots_map : wlp ((slots B).map f) (fun p s' => p.frame = f ∧ s'.tables = s.tables) s := by
  intro p s' hrun
  have hmap : vmemMgmtMap f s = .ok (p, s') := hrun
  unfold vmemMgmtMap at hmap
  split_ifs at hmap
  split at hmap
  · cases hmap
    exact ⟨rfl, rfl⟩
  · cases hmap

theorem wlp_slots_unmap : wlp ((slots B).unmap p) (fun _ s' => s'.tables = s.tables) s := by
  intro _ s' hrun
  have hunmap : vmemMgmtUnmap p s = .ok ((), s') := hrun
  unfold vmemMgmtUnmap at hunmap
  cases hs : slotOf p.addr with
  | none =>
    rw [hs] at hunmap
    cases hunmap
    rfl
  | some i =>
    rw [hs] at hunmap
    cases hunmap
    rfl

theorem wlp_slots_unmapIf : wlp (unmapIf (slots B) p) (fun _ s' => s'.tables = s.tables) s :=
  wlp_ite (fun _ => wlp_slots_unmap) fun _ => wlp_pure rfl

theorem wlp_slots_splitExit {r : SplitRes} :
    wlp (splitExit (slots B) r p4 p3 l) (fun _ s' => s'.tables = s.tables) s := by
  refine wlp_seq wlp_slots_unmapIf fun _ s1 h1 => ?_
  refine wlp_seq wlp_slots_unmapIf fun _ s2 h2 => ?_
  refine wlp_seq wlp_slots_unmapIf fun _ s3 h3 => ?_
  refine wlp_seq wlp_slots_unmapIf fun _ s4 h4 => wlp_pure ?_
  rw [h4, h3, h2, h1]

theorem wlp_slots_splitDone :
    wlp (splitDone (slots B) virt p4 p3 l) (fun _ s' => s'.tables = s.tables) s := by
  refine wlp_seq wlp_slots_unmap fun _ s1 h1 => ?_
  refine wlp_seq wlp_slots_unmap fun _ s2 h2 => wlp_pure ?_
  rw [h2, h1]

theorem wlp_slots_load {α : Type} {Q : α → Vm → Prop} {f : ℕ → Prog Vm α}
    (h : ∀ e, wlp (f e) Q s) : wlp ((slots B).load p i >>= f) Q s := by
  refine wlp_bind fun e s' hrun => ?_
  unfold slots at hrun
  dsimp only at hrun
  split_ifs at hrun <;> · cases hrun; exact h _

/-- What a store does to the tables: nothing if the entry is a slot. -/
theorem wlp_slots_store : wlp ((slots B).store p i e) (fun _ s' =>
    (B.isSlot p.frame i ∧ s'.tables = s.tables) ∨ s'.tables = s.tables.set p.frame i e) s := by
  intro _ s' hrun
  unfold slots at hrun
  dsimp only at hrun
  split_ifs at hrun with hmapped hslot
  · cases hrun
    exact .inl ⟨hslot, rfl⟩
  · cases hrun
    exact .inr rfl

theorem wlp_slots_alloc (h : Barred f i s.tables) :
    wlp (vmemMgmtAlloc (slots B)) (fun _ s' => Barred f i s'.tables) s := by
  refine wlp_bind (wlp_zoom fun phys t ht => ?_)
  have htable : t.table = s.tables.table := by
    unfold takeFrame at ht
    split at ht
    · cases ht
    · cases ht
      rfl
  have h1 : Barred f i t := by
    unfold Barred
    rw [htable]
    exact h
  refine wlp_ite (fun _ => wlp_halt) fun _ => ?_
  refine wlp_seq wlp_slots_map ?_
  rintro mapped s1 ⟨-, hs1⟩
  refine wlp_bind fun _ s2 hrun => wlp_seq wlp_slots_unmap fun _ s3 hs3 => wlp_pure ?_
  unfold slots at hrun
  dsimp only at hrun
  split_ifs at hrun <;> · cases hrun; rw [hs3, hs1]; exact h1.clear

/-! ### A large page bars its way -/

section Large

variable (hslot : ¬ B.isSlot f i) (hu : isLarge u = true)

include hslot

/-- A store with bit 7 bars the entry, or keeps it barred. -/
theorem wlp_store_large (he : isLarge e = true) (h : Barred f i s.tables ∨ (p.frame = f ∧ j = i)) :
    wlp ((slots B).store p j e) (fun _ s' => Barred f i s'.tables) s := by
  refine wlp_mono wlp_slots_store fun _ s' hs' => ?_
  rcases hs' with ⟨hs, htables⟩ | htables
  · rw [htables]
    refine h.resolve_right ?_
    rintro ⟨rfl, rfl⟩
    exact hslot hs
  · rw [htables]
    exact Barred.set he h

include hu

theorem wlp_check_large (hf : flags &&& vmSplitAlloc ≠ 0)
    (h : Barred f i s.tables ∨ (p.frame = f ∧ j = i)) :
    wlp (vmCheckEntry (slots B) p j flags u) (fun _ s' => Barred f i s'.tables) s := by
  have hor : ∀ a, isLarge (a ||| u) = true := fun a => by rw [isLarge_or, hu, Bool.or_true]
  refine wlp_bind fun e0 s0 hload => ?_
  obtain ⟨rfl, hread⟩ : s0 = s ∧ (¬ B.isSlot p.frame j → e0 = s.tables.table p.frame j) := by
    unfold slots at hload
    dsimp only at hload
    split_ifs at hload with hmapped hs
    · cases hload
      exact ⟨rfl, fun hn => absurd hs hn⟩
    · cases hload
      exact ⟨rfl, fun _ => rfl⟩
  refine wlp_ite (fun _ => ?_) fun hpres => ?_
  · rw [if_pos hf]
    exact wlp_seq (wlp_store_large hslot (hor e0) h) fun _ _ h => wlp_pure h
  rw [if_pos hf]
  -- Behind the new entry there is one more store, which adds the flags to it.
  have hbar : Barred f i s0.tables := by
    rcases h with h | ⟨rfl, rfl⟩
    · exact h
    · exact .inl (by rw [← hread hslot]; simpa using hpres)
  refine wlp_seq (wlp_slots_alloc hbar) fun a s1 h1 => ?_
  refine wlp_seq wlp_slots_store fun _ s2 h2 => ?_
  refine wlp_slots_load fun e1 => ?_
  refine wlp_seq (wlp_store_large hslot (hor e1) ?_) fun _ _ h => wlp_pure h
  rcases h2 with ⟨-, htables⟩ | htables
  · rw [htables]
    exact .inl h1
  by_cases heq : p.frame = f ∧ j = i
  · exact .inr heq
  refine .inl ?_
  rw [htables]
  unfold Barred Tables.set
  have hne : ¬ (f = p.frame ∧ i = j) := fun h => heq ⟨h.1.symm, h.2.symm⟩
  simp only [hne, if_false]
  exact h1

theorem wlp_splitPd_large (hf : flags &&& vmSplitAlloc ≠ 0) (h : Barred f i s.tables) :
    wlp (splitPd (slots B) virt flags u p4 p3 l) (fun _ s' => Barred f i s'.tables) s := by
  have hexit : ∀ {r l s}, Barred f i s.tables →
      wlp (splitExit (slots B) r p4 p3 l) (fun _ s' => Barred f i s'.tables) s :=
    fun h => wlp_mono wlp_slots_splitExit fun _ _ h' => h' ▸ h
  have hdone : ∀ {l s}, Barred f i s.tables →
      wlp (splitDone (slots B) virt p4 p3 l) (fun _ s' => Barred f i s'.tables) s :=
    fun h => wlp_mono wlp_slots_splitDone fun _ _ h' => h' ▸ h
  refine wlp_slots_load fun e => ?_
  refine wlp_ite (fun _ => wlp_ite (fun _ => hexit h) fun _ => hdone h) fun _ => ?_
  refine wlp_ite (fun _ => hexit h) fun _ => ?_
  refine wlp_seq (wlp_check_large hslot hu hf (.inl h)) fun ok s1 h1 => ?_
  refine wlp_ite (fun _ => ?_) fun _ => hexit h1
  refine wlp_slots_load fun e => wlp_seq wlp_slots_map ?_
  rintro pt s2 ⟨-, h2⟩
  exact hdone (h2 ▸ h1)

end Large

/-- The search with `VM_SPLIT_ALLOC` for flags with bit 7 bars the entry of the PML4. -/
theorem wlp_split_large (hslot : ¬ B.isSlot spc (idxPml4 virt)) (hu : isLarge u = true)
    (hf : flags &&& vmSplitAlloc ≠ 0) : wlp (vmemMgmtSplit (slots B) spc virt flags u l)
      (fun _ s' => Barred spc (idxPml4 virt) s'.tables) s := by
  refine wlp_seq wlp_slots_map ?_
  rintro p4 s1 ⟨rfl, -⟩
  refine wlp_seq (wlp_check_large hslot hu hf (.inr ⟨rfl, rfl⟩)) fun ok s2 h2 => ?_
  refine wlp_ite (fun _ => ?_) fun _ => wlp_mono wlp_slots_splitExit fun _ _ h => h ▸ h2
  refine wlp_slots_load fun e => wlp_seq wlp_slots_map ?_
  rintro p3 s3 ⟨-, h3⟩
  rw [← h3] at h2
  refine wlp_seq (wlp_check_large hslot hu hf (.inl h2)) fun ok s4 h4 => ?_
  refine wlp_ite (fun _ => ?_) fun _ => wlp_mono wlp_slots_splitExit fun _ _ h => h ▸ h4
  refine wlp_slots_load fun e => wlp_seq wlp_slots_map ?_
  rintro pd s5 ⟨-, h5⟩
  rw [← h5] at h4
  exact wlp_splitPd_large hslot hu hf h4

/-- The new entry has bit 7, too. -/
theorem wlp_mapEntry_large (hslot : ¬ B.isSlot f i) (hl : isLarge flags = true)
    (h : Barred f i s.tables) :
    wlp (mapEntry (slots B) l phys flags) (fun _ s' => Barred f i s'.tables) s := by
  unfold mapEntry
  rw [if_pos hl]
  refine wlp_slots_load fun e => ?_
  refine wlp_ite (fun _ => wlp_pure h) fun _ => ?_
  refine wlp_seq (wlp_store_large hslot ?_ (.inl h)) fun _ _ h => wlp_pure h
  rw [isLarge_or, hl, Bool.or_true]

/-- A call with `PG_LARGE` that returns, successful or not, has barred the way to its address. -/
theorem wlp_vmemMap_large (hslot : ¬ B.isSlot spc (idxPml4 virt)) (hl : isLarge flags = true) :
    wlp (vmemMap (slots B) l spc phys virt flags)
      (fun _ s' => Barred spc (idxPml4 virt) s'.tables) s := by
  refine wlp_seq (wlp_split_large hslot hl (splitFlags_alloc flags)) ?_
  rintro ⟨r, l1⟩ s1 h1
  have hentry : wlp (do
      let result ← mapEntry (slots B) l1 phys flags
      unmapIf (slots B) l1.pt
      unmapIf (slots B) l1.pd
      pure result) (fun _ s' => Barred spc (idxPml4 virt) s'.tables) s1 := by
    refine wlp_seq (wlp_mapEntry_large hslot hl h1) fun ok s2 h2 => ?_
    refine wlp_seq wlp_slots_unmapIf fun _ s3 h3 => ?_
    refine wlp_seq wlp_slots_unmapIf fun _ s4 h4 => wlp_pure ?_
    rw [h4, h3]
    exact h2
  cases r with
  | splitSuccess | tableNotMapped => exact hentry
  | smallExpected | largeExpected | splitError => exact wlp_pure h1

/-- A large page as the caller expects it: the processor finds the page, and it finds what it found
before the call. -/
def LargeMapped (before after : ℕ → ℕ → ℕ) (spc phys virt : ℕ) : Prop :=
  (∀ d < pageSize2M, (hwWalk after spc (virt + d)).map Translation.phys = some (phys + d)) ∧
    ∀ v r, hwWalk before spc v = some r → hwWalk after spc v = some r

/-- **No large page is mapped for the processor.**  After a call of `vmem_map` with `PG_LARGE` it
finds nothing in the 512 GB around the page. -/
theorem map_large_walk (B : Boot) (s s' : Vm) (l : Locals) (spc phys virt flags : ℕ) (ok : Bool)
    (hslot : ¬ B.isSlot spc (idxPml4 virt)) (hl : isLarge flags = true)
    (hrun : vmemMap (slots B) l spc phys virt flags s = .ok (ok, s')) :
    ¬ LargeMapped s.tables.table s'.tables.table spc phys virt ∧
      ∀ v, idxPml4 v = idxPml4 virt → hwWalk s'.tables.table spc v = none := by
  have hbar := wlp_vmemMap_large hslot hl ok s' hrun
  have hnone : ∀ v, idxPml4 v = idxPml4 virt → hwWalk s'.tables.table spc v = none :=
    fun v hv => hwWalk_barred (hv ▸ hbar)
  refine ⟨fun hmapped => ?_, hnone⟩
  have hfirst := hmapped.1 0 (by decide)
  rw [Nat.add_zero, hnone virt rfl] at hfirst
  cases hfirst

/-- The call for the first large page behind those that the boot tables map. -/
def mapLargeBoot : Prog Vm Bool :=
  vmemMap (slots (bootFrames 0x101000)) nullLocals (x8664PgPml4 0x101000) 0x600000 0x400000
    (pgLarge ||| pgWritable)

theorem map_large_walk_boot :
    ¬ LargeMapped (bootVm 0x101000 []).tables.table
        (mapLargeBoot.exec (bootVm 0x101000 [])).tables.table (x8664PgPml4 0x101000) 0x600000
        0x400000 ∧
      ∀ v, idxPml4 v = idxPml4 0x400000 →
        hwWalk (mapLargeBoot.exec (bootVm 0x101000 [])).tables.table (x8664PgPml4 0x101000) v =
          none :=
  map_large_walk (bootFrames 0x101000) _ _ nullLocals _ _ _ _ true (by decide) (by decide)
    (eq_ok_of_value (by decide +kernel))

/-- The call returns successfully and `vmem_resolve` finds the page, but the processor does not; and
it does not find the page before it any more, which it found before the call. -/
theorem map_large_faults :
    let s := bootVm 0x101000 []
    let s' := mapLargeBoot.exec s
    let pml4 := x8664PgPml4 0x101000
    mapLargeBoot s = .ok (true, s') ∧
      (vmemResolve (slots (bootFrames 0x101000)) nullLocals pml4 0x400000).value s' =
        some 0x600000 ∧
      hwWalk s'.tables.table pml4 0x400000 = none ∧
      hwWalk s.tables.table pml4 0x200000 = some ⟨0x200000, false, true⟩ ∧
      hwWalk s'.tables.table pml4 0x200000 = none :=
  ⟨eq_ok_of_value (by decide +kernel), by decide +kernel, by decide +kernel, by decide +kernel,
    by decide +kernel⟩

end Tachyon.Vmem
