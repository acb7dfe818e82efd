import Tachyon.Vmem.Labels

/-!
# New address spaces

`spc_new` makes an address space and puts all registered pages into it, with `vmem_map` in a loop
over `vmem_glob_map`.  The variables of that function are not initialised, and tables are reached
through the slots of `ps_mapspace`.

* `makeGlobSpc`, `spcNew`, `growPage`: the source;
* `Rooted.new_space`: the tables of a new address space;
* the rounds of the loop: one round, and all of them.
-/

namespace Tachyon.Vmem

open Prog List Function

/-! ### The source -/

/-- `VM_FL_MASK`. -/
def vmFlMask : ℕ := pgWritable ||| pgUser ||| pgWritethrough ||| pgNoncachable ||| pgGlobal

/-- `VM_FLAGS`. -/
def vmFlags (e : ℕ) : ℕ := e &&& 0xFFF &&& vmFlMask

/-- `ng_flags`. -/
def ngFlags : ℕ := andNot pgKflags pgGlobal

/-- `vmem_glob_mapping_t`. -/
structure GlobMapping where
  phys : ℕ
  virt : ℕ
  flags : ℕ
  deriving DecidableEq, Repr

/-- The uninitialised variables of one round of `vmem_mgmt_make_glob_spc`, and those of the calls of
`vmem_resolve` and `vmem_map` in it. -/
structure RoundLocals where
  resolve : Locals
  split : Locals
  map : Locals

section Code

variable {σ : Type} (A : Access σ) (B : Boot) {S : ℕ}

/-- The first part of `vmem_mgmt_make_glob_spc`: the tables of the kernel and of low memory. -/
def fixedTables (space : ℕ) : Prog σ Bool := do
  let pml4 ← A.map space
  A.memset pml4
  A.store pml4 511 (B.kernelPdpt ||| ngFlags)
  let physPdptLow ← A.pmemAlloc
  A.store pml4 0 (physPdptLow ||| ngFlags)
  let pdpt ← A.map physPdptLow
  if physPdptLow = 0 then pure false
  else
    A.memset pdpt
    let physPdLow ← A.pmemAlloc
    A.store pdpt 0 (physPdLow ||| ngFlags)
    let pd ← A.map physPdLow
    if physPdLow = 0 then pure false
    else
      A.memset pd
      A.store pd 0 (B.ptLow ||| ngFlags)
      A.store pd 1 (0x200000 ||| ngFlags ||| pgLarge ||| pgGlobal)
      A.unmap pd
      A.unmap pdpt
      A.unmap pml4
      pure true

/-- A mapping that has to succeed. -/
def requireMap (l : Locals) (space : ℕ) (g : GlobMapping) : Prog σ Unit := do
  let ok ← vmemMap A l space g.phys g.virt g.flags
  if ok then pure () else halt (.fatal "cannot insert required global mapping %p -> %p!\n")

/-- The entry of a page, in the page directory or in the page table. -/
def pageEntry (l : Locals) : Prog σ ℕ := do
  let e ← A.load l.pd l.ipd
  if isLarge e then pure e else A.load l.pt l.ipt

/-- A page is there already, with the right flags, or it is mapped. -/
def checkPage (e : ℕ) (l : Locals) (space : ℕ) (g : GlobMapping) : Prog σ Unit :=
  if isPresent e then
    if vmFlags e ≠ vmFlags g.flags then
      halt (.fatal "present page does not match flags, 0x%x (0x%x) != 0x%x\n")
    else pure ()
  else requireMap A l space g

/-- One round of the loop of `vmem_mgmt_make_glob_spc`; the old mapping is looked up for a message. -/
def insertGlobal (ls : RoundLocals) (space : ℕ) (g : GlobMapping) : Prog σ Unit := do
  let _ ← vmemResolve A ls.resolve space g.virt
  let (split, l) ← vmemMgmtSplit A space g.virt (if isLarge g.flags then vmSplitLarge else 0) 0
    ls.split
  match split with
  | .tableNotMapped => requireMap A ls.map space g
  | .smallExpected | .splitSuccess =>
    let e ← pageEntry A l
    checkPage A e ls.map space g
    unmapIf A l.pt
    unmapIf A l.pd
  | .largeExpected =>
    halt (.fatal "cannot insert large page, small page already mapped at %p\n")
  | .splitError => halt (.fatal "cannot split virtual address %p ?!\n")

/-- The loop of `vmem_mgmt_make_glob_spc`. -/
def insertGlobals (ls : ℕ → RoundLocals) (space : ℕ) : ℕ → List GlobMapping → Prog σ Unit
  | _, [] => pure ()
  | i, g :: gs => do
    insertGlobal A (ls i) space g
    insertGlobals ls space (i + 1) gs

/-- `vmem_mgmt_make_glob_spc`. -/
def makeGlobSpc (ls : ℕ → RoundLocals) (gs : List GlobMapping) (space : ℕ) : Prog σ Bool := do
  let ok ← fixedTables A B space
  if ok then
    insertGlobals A ls space 0 gs
    pure true
  else pure false

/-- `spc_new`; `0` if there is no new address space. -/
def spcNew (ls : ℕ → RoundLocals) (gs : List GlobMapping) : Prog σ ℕ := do
  let sp ← A.pmemAlloc
  if sp = 0 then pure 0
  else
    let ok ← makeGlobSpc A B ls gs sp
    if ok then pure sp
    else
      A.pmemFree sp pageSize4K
      pure 0

/-- One page for the kernel heap (`heap_alloc`) or for a kernel stack (`stka_grow`), if it can be
mapped. -/
def growPage (l : Locals) (space virt flags : ℕ) : Prog σ (Option ℕ) := do
  let phys ← A.pmemAlloc
  let ok ← vmemMap A l space phys virt flags
  pure (if ok then some phys else none)

end Code

/-- The pointer is not the address of a slot. -/
def Outside (p : Ptr) : Prop := slotOf p.addr = none

variable {B : Boot} {t t' : Tables} {m m' : ℕ → ℕ} {lab lab' : ℕ → Option Label} {o : Option ℕ}
  {r virt v phys flags f i x space : ℕ} {l l' : Locals} {g : GlobMapping} {gs : List GlobMapping}

/-! ### New address spaces -/

section NewSpace

variable {S p₁ p₂ : ℕ} {pmem : List ℕ}

/-- The tables with a PML4 in `S`, and a PDPT and a page directory for low memory. -/
def newTables (B : Boot) (t : Tables) (S p₁ p₂ : ℕ) (pmem : List ℕ) : Tables :=
  ((((({ t with pmem := pmem }.clear S).set S 511 (B.kernelPdpt ||| ngFlags)).set S 0
    (p₁ ||| ngFlags)).clear p₁).set p₁ 0 (p₂ ||| ngFlags)).clear p₂ |>.set p₂ 0
    (B.ptLow ||| ngFlags) |>.set p₂ 1 (0x200000 ||| ngFlags ||| pgLarge ||| pgGlobal)

/-- The tables of the new address space have labels. -/
def newLabels (lab : ℕ → Option Label) (S p₁ p₂ : ℕ) : ℕ → Option Label :=
  Function.update (Function.update (Function.update lab S (some (some S, []))) p₁
    (some (some S, [0]))) p₂ (some (some S, [0, 0]))

theorem ends_pmemAlloc {Q : ℕ → Tables → Prop} {E : Halt → Prop}
    (hnone : t.pmem = [] → E (.fatal "out of physical memory\n"))
    (h : ∀ f pmem, t.pmem = f :: pmem → Q f { t with pmem := pmem }) :
    ends (direct B).pmemAlloc Q E t := by
  cases hp : t.pmem with
  | nil =>
    refine ends_error ?_ (hnone hp)
    show takeFrame t = _
    rw [takeFrame, hp]
  | cons f pmem =>
    refine ends_ok ?_ (h f pmem hp)
    show takeFrame t = _
    rw [takeFrame, hp]

theorem ends_fixedTables (hS : pageSize4K ∣ S) (hslot : S ≠ B.ptTemp)
    (hfresh : ∀ y ∈ t.pmem, y ≠ 0 ∧ pageSize4K ∣ y ∧ y ≠ B.ptTemp) :
    ends (fixedTables (direct B) B S) (fun ok t' => ok = true ∧ ∃ p₁ p₂ pmem,
      t.pmem = p₁ :: p₂ :: pmem ∧ t' = newTables B t S p₁ p₂ pmem) Starved t := by
  have hslot' : ∀ {y}, y ≠ B.ptTemp → ∀ i, B.isSlot y i → Starved .undefined :=
    fun hy i hs => absurd hs.1 hy
  refine ends_bind (ends_map (absurd hS) fun _ => ?_)
  refine ends_bind (ends_memset hslot (ends_store (hslot' hslot _) fun _ => ?_))
  refine ends_bind (ends_pmemAlloc (fun _ => .inl rfl) fun p₁ pmem1 hp1 => ?_)
  obtain ⟨h1, hd1, hs1⟩ := hfresh p₁ (by
    rw [show t.pmem = p₁ :: pmem1 from hp1]
    exact mem_cons_self)
  refine ends_store (hslot' hslot _) fun _ => ?_
  refine ends_bind (ends_map (absurd hd1) fun _ => ?_)
  refine ends_ite (fun h => absurd h h1) fun _ => ?_
  refine ends_bind (ends_memset hs1 ?_)
  refine ends_bind (ends_pmemAlloc (fun _ => .inl rfl) fun p₂ pmem hp2 => ?_)
  have hpmem : t.pmem = p₁ :: p₂ :: pmem := by
    rw [show t.pmem = p₁ :: pmem1 from hp1, show pmem1 = p₂ :: pmem from hp2]
  obtain ⟨h2, hd2, hs2⟩ := hfresh p₂ (by rw [hpmem]; simp)
  refine ends_store (hslot' hs1 _) fun _ => ?_
  refine ends_bind (ends_map (absurd hd2) fun _ => ?_)
  refine ends_ite (fun h => absurd h h2) fun _ => ?_
  refine ends_bind (ends_memset hs2 ?_)
  refine ends_store (hslot' hs2 _) fun _ => ends_store (hslot' hs2 _) fun _ => ?_
  exact ends_unmap (ends_unmap (ends_unmap (ends_pure ⟨rfl, p₁, p₂, pmem, hpmem, rfl⟩)))

theorem newTables_other (h0 : f ≠ S) (h1 : f ≠ p₁) (h2 : f ≠ p₂) :
    (newTables B t S p₁ p₂ pmem).table f i = t.table f i := by
  simp [newTables, Tables.table_set, Tables.clear, h0, h1, h2]

theorem newTables_pml4 (h1 : S ≠ p₁) (h2 : S ≠ p₂) : (newTables B t S p₁ p₂ pmem).table S i =
    if i = 0 then p₁ ||| ngFlags else if i = 511 then B.kernelPdpt ||| ngFlags else 0 := by
  simp [newTables, Tables.table_set, Tables.clear, h1, h2]

theorem newTables_pdpt (h2 : p₁ ≠ p₂) : (newTables B t S p₁ p₂ pmem).table p₁ i =
    if i = 0 then p₂ ||| ngFlags else 0 := by
  simp [newTables, Tables.table_set, Tables.clear, h2]

theorem newTables_pd : (newTables B t S p₁ p₂ pmem).table p₂ i =
    if i = 1 then 0x200000 ||| ngFlags ||| pgLarge ||| pgGlobal
    else if i = 0 then B.ptLow ||| ngFlags else 0 := by
  simp [newTables, Tables.table_set, Tables.clear]

variable {d : ℕ}

theorem child_ngFlags (hf : pageSize4K ∣ f) (hd : d < 3) :
    child d (f ||| ngFlags) = some f := by
  have hadd : f ||| ngFlags = f ||| pgPresent ||| pgWritable ||| 0 := by
    rw [Nat.or_zero, Nat.or_assoc]
    rfl
  rw [hadd]
  exact child_new (by decide) hf hd fun _ => rfl

theorem not_page_ngFlags (hf : pageSize4K ∣ f) (hd : d < 3) : ¬ Page d (f ||| ngFlags) :=
  fun hp => by
    have hnone := hp.2.2
    rw [child_ngFlags hf hd] at hnone
    cases hnone

theorem not_page_zero : ¬ Page d 0 := fun hp => absurd hp.2.1 (by decide)

/-- An address space with the tables of the kernel. -/
structure IsSpace (B : Boot) (lab : ℕ → Option Label) (t : Tables) (S : ℕ) : Prop where
  label : ∃ o, lab S = some (o, [])
  aligned : pageSize4K ∣ S
  shared : child 0 (t.table S 511) = some B.kernelPdpt

/-- The labels of the shared tables. -/
structure Rooted (B : Boot) (lab : ℕ → Option Label) (t : Tables) : Prop extends
    Labelled B lab t where
  pdpt : lab B.kernelPdpt = some (none, [511])
  low : lab B.ptLow = some (none, [0, 0, 0])
  pdpt_dvd : pageSize4K ∣ B.kernelPdpt
  low_dvd : pageSize4K ∣ B.ptLow

/-- A new address space: no page is lost, and it has the tables of the kernel and of low memory. -/
theorem Rooted.new_space (h : Rooted B lab t) (hpmem : t.pmem = S :: p₁ :: p₂ :: pmem) :
    Keeps B lab (newLabels lab S p₁ p₂) t (newTables B t S p₁ p₂ pmem) ∧
      newLabels lab S p₁ p₂ S = some (some S, []) ∧
      IsSpace B (newLabels lab S p₁ p₂) (newTables B t S p₁ p₂ pmem) S ∧
      (∀ {v x}, MapsTo (newTables B t S p₁ p₂ pmem) S v x → idxPml4 v = 0 ∨ idxPml4 v = 511) ∧
      Adds (fun a i _ => a = (some S, [0, 0]) ∧ i = 1) lab (newLabels lab S p₁ p₂) t
        (newTables B t S p₁ p₂ pmem) := by
  have hnodup := h.nodup
  have hfresh := h.fresh
  rw [hpmem] at hnodup hfresh
  simp only [nodup_cons, mem_cons, not_or] at hnodup
  obtain ⟨⟨hS1, hS2, hS⟩, ⟨h12, h1⟩, h2, hnd⟩ := hnodup
  obtain ⟨hlS, -, hdS⟩ := hfresh S (by simp)
  obtain ⟨hl1, -, hd1⟩ := hfresh p₁ (by simp)
  obtain ⟨hl2, -, hd2⟩ := hfresh p₂ (by simp)
  have hne : ∀ {f a}, lab f = some a → f ≠ S ∧ f ≠ p₁ ∧ f ≠ p₂ := by
    intro f a hf
    refine ⟨?_, ?_, ?_⟩ <;> rintro rfl
    · cases hlS.symm.trans hf
    · cases hl1.symm.trans hf
    · cases hl2.symm.trans hf
  have hlabel : ∀ {f}, f ≠ S ∧ f ≠ p₁ ∧ f ≠ p₂ → newLabels lab S p₁ p₂ f = lab f := by
    rintro f ⟨hf, hf1, hf2⟩
    rw [newLabels, update_of_ne hf2, update_of_ne hf1, update_of_ne hf]
  have hold : ∀ {f a}, lab f = some a → newLabels lab S p₁ p₂ f = some a :=
    fun hf => (hlabel (hne hf)).trans hf
  have hother : ∀ {f a} (i : ℕ), lab f = some a →
      (newTables B t S p₁ p₂ pmem).table f i = t.table f i :=
    fun i hf => newTables_other (hne hf).1 (hne hf).2.1 (hne hf).2.2
  have hpdpt : newLabels lab S p₁ p₂ p₁ = some (some S, [0]) := by
    rw [newLabels, update_of_ne h12, update_self]
  have hpd : newLabels lab S p₁ p₂ p₂ = some (some S, [0, 0]) := update_self _ _ _
  have hpml4 : newLabels lab S p₁ p₂ S = some (some S, []) := by
    rw [newLabels, update_of_ne hS2, update_of_ne hS1, update_self]
  have hzero : ∀ d, child d 0 = none := fun d => child_of_not_present rfl
  have hchild : ∀ {f a i g}, lab f = some a → child a.2.length (t.table f i) = some g →
      child a.2.length ((newTables B t S p₁ p₂ pmem).table f i) = some g :=
    fun hf hg => (congrArg _ (hother _ hf)).trans hg
  refine ⟨⟨⟨?_, hold h.slots, ?_, hnd⟩, hold, hchild, ?_, ?_⟩, hpml4, ⟨⟨_, hpml4⟩, hdS, ?_⟩, ?_, ?_⟩
  · intro f a i g hf hg
    by_cases hf2 : f = p₂
    · subst hf2
      cases hpd.symm.trans hf
      rw [newTables_pd] at hg
      split_ifs at hg with hi1 hi0
      · cases hg
      · subst hi0
        rw [show ((some S, [0, 0]) : Label).2.length = 2 from rfl,
          child_ngFlags h.low_dvd (by decide)] at hg
        cases hg
        exact hold h.low
      · rw [hzero] at hg
        cases hg
    by_cases hf1 : f = p₁
    · subst hf1
      cases hpdpt.symm.trans hf
      rw [newTables_pdpt h12] at hg
      split_ifs at hg with hi0
      · subst hi0
        rw [show ((some S, [0]) : Label).2.length = 1 from rfl, child_ngFlags hd2 (by decide)] at hg
        cases hg
        exact hpd
      · rw [hzero] at hg
        cases hg
    by_cases hfS : f = S
    · subst hfS
      cases hpml4.symm.trans hf
      rw [newTables_pml4 hS1 hS2] at hg
      split_ifs at hg with hi0 hi5
      · subst hi0
        rw [show ((some f, []) : Label).2.length = 0 from rfl, child_ngFlags hd1 (by decide)] at hg
        cases hg
        exact hpdpt
      · subst hi5
        rw [show ((some f, []) : Label).2.length = 0 from rfl,
          child_ngFlags h.pdpt_dvd (by decide)] at hg
        cases hg
        exact hold h.pdpt
      · rw [hzero] at hg
        cases hg
    · rw [hlabel ⟨hfS, hf1, hf2⟩] at hf
      rw [hother i hf] at hg
      exact hold (h.next hf hg)
  · intro y hy
    rw [hlabel ⟨fun heq => hS (heq ▸ hy), fun heq => h1 (heq ▸ hy), fun heq => h2 (heq ▸ hy)⟩]
    exact hfresh y (by simp [show y ∈ pmem from hy])
  · rintro r o v x hr ⟨f1, f2, f3, hway, hp, hx⟩
    obtain ⟨-, -, o3, h3⟩ := h.way hr hway
    have hleaf := hother (idxPt v) h3
    exact ⟨f1, f2, f3, h.way_keep hchild hr hway, hleaf ▸ hp, hleaf ▸ hx⟩
  · rw [hpmem]
    exact ⟨[S, p₁, p₂], rfl⟩
  · rw [newTables_pml4 hS1 hS2]
    exact child_ngFlags h.pdpt_dvd (by decide)
  · rintro v x ⟨f1, f2, f3, hway, -⟩
    have hroot := hway.pdpt
    rw [newTables_pml4 hS1 hS2] at hroot
    split_ifs at hroot with h0 h511
    · exact .inl h0
    · exact .inr h511
    · rw [hzero] at hroot
      cases hroot
  · refine ⟨fun {f a} hf => ?_, fun {f a i} hf hp => ?_, rfl⟩
    · rw [hpmem]
      by_cases hnew : f = S ∨ f = p₁ ∨ f = p₂
      · right
        simp only [mem_cons]
        tauto
      · simp only [not_or] at hnew
        exact .inl ((hlabel hnew).symm.trans hf)
    · by_cases hf2 : f = p₂
      · subst hf2
        cases hpd.symm.trans hf
        rw [newTables_pd] at hp ⊢
        split_ifs at hp with hi1 hi0
        · exact .inr ⟨rfl, hi1⟩
        · exact absurd hp (not_page_ngFlags h.low_dvd (by simp))
        · exact absurd hp not_page_zero
      by_cases hf1 : f = p₁
      · subst hf1
        cases hpdpt.symm.trans hf
        rw [newTables_pdpt h12] at hp
        split_ifs at hp
        · exact absurd hp (not_page_ngFlags hd2 (by simp))
        · exact absurd hp not_page_zero
      by_cases hfS : f = S
      · subst hfS
        cases hpml4.symm.trans hf
        rw [newTables_pml4 hS1 hS2] at hp
        split_ifs at hp
        · exact absurd hp (not_page_ngFlags hd1 (by simp))
        · exact absurd hp (not_page_ngFlags h.pdpt_dvd (by simp))
        · exact absurd hp not_page_zero
      · rw [hlabel ⟨hfS, hf1, hf2⟩] at hf
        exact .inl ⟨hf, hother i hf⟩

end NewSpace

/-! ### Through the slots -/

theorem not_starved_undefined : ¬ Starved .undefined := by simp [Starved]

theorem ready_empty : Ready 4 fun _ => 0 := ⟨fun _ _ _ => rfl, by decide⟩

variable {p : Ptr} {Q : ℕ → Vm → Prop} {K : ℕ} {ls : ℕ → RoundLocals}

theorem spare_empty : Spare (fun _ => 0) p := fun _ _ => rfl

theorem fixedTables_rel (h : Ready 3 m) :
    Rel (fixedTables (slots B) B space) (fixedTables (direct B) B space)
      (fun a s' b t' => a = b ∧ (b = true → s' = ⟨t', m⟩)) ⟨t, m⟩ t := by
  refine rel_seq (map_rel h) ?_
  rintro p4 _ q4 _ ⟨hp4, hq4, -, -, -, hspare4, hmaps4, hready1, rfl, rfl⟩
  refine rel_step (memset_rel hmaps4 (hq4.trans hp4.symm)) fun _ _ => ?_
  refine rel_step (store_rel hmaps4 (hq4.trans hp4.symm)) fun _ _ => ?_
  refine rel_step pmemAlloc_rel fun phys3 _ => ?_
  refine rel_step (store_rel hmaps4 (hq4.trans hp4.symm)) fun _ _ => ?_
  refine rel_seq (map_rel hready1) ?_
  rintro p3 _ q3 _ ⟨hp3, hq3, -, -, -, hspare3, hmaps3, hready2, rfl, rfl⟩
  refine rel_ite (fun _ => rel_pure ⟨rfl, fun hf => by cases hf⟩) fun _ => ?_
  refine rel_step (memset_rel hmaps3 (hq3.trans hp3.symm)) fun _ _ => ?_
  refine rel_step pmemAlloc_rel fun phys2 _ => ?_
  refine rel_step (store_rel hmaps3 (hq3.trans hp3.symm)) fun _ _ => ?_
  refine rel_seq (map_rel hready2) ?_
  rintro p₂ _ q2 _ ⟨hp2, hq2, -, -, -, hspare2, hmaps2, -, rfl, rfl⟩
  refine rel_ite (fun _ => rel_pure ⟨rfl, fun hf => by cases hf⟩) fun _ => ?_
  refine rel_step (memset_rel hmaps2 (hq2.trans hp2.symm)) fun _ _ => ?_
  refine rel_step (store_rel hmaps2 (hq2.trans hp2.symm)) fun _ _ => ?_
  refine rel_step (store_rel hmaps2 (hq2.trans hp2.symm)) fun _ _ => ?_
  refine rel_step unmap_rel fun _ _ => ?_
  refine rel_step unmap_rel fun _ _ => ?_
  refine rel_step unmap_rel fun _ _ => ?_
  refine rel_pure ⟨rfl, fun _ => ?_⟩
  rw [closeSlot_openSlot hspare2, closeSlot_openSlot hspare3, closeSlot_openSlot hspare4]

theorem growPage_rel (h : Ready 4 m) (hpd : Spare m l.pd) (hpt : Spare m l.pt) :
    Rel (growPage (slots B) l space virt flags) (growPage (direct B) l' space virt flags)
      (fun a s' b t' => a = b ∧ s' = ⟨t', m⟩) ⟨t, m⟩ t := by
  refine rel_step pmemAlloc_rel fun phys _ => ?_
  refine rel_step (vmemMap_rel h hpd hpt) fun ok _ => ?_
  exact rel_pure ⟨rfl, rfl⟩

/-- A page, whose frame gets the label `mark`. -/
theorem Labelled.ends_growPage (mark : Option Label) (h : Labelled B lab t)
    (hr : lab r = some (o, [])) (hdvd : pageSize4K ∣ r) (hv : OffWindow virt)
    (hflags : flags < 2 ^ 12) (hl : isLarge flags = false) (hmark : ∀ a ∈ mark, a.2.length = 4) :
    ends (growPage (direct B) l r virt flags) (fun res t' => ∃ lab' phys, phys ∈ t.pmem ∧
      (res = none ∨ res = some phys ∧ MapsTo t' r virt phys) ∧ lab' phys = mark ∧
      phys ∉ t'.pmem ∧ Keeps B lab lab' t t' ∧
      Adds (NewPage o phys virt res.isSome) lab lab' t t') Starved t := by
  refine ends_bind (ends_pmemAlloc (fun _ => .inl rfl) fun phys pmem hp => ?_)
  obtain ⟨htake, hadds⟩ := h.take hp hmark
  have hphys := (h.fresh phys (hp ▸ mem_cons_self)).2.2
  have hgone : phys ∉ pmem := by
    have hnodup := h.nodup
    rw [hp] at hnodup
    exact (nodup_cons.1 hnodup).1
  refine ends_seq (htake.tables.ends_map (htake.label hr) hdvd hv hphys hflags hl) ?_
  rintro ok t' ⟨lab', hres, hnew⟩
  have hall : Adds (NewPage o phys virt ok) lab lab' t t' :=
    (hadds.mono fun _ _ _ h => h.elim).trans hnew htake.pmem
  refine ends_pure ⟨lab', phys, hp ▸ mem_cons_self, ?_, ?_, fun hmem => ?_,
    htake.trans hres.toKeeps, ?_⟩
  · cases ok with
    | true => exact .inr ⟨rfl, hres.mapped rfl⟩
    | false => exact .inl rfl
  · cases hlab : lab' phys with
    | none =>
      cases mark with
      | none => rfl
      | some a =>
        rw [hres.label (update_self phys (some a) lab)] at hlab
        cases hlab
    | some a =>
      rcases hnew.new hlab with hold | hmem
      · rwa [update_self, eq_comm] at hold
      · exact absurd hmem hgone
  · exact hgone (hres.pmem.mem hmem)
  · cases ok <;> exact hall

theorem wlp_unmapIf {Q : Unit → Vm → Prop} (h : Q () ⟨t, closeSlot m p⟩) :
    wlp (unmapIf (slots B) p) Q ⟨t, m⟩ := by
  have hdirect : ends (unmapIf (direct B) p) (fun _ t' => t' = t) (fun _ => False) t :=
    ends_ok unmapIf_run rfl
  refine wlp_mono (wlp_of_rel unmapIf_rel hdirect id) ?_
  rintro ⟨⟩ _ ⟨_, _, ⟨-, rfl⟩, rfl⟩
  exact h

theorem wlp_load (hp : Maps m p) (hslot : ¬ B.isSlot p.frame i)
    (h : Q (t.table p.frame i) ⟨t, m⟩) : wlp ((slots B).load p i) Q ⟨t, m⟩ := by
  have hdirect : ends ((direct B).load p i) (fun e t' => e = t.table p.frame i ∧ t' = t)
      (fun _ => False) t := ends_ok (load_run hslot) ⟨rfl, rfl⟩
  refine wlp_mono (wlp_of_rel (load_rel hp rfl) hdirect id) ?_
  rintro e _ ⟨_, _, ⟨rfl, rfl⟩, rfl, rfl⟩
  exact h

/-- An access through a pointer whose slot is free is a page fault. -/
theorem wlp_load_empty :
    wlp ((slots B).load p i) Q ⟨t, fun _ => 0⟩ := by
  have hmapped : ¬ p.isMapped ⟨t, fun _ => 0⟩ := by
    unfold Ptr.isMapped
    cases slotOf p.addr with
    | none => exact Bool.false_ne_true
    | some j => simp [show isPresent 0 = false by decide]
  intro a s' hrun
  unfold slots at hrun
  simp only [if_neg hmapped] at hrun
  cases hrun

/-- Two open slots leave enough of them. -/
theorem ready_of_agree {q : Ptr} (h : Agree (fun _ => 0) m [p, q]) (hp : Maps m p)
    (hq : Maps m q) : Ready 4 m := by
  obtain ⟨hpd, jp, hjp, hmp⟩ := hp
  obtain ⟨hqd, jq, hjq, hmq⟩ := hq
  have hzero : ∀ j, j ≠ jp → j ≠ jq → m j = 0 := by
    intro j hnp hnq
    refine h j fun y hy => ?_
    simp only [mem_cons, not_mem_nil, or_false] at hy
    rcases hy with rfl | rfl
    · rw [hjp]
      exact fun hc => hnp (Option.some.inj hc).symm
    · rw [hjq]
      exact fun hc => hnq (Option.some.inj hc).symm
  constructor
  · intro j hj hpres
    by_cases hnp : j = jp
    · subst hnp
      rw [hmp, isPresent_slotEntry hpd] at hpres
      cases hpres
    by_cases hnq : j = jq
    · subst hnq
      rw [hmq, isPresent_slotEntry hqd] at hpres
      cases hpres
    exact hzero j hnp hnq
  · have hsub : ((Finset.range 10).erase jp).erase jq ⊆ freeSlots m := by
      intro j hj
      simp only [Finset.mem_erase, Finset.mem_range] at hj
      rw [freeSlots, Finset.mem_filter, Finset.mem_range]
      refine ⟨hj.2.2, ?_⟩
      rw [hzero j hj.2.1 hj.1]
      rfl
    refine le_trans ?_ (Finset.card_le_card hsub)
    have h1 := Finset.pred_card_le_card_erase (s := Finset.range 10) (a := jp)
    rw [Finset.card_range] at h1
    have h2 := Finset.pred_card_le_card_erase (s := (Finset.range 10).erase jp) (a := jq)
    omega

/-! ### One round -/

theorem IsSpace.keeps (h : IsSpace B lab t S) (hk : Keeps B lab lab' t t') :
    IsSpace B lab' t' S := by
  obtain ⟨⟨o, hlabel⟩, haligned, hshared⟩ := h
  exact ⟨⟨o, hk.label hlabel⟩, haligned, hk.child hlabel hshared⟩

/-- What is in the PDPT of the kernel is in all address spaces. -/
theorem IsSpace.share (hK : IsSpace B lab t K) (hS : IsSpace B lab t S)
    (hv : idxPml4 v = 511) (h : MapsTo t K v x) : MapsTo t S v x := by
  obtain ⟨f1, f2, f3, ⟨hpdpt, hpd, hpt⟩, hp, hx⟩ := h
  rw [hv, hK.shared] at hpdpt
  cases hpdpt
  exact ⟨_, f2, f3, ⟨by rw [hv]; exact hS.shared, hpd, hpt⟩, hp, hx⟩

theorem MapsTo.dvd (h : MapsTo t r v x) : pageSize4K ∣ x := by
  obtain ⟨f1, f2, f3, -, -, rfl⟩ := h
  exact dvd_entryAddr _

/-- The result of the search for a small page that makes no tables. -/
def Looked (t : Tables) (r virt : ℕ) (res : SplitRes × Locals) : Prop :=
  res.1 = .tableNotMapped ∨ res.1 = .smallExpected ∨ (res.1 = .splitSuccess ∧ ∃ f₁,
    Way t r virt f₁ res.2.pd.frame res.2.pt.frame ∧ res.2.ipd = idxPd virt ∧
      res.2.ipt = idxPt virt)

theorem Labelled.ends_look (h : Labelled B lab t) (hr : lab r = some (o, []))
    (hdvd : pageSize4K ∣ r) (hv : OffWindow virt) :
    ends (vmemMgmtSplit (direct B) r virt 0 0 l) (fun res t' => t' = t ∧ Looked t r virt res)
      (fun _ => False) t := by
  have havoids := h.avoids hr hv
  refine split_read_small (fun hn => hn hdvd) (fun hn => hn havoids) (fun _ => ⟨rfl, .inl rfl⟩)
    (fun _ _ _ _ => ⟨rfl, .inl rfl⟩) (fun _ _ _ _ _ => ⟨rfl, .inr (.inl rfl)⟩)
    fun f hf hp hl => ⟨rfl, .inr (.inr ⟨rfl, ?_⟩)⟩
  obtain ⟨f1, hway⟩ := way_of_pdAt hf hp hl
  exact ⟨f1, hway, rfl, rfl⟩

/-- What is asked of a registered mapping. -/
structure GlobMapping.Ok (g : GlobMapping) : Prop where
  flags : g.flags < 2 ^ 12
  small : isLarge g.flags = false
  window : OffWindow g.virt
  upper : idxPml4 g.virt ≠ 0

section

variable (h : Labelled B lab t)
include h

theorem wlp_requireMap (hr : lab r = some (o, [])) (hdvd : pageSize4K ∣ r) (hg : g.Ok)
    (hphys : pageSize4K ∣ g.phys) (hready : Ready 4 m) (hpd : Spare m l.pd) (hpt : Spare m l.pt) :
    wlp (requireMap (slots B) l r g) (fun _ s' => ∃ t' lab', s' = ⟨t', m⟩ ∧
      MapResult B lab lab' t t' r g.phys g.virt true ∧
      Adds (NewPage o g.phys g.virt true) lab lab' t t') ⟨t, m⟩ := by
  have hmap := h.ends_map (l := l) hr hdvd hg.window hphys hg.flags hg.small
  refine wlp_seq (wlp_of_rel (vmemMap_rel hready hpd hpt) hmap not_starved_undefined) ?_
  rintro ok _ ⟨_, t', ⟨rfl, rfl⟩, lab', hres⟩
  refine wlp_ite (fun hok => wlp_pure ⟨t', lab', rfl, ?_⟩) fun _ => wlp_halt
  rwa [hok] at hres

/-- One registered mapping: it is mapped, or there is a page already. -/
theorem wlp_insertPage {ls : RoundLocals} (hr : lab S = some (o, []))
    (hdvd : pageSize4K ∣ S) (hpd : Outside ls.map.pd) (hpt : Outside ls.map.pt) (hg : g.Ok)
    (hphys : pageSize4K ∣ g.phys) :
    wlp (insertGlobal (slots B) ls S g) (fun _ s' => ∃ t' lab', s' = ⟨t', fun _ => 0⟩ ∧
      Keeps B lab lab' t t' ∧ Adds (NewPage o g.phys g.virt true) lab lab' t t' ∧
      (MapResult B lab lab' t t' S g.phys g.virt true ∨ t' = t ∧ ∃ x, MapsTo t S g.virt x))
      ⟨t, fun _ => 0⟩ := by
  have hspare : ∀ {m : ℕ → ℕ} {p : Ptr}, Outside p → Spare m p := fun hp j hj => by
    cases hp.symm.trans hj
  have hresolve := h.ends_resolve (l := ls.resolve) hr hdvd hg.window
  have hlook := h.ends_look (l := ls.split) hr hdvd hg.window
  refine wlp_seq (wlp_of_rel (vmemFindUnmap_rel ready_empty spare_empty spare_empty) hresolve id) ?_
  rintro _ _ ⟨_, _, ⟨rfl, rfl⟩, rfl, -⟩
  rw [hg.small, if_neg Bool.false_ne_true]
  refine wlp_seq (wlp_of_rel (split_rel ready_empty spare_empty spare_empty) hlook id) ?_
  rintro ⟨res, l⟩ ⟨t1, m1⟩ ⟨⟨res', l'⟩, t1', hsplit, rfl, hres⟩
  obtain rfl : res = res' := hsplit.result
  obtain rfl : t1 = t1' := hsplit.tables
  rcases hres with hres | hres | ⟨hres, f1, hway, hipd, hipt⟩ <;> dsimp only at hres <;> subst hres
  · obtain rfl : m1 = fun _ => 0 := hsplit.failed (by simp)
    refine wlp_mono (wlp_requireMap h hr hdvd hg hphys ready_empty spare_empty spare_empty) ?_
    rintro _ _ ⟨t', lab', rfl, hres, hadds⟩
    exact ⟨t', lab', rfl, hres.toKeeps, hadds, .inl hres⟩
  · -- the page directory is no longer mapped: a page fault
    obtain rfl : m1 = fun _ => 0 := hsplit.failed (by simp)
    exact wlp_bind (wlp_bind wlp_load_empty)
  · have hopen := hsplit.found rfl
    have hptOpen := hsplit.foundPt rfl (by decide)
    rw [hopen.frame, hptOpen.frame] at hway
    rw [hopen.ipd] at hipd
    rw [hptOpen.ipt] at hipt
    obtain ⟨-, ⟨o2, hf2⟩, o3, hf3⟩ := h.way hr hway
    have hclose : ∀ {Q : Unit → Vm → Prop} {t'}, Q () ⟨t', fun _ => 0⟩ →
        wlp (do unmapIf (slots B) l.pt; unmapIf (slots B) l.pd) Q ⟨t', m1⟩ := by
      intro Q t' hQ
      refine wlp_bind (wlp_unmapIf (wlp_unmapIf ?_))
      have h1 : Agree (fun _ => 0) (closeSlot m1 l.pt) [l.pd] :=
        hopen.agree.closeSlot hsplit.pt (by simp)
      rwa [(h1.closeSlot hsplit.pd (by simp)).eq]
    refine wlp_bind (wlp_bind (wlp_load hopen.maps (h.not_isSlot hf2 (by simp)) ?_))
    rw [hipd, (child_eq_some.1 hway.pt).1.2.2 rfl, if_neg Bool.false_ne_true, hipt]
    refine wlp_load hptOpen.maps (h.not_isSlot hf3 hg.window) ?_
    refine wlp_bind (wlp_ite (fun hp => ?_) fun _ => ?_)
    · refine wlp_ite (fun _ => wlp_halt) fun _ => wlp_pure (hclose ⟨t1, lab, rfl, ?_⟩)
      exact ⟨(Enlarged.refl h).keeps h, .refl, .inr ⟨rfl, _, f1, _, _, hway, hp, rfl⟩⟩
    · refine wlp_mono (wlp_requireMap h hr hdvd hg hphys
        (ready_of_agree hopen.agree hopen.maps hptOpen.maps) (hspare hpd) (hspare hpt)) ?_
      rintro _ _ ⟨t', lab', rfl, hres, hadds⟩
      exact hclose ⟨t', lab', rfl, hres.toKeeps, hadds, .inl hres⟩

/-- **One registered mapping.**  What is there already is what is registered, so the page is mapped
afterwards, and no other page of the address space. -/
theorem wlp_insertGlobal {ls : RoundLocals} (hK : IsSpace B lab t K)
    (hS : IsSpace B lab t S) (hpd : Outside ls.map.pd) (hpt : Outside ls.map.pt) (hg : g.Ok)
    (hmap : MapsTo t K g.virt g.phys)
    (hown : idxPml4 g.virt ≠ 511 → ∀ x, MapsTo t S g.virt x → MapsTo t K g.virt x) :
    wlp (insertGlobal (slots B) ls S g) (fun _ s' => ∃ t' lab', s' = ⟨t', fun _ => 0⟩ ∧
      MapResult B lab lab' t t' S g.phys g.virt true) ⟨t, fun _ => 0⟩ := by
  obtain ⟨⟨o, hr⟩, hdvd, -⟩ := id hS
  refine wlp_mono (wlp_insertPage h hr hdvd hpd hpt hg hmap.dvd) ?_
  rintro _ _ ⟨t', lab', rfl, hk, -, hres | ⟨rfl, x, hfound⟩⟩
  · exact ⟨t', lab', rfl, hres⟩
  · refine ⟨t', lab', rfl, hk, fun _ => ?_, .inl⟩
    by_cases hv : idxPml4 g.virt = 511
    · exact hK.share hS hv hmap
    · rwa [hmap.unique (hown hv x hfound)]

end

/-! ### All rounds -/

theorem Keeps.mapsTo_space (hk : Keeps B lab lab' t t') (hS : IsSpace B lab t S)
    (h : MapsTo t S v x) : MapsTo t' S v x := by
  obtain ⟨⟨o, hlabel⟩, -, -⟩ := hS
  exact hk.mapsTo hlabel h

section

variable {S : ℕ} (houts : ∀ i, Outside (ls i).map.pd ∧ Outside (ls i).map.pt)
include houts

theorem wlp_insertGlobals (gs : List GlobMapping) (i : ℕ) (lab : ℕ → Option Label) (t : Tables)
    (h : Labelled B lab t) (hK : IsSpace B lab t K) (hS : IsSpace B lab t S)
    (hgs : ∀ g ∈ gs, g.Ok ∧ MapsTo t K g.virt g.phys)
    (hown : ∀ v x, idxPml4 v ≠ 0 → idxPml4 v ≠ 511 → MapsTo t S v x → MapsTo t K v x) :
    wlp (insertGlobals (slots B) ls S i gs) (fun _ s' => ∃ t' lab', s' = ⟨t', fun _ => 0⟩ ∧
      Keeps B lab lab' t t' ∧ ∀ g ∈ gs, MapsTo t' S g.virt g.phys) ⟨t, fun _ => 0⟩ := by
  induction gs generalizing i lab t with
  | nil => exact wlp_pure ⟨t, lab, rfl, (Enlarged.refl h).keeps h, by simp⟩
  | cons g gs ih =>
    obtain ⟨hg, hmap⟩ := hgs g mem_cons_self
    refine wlp_seq (wlp_insertGlobal h hK hS (houts i).1 (houts i).2 hg hmap
      fun hv x => hown g.virt x hg.upper hv) ?_
    rintro _ _ ⟨t1, lab1, rfl, hres⟩
    have hk := hres.toKeeps
    have hS1 := hS.keeps hk
    refine wlp_mono (ih (i + 1) lab1 t1 hk.tables (hK.keeps hk) hS1 (fun g' hg' => ?_) ?_) ?_
    · obtain ⟨hok, hm⟩ := hgs g' (mem_cons_of_mem _ hg')
      exact ⟨hok, hk.mapsTo_space hK hm⟩
    · intro v x h0 h511 hm
      rcases hres.only hm with hm | ⟨hv, rfl⟩
      · exact hk.mapsTo_space hK (hown v x h0 h511 hm)
      · exact (hk.mapsTo_space hK hmap).of_pageNo hv
    · rintro _ _ ⟨t', lab', rfl, hk', hall⟩
      refine ⟨t', lab', rfl, hk.trans hk', fun g' hg' => ?_⟩
      rcases mem_cons.1 hg' with rfl | hg'
      · exact hk'.mapsTo_space hS1 (hres.mapped rfl)
      · exact hall g' hg'

/-- The pages that the rounds add are registered ones. -/
theorem wlp_insertGlobals_adds (hdvd : pageSize4K ∣ S) (gs : List GlobMapping) (i : ℕ)
    (lab : ℕ → Option Label) (t : Tables) (h : Labelled B lab t) (hr : lab S = some (o, []))
    (hgs : ∀ g ∈ gs, g.Ok ∧ pageSize4K ∣ g.phys) :
    wlp (insertGlobals (slots B) ls S i gs) (fun _ s' => ∃ t' lab', s' = ⟨t', fun _ => 0⟩ ∧
      Keeps B lab lab' t t' ∧
      Adds (fun a j e => ∃ g ∈ gs, NewPage o g.phys g.virt true a j e) lab lab' t t')
      ⟨t, fun _ => 0⟩ := by
  induction gs generalizing i lab t with
  | nil => exact wlp_pure ⟨t, lab, rfl, (Enlarged.refl h).keeps h, .refl⟩
  | cons g gs ih =>
    obtain ⟨hg, hphys⟩ := hgs g mem_cons_self
    refine wlp_seq (wlp_insertPage h hr hdvd (houts i).1 (houts i).2 hg hphys) ?_
    rintro _ _ ⟨t1, lab1, rfl, hk, hadds, -⟩
    refine wlp_mono (ih (i + 1) lab1 t1 hk.tables (hk.label hr)
      fun g' hg' => hgs g' (mem_cons_of_mem _ hg')) ?_
    rintro _ _ ⟨t', lab', rfl, hk', hadds'⟩
    refine ⟨t', lab', rfl, hk.trans hk', ?_⟩
    refine (hadds.mono fun a j e hnew => ?_).trans (hadds'.mono fun a j e hnew => ?_) hk.pmem
    · exact ⟨g, mem_cons_self, hnew⟩
    · obtain ⟨g', hg', hnew⟩ := hnew
      exact ⟨g', mem_cons_of_mem _ hg', hnew⟩

end

theorem Rooted.keeps (h : Rooted B lab t) (hk : Keeps B lab lab' t t') : Rooted B lab' t' :=
  ⟨hk.tables, hk.label h.pdpt, hk.label h.low, h.pdpt_dvd, h.low_dvd⟩

/-- `spc_new` is the loop on fresh tables. -/
theorem wlp_spcNew_of_rounds (h : Labelled B lab t)
    (hrounds : ∀ {S p₁ p₂ pmem}, t.pmem = S :: p₁ :: p₂ :: pmem →
      wlp (insertGlobals (slots B) ls S 0 gs) (fun _ => Q S)
        ⟨newTables B t S p₁ p₂ pmem, fun _ => 0⟩) :
    wlp (spcNew (slots B) B ls gs) Q ⟨t, fun _ => 0⟩ := by
  have hready : Ready 3 fun _ => 0 := ready_empty.mono (by omega)
  have htemp : ∀ y ∈ t.pmem, y ≠ B.ptTemp := by
    rintro y hy rfl
    have := (h.fresh _ hy).1
    rw [h.slots] at this
    cases this
  have htake : ends (direct B).pmemAlloc (fun S t1 => ∃ pmem, t.pmem = S :: pmem ∧
      t1 = { t with pmem := pmem }) Starved t :=
    ends_pmemAlloc (fun _ => .inl rfl) fun S pmem hp => ⟨pmem, hp, rfl⟩
  refine wlp_seq (wlp_of_rel pmemAlloc_rel htake not_starved_undefined) ?_
  rintro S _ ⟨_, _, ⟨rfl, rfl⟩, pmem0, hpmem0, rfl⟩
  obtain ⟨-, h0, hdvd⟩ := h.fresh S (hpmem0 ▸ mem_cons_self)
  refine wlp_ite (fun hz => absurd hz h0) fun _ => ?_
  have hfixed := ends_fixedTables (t := { t with pmem := pmem0 }) hdvd
    (htemp S (hpmem0 ▸ mem_cons_self)) fun y hy => by
      have hy' : y ∈ t.pmem := hpmem0 ▸ mem_cons_of_mem _ hy
      exact ⟨(h.fresh y hy').2.1, (h.fresh y hy').2.2, htemp y hy'⟩
  refine wlp_bind (wlp_seq (wlp_of_rel (fixedTables_rel hready) hfixed not_starved_undefined) ?_)
  rintro _ s1 ⟨_, t1, ⟨rfl, hs1⟩, rfl, p₁, p₂, pmem, hp, rfl⟩
  obtain rfl := hs1 rfl
  have hpmem : t.pmem = S :: p₁ :: p₂ :: pmem := by
    rw [hpmem0, show pmem0 = p₁ :: p₂ :: pmem from hp]
  refine wlp_seq (hrounds hpmem) fun _ s' hQ => wlp_pure ?_
  exact wlp_pure hQ

/-- **`spc_new`**: the new address space has all registered pages. -/
theorem wlp_spcNew (h : Rooted B lab t) (hK : IsSpace B lab t K)
    (houts : ∀ i, Outside (ls i).map.pd ∧ Outside (ls i).map.pt)
    (hgs : ∀ g ∈ gs, g.Ok ∧ MapsTo t K g.virt g.phys) :
    wlp (spcNew (slots B) B ls gs) (fun sp s' => ∃ t' lab', s' = ⟨t', fun _ => 0⟩ ∧
      Keeps B lab lab' t t' ∧ IsSpace B lab' t' sp ∧ ∀ g ∈ gs, MapsTo t' sp g.virt g.phys)
      ⟨t, fun _ => 0⟩ := by
  refine wlp_spcNew_of_rounds h.toLabelled fun {S p₁ p₂ pmem} hpmem => ?_
  obtain ⟨hk, -, hS, hempty, -⟩ := h.new_space hpmem
  refine wlp_mono (wlp_insertGlobals houts gs 0 _ (newTables B t S p₁ p₂ pmem) hk.tables
    (hK.keeps hk) hS (fun g hg => ⟨(hgs g hg).1, hk.mapsTo_space hK (hgs g hg).2⟩) ?_) ?_
  · intro v x h0 h511 hm
    rcases hempty hm with hv | hv
    · exact absurd hv h0
    · exact absurd hv h511
  · rintro _ _ ⟨t', lab', rfl, hk', hall⟩
    exact ⟨t', lab', rfl, hk.trans hk', hS.keeps hk', hall⟩

/-- The way to low memory in a new address space. -/
theorem newTables_low {p₁ p₂ : ℕ} {pmem : List ℕ} (hpmem : t.pmem = S :: p₁ :: p₂ :: pmem)
    (h : Labelled B lab t) (hlow : pageSize4K ∣ B.ptLow) :
    Way (newTables B t S p₁ p₂ pmem) S 0 p₁ p₂ B.ptLow := by
  have hnodup := h.nodup
  have hfresh := h.fresh
  rw [hpmem] at hnodup hfresh
  simp only [nodup_cons, mem_cons, not_or] at hnodup
  refine ⟨?_, ?_, ?_⟩
  · rw [newTables_pml4 hnodup.1.1 hnodup.1.2.1]
    exact child_ngFlags (hfresh p₁ (by simp)).2.2 (by decide)
  · rw [newTables_pdpt hnodup.2.1.1]
    exact child_ngFlags (hfresh p₂ (by simp)).2.2 (by decide)
  · rw [newTables_pd]
    exact child_ngFlags hlow (by decide)

/-- The pages in a new address space: the large page of low memory, and registered ones. -/
def SpacePage (S : ℕ) (gs : List GlobMapping) (a : Label) (i e : ℕ) : Prop :=
  (a = (some S, [0, 0]) ∧ i = 1) ∨ ∃ g ∈ gs, NewPage (some S) g.phys g.virt true a i e

theorem wlp_spcNew_adds (h : Rooted B lab t)
    (houts : ∀ i, Outside (ls i).map.pd ∧ Outside (ls i).map.pt)
    (hgs : ∀ g ∈ gs, g.Ok ∧ pageSize4K ∣ g.phys) :
    wlp (spcNew (slots B) B ls gs) (fun sp s' => ∃ t' lab', s' = ⟨t', fun _ => 0⟩ ∧
      Keeps B lab lab' t t' ∧ Adds (SpacePage sp gs) lab lab' t t' ∧ IsSpace B lab' t' sp ∧
      lab' sp = some (some sp, []) ∧ sp ∈ t.pmem ∧ ∃ p₁ p₂, Way t' sp 0 p₁ p₂ B.ptLow)
      ⟨t, fun _ => 0⟩ := by
  refine wlp_spcNew_of_rounds h.toLabelled fun {S p₁ p₂ pmem} hpmem => ?_
  obtain ⟨hk, hlabel, hS, -, hadds⟩ := h.new_space hpmem
  have hlow := newTables_low hpmem h.toLabelled h.low_dvd
  refine wlp_mono (wlp_insertGlobals_adds houts hS.aligned gs 0 _ (newTables B t S p₁ p₂ pmem) hk.tables
    hlabel hgs) ?_
  rintro _ _ ⟨t', lab', rfl, hk', hadds'⟩
  exact ⟨t', lab', rfl, hk.trans hk', (hadds.mono fun _ _ _ => .inl).trans
    (hadds'.mono fun _ _ _ => .inr) hk.pmem, hS.keeps hk', hk'.label hlabel,
    hpmem ▸ mem_cons_self, p₁, p₂, hk.tables.way_keep hk'.child hlabel hlow⟩

end Tachyon.Vmem
