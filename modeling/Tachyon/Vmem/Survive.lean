import Tachyon.Vmem.Clobber
import Tachyon.Vmem.Global

/-!
# Global pages and deleted address spaces

What becomes of registered pages when address spaces and kernel stacks go.  `spc_delete` spares the
PDPT of the kernel only, but `spc_new` copies registered pages of other regions into tables of the
new address space: the kernel heap and the UAPI.  `stka_free` releases the pages of a kernel stack,
which stay registered.

* `Config.live`: growth of the kernel, the UAPI, address spaces that come and go with pages of their
  own, kernel stacks that go, and frames that are used again, in any order;
* `LifeMet`: the condition on a run; `Life`: the invariant, `Life.next`;
* `globals_survive_run`: no registered page is freed, and no page twice.
-/

namespace Tachyon.Vmem

open Prog Machine List

/-! ### The source -/

section Code

variable {σ : Type} (A : Access σ)

/-- The loop of `stka_free`, for `n` pages from `m` on. -/
def stkaFreePages (ls : ℕ → Locals × Locals) (space : ℕ) : ℕ → ℕ → Prog σ Unit
  | 0, _ => pure ()
  | n + 1, m => do
    let p ← vmemResolve A (ls m).1 space m
    if p ≠ 0 then A.pmemFree p pageSize4K else pure ()
    let _ ← vmemUnmap A (ls m).2 space m
    stkaFreePages ls space n (m + pageSize4K)

/-- `stka_free`, as far as pages go. -/
def stkaFree (ls : ℕ → Locals × Locals) (space mapped top : ℕ) : Prog σ Unit :=
  stkaFreePages A ls space ((top - mapped + (pageSize4K - 1)) / pageSize4K) mapped

end Code

/-! ### The machine -/

/-- The flags of UAPI pages. -/
def uapiFlags : ℕ := pgUser ||| pgGlobal

/-- What happens to pages and address spaces. -/
inductive LifeEvent
  /-- Growth of the kernel, registrations, and new address spaces. -/
  | kernel (e : Event)
  /-- One round of `_uapi_map_from_to`. -/
  | uapi (l : Locals) (phys virt : ℕ)
  /-- `vmem_map` in an address space: a frame from `pmem_alloc`, or the given one. -/
  | map (l : Locals) (S : ℕ) (phys : Option ℕ) (virt flags : ℕ)
  /-- `stka_free` of a kernel stack. -/
  | stkaFree (ls : ℕ → Locals × Locals) (mapped top : ℕ)
  | spcDelete (S : ℕ)
  /-- The frames that `pmem_alloc` will return from now on; what was freed may be among them. -/
  | recycle (frames : List ℕ)

/-- The configuration behind an event.  A call that does not return ends the run. -/
def Config.live (B : Boot) (kernel : ℕ) : LifeEvent → Config → Option Config
  | .kernel e, c => Config.next B kernel e c
  | .uapi l phys virt, c =>
    match vmemMap (slots B) l kernel phys virt uapiFlags c.vm with
    | .ok (_, vm) => some { c with vm := vm, globals := c.globals ++ [⟨phys, virt, uapiFlags⟩] }
    | .error _ => none
  | .map l S none virt flags, c =>
    if S ∈ c.spaces then
      match growPage (slots B) l S virt flags c.vm with
      | .ok (_, vm) => some { c with vm := vm }
      | .error _ => none
    else none
  | .map l S (some phys) virt flags, c =>
    if S ∈ c.spaces then
      match vmemMap (slots B) l S phys virt flags c.vm with
      | .ok (_, vm) => some { c with vm := vm }
      | .error _ => none
    else none
  | .stkaFree ls mapped top, c =>
    match Vmem.stkaFree (slots B) ls kernel mapped top c.vm with
    | .ok (_, vm) => some { c with vm := vm }
    | .error _ => none
  | .spcDelete S, c =>
    if S ∈ c.spaces then
      match Vmem.spcDelete (slots B) B S c.vm with
      | .ok (_, vm) => some { c with vm := vm, spaces := c.spaces.filter (· ≠ S) }
      | .error _ => none
    else none
  | .recycle frames, c =>
    some { c with vm := ⟨{ c.vm.tables with pmem := frames, freed := [] }, c.vm.mapspace⟩ }

/-- The tables of the address are shared by all address spaces. -/
def Shared (virt : ℕ) : Prop :=
  idxPml4 virt = 511 ∨ [idxPd virt, idxPdpt virt, idxPml4 virt] = [0, 0, 0]

/-- The condition on a run.  Address spaces are given small pages with frames from `pmem_alloc`.  An
address space that is deleted has no registered page in tables of its own, and a kernel stack that is
freed has no pages.  The UAPI is in the frames `image`. -/
def LifeMet (image : Set ℕ) : LifeEvent → Config → Prop
  | .kernel (.grow _ region virt), _ => region.Holds virt
  | .kernel .register, _ => True
  | .kernel (.spcNew ls), _ => ∀ i, Outside (ls i).map.pd ∧ Outside (ls i).map.pt
  | .uapi _ phys virt, _ =>
    phys ∈ image ∧ pageSize4K ∣ phys ∧ pheapEnd ≤ virt ∧ virt < 0x0000700000000000
  | .map _ _ phys virt flags, _ =>
    phys = none ∧ OffWindow virt ∧ flags < 2 ^ 12 ∧ isLarge flags = false
  | .stkaFree _ mapped top, _ => top ≤ mapped
  | .spcDelete S, c => ∀ g ∈ c.pending ++ c.globals, ∀ v, MapsTo c.vm.tables S v g.phys → Shared v
  | .recycle frames, c => frames.Nodup ∧ ∀ f ∈ frames, f ∈ c.vm.tables.pmem ∨
      (f, pageSize4K) ∈ c.vm.tables.freed

variable {B : Boot} {t t' : Tables} {lab lab' : ℕ → Option Label} {o : Option ℕ} {image : Set ℕ}
  {P : Label → ℕ → ℕ → Prop} {gs gs' : List GlobMapping} {a : Label}
  {S f i x v phys virt flags kernel : ℕ} {p : List ℕ} {l : Locals} {c c' : Config}

/-! ### Pages with owners -/

/-- The frame has no label, and `pmem_alloc` will not return it. -/
structure Spared (lab : ℕ → Option Label) (t : Tables) (f : ℕ) : Prop where
  label : lab f = none
  pmem : f ∉ t.pmem

theorem Spared.adds (h : Spared lab t f) (hadds : Adds P lab lab' t t')
    (hpmem : t'.pmem <:+ t.pmem) : Spared lab' t' f where
  label := by
    cases hlab : lab' f with
    | none => rfl
    | some a =>
      rcases hadds.new hlab with hold | hmem
      · rw [h.label] at hold
        cases hold
      · exact absurd hmem h.pmem
  pmem hmem := h.pmem (hpmem.mem hmem)

/-- Every page in a table that is not shared has a label that says so, or is registered.  The only
large page is that of low memory. -/
def Paged (lab : ℕ → Option Label) (gs : List GlobMapping) (t : Tables) : Prop :=
  ∀ f S p i, lab f = some (some S, p) → Page p.length (t.table f i) →
    (p = [0, 0] ∧ i = 1) ∨ p.length = 3 ∧
      (lab (entryAddr (t.table f i)) = some (some S, i :: p) ∨
        ∃ g ∈ gs, g.phys = entryAddr (t.table f i))

theorem Paged.adds (h : Paged lab gs t) (hadds : Adds P lab lab' t t')
    (hlabel : ∀ {f a}, lab f = some a → lab' f = some a) (hgs : gs ⊆ gs')
    (hP : ∀ S p i e, P (some S, p) i e → (p = [0, 0] ∧ i = 1) ∨ p.length = 3 ∧
      (lab' (entryAddr e) = some (some S, i :: p) ∨ ∃ g ∈ gs', g.phys = entryAddr e)) :
    Paged lab' gs' t' := by
  intro f S p i hf hp
  rcases hadds.page hf hp with ⟨hf, heq⟩ | hnew
  · rw [heq] at hp ⊢
    refine (h f S p i hf hp).imp id (And.imp id ?_)
    rintro (hlab | ⟨g, hg, hphys⟩)
    · exact .inl (hlabel hlab)
    · exact .inr ⟨g, hgs hg, hphys⟩
  · exact hP S p i _ hnew

theorem pageLabel_length (o : Option ℕ) (virt : ℕ) : (pageLabel o virt).2.length = 4 := rfl

theorem NewPage.length {ok : Bool} {e : ℕ} (h : NewPage o phys virt ok a i e) :
    a.2.length = 3 := by
  have hlen := congrArg (fun b : Label => b.2.length) h.2.1
  simp only [pageLabel_length, Label.next, length_cons] at hlen
  omega

/-- The page table of a shared address has no owner. -/
theorem Shared.label (h : Shared v) (o : Option ℕ) : (tableLabel o v).1 = none := by
  unfold tableLabel Label.next
  rcases h with h | h
  · simp [h]
  · simp only [cons.injEq, and_true] at h
    simp [h]

/-! ### The way of the walk -/

theorem exists_virt {i1 i2 i3 i4 : ℕ} (h1 : i1 < 512) (h2 : i2 < 512) (h3 : i3 < 512)
    (h4 : i4 < 512) : ∃ v, idxPt v = i1 ∧ idxPd v = i2 ∧ idxPdpt v = i3 ∧ idxPml4 v = i4 := by
  refine ⟨(((i4 * 512 + i3) * 512 + i2) * 512 + i1) * 4096, ?_⟩
  simp only [idxPml4, idxPdpt, idxPd, idxPt, idx_eq]
  omega

theorem Reach.cons (h : Reach t S (i :: p) f) :
    ∃ g, Reach t S p g ∧ i < 512 ∧ child p.length (t.table g i) = some f := by
  cases h with
  | step h hi hchild => exact ⟨_, h, hi, hchild⟩

theorem Reach.root_eq (h : Reach t S [] f) : f = S := by
  cases h
  rfl

/-- A page that the walk reaches has an address. -/
theorem Reach.way (h : Reach t S p f) (hp : p.length = 3) (hi : i < 512) :
    ∃ v f1 f2, Way t S v f1 f2 f ∧ idxPt v = i := by
  obtain ⟨i2, i3, i4, rfl⟩ := length_eq_three.1 hp
  obtain ⟨f2, h2, hi2, hpt⟩ := h.cons
  obtain ⟨f1, h1, hi3, hpd⟩ := h2.cons
  obtain ⟨r, h0, hi4, hpdpt⟩ := h1.cons
  obtain rfl := h0.root_eq
  obtain ⟨v, rfl, rfl, rfl, rfl⟩ := exists_virt hi hi2 hi3 hi4
  exact ⟨v, f1, f2, ⟨hpdpt, hpd, hpt⟩, rfl⟩

/-! ### The invariant -/

/-- An address space with its tables. -/
structure LiveSpace (B : Boot) (lab : ℕ → Option Label) (t : Tables) (S : ℕ) : Prop extends
    IsSpace B lab t S where
  own : lab S = some (some S, [])
  low : ∃ p₁ p₂, Way t S 0 p₁ p₂ B.ptLow

theorem LiveSpace.keeps (h : LiveSpace B lab t S) (ht : Labelled B lab t)
    (hk : Keeps B lab lab' t t') : LiveSpace B lab' t' S := by
  obtain ⟨p1, p2, hlow⟩ := h.low
  exact ⟨h.toIsSpace.keeps hk, hk.label h.own, p1, p2, ht.way_keep hk.child h.own hlow⟩

/-- The frame is not among the freed ones. -/
def Unfreed (t : Tables) (f : ℕ) : Prop := f ∉ t.freed.map Prod.fst

/-- Frames are owned by at most one address space, and registered pages by none. -/
structure Life (B : Boot) (kernel : ℕ) (image : Set ℕ) (lab : ℕ → Option Label) (c : Config) :
    Prop where
  slots : c.vm.mapspace = fun _ => 0
  rooted : Rooted B lab c.vm.tables
  spaces : ∀ S ∈ kernel :: c.spaces, LiveSpace B lab c.vm.tables S
  kernel : kernel ∉ c.spaces
  image : ∀ f ∈ image, Spared lab c.vm.tables f ∧ Unfreed c.vm.tables f
  registered : ∀ g ∈ c.pending ++ c.globals, g.Ok ∧ pageSize4K ∣ g.phys ∧
    Spared lab c.vm.tables g.phys ∧ Unfreed c.vm.tables g.phys
  pages : Paged lab (c.pending ++ c.globals) c.vm.tables
  frames : ∀ {f S p}, lab f = some (some S, p) → f ≠ 0 ∧ pageSize4K ∣ f
  freed : ∀ r ∈ c.vm.tables.freed, r.2 = pageSize4K ∧ r.1 ≠ 0 ∧ pageSize4K ∣ r.1 ∧
    Spared lab c.vm.tables r.1
  nodup : (c.vm.tables.freed.map Prod.fst).Nodup

section

variable (h : Life B kernel image lab c)
include h

theorem Life.vm_eq : c.vm = ⟨c.vm.tables, fun _ => 0⟩ := by
  rw [← h.slots]

/-- More tables and pages, which are registered or have an owner. -/
theorem Life.adds (hk : Keeps B lab lab' c.vm.tables t') (hadds : Adds P lab lab' c.vm.tables t')
    (hvm : c'.vm = ⟨t', fun _ => 0⟩)
    (hspaces : ∀ S ∈ c'.spaces, S ∈ c.spaces ∨ LiveSpace B lab' t' S ∧ S ≠ kernel)
    (hsub : c.pending ++ c.globals ⊆ c'.pending ++ c'.globals)
    (hreg : ∀ g ∈ c'.pending ++ c'.globals, g ∈ c.pending ++ c.globals ∨
      g.Ok ∧ pageSize4K ∣ g.phys ∧ Spared lab' t' g.phys ∧ Unfreed t' g.phys)
    (hP : ∀ S p i e, P (some S, p) i e → (p = [0, 0] ∧ i = 1) ∨ p.length = 3 ∧
      (lab' (entryAddr e) = some (some S, i :: p) ∨
        ∃ g ∈ c'.pending ++ c'.globals, g.phys = entryAddr e)) :
    Life B kernel image lab' c' := by
  have hspared : ∀ {f}, Spared lab c.vm.tables f → Spared lab' t' f :=
    fun hf => hf.adds hadds hk.pmem
  have hunfreed : ∀ {f}, Unfreed c.vm.tables f → Unfreed t' f := fun hf => by
    rwa [Unfreed, hadds.freed]
  obtain ⟨vm, spaces', pending', globals'⟩ := c'
  obtain rfl : vm = _ := hvm
  refine ⟨rfl, ?_, fun S hS => ?_, fun hmem => ?_, fun f hf => ?_, fun g hg => ?_, ?_,
    fun {f S p} hf => ?_, fun r hr => ?_, ?_⟩
  · exact h.rooted.keeps hk
  · have hold : ∀ {S}, S ∈ kernel :: c.spaces → LiveSpace B lab' t' S :=
      fun hS => (h.spaces _ hS).keeps h.rooted.toLabelled hk
    rcases mem_cons.1 hS with rfl | hS
    · exact hold mem_cons_self
    · rcases hspaces S hS with hS | hS
      · exact hold (mem_cons_of_mem _ hS)
      · exact hS.1
  · rcases hspaces kernel hmem with hS | hS
    · exact h.kernel hS
    · exact hS.2 rfl
  · exact ⟨hspared (h.image f hf).1, hunfreed (h.image f hf).2⟩
  · rcases hreg g hg with hg | hg
    · obtain ⟨hok, hdvd, hs, hu⟩ := h.registered g hg
      exact ⟨hok, hdvd, hspared hs, hunfreed hu⟩
    · exact hg
  · exact h.pages.adds hadds hk.label hsub hP
  · rcases hadds.new hf with hf | hmem
    · exact h.frames hf
    · exact (h.rooted.fresh f hmem).2
  · obtain ⟨hlen, h0, hdvd, hs⟩ := h.freed r (hadds.freed ▸ hr)
    exact ⟨hlen, h0, hdvd, hspared hs⟩
  · rw [hadds.freed]
    exact h.nodup

/-- A frame that `pmem_alloc` will return is not among the freed ones. -/
theorem Life.unfreed (hf : f ∈ c.vm.tables.pmem) : Unfreed c.vm.tables f := by
  intro hmem
  obtain ⟨r, hr, rfl⟩ := mem_map.1 hmem
  exact (h.freed r hr).2.2.2.pmem hf

end

/-! ### The events -/

section

variable (h : Life B kernel image lab c)
include h

theorem Life.grow {region : Region} (hmet : region.Holds virt)
    (hnext : Config.next B kernel (.grow l region virt) c = some c') :
    ∃ lab', Life B kernel image lab' c' := by
  have hK := h.spaces kernel mem_cons_self
  have hok := Region.Holds.ok hmet
  have hgrow := Labelled.ends_growPage (l := l) none h.rooted.toLabelled hK.own hK.aligned
    (hok 0).window (hok 0).flags (hok 0).small (by simp)
  have hspec := wlp_of_rel (growPage_rel (l := l) ready_empty spare_empty spare_empty) hgrow
    not_starved_undefined
  simp only [Config.next] at hnext
  split at hnext
  · rename_i phys vm hrun
    rw [h.vm_eq] at hrun
    obtain ⟨_, t', ⟨rfl, rfl⟩, lab', _, hmem, hres, hlab, hgone, hk, hadds⟩ := hspec _ _ hrun
    obtain ⟨heq, -⟩ := hres.resolve_left (by simp)
    cases heq
    cases hnext
    refine ⟨lab', h.adds hk hadds rfl (fun _ => .inl) (subset_cons_self _ _) ?_ ?_⟩
    · intro g hg
      rcases mem_cons.1 hg with rfl | hg
      · refine .inr ⟨hok phys, (h.rooted.fresh phys hmem).2.2, ⟨hlab, hgone⟩, ?_⟩
        rw [Unfreed, hadds.freed]
        exact h.unfreed hmem
      · exact .inl hg
    · intro S p i e hnew
      exact .inr ⟨hnew.length, .inr ⟨_, mem_cons_self, hnew.2.2.symm⟩⟩
  · rename_i vm hrun
    rw [h.vm_eq] at hrun
    obtain ⟨_, t', ⟨rfl, rfl⟩, lab', phys, -, -, -, -, hk, hadds⟩ := hspec _ _ hrun
    cases hnext
    refine ⟨lab', h.adds hk hadds rfl (fun _ => .inl) (List.Subset.refl _) (fun _ => .inl) ?_⟩
    intro S p i e hnew
    exact absurd hnew.1 (by simp)
  · cases hnext

theorem Life.register (hnext : Config.next B kernel .register c = some c') :
    Life B kernel image lab c' := by
  obtain ⟨vm, spaces, pending, globals⟩ := c
  cases pending with
  | nil => cases hnext
  | cons g pending =>
    cases hnext
    have hmem : ∀ g', g' ∈ pending ++ (globals ++ [g]) ↔ g' ∈ g :: pending ++ globals := by
      intro g'
      simp only [mem_append, mem_cons, not_mem_nil, or_false]
      tauto
    exact h.adds (P := fun _ _ _ => False)
      ((Enlarged.refl h.rooted.toLabelled).keeps h.rooted.toLabelled) .refl h.vm_eq
      (fun _ => .inl) (fun g' hg' => (hmem g').2 hg') (fun g' hg' => .inl ((hmem g').1 hg'))
      fun _ _ _ _ hfalse => hfalse.elim

theorem Life.spcNew {ls : ℕ → RoundLocals}
    (hmet : ∀ i, Outside (ls i).map.pd ∧ Outside (ls i).map.pt)
    (hnext : Config.next B kernel (.spcNew ls) c = some c') :
    ∃ lab', Life B kernel image lab' c' := by
  have hglobals : ∀ g ∈ c.globals, g.Ok ∧ pageSize4K ∣ g.phys := fun g hg => by
    obtain ⟨hok, hdvd, -⟩ := h.registered g (mem_append_right _ hg)
    exact ⟨hok, hdvd⟩
  have hspec := wlp_spcNew_adds h.rooted hmet hglobals
  simp only [Config.next] at hnext
  split at hnext
  · rename_i sp vm hrun
    rw [h.vm_eq] at hrun
    obtain ⟨t', lab', rfl, hk, hadds, hS, hown, hmem, hlow⟩ := hspec _ _ hrun
    obtain ⟨hnone, h0, -⟩ := h.rooted.fresh sp hmem
    rw [if_neg h0] at hnext
    cases hnext
    refine ⟨lab', h.adds hk hadds rfl (fun S hS' => ?_) (List.Subset.refl _) (fun _ => .inl) ?_⟩
    · rcases mem_cons.1 hS' with rfl | hS'
      · refine .inr ⟨⟨hS, hown, hlow⟩, ?_⟩
        rintro rfl
        rw [(h.spaces S mem_cons_self).own] at hnone
        cases hnone
      · exact .inl hS'
    · rintro S p i e (⟨heq, hi⟩ | ⟨g, hg, hnew⟩)
      · cases heq
        exact .inl ⟨rfl, hi⟩
      · exact .inr ⟨hnew.length, .inr ⟨g, mem_append_right _ hg, hnew.2.2.symm⟩⟩
  · cases hnext

theorem Life.uapi (hphys : phys ∈ image) (hdvd : pageSize4K ∣ phys) (hlo : pheapEnd ≤ virt)
    (hhi : virt < 0x0000700000000000)
    (hnext : Config.live B kernel (.uapi l phys virt) c = some c') :
    ∃ lab', Life B kernel image lab' c' := by
  have hK := h.spaces kernel mem_cons_self
  have hok : GlobMapping.Ok ⟨phys, virt, uapiFlags⟩ := by
    unfold pheapEnd at hlo
    refine ⟨(by decide : uapiFlags < 2 ^ 12), (by decide : isLarge uapiFlags = false),
      fun hwin => ?_, fun h0 => ?_⟩
    · simp only [idxPd, idxPdpt, idxPml4, idx_eq, cons.injEq, and_true] at hwin
      omega
    · simp only [idxPml4, idx_eq] at h0
      omega
  have hmap := h.rooted.ends_map (l := l) hK.own hK.aligned hok.window hdvd hok.flags hok.small
  have hspec := wlp_of_rel (vmemMap_rel (l := l) ready_empty spare_empty spare_empty) hmap
    not_starved_undefined
  simp only [Config.live] at hnext
  split at hnext
  · rename_i ok vm hrun
    rw [h.vm_eq] at hrun
    obtain ⟨_, t', ⟨rfl, rfl⟩, lab', hres, hadds⟩ := hspec _ _ hrun
    cases hnext
    have hk := hres.toKeeps
    refine ⟨lab', h.adds hk hadds rfl (fun _ => .inl) (fun g hg => ?_) (fun g hg => ?_) ?_⟩
    · simp only [mem_append] at hg ⊢
      tauto
    · simp only [mem_append, mem_singleton] at hg
      rcases hg with hg | hg | rfl
      · exact .inl (mem_append_left _ hg)
      · exact .inl (mem_append_right _ hg)
      · obtain ⟨hs, hu⟩ := h.image phys hphys
        refine .inr ⟨hok, hdvd, hs.adds hadds hk.pmem, ?_⟩
        rwa [Unfreed, hadds.freed]
    · intro S p i e hnew
      exact .inr ⟨hnew.length, .inr ⟨⟨phys, virt, uapiFlags⟩, by simp, hnew.2.2.symm⟩⟩
  · cases hnext

theorem Life.map (hv : OffWindow virt) (hflags : flags < 2 ^ 12) (hsmall : isLarge flags = false)
    (hnext : Config.live B kernel (.map l S none virt flags) c = some c') :
    ∃ lab', Life B kernel image lab' c' := by
  simp only [Config.live] at hnext
  split_ifs at hnext with hmem
  have hS := h.spaces S (mem_cons_of_mem _ hmem)
  have hgrow := Labelled.ends_growPage (l := l) (some (pageLabel (some S) virt))
    h.rooted.toLabelled hS.own hS.aligned hv hflags hsmall (by simp [pageLabel_length])
  have hspec := wlp_of_rel (growPage_rel (l := l) ready_empty spare_empty spare_empty) hgrow
    not_starved_undefined
  split at hnext
  · rename_i res vm hrun
    rw [h.vm_eq] at hrun
    obtain ⟨_, t', ⟨rfl, rfl⟩, lab', phys, -, -, hlab, -, hk, hadds⟩ := hspec _ _ hrun
    cases hnext
    refine ⟨lab', h.adds hk hadds rfl (fun _ => .inl) (List.Subset.refl _) (fun _ => .inl) ?_⟩
    -- the frame is the page of the address space
    intro S' p i e hnew
    have hlen : p.length = 3 := hnew.length
    refine .inr ⟨hlen, .inl ?_⟩
    rw [hnew.2.2, hlab, ← hnew.2.1, Label.next, if_neg]
    rintro (heq | heq) <;> exact absurd (congrArg length heq) (by simp [hlen])
  · cases hnext

/-- An address space without registered pages of its own owns what the walk finds. -/
theorem Life.owned (hS : S ∈ c.spaces) (hmet : LifeMet image (.spcDelete S) c) :
    Owned B lab S c.vm.tables := by
  have hlive := h.spaces S (mem_cons_of_mem _ hS)
  obtain ⟨p1, p2, hlow⟩ := hlive.low
  refine ⟨h.rooted, hlive.own, hlive.aligned, hlive.shared, fun hreach => ?_,
    fun {p f i} hreach hf hi hp => ?_, fun hf => (h.frames hf).1⟩
  · obtain ⟨f1, h1, -, hpd⟩ := hreach.cons
    obtain ⟨r, h0, -, hpdpt⟩ := h1.cons
    obtain rfl := h0.root_eq
    obtain rfl : p1 = f1 := Option.some.inj (hlow.pdpt.symm.trans hpdpt)
    obtain rfl : p2 = _ := Option.some.inj (hlow.pd.symm.trans hpd)
    exact hlow.pt
  · refine (h.pages f S p i hf hp).imp id ?_
    rintro ⟨hlen, hown⟩
    refine ⟨hlen, hown.resolve_right ?_⟩
    rintro ⟨g, hg, hphys⟩
    obtain ⟨v, f1, f2, hway, rfl⟩ := hreach.way hlen hi
    have hshared := hmet g hg v ⟨f1, f2, f, hway, hp.2.1, hphys.symm⟩
    -- the page table has an owner
    have hlabel := h.rooted.way_pt hlive.own hway
    rw [hf] at hlabel
    have hnone := hshared.label (some S)
    rw [← Option.some.inj hlabel] at hnone
    cases hnone

end

/-- The labels without those of an address space. -/
def dropLabels (lab : ℕ → Option Label) (S f : ℕ) : Option Label :=
  (lab f).filter fun a => a.1 ≠ some S

theorem dropLabels_eq_some : dropLabels lab S f = some a ↔ lab f = some a ∧ a.1 ≠ some S := by
  rw [dropLabels, Option.filter_eq_some_iff]
  simp

theorem dropLabels_owner {q : List ℕ} (h : lab f = some (some S, q)) :
    dropLabels lab S f = none := by
  rw [dropLabels, h, Option.filter_some, if_neg (by simp)]

theorem dropLabels_none (h : lab f = none) : dropLabels lab S f = none := by
  rw [dropLabels, h, Option.filter_none]

section

variable (h : Deleted lab S t t')
include h

/-- The tables of the other address spaces are as before. -/
theorem Deleted.table_eq (hf : dropLabels lab S f = some a) : t'.table f = t.table f := by
  obtain ⟨hlab, hne⟩ := dropLabels_eq_some.1 hf
  refine h.other fun q heq => hne ?_
  cases hlab.symm.trans heq
  rfl

theorem Deleted.labelled (ht : Labelled B lab t) : Labelled B (dropLabels lab S) t' := by
  refine ⟨fun {f a i g} hf hg => ?_, dropLabels_eq_some.2 ⟨ht.slots, by simp⟩, fun y hy => ?_, ?_⟩
  · rw [h.table_eq hf] at hg
    obtain ⟨hlab, hne⟩ := dropLabels_eq_some.1 hf
    refine dropLabels_eq_some.2 ⟨ht.next hlab hg, ?_⟩
    unfold Label.next
    split_ifs
    · simp
    · exact hne
  · rw [h.pmem] at hy
    obtain ⟨hnone, hrest⟩ := ht.fresh y hy
    exact ⟨dropLabels_none hnone, hrest⟩
  · rw [h.pmem]
    exact ht.nodup

theorem Deleted.liveSpace {S' : ℕ} (ht : Labelled B lab t) (hS' : LiveSpace B lab t S')
    (hne : S' ≠ S) : LiveSpace B (dropLabels lab S) t' S' := by
  have hown : dropLabels lab S S' = some (some S', []) :=
    dropLabels_eq_some.2 ⟨hS'.own, fun heq => hne (Option.some.inj heq)⟩
  obtain ⟨p1, p2, hlow⟩ := hS'.low
  have hkept : ∀ {f a i g}, dropLabels lab S f = some a →
      child a.2.length (t.table f i) = some g → dropLabels lab S g = some (a.next i) := by
    intro f a i g hf hg
    rw [← h.table_eq hf] at hg
    exact (h.labelled ht).next hf hg
  have h1 := hkept hown hlow.pdpt
  have h2 := hkept h1 hlow.pd
  refine ⟨⟨⟨_, hown⟩, hS'.aligned, ?_⟩, hown, p1, p2, ?_, ?_, ?_⟩
  · rw [h.table_eq hown]
    exact hS'.shared
  · rw [h.table_eq hown]
    exact hlow.pdpt
  · rw [h.table_eq h1]
    exact hlow.pd
  · rw [h.table_eq h2]
    exact hlow.pt

/-- What is freed had a label, so nothing else is freed with it. -/
theorem Deleted.unfreed (hf : lab f = none) (hu : Unfreed t f) : Unfreed t' f := by
  obtain ⟨xs, hfreed, -, hxs⟩ := h.freed
  intro hmem
  rw [hfreed, map_append, map_map, mem_append] at hmem
  rcases hmem with hmem | hmem
  · exact hu hmem
  · obtain ⟨x, hx, rfl⟩ := mem_map.1 hmem
    obtain ⟨q, hlab⟩ := hxs x hx
    rw [show (Prod.fst ∘ fun x => (x, pageSize4K)) x = x from rfl, hlab] at hf
    cases hf

theorem Deleted.spared (hf : Spared lab t f) : Spared (dropLabels lab S) t' f :=
  ⟨dropLabels_none hf.label, by
    rw [h.pmem]
    exact hf.pmem⟩

end

section

variable (h : Life B kernel image lab c)
include h

theorem Life.deleted (hS : S ∈ c.spaces) (hd : Deleted lab S c.vm.tables t') :
    Life B kernel image (dropLabels lab S)
      { c with vm := ⟨t', fun _ => 0⟩, spaces := c.spaces.filter (· ≠ S) } := by
  have hlabels := hd.labelled h.rooted.toLabelled
  obtain ⟨xs, hfreed, hnodup, hxs⟩ := hd.freed
  have hnone : ∀ r ∈ c.vm.tables.freed, lab r.1 = none := fun r hr => (h.freed r hr).2.2.2.label
  refine ⟨rfl, ⟨hlabels, ?_, ?_, h.rooted.pdpt_dvd, h.rooted.low_dvd⟩, fun S' hS' => ?_, ?_,
    fun f hf => ?_, fun g hg => ?_, fun f S' p i hf hp => ?_, fun hf => ?_, fun r hr => ?_, ?_⟩
  · exact dropLabels_eq_some.2 ⟨h.rooted.pdpt, by simp⟩
  · exact dropLabels_eq_some.2 ⟨h.rooted.low, by simp⟩
  · have hne : S' ∈ kernel :: c.spaces ∧ S' ≠ S := by
      rcases mem_cons.1 hS' with rfl | hS'
      · exact ⟨mem_cons_self, fun heq => h.kernel (heq ▸ hS)⟩
      · rw [mem_filter, decide_eq_true_iff] at hS'
        exact ⟨mem_cons_of_mem _ hS'.1, hS'.2⟩
    exact hd.liveSpace h.rooted.toLabelled (h.spaces S' hne.1) hne.2
  · exact fun hmem => h.kernel (mem_filter.1 hmem).1
  · obtain ⟨hs, hu⟩ := h.image f hf
    exact ⟨hd.spared hs, hd.unfreed hs.label hu⟩
  · obtain ⟨hok, hdvd, hs, hu⟩ := h.registered g hg
    exact ⟨hok, hdvd, hd.spared hs, hd.unfreed hs.label hu⟩
  · dsimp only at hp ⊢
    rw [hd.table_eq hf] at hp ⊢
    obtain ⟨hlab, hne⟩ := dropLabels_eq_some.1 hf
    refine (h.pages f S' p i hlab hp).imp id (And.imp id (Or.imp (fun hown => ?_) id))
    exact dropLabels_eq_some.2 ⟨hown, hne⟩
  · exact h.frames (dropLabels_eq_some.1 hf).1
  · dsimp only at hr
    rw [hfreed, mem_append] at hr
    rcases hr with hr | hr
    · obtain ⟨hlen, h0, hdvd, hs⟩ := h.freed r hr
      exact ⟨hlen, h0, hdvd, hd.spared hs⟩
    obtain ⟨x, hx, rfl⟩ := mem_map.1 hr
    obtain ⟨q, hlab⟩ := hxs x hx
    obtain ⟨h0, hdvd⟩ := h.frames hlab
    refine ⟨rfl, h0, hdvd, dropLabels_owner hlab, fun hmem => ?_⟩
    rw [hd.pmem] at hmem
    rw [(h.rooted.fresh x hmem).1] at hlab
    cases hlab
  · have hids : (xs.map fun x => (x, pageSize4K)).map Prod.fst = xs := by
      rw [map_map]
      exact map_id xs
    rw [hfreed, map_append, hids]
    refine nodup_append.2 ⟨h.nodup, hnodup, ?_⟩
    rintro x hx y hy rfl
    obtain ⟨r, hr, rfl⟩ := mem_map.1 hx
    obtain ⟨q, hlab⟩ := hxs _ hy
    rw [hnone r hr] at hlab
    cases hlab

/-- `spc_delete` returns. -/
theorem Life.spcDelete_returns (hS : S ∈ c.spaces) (hmet : LifeMet image (.spcDelete S) c) :
    ∃ t', Config.live B kernel (.spcDelete S) c =
      some { c with vm := ⟨t', fun _ => 0⟩, spaces := c.spaces.filter (· ≠ S) } ∧
      Deleted lab S c.vm.tables t' := by
  have hdelete := (h.owned hS hmet).ends_spcDelete ready_empty
  obtain ⟨_, _, hrun, t', rfl, hd⟩ := wp_of_ends hdelete
  refine ⟨t', ?_, hd⟩
  rw [← h.vm_eq] at hrun
  simp only [Config.live, if_pos hS, hrun]

theorem Life.recycle {frames : List ℕ} (hnodup : frames.Nodup)
    (hframes : ∀ f ∈ frames, f ∈ c.vm.tables.pmem ∨ (f, pageSize4K) ∈ c.vm.tables.freed) :
    Life B kernel image lab
      { c with vm := ⟨{ c.vm.tables with pmem := frames, freed := [] }, c.vm.mapspace⟩ } := by
  have hspared : ∀ {f}, Spared lab c.vm.tables f ∧ Unfreed c.vm.tables f →
      Spared lab { c.vm.tables with pmem := frames, freed := [] } f := by
    rintro f ⟨hs, hu⟩
    refine ⟨hs.label, fun hmem => ?_⟩
    rcases hframes f hmem with hmem | hmem
    · exact hs.pmem hmem
    · exact hu (mem_map.2 ⟨_, hmem, rfl⟩)
  have hempty : ∀ f, Unfreed { c.vm.tables with pmem := frames, freed := [] } f :=
    fun f => not_mem_nil
  refine ⟨h.slots, ⟨⟨h.rooted.next, h.rooted.slots, fun f hf => ?_, hnodup⟩, h.rooted.pdpt,
    h.rooted.low, h.rooted.pdpt_dvd, h.rooted.low_dvd⟩, fun S hS => ?_, h.kernel,
    fun f hf => ⟨hspared (h.image f hf), hempty f⟩, fun g hg => ?_, h.pages, h.frames,
    fun r hr => ?_, nodup_nil⟩
  · rcases hframes f hf with hf | hf
    · exact h.rooted.fresh f hf
    · obtain ⟨-, h0, hdvd, hs⟩ := h.freed _ hf
      exact ⟨hs.label, h0, hdvd⟩
  · obtain ⟨⟨hlabel, haligned, hshared⟩, hown, p1, p2, hlow⟩ := h.spaces S hS
    exact ⟨⟨hlabel, haligned, hshared⟩, hown, p1, p2, hlow.pdpt, hlow.pd, hlow.pt⟩
  · obtain ⟨hok, hdvd, hs⟩ := h.registered g hg
    exact ⟨hok, hdvd, hspared hs, hempty _⟩
  · cases hr

/-- What one event preserves. -/
theorem Life.next {e : LifeEvent} (hmet : LifeMet image e c)
    (hnext : Config.live B kernel e c = some c') : ∃ lab', Life B kernel image lab' c' := by
  match e with
  | .kernel (.grow l region virt) => exact h.grow hmet hnext
  | .kernel .register => exact ⟨lab, h.register hnext⟩
  | .kernel (.spcNew ls) => exact h.spcNew hmet hnext
  | .uapi l phys virt =>
    obtain ⟨hphys, hdvd, hlo, hhi⟩ := hmet
    exact h.uapi hphys hdvd hlo hhi hnext
  | .map l S phys virt flags =>
    obtain ⟨rfl, hv, hflags, hsmall⟩ := hmet
    exact h.map hv hflags hsmall hnext
  | .stkaFree ls mapped top =>
    -- a stack without pages
    have hrounds : (top - mapped + (pageSize4K - 1)) / pageSize4K = 0 := by
      have htop : top ≤ mapped := hmet
      unfold pageSize4K
      omega
    simp only [Config.live, stkaFree, hrounds, stkaFreePages, run_pure] at hnext
    cases hnext
    exact ⟨lab, h⟩
  | .spcDelete S =>
    by_cases hS : S ∈ c.spaces
    · obtain ⟨t', hrun, hd⟩ := h.spcDelete_returns hS hmet
      rw [hrun] at hnext
      cases hnext
      exact ⟨_, h.deleted hS hd⟩
    · simp only [Config.live, if_neg hS] at hnext
      cases hnext
  | .recycle frames =>
    cases hnext
    exact ⟨lab, h.recycle hmet.1 hmet.2⟩

end

/-! ### From the boot tables on -/

section BootTables

variable {base : ℕ} {pmem : List ℕ}

theorem not_page_pgBaseKflags {d : ℕ} (hf : pageSize4K ∣ f) (hd : d < 3) :
    ¬ Page d (f + pgBaseKflags) := fun hp => by
  have hnone := hp.2.2
  rw [child_pgBaseKflags hf hd] at hnone
  cases hnone

/-- The tables that are the boot address space's own. -/
theorem bootLabels_owner (h : bootLabels base f = some (some S, p)) :
    (f = base + 0x2000 ∧ p = [0, 0]) ∨ (f = base + 0x5000 ∧ p = [0]) ∨
      (f = base + 0x7000 ∧ p = []) := by
  unfold bootLabels at h
  split_ifs at h with h0 h1 h2 h3 h4 h5 h6 h7 <;> cases h
  · exact .inl ⟨h2, rfl⟩
  · exact .inr (.inl ⟨h5, rfl⟩)
  · exact .inr (.inr ⟨h7, rfl⟩)

theorem bootLabels_pages (hbase : pageSize4K ∣ base) :
    Paged (bootLabels base) gs ⟨bootTable base, pmem, []⟩ := by
  have hdvd : ∀ {k}, pageSize4K ∣ k → pageSize4K ∣ base + k := (Nat.dvd_add_right hbase).2
  intro f S p i hf hp
  dsimp only at hp
  rcases bootLabels_owner hf with ⟨rfl, rfl⟩ | ⟨rfl, rfl⟩ | ⟨rfl, rfl⟩
  · rw [bootTable_add] at hp
    norm_num at hp
    split_ifs at hp with h0 h1
    · exact absurd hp (not_page_pgBaseKflags hbase (by decide))
    · exact .inl ⟨rfl, h1⟩
    · exact absurd hp not_page_zero
  · rw [bootTable_add] at hp
    norm_num at hp
    split_ifs at hp
    · exact absurd hp (not_page_pgBaseKflags (hdvd (by decide)) (by decide))
    · exact absurd hp not_page_zero
  · rw [bootTable_add] at hp
    norm_num at hp
    split_ifs at hp
    · exact absurd hp (not_page_pgBaseKflags (hdvd (by decide)) (by decide))
    · exact absurd hp (not_page_pgBaseKflags (hdvd (by decide)) (by decide))
    · exact absurd hp not_page_zero

theorem bootTable_low (hbase : pageSize4K ∣ base) :
    Way ⟨bootTable base, pmem, []⟩ (x8664PgPml4 base) 0 (base + 0x5000) (base + 0x2000) base := by
  have hdvd : ∀ {k}, pageSize4K ∣ k → pageSize4K ∣ base + k := (Nat.dvd_add_right hbase).2
  have hrow : ∀ {k e}, bootTable base (base + k) 0 = e → ∀ {d f}, child d e = some f →
      child d (bootTable base (base + k) 0) = some f := by
    rintro k e rfl d f h
    exact h
  exact ⟨hrow ((bootTable_add 0x7000).trans rfl) (child_pgBaseKflags (hdvd (by decide)) (by decide)),
    hrow ((bootTable_add 0x5000).trans rfl) (child_pgBaseKflags (hdvd (by decide)) (by decide)),
    hrow ((bootTable_add 0x2000).trans rfl) (child_pgBaseKflags hbase (by decide))⟩

/-- The frames of the UAPI are neither boot tables nor free. -/
def ImageFree (base : ℕ) (pmem : List ℕ) (image : Set ℕ) : Prop :=
  ∀ f ∈ image, (f < base ∨ base + 0x8000 ≤ f) ∧ f ∉ pmem

theorem BootFree.life (h : BootFree base pmem) (himage : ImageFree base pmem image) :
    Life (bootFrames base) (x8664PgPml4 base) image (bootLabels base) (bootConfig base pmem) := by
  refine ⟨rfl, h.rooted, fun S hS => ?_, by simp [bootConfig], fun f hf => ?_,
    by simp [bootConfig], bootLabels_pages h.aligned, fun {f S p} hf => ?_, by simp [bootConfig, bootVm],
    by simp [bootConfig, bootVm]⟩
  · rw [bootConfig, mem_singleton] at hS
    subst hS
    exact ⟨h.isSpace, bootLabels_pml4, _, _, bootTable_low h.aligned⟩
  · obtain ⟨hout, hmem⟩ := himage f hf
    exact ⟨⟨bootLabels_eq_none hout, hmem⟩, by simp [Unfreed, bootConfig, bootVm]⟩
  · have hdvd : ∀ {k}, pageSize4K ∣ k → pageSize4K ∣ base + k := (Nat.dvd_add_right h.aligned).2
    rcases bootLabels_owner hf with ⟨rfl, -⟩ | ⟨rfl, -⟩ | ⟨rfl, -⟩ <;>
      exact ⟨by omega, hdvd (by decide)⟩

end BootTables

/-- Two ranges of memory have no byte in common. -/
def NoOverlap (r r' : ℕ × ℕ) : Prop := r.1 + r.2 ≤ r'.1 ∨ r'.1 + r'.2 ≤ r.1

/-- Different frames have no byte in common. -/
theorem noOverlap_frames {x y : ℕ} (hx : pageSize4K ∣ x) (hy : pageSize4K ∣ y) (hne : x ≠ y) :
    NoOverlap (x, pageSize4K) (y, pageSize4K) := by
  unfold NoOverlap
  simp only [pageSize4K] at *
  omega

/-- **Global pages survive.**  At every point of every run no page that is registered has been freed,
no page has been freed twice, and an address space can be deleted, if the address spaces that are
deleted have no registered pages in tables of their own, and get small pages from `pmem_alloc`, and if
kernel stacks are not freed. -/
theorem globals_survive_run (base : ℕ) (pmem : List ℕ) (image : Set ℕ) (hboot : BootFree base pmem)
    (himage : ImageFree base pmem image) (c : Config)
    (hrun : Runs (Config.live (bootFrames base) (x8664PgPml4 base)) (LifeMet image)
      (bootConfig base pmem) c) :
    (∀ g ∈ c.globals, ∀ r ∈ c.vm.tables.freed, NoOverlap (g.phys, pageSize4K) r) ∧
      c.vm.tables.freed.Pairwise NoOverlap ∧
      ∀ S ∈ c.spaces, LifeMet image (.spcDelete S) c →
        (Config.live (bootFrames base) (x8664PgPml4 base) (.spcDelete S) c).isSome = true := by
  obtain ⟨lab, hlife⟩ : ∃ lab, Life (bootFrames base) (x8664PgPml4 base) image lab c := by
    refine hrun.inv (P := fun c => ∃ lab, Life _ _ image lab c) ⟨_, hboot.life himage⟩ ?_
    rintro e c c' ⟨lab, h⟩ hmet hnext
    exact h.next hmet hnext
  have hfreed : ∀ r ∈ c.vm.tables.freed, pageSize4K ∣ r.1 ∧ r = (r.1, pageSize4K) := fun r hr =>
    ⟨(hlife.freed r hr).2.2.1, Prod.ext rfl (hlife.freed r hr).1⟩
  refine ⟨fun g hg r hr => ?_, ?_, fun S hS hmet => ?_⟩
  · obtain ⟨-, hdvd, -, hu⟩ := hlife.registered g (mem_append_right _ hg)
    rw [(hfreed r hr).2]
    refine noOverlap_frames hdvd (hfreed r hr).1 fun heq => hu ?_
    rw [heq]
    exact mem_map_of_mem hr
  · have hne := List.pairwise_map.1 hlife.nodup
    refine hne.imp_of_mem fun {r r'} hr hr' hrr' => ?_
    rw [(hfreed r hr).2, (hfreed r' hr').2]
    exact noOverlap_frames (hfreed r hr).1 (hfreed r' hr').1 hrr'
  · obtain ⟨t', hdelete, -⟩ := hlife.spcDelete_returns hS hmet
    rw [hdelete]
    rfl

section Boot

variable {B : Boot} {kernel S : ℕ} {ls : ℕ → RoundLocals} {l : Locals}

/-- New address spaces and their pages are not registered. -/
theorem Config.live_spcNew (h : Config.live B kernel (.kernel (.spcNew ls)) c = some c') :
    c'.pending = c.pending ∧ c'.globals = c.globals := by
  simp only [Config.live, Config.next] at h
  split at h
  · cases h
    exact ⟨rfl, rfl⟩
  · cases h

theorem Config.live_map (h : Config.live B kernel (.map l S none virt flags) c = some c') :
    c'.pending = c.pending ∧ c'.globals = c.globals := by
  simp only [Config.live] at h
  split_ifs at h
  split at h
  · cases h
    exact ⟨rfl, rfl⟩
  · cases h

/-- An address space comes, gets a page and goes, and a page of the kernel stacks is registered. -/
def comeAndGo : List LifeEvent :=
  [.kernel (.spcNew fun _ => ⟨nullLocals, nullLocals, nullLocals⟩),
    .map nullLocals 0x800000 none pheapStart (pgUser ||| pgWritable), .spcDelete 0x800000,
    .kernel (.grow nullLocals .stack ksheapStart), .kernel .register]

theorem globals_survive_run_space :
    let live := Config.live (bootFrames 0x101000) (x8664PgPml4 0x101000)
    ∃ c, Runs live (LifeMet ∅) (bootConfig 0x101000 someFrames) c ∧
      c.globals.length = 1 ∧ c.vm.tables.freed.length = 5 ∧
      (∀ g ∈ c.globals, ∀ r ∈ c.vm.tables.freed, NoOverlap (g.phys, pageSize4K) r) ∧
      c.vm.tables.freed.Pairwise NoOverlap ∧
      ∀ S ∈ c.spaces, LifeMet ∅ (.spcDelete S) c → (live (.spcDelete S) c).isSome = true := by
  intro live
  have heval : (exec live comeAndGo (bootConfig 0x101000 someFrames)).any (fun c =>
      c.globals.length = 1 ∧ c.vm.tables.freed.length = 5) = true := by
    decide +kernel
  obtain ⟨c, hc, hlen⟩ := (Option.any_eq_true _ _).1 heval
  obtain ⟨c1, h1, hc⟩ := Option.bind_eq_some_iff.1 hc
  obtain ⟨c2, h2, hc⟩ := Option.bind_eq_some_iff.1 hc
  obtain ⟨c3, h3, hc⟩ := Option.bind_eq_some_iff.1 hc
  obtain ⟨c4, h4, hc⟩ := Option.bind_eq_some_iff.1 hc
  obtain ⟨c5, h5, hc⟩ := Option.bind_eq_some_iff.1 hc
  obtain rfl : c5 = c := Option.some.inj hc
  have hnil : c2.pending ++ c2.globals = [] := by
    rw [(Config.live_map h2).1, (Config.live_map h2).2, (Config.live_spcNew h1).1,
      (Config.live_spcNew h1).2]
    rfl
  have hwindow : OffWindow pheapStart := by
    unfold OffWindow
    decide
  have hrun : Runs live (LifeMet ∅) (bootConfig 0x101000 someFrames) c5 := by
    refine ((((Runs.start.step ?_ h1).step ?_ h2).step ?_ h3).step ?_ h4).step ?_ h5
    · exact fun _ => ⟨rfl, rfl⟩
    · exact ⟨rfl, hwindow, by decide, by decide⟩
    · intro g hg
      rw [hnil] at hg
      cases hg
    · exact ⟨by decide, by decide⟩
    · trivial
  obtain ⟨hglobals, hfreed⟩ := of_decide_eq_true hlen
  exact ⟨c5, hrun, hglobals, hfreed, globals_survive_run 0x101000 someFrames ∅ bootFree_someFrames
    (by simp [ImageFree]) c5 hrun⟩

/-- A page of the kernel heap is registered, and copied into an address space that goes. -/
def heapPageGoes : List LifeEvent :=
  [.kernel (.grow nullLocals .heap kheapStart), .kernel .register,
    .kernel (.spcNew fun _ => ⟨nullLocals, nullLocals, nullLocals⟩), .spcDelete 0x804000]

/-- A kernel stack of one page goes. -/
def stackGoes : List LifeEvent :=
  [.kernel (.grow nullLocals .stack ksheapStart), .kernel .register,
    .stkaFree (fun _ => (nullLocals, nullLocals)) ksheapStart (ksheapStart + pageSize4K)]

/-- An address space with a large page goes. -/
def largePageGoes : List LifeEvent :=
  [.kernel (.spcNew fun _ => ⟨nullLocals, nullLocals, nullLocals⟩),
    .map nullLocals 0x800000 (some 0x40000000) 0x400000 (pgUser ||| pgWritable ||| pgLarge),
    .spcDelete 0x800000]

/-- `spc_delete` frees a page of the kernel heap that all other address spaces have, `stka_free` frees
pages that stay registered, and a large page is freed as a large page and as a small one. -/
theorem globals_survive_fails :
    let live := Config.live (bootFrames 0x101000) (x8664PgPml4 0x101000)
    let boot := bootConfig 0x101000 someFrames
    (∃ c, exec live heapPageGoes boot = some c ∧
      ∃ g ∈ c.globals, (g.phys, pageSize4K) ∈ c.vm.tables.freed) ∧
    (∃ c, exec live stackGoes boot = some c ∧
      ∃ g ∈ c.globals, (g.phys, pageSize4K) ∈ c.vm.tables.freed) ∧
    ∃ c, exec live largePageGoes boot = some c ∧
      (0x40000000, pageSize2M) ∈ c.vm.tables.freed ∧
        (0x40000000, pageSize4K) ∈ c.vm.tables.freed := by
  intro live boot
  have hheap : (exec live heapPageGoes boot).any (fun c => c.globals.any fun g =>
      (g.phys, pageSize4K) ∈ c.vm.tables.freed) = true := by
    decide +kernel
  have hstack : (exec live stackGoes boot).any (fun c => c.globals.any fun g =>
      (g.phys, pageSize4K) ∈ c.vm.tables.freed) = true := by
    decide +kernel
  have hlarge : (exec live largePageGoes boot).any (fun c =>
      (0x40000000, pageSize2M) ∈ c.vm.tables.freed ∧
        (0x40000000, pageSize4K) ∈ c.vm.tables.freed) = true := by
    decide +kernel
  have hfreed : ∀ {es}, (exec live es boot).any (fun c => c.globals.any fun g =>
      (g.phys, pageSize4K) ∈ c.vm.tables.freed) = true → ∃ c, exec live es boot = some c ∧
      ∃ g ∈ c.globals, (g.phys, pageSize4K) ∈ c.vm.tables.freed := by
    intro es h
    obtain ⟨c, hc, h⟩ := (Option.any_eq_true _ _).1 h
    obtain ⟨g, hg, h⟩ := List.any_eq_true.1 h
    exact ⟨c, hc, g, hg, of_decide_eq_true h⟩
  obtain ⟨c, hc, h⟩ := (Option.any_eq_true _ _).1 hlarge
  exact ⟨hfreed hheap, hfreed hstack, c, hc, of_decide_eq_true h⟩

end Boot

end Tachyon.Vmem
