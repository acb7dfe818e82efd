import Tachyon.Lib.Machine
import Tachyon.Vmem.NewSpace

/-!
# Global mappings

Pages of the kernel heap and of kernel stacks are registered with `vmem_mgmt_add_global_mapping`,
and `spc_new` puts all registered pages into a new address space.  Address spaces that are there
already do not receive them: those see a page only if it is in the PDPT of the kernel, which all of
them share.  The kernel heap starts in front of it.

* `Config.next`: growth of the kernel heap and of kernel stacks, and new address spaces, in any
  order;
* `Inv`: the invariant, `Inv.next`;
* `globals_visible_run`: every address space has all registered pages, as long as pages outside of
  the PDPT of the kernel are registered while there is no other address space.
-/

namespace Tachyon.Vmem

open Prog Machine List Option

/-! ### The machine -/

/-- The parts of the kernel that grow, with their addresses and flags. -/
inductive Region
  /-- `kheap`. -/
  | heap
  /-- `kstack_allocator`. -/
  | stack
  deriving DecidableEq, Repr

def Region.flags : Region → ℕ
  | .heap => pgGlobal ||| pgWritable
  | .stack => pgWritable

def Region.Holds (virt : ℕ) : Region → Prop
  | .heap => kheapStart ≤ virt ∧ virt < kheapEnd
  | .stack => ksheapStart ≤ virt ∧ virt < ksheapEnd

/-- The memory, the address spaces that `spc_new` has made, the pages that are mapped and about to be
registered, the last one first, and `vmem_glob_map`. -/
structure Config where
  vm : Vm
  spaces : List ℕ
  pending : List GlobMapping
  globals : List GlobMapping

/-- Growth by one page, its registration, and a new address space.  Memory for the registration comes
from the kernel heap, so more pages may be mapped and registered in between. -/
inductive Event
  | grow (l : Locals) (region : Region) (virt : ℕ)
  | register
  | spcNew (ls : ℕ → RoundLocals)

/-- The configuration behind an event; `kernel` is the address space in which the kernel grows.  A
call that does not return ends the run. -/
def Config.next (B : Boot) (kernel : ℕ) : Event → Config → Option Config
  | .grow l region virt, c =>
    match growPage (slots B) l kernel virt region.flags c.vm with
    | .ok (some phys, vm) =>
      some { c with vm := vm, pending := ⟨phys, virt, region.flags⟩ :: c.pending }
    | .ok (none, vm) => some { c with vm := vm }
    | .error _ => none
  | .register, c =>
    match c.pending with
    | [] => none
    | g :: gs => some { c with pending := gs, globals := c.globals ++ [g] }
  | .spcNew ls, c =>
    match Vmem.spcNew (slots B) B ls c.globals c.vm with
    | .ok (sp, vm) => some { c with vm := vm, spaces := if sp = 0 then c.spaces else sp :: c.spaces }
    | .error _ => none

/-- The kernel grows in its regions.  Pages outside of the PDPT of the kernel are registered only
while there is no other address space.  The uninitialised variables of `vmem_map` in
`vmem_mgmt_make_glob_spc` are not addresses of slots. -/
def Met : Event → Config → Prop
  | .grow _ region virt, _ => region.Holds virt
  | .register, c => ∀ g ∈ c.pending.head?, idxPml4 g.virt = 511 ∨ c.spaces = []
  | .spcNew ls, _ => ∀ i, Outside (ls i).map.pd ∧ Outside (ls i).map.pt

/-- The boot tables, and the frames that `pmem_alloc` will return. -/
def bootConfig (base : ℕ) (pmem : List ℕ) : Config := ⟨bootVm base pmem, [], [], []⟩

variable {B : Boot} {t t' : Tables} {m m' : ℕ → ℕ} {lab lab' : ℕ → Option Label} {o : Option ℕ}
  {r virt v phys flags f i x space y : ℕ} {l l' : Locals} {g : GlobMapping} {gs : List GlobMapping}
  {region : Region}

/-! ### Runs -/

theorem Region.flags_ok (region : Region) :
    region.flags < 2 ^ 12 ∧ isLarge region.flags = false := by
  cases region <;> decide

theorem Region.Holds.ok (h : region.Holds virt) (phys : ℕ) :
    GlobMapping.Ok ⟨phys, virt, region.flags⟩ := by
  have hrange : kheapStart ≤ virt ∧ virt < ksheapEnd := by
    cases region with
    | heap => exact ⟨h.1, h.2.trans (by decide)⟩
    | stack => exact ⟨le_trans (by decide) h.1, h.2⟩
  unfold kheapStart ksheapEnd at hrange
  refine ⟨region.flags_ok.1, region.flags_ok.2, fun hwin => ?_, fun h0 => ?_⟩
  · simp only [idxPd, idxPdpt, idxPml4, idx_eq, cons.injEq, and_true] at hwin
    omega
  · simp only [idxPml4, idx_eq] at h0
    omega

/-- All registered pages are mapped in the address space of the kernel and in all others. -/
structure Inv (B : Boot) (kernel : ℕ) (c : Config) : Prop where
  slots : c.vm.mapspace = fun _ => 0
  spaces : ∃ lab, Rooted B lab c.vm.tables ∧
    ∀ S ∈ kernel :: c.spaces, IsSpace B lab c.vm.tables S
  kernel : ∀ g ∈ c.pending ++ c.globals, g.Ok ∧ MapsTo c.vm.tables kernel g.virt g.phys
  visible : ∀ S ∈ c.spaces, ∀ g ∈ c.globals, MapsTo c.vm.tables S g.virt g.phys

variable {c c' c0 : Config} {kernel : ℕ}

section

variable (h : Inv B kernel c)
include h

theorem Inv.vm_eq : c.vm = ⟨c.vm.tables, fun _ => 0⟩ := by rw [← h.slots]

/-- No page is lost. -/
theorem Inv.keeps (hlab : Rooted B lab c.vm.tables)
    (hspaces : ∀ S ∈ kernel :: c.spaces, IsSpace B lab c.vm.tables S)
    (hk : Keeps B lab lab' c.vm.tables t') : Inv B kernel { c with vm := ⟨t', fun _ => 0⟩ } where
  slots := rfl
  spaces := ⟨lab', hlab.keeps hk, fun S hS => (hspaces S hS).keeps hk⟩
  kernel g hg := ⟨(h.kernel g hg).1,
    hk.mapsTo_space (hspaces kernel mem_cons_self) (h.kernel g hg).2⟩
  visible S hS g hg := hk.mapsTo_space (hspaces S (mem_cons_of_mem _ hS)) (h.visible S hS g hg)

theorem Inv.grow (hmet : Met (.grow l region virt) c)
    (hnext : Config.next B kernel (.grow l region virt) c = some c') : Inv B kernel c' := by
  obtain ⟨lab, hlab, hspaces⟩ := h.spaces
  obtain ⟨⟨o, hlabel⟩, hdvd, -⟩ := hspaces kernel mem_cons_self
  have hok := Region.Holds.ok hmet
  have hgrow := Labelled.ends_growPage (l := l) none hlab.toLabelled hlabel hdvd (hok 0).window
    (hok 0).flags (hok 0).small (by simp)
  have hspec := wlp_of_rel (growPage_rel (l := l) ready_empty spare_empty spare_empty) hgrow
    not_starved_undefined
  simp only [Config.next] at hnext
  split at hnext
  · rename_i phys vm hrun
    rw [h.vm_eq] at hrun
    obtain ⟨_, t', ⟨rfl, rfl⟩, lab', phys, -, hmapped, -, -, hk, -⟩ := hspec _ _ hrun
    cases hnext
    have hinv := h.keeps hlab hspaces hk
    refine ⟨hinv.slots, hinv.spaces, fun g hg => ?_, hinv.visible⟩
    rcases mem_cons.1 hg with rfl | hg
    · obtain ⟨heq, hmaps⟩ := hmapped.resolve_left (by simp)
      cases heq
      exact ⟨hok phys, hmaps⟩
    · exact hinv.kernel g hg
  · rename_i vm hrun
    rw [h.vm_eq] at hrun
    obtain ⟨_, t', ⟨rfl, rfl⟩, lab', _, -, -, -, -, hk, -⟩ := hspec _ _ hrun
    cases hnext
    exact h.keeps hlab hspaces hk
  · cases hnext

theorem Inv.register (hmet : Met .register c) (hnext : Config.next B kernel .register c = some c') :
    Inv B kernel c' := by
  obtain ⟨vm, spaces, pending, globals⟩ := c
  cases pending with
  | nil => cases hnext
  | cons g pending =>
    cases hnext
    obtain ⟨lab, hlab, hspaces⟩ := h.spaces
    refine ⟨h.slots, ⟨lab, hlab, hspaces⟩, fun g' hg' => h.kernel g' ?_, fun S hS g' hg' => ?_⟩
    · simp only [mem_append, mem_cons, not_mem_nil, or_false] at hg' ⊢
      tauto
    rcases mem_append.1 hg' with hg' | hg'
    · exact h.visible S hS g' hg'
    rw [mem_singleton] at hg'
    subst hg'
    rcases hmet g' rfl with h511 | hnil
    · exact (hspaces kernel mem_cons_self).share
        (hspaces S (mem_cons_of_mem _ hS)) h511 (h.kernel g' (by simp)).2
    · rw [show spaces = [] from hnil] at hS
      cases hS

theorem Inv.spcNew {ls : ℕ → RoundLocals} (hmet : Met (.spcNew ls) c)
    (hnext : Config.next B kernel (.spcNew ls) c = some c') : Inv B kernel c' := by
  obtain ⟨lab, hlab, hspaces⟩ := h.spaces
  have hspec := wlp_spcNew hlab (hspaces kernel mem_cons_self) hmet
    fun g hg => h.kernel g (mem_append_right _ hg)
  simp only [Config.next] at hnext
  split at hnext
  · rename_i sp vm hrun
    rw [h.vm_eq] at hrun
    obtain ⟨t', lab', rfl, hk, hS, hall⟩ := hspec _ _ hrun
    cases hnext
    have hinv := h.keeps hlab hspaces hk
    split_ifs
    · exact hinv
    refine ⟨hinv.slots, ⟨lab', hlab.keeps hk, fun S' hS' => ?_⟩, hinv.kernel, fun S' hS' => ?_⟩
    · simp only [mem_cons] at hS'
      rcases hS' with rfl | rfl | hS'
      · exact (hspaces S' mem_cons_self).keeps hk
      · exact hS
      · exact (hspaces S' (mem_cons_of_mem _ hS')).keeps hk
    · rcases mem_cons.1 hS' with rfl | hS'
      · exact hall
      · exact hinv.visible S' hS'
  · cases hnext

/-- What one event preserves. -/
theorem Inv.next {e : Event} (hmet : Met e c) (hnext : Config.next B kernel e c = some c') :
    Inv B kernel c' := by
  cases e with
  | grow l region virt => exact h.grow hmet hnext
  | register => exact h.register hmet hnext
  | spcNew ls => exact h.spcNew hmet hnext

/-- `vmem_resolve` in an address space with a registered page. -/
theorem Inv.resolve {S : ℕ} (hS : S ∈ kernel :: c.spaces) (hg : g ∈ c.globals) (l : Locals) :
    (vmemResolve (Vmem.slots B) l S g.virt).value c.vm = some g.phys := by
  obtain ⟨lab, hlab, hspaces⟩ := h.spaces
  obtain ⟨⟨o, hlabel⟩, hdvd, -⟩ := hspaces S hS
  obtain ⟨hok, hkernel⟩ := h.kernel g (mem_append_right _ hg)
  have hmaps : MapsTo c.vm.tables S g.virt g.phys := by
    rcases mem_cons.1 hS with rfl | hS
    · exact hkernel
    · exact h.visible S hS g hg
  obtain ⟨res, t', hrun, rfl, hres⟩ := call_slots (c := .resolve g.virt) ready_empty
    spare_empty spare_empty (hlab.ends_resolve hlabel hdvd hok.window)
  have hrun' : vmemResolve (Vmem.slots B) l S g.virt ⟨c.vm.tables, fun _ => 0⟩ = _ := hrun
  rw [value, h.vm_eq, hrun', hres g.phys hmaps]

end

/-! ### The boot tables -/

section BootTables

variable {base : ℕ} {pmem : List ℕ}

/-- The labels of the boot tables. -/
def bootLabels (base f : ℕ) : Option Label :=
  if f = x8664PgPtLow base then some (none, [0, 0, 0])
  else if f = x8664PgPtTemp base then some (none, [511, 511, 511])
  else if f = x8664PgPdLow base then some (some (x8664PgPml4 base), [0, 0])
  else if f = x8664PgPdHigh base then some (none, [510, 511])
  else if f = x8664PgPdTemp base then some (none, [511, 511])
  else if f = x8664PgPdptLow base then some (some (x8664PgPml4 base), [0])
  else if f = x8664PgKernelPdpt base then some (none, [511])
  else if f = x8664PgPml4 base then some (some (x8664PgPml4 base), [])
  else none

/-- The boot tables are frames, and the frames that `pmem_alloc` will return are distinct ones
elsewhere. -/
structure BootFree (base : ℕ) (pmem : List ℕ) : Prop where
  aligned : pageSize4K ∣ base
  nodup : pmem.Nodup
  fresh : ∀ y ∈ pmem, y ≠ 0 ∧ pageSize4K ∣ y ∧ (y < base ∨ base + 0x8000 ≤ y)

theorem child_pgBaseKflags {d : ℕ} (hf : pageSize4K ∣ f) (hd : d < 3) :
    child d (f + pgBaseKflags) = some f := by
  have h12 : 2 ^ 12 ∣ f := hf
  rw [← or_eq_add_of_dvd h12 (by decide)]
  exact child_ngFlags hf hd

theorem child_zero (d : ℕ) : child d 0 = none := child_of_not_present rfl

/-- The boot tables by their distance from `base`. -/
theorem bootTable_add (k : ℕ) : bootTable base (base + k) i =
    if k = 0 then if i = 0 ∨ 512 ≤ i then 0 else i * pageSize4K + (pgBaseKflags ||| pgGlobal)
    else if k = 0x2000 then
      if i = 0 then base + pgBaseKflags
      else if i = 1 then 0x200000 + (pgBaseKflags ||| pgLarge ||| pgGlobal) else 0
    else if k = 0x3000 then
      if i < 2 then i * 0x200000 + (pgBaseKflags ||| pgLarge ||| pgGlobal) else 0
    else if k = 0x4000 then if i = 511 then base + 0x1000 + pgBaseKflags else 0
    else if k = 0x5000 then if i = 0 then base + 0x2000 + pgBaseKflags else 0
    else if k = 0x6000 then
      if i = 510 then base + 0x3000 + pgBaseKflags
      else if i = 511 then base + 0x4000 + pgBaseKflags else 0
    else if k = 0x7000 then
      if i = 0 then base + 0x5000 + pgBaseKflags
      else if i = 511 then base + 0x6000 + pgBaseKflags else 0
    else 0 := by
  simp [bootTable, x8664PgPtLow, x8664PgPtTemp, x8664PgPdLow, x8664PgPdHigh, x8664PgPdTemp,
    x8664PgPdptLow, x8664PgKernelPdpt, x8664PgPml4]

theorem bootLabels_add (k : ℕ) : bootLabels base (base + k) =
    if k = 0 then some (none, [0, 0, 0])
    else if k = 0x1000 then some (none, [511, 511, 511])
    else if k = 0x2000 then some (some (x8664PgPml4 base), [0, 0])
    else if k = 0x3000 then some (none, [510, 511])
    else if k = 0x4000 then some (none, [511, 511])
    else if k = 0x5000 then some (some (x8664PgPml4 base), [0])
    else if k = 0x6000 then some (none, [511])
    else if k = 0x7000 then some (some (x8664PgPml4 base), [])
    else none := by
  simp [bootLabels, x8664PgPtLow, x8664PgPtTemp, x8664PgPdLow, x8664PgPdHigh, x8664PgPdTemp,
    x8664PgPdptLow, x8664PgKernelPdpt, x8664PgPml4]

theorem bootLabels_next (hbase : pageSize4K ∣ base) {a : Label}
    (hf : bootLabels base f = some a) (hy : child a.2.length (bootTable base f i) = some y) :
    bootLabels base y = some (a.next i) := by
  have hlink : ∀ {d k y}, pageSize4K ∣ k → d < 3 →
      child d (base + k + pgBaseKflags) = some y → y = base + k := fun hk hd hy =>
    (some.inj ((child_pgBaseKflags ((Nat.dvd_add_right hbase).2 hk) hd).symm.trans hy)).symm
  unfold bootLabels at hf
  split_ifs at hf with h0 h1 h2 h3 h4 h5 h6 h7 <;> cases hf
  -- behind a page table, and behind large pages, there is no table
  · simp [child] at hy
  · simp [child] at hy
  · rw [h2, x8664PgPdLow, bootTable_add] at hy
    norm_num at hy
    split_ifs at hy with hi0 hi1
    · rw [hlink (dvd_zero _) (by decide) hy, bootLabels_add, hi0]
      rfl
    · cases hy
    · simp [child_zero] at hy
  · rw [h3, x8664PgPdHigh, bootTable_add] at hy
    norm_num at hy
    split_ifs at hy with hi
    · interval_cases i <;> cases hy
    · simp [child_zero] at hy
  · rw [h4, x8664PgPdTemp, bootTable_add] at hy
    norm_num at hy
    split_ifs at hy with hi
    · obtain rfl := hlink (by decide) (by decide) hy
      rw [bootLabels_add, hi]
      rfl
    · simp [child_zero] at hy
  · rw [h5, x8664PgPdptLow, bootTable_add] at hy
    norm_num at hy
    split_ifs at hy with hi
    · obtain rfl := hlink (by decide) (by decide) hy
      rw [bootLabels_add, hi]
      rfl
    · simp [child_zero] at hy
  · rw [h6, x8664PgKernelPdpt, bootTable_add] at hy
    norm_num at hy
    split_ifs at hy with hi hi'
    · obtain rfl := hlink (by decide) (by decide) hy
      rw [bootLabels_add, hi]
      rfl
    · obtain rfl := hlink (by decide) (by decide) hy
      rw [bootLabels_add, hi']
      rfl
    · simp [child_zero] at hy
  · rw [h7, x8664PgPml4, bootTable_add] at hy
    norm_num at hy
    split_ifs at hy with hi hi'
    · obtain rfl := hlink (by decide) (by decide) hy
      rw [bootLabels_add, hi]
      rfl
    · obtain rfl := hlink (by decide) (by decide) hy
      rw [bootLabels_add, hi']
      rfl
    · simp [child_zero] at hy

/-- The frames of `pmem_alloc` have no label. -/
theorem bootLabels_eq_none (h : y < base ∨ base + 0x8000 ≤ y) :
    bootLabels base y = none := by
  unfold bootLabels x8664PgPtLow x8664PgPtTemp x8664PgPdLow x8664PgPdHigh x8664PgPdTemp
    x8664PgPdptLow x8664PgKernelPdpt x8664PgPml4
  split_ifs <;> first | omega | rfl

theorem BootFree.rooted (h : BootFree base pmem) :
    Rooted (bootFrames base) (bootLabels base) (bootVm base pmem).tables := by
  have hdvd : ∀ {k}, pageSize4K ∣ k → pageSize4K ∣ base + k := (Nat.dvd_add_right h.aligned).2
  refine ⟨⟨?_, ?_, ?_, h.nodup⟩, ?_, ?_, ?_, h.aligned⟩
  · exact bootLabels_next h.aligned
  · exact (bootLabels_add 0x1000).trans rfl
  · intro y hy
    obtain ⟨h0, hd, hout⟩ := h.fresh y hy
    exact ⟨bootLabels_eq_none hout, h0, hd⟩
  · exact (bootLabels_add 0x6000).trans rfl
  · exact (bootLabels_add 0).trans rfl
  · exact hdvd (by decide)

theorem bootLabels_pml4 :
    bootLabels base (x8664PgPml4 base) = some (some (x8664PgPml4 base), []) :=
  (bootLabels_add 0x7000).trans rfl

theorem BootFree.isSpace (h : BootFree base pmem) :
    IsSpace (bootFrames base) (bootLabels base) (bootVm base pmem).tables (x8664PgPml4 base) := by
  have hdvd : ∀ {k}, pageSize4K ∣ k → pageSize4K ∣ base + k := (Nat.dvd_add_right h.aligned).2
  refine ⟨⟨_, bootLabels_pml4⟩, hdvd (by decide), ?_⟩
  have hrow : bootTable base (x8664PgPml4 base) 511 = base + 0x6000 + pgBaseKflags :=
    (bootTable_add 0x7000).trans rfl
  exact (congrArg _ hrow).trans (child_pgBaseKflags (hdvd (by decide)) (by decide))

theorem BootFree.inv (h : BootFree base pmem) :
    Inv (bootFrames base) (x8664PgPml4 base) (bootConfig base pmem) := by
  refine ⟨rfl, ⟨bootLabels base, h.rooted, fun S hS => ?_⟩, ?_, ?_⟩
  · rw [bootConfig, mem_singleton] at hS
    subst hS
    exact h.isSpace
  · simp [bootConfig]
  · simp [bootConfig]

end BootTables

/-- **Global mappings are visible.**  At every point of every run all address spaces have all pages
that are registered, if pages outside of the PDPT of the kernel are registered only while there is no
other address space. -/
theorem globals_visible_run (base : ℕ) (pmem : List ℕ) (hboot : BootFree base pmem) (c : Config)
    (hrun : Runs (Config.next (bootFrames base) (x8664PgPml4 base)) Met (bootConfig base pmem) c) :
    ∀ S ∈ x8664PgPml4 base :: c.spaces, ∀ g ∈ c.globals, ∀ l : Locals,
      (vmemResolve (slots (bootFrames base)) l S g.virt).value c.vm = some g.phys := by
  have hinv : Inv (bootFrames base) (x8664PgPml4 base) c :=
    hrun.inv hboot.inv fun h hmet hnext => h.next hmet hnext
  exact fun S hS g hg l => hinv.resolve hS hg l

section Boot

variable {B : Boot} {e : Event}

/-- Frames behind the kernel image. -/
def someFrames : List ℕ := (List.range 20).map fun i => 0x800000 + i * 0x1000

/-- A page of the kernel heap is registered, then comes an address space, then another page. -/
def pageAfterSpace (region : Region) (virt : ℕ) : List Event :=
  [.grow nullLocals .heap kheapStart, .register,
    .spcNew fun _ => ⟨nullLocals, nullLocals, nullLocals⟩, .grow nullLocals region virt, .register]

/-- The configuration behind an event that happens. -/
def Config.after (B : Boot) (kernel : ℕ) (c : Config) (e : Event) : Config :=
  (Config.next B kernel e c).getD c

theorem Config.next_after (h : (Config.next B kernel e c).isSome = true) :
    Config.next B kernel e c = some (c.after B kernel e) := by
  obtain ⟨c', hc'⟩ := isSome_iff_exists.1 h
  rw [Config.after, hc', getD_some]

theorem bootFree_someFrames : BootFree 0x101000 someFrames :=
  ⟨by decide, by decide, by decide⟩

theorem globals_visible_run_stack :
    let B := bootFrames 0x101000
    let kernel := x8664PgPml4 0x101000
    let c := (pageAfterSpace .stack ksheapStart).foldl (Config.after B kernel)
      (bootConfig 0x101000 someFrames)
    Runs (Config.next B kernel) Met (bootConfig 0x101000 someFrames) c ∧ c.spaces.length = 1 ∧
      c.globals.length = 2 ∧ ∀ S ∈ kernel :: c.spaces, ∀ g ∈ c.globals, ∀ l : Locals,
        (vmemResolve (slots B) l S g.virt).value c.vm = some g.phys := by
  intro B kernel c
  have hheap : Runs (Config.next B kernel) Met (bootConfig 0x101000 someFrames) _ :=
    .step (e := .grow nullLocals .heap kheapStart) .start ⟨by decide, by decide⟩
      (Config.next_after (by decide +kernel))
  have hreg : Runs (Config.next B kernel) Met (bootConfig 0x101000 someFrames) _ :=
    hheap.step (e := .register) (fun g hg => .inr (by decide +kernel))
      (Config.next_after (by decide +kernel))
  have hspc : Runs (Config.next B kernel) Met (bootConfig 0x101000 someFrames) _ :=
    hreg.step (e := .spcNew fun _ => ⟨nullLocals, nullLocals, nullLocals⟩)
      (fun _ => ⟨rfl, rfl⟩) (Config.next_after (by decide +kernel))
  have hstack : Runs (Config.next B kernel) Met (bootConfig 0x101000 someFrames) _ :=
    hspc.step (e := .grow nullLocals .stack ksheapStart) ⟨by decide, by decide⟩
      (Config.next_after (by decide +kernel))
  have hhigh : ∀ g ∈ ((pageAfterSpace .stack ksheapStart).take 4 |>.foldl (Config.after B kernel)
      (bootConfig 0x101000 someFrames)).pending.head?, idxPml4 g.virt = 511 := by
    decide +kernel
  have hrun : Runs (Config.next B kernel) Met (bootConfig 0x101000 someFrames) c :=
    hstack.step (e := .register) (fun g hg => .inl (hhigh g hg))
      (Config.next_after (by decide +kernel))
  exact ⟨hrun, by decide +kernel, by decide +kernel,
    globals_visible_run 0x101000 someFrames bootFree_someFrames c hrun⟩

/-- The kernel heap grows while there is another address space: that one does not get the page. -/
theorem globals_visible_fails :
    let B := bootFrames 0x101000
    let kernel := x8664PgPml4 0x101000
    ∃ c, exec (Config.next B kernel) (pageAfterSpace .heap (kheapStart + 0x1000))
        (bootConfig 0x101000 someFrames) = some c ∧
      ∃ S ∈ c.spaces, ∃ g ∈ c.globals,
        (vmemResolve (slots B) nullLocals S g.virt).value c.vm = some 0 ∧
        (vmemResolve (slots B) nullLocals kernel g.virt).value c.vm = some g.phys ∧
          g.phys ≠ 0 := by
  have h : (exec (Config.next (bootFrames 0x101000) (x8664PgPml4 0x101000))
      (pageAfterSpace .heap (kheapStart + 0x1000)) (bootConfig 0x101000 someFrames)).any (fun c =>
        c.spaces.any fun S => c.globals.any fun g =>
          (vmemResolve (slots (bootFrames 0x101000)) nullLocals S g.virt).value c.vm = some 0 ∧
          (vmemResolve (slots (bootFrames 0x101000)) nullLocals (x8664PgPml4 0x101000)
            g.virt).value c.vm = some g.phys ∧ g.phys ≠ 0) = true := by
    decide +kernel
  obtain ⟨c, hc, hfail⟩ := (Option.any_eq_true _ _).1 h
  obtain ⟨S, hS, hfail⟩ := List.any_eq_true.1 hfail
  obtain ⟨g, hg, hfail⟩ := List.any_eq_true.1 hfail
  exact ⟨c, hc, S, hS, g, hg, of_decide_eq_true hfail⟩

end Boot

end Tachyon.Vmem
