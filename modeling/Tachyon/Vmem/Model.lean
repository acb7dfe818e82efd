import Tachyon.Lib.Prog
import Tachyon.Paging

/-!
# Virtual memory

`vmem.c` and the walk of `vmem_mgmt.c`: four levels of page tables, created on demand.  A table is
512 entries in a physical frame, and the code reaches it through one of ten slots of a fixed window
of virtual memory (`ps_mapspace`).

The code below is written for any way of reaching tables (`Access`).  `slots` is the one of the
source.  A pointer remembers the frame for which it was made, and an access through a pointer whose
slot does not hold that frame is a page fault, so a call that returns has used no stale pointer.
`direct` reaches the frames without slots; it is the abstract view in which properties of the tables
are proved.

The slots are themselves entries of a page table, the last ten of `x86_64_pg_pt_temp`, and can be
reached like all other entries.
-/

namespace Tachyon.Vmem

open Prog

/-- The frames of the boot page tables that the code knows by name. -/
structure Boot where
  /-- `x86_64_pg_pt_temp`, which holds the slots. -/
  ptTemp : ℕ
  /-- `x86_64_pg_kernel_pdpt`. -/
  kernelPdpt : ℕ
  /-- `x86_64_pg_pt_low`. -/
  ptLow : ℕ

/-- The page tables, and the physical memory allocator as far as it is used: the frames that
`pmem_alloc` is going to return, and the calls of `pmem_free` so far. -/
structure Tables where
  table : ℕ → ℕ → ℕ
  pmem : List ℕ
  freed : List (ℕ × ℕ)

/-- The page tables together with the slots. -/
structure Vm where
  tables : Tables
  mapspace : ℕ → ℕ

/-- A pointer to a table: its value, and the frame it was made for. -/
structure Ptr where
  addr : ℕ
  frame : ℕ
  deriving DecidableEq, Repr

def Ptr.null : Ptr := ⟨0, 0⟩

/-! ### Entries -/

/-- `VM_OFFSET`. -/
def vmOffset (a s : ℕ) : ℕ := a &&& (s - 1)

/-- An entry without its flags, `e & VM_ENTRY_FLAG_MASK`. -/
def entryAddr (e : ℕ) : ℕ := andNot e 0xFFF

def isPresent (e : ℕ) : Bool := e &&& pgPresent != 0

def isLarge (e : ℕ) : Bool := e &&& pgLarge != 0

def idxPml4 (virt : ℕ) : ℕ := virt >>> 39 &&& 0x1FF
def idxPdpt (virt : ℕ) : ℕ := virt >>> 30 &&& 0x1FF
def idxPd (virt : ℕ) : ℕ := virt >>> 21 &&& 0x1FF
def idxPt (virt : ℕ) : ℕ := virt >>> 12 &&& 0x1FF

def Tables.set (t : Tables) (f i e : ℕ) : Tables :=
  { t with table := fun g j => if g = f ∧ j = i then e else t.table g j }

/-- A table filled with zeros. -/
def Tables.clear (t : Tables) (f : ℕ) : Tables :=
  { t with table := fun g j => if g = f then 0 else t.table g j }

/-! ### Slots -/

def vmPsMapspaceSz : ℕ := 10

/-- `VM_PS_TADDR`. -/
def vmPsTaddr (idx : ℕ) : ℕ := 0xFFFFFFFFFFFFF000 - (vmPsMapspaceSz - 1) * pageSize4K + idx * pageSize4K

/-- How the code reaches tables, and the physical memory allocator. -/
structure Access (σ : Type) where
  map : ℕ → Prog σ Ptr
  unmap : Ptr → Prog σ Unit
  load : Ptr → ℕ → Prog σ ℕ
  store : Ptr → ℕ → ℕ → Prog σ Unit
  memset : Ptr → Prog σ Unit
  pmemAlloc : Prog σ ℕ
  pmemFree : ℕ → ℕ → Prog σ Unit

/-- `pmem_alloc` of a page: the next frame. -/
def takeFrame : Prog Tables ℕ := fun t =>
  match t.pmem with
  | [] => .error (.fatal "out of physical memory\n")
  | f :: pmem => .ok (f, { t with pmem := pmem })

/-- `pmem_free` is recorded. -/
def giveBack (addr length : ℕ) : Prog Tables Unit :=
  modify fun t => { t with freed := t.freed ++ [(addr, length)] }

section Slots

variable (B : Boot)

/-- The entry `i` of the frame `f` is one of the slots. -/
def Boot.isSlot (f i : ℕ) : Prop := f = B.ptTemp ∧ 512 - vmPsMapspaceSz ≤ i

instance (f i : ℕ) : Decidable (B.isSlot f i) := inferInstanceAs (Decidable (_ ∧ _))

/-- `vmem_mgmt_map`. -/
def vmemMgmtMap (phys : ℕ) : Prog Vm Ptr := fun s =>
  if vmOffset phys pageSize4K ≠ 0 then
    .error (.fatal "misaligned physical address for paging structure.\n")
  else
    match (List.range vmPsMapspaceSz).find? fun i => !isPresent (s.mapspace i) with
    | some i =>
      .ok (⟨vmPsTaddr i, phys⟩, { s with mapspace := fun j =>
        if j = i then phys ||| pgPresent ||| pgWritable ||| pgGlobal else s.mapspace j })
    | none => .error (.fatal "out of ps_mapspace. this probably means there is a bug in vmem!\n")

/-- The slot at an address. -/
def slotOf (addr : ℕ) : Option ℕ := (List.range vmPsMapspaceSz).find? fun i => vmPsTaddr i == addr

/-- `vmem_mgmt_unmap`. -/
def vmemMgmtUnmap (p : Ptr) : Prog Vm Unit :=
  match slotOf p.addr with
  | some i => modify fun s => { s with mapspace := fun j => if j = i then 0 else s.mapspace j }
  | none => pure ()

/-- The slot of the pointer holds the frame of the pointer. -/
def Ptr.isMapped (p : Ptr) (s : Vm) : Bool :=
  match slotOf p.addr with
  | some i => isPresent (s.mapspace i) && entryAddr (s.mapspace i) == p.frame
  | none => false

/-- Tables are reached through the slots. -/
def slots : Access Vm where
  map := vmemMgmtMap
  unmap := vmemMgmtUnmap
  load p i := fun s =>
    if p.isMapped s then
      .ok (if B.isSlot p.frame i then s.mapspace (i - (512 - vmPsMapspaceSz))
        else s.tables.table p.frame i, s)
    else .error (.pageFault p.addr)
  store p i e := fun s =>
    if p.isMapped s then
      if B.isSlot p.frame i then
        .ok ((), { s with mapspace := fun j =>
          if j = i - (512 - vmPsMapspaceSz) then e else s.mapspace j })
      else .ok ((), { s with tables := s.tables.set p.frame i e })
    else .error (.pageFault p.addr)
  memset p := fun s =>
    if p.isMapped s then
      .ok ((), ⟨s.tables.clear p.frame, if p.frame = B.ptTemp then fun _ => 0 else s.mapspace⟩)
    else .error (.pageFault p.addr)
  pmemAlloc := zoom Vm.tables (fun t s => { s with tables := t }) takeFrame
  pmemFree addr length :=
    zoom Vm.tables (fun t s => { s with tables := t }) (giveBack addr length)

/-- Tables are reached directly; the slots are out of reach. -/
def direct : Access Tables where
  map phys :=
    if vmOffset phys pageSize4K ≠ 0 then
      halt (.fatal "misaligned physical address for paging structure.\n")
    else pure ⟨vmPsTaddr 0, phys⟩
  unmap _ := pure ()
  load p i := fun t =>
    if B.isSlot p.frame i then .error .undefined else .ok (t.table p.frame i, t)
  store p i e := fun t =>
    if B.isSlot p.frame i then .error .undefined else .ok ((), t.set p.frame i e)
  memset p := fun t =>
    if p.frame = B.ptTemp then .error .undefined else .ok ((), t.clear p.frame)
  pmemAlloc := takeFrame
  pmemFree := giveBack

end Slots

/-! ### The walk -/

def vmSplitAlloc : ℕ := 1
def vmSplitLarge : ℕ := 2

/-- `vmem_split_res_t`. -/
inductive SplitRes
  | tableNotMapped
  | smallExpected
  | largeExpected
  | splitSuccess
  | splitError
  deriving DecidableEq, Repr

/-- The local variables of the callers of `vmem_mgmt_split`; they are not initialised. -/
structure Locals where
  pd : Ptr
  pt : Ptr
  ipd : ℕ
  ipt : ℕ

section Code

variable {σ : Type} (A : Access σ)

def vmemMgmtAlloc : Prog σ ℕ := do
  let phys ← A.pmemAlloc
  if phys = 0 then halt (.fatal "out of physical memory for vmem_mgmt\n")
  else
    let mapped ← A.map phys
    A.memset mapped
    A.unmap mapped
    pure phys

/-- `VM_CHECK_ENTRY`; `false` is the jump to `not_found`. -/
def vmCheckEntry (x : Ptr) (i flags u : ℕ) : Prog σ Bool := do
  let e ← A.load x i
  if isPresent e then
    if flags &&& vmSplitAlloc ≠ 0 then
      A.store x i (e ||| u)
      pure true
    else pure true
  else if flags &&& vmSplitAlloc ≠ 0 then
    let phys ← vmemMgmtAlloc A
    A.store x i (phys ||| pgPresent ||| pgWritable)
    let e ← A.load x i
    A.store x i (e ||| u)
    pure true
  else pure false

/-- `if(p) vmem_mgmt_unmap(p);` -/
def unmapIf (p : Ptr) : Prog σ Unit := if p.addr ≠ 0 then A.unmap p else pure ()

/-- The exit of `vmem_mgmt_split` behind the labels `not_found` and `error`. -/
def splitExit (result : SplitRes) (pml4 pdpt : Ptr) (l : Locals) : Prog σ (SplitRes × Locals) := do
  unmapIf A pml4
  unmapIf A pdpt
  unmapIf A l.pd
  unmapIf A l.pt
  pure (result, l)

/-- The successful exit of `vmem_mgmt_split`. -/
def splitDone (virt : ℕ) (pml4 pdpt : Ptr) (l : Locals) : Prog σ (SplitRes × Locals) := do
  A.unmap pml4
  A.unmap pdpt
  pure (.splitSuccess, { l with ipd := idxPd virt })

/-- `vmem_mgmt_split` below the page directory. -/
def splitPd (virt flags pgflags : ℕ) (pml4 pdpt : Ptr) (l : Locals) :
    Prog σ (SplitRes × Locals) := do
  let e ← A.load l.pd (idxPd virt)
  if flags &&& vmSplitLarge ≠ 0 then
    if isPresent e && !isLarge e then splitExit A .largeExpected pml4 pdpt l
    else splitDone A virt pml4 pdpt l
  else if isPresent e && isLarge e then splitExit A .smallExpected pml4 pdpt l
  else
    let ok ← vmCheckEntry A l.pd (idxPd virt) flags pgflags
    if ok then
      let e ← A.load l.pd (idxPd virt)
      let pt ← A.map (entryAddr e)
      splitDone A virt pml4 pdpt { l with pt := pt, ipt := idxPt virt }
    else splitExit A .tableNotMapped pml4 pdpt l

/-- `vmem_mgmt_split`. -/
def vmemMgmtSplit (space virt flags pgflags : ℕ) (l : Locals) : Prog σ (SplitRes × Locals) := do
  let pml4 ← A.map space
  let ok ← vmCheckEntry A pml4 (idxPml4 virt) flags pgflags
  if ok then
    let e ← A.load pml4 (idxPml4 virt)
    let pdpt ← A.map (entryAddr e)
    let ok ← vmCheckEntry A pdpt (idxPdpt virt) flags pgflags
    if ok then
      let e ← A.load pdpt (idxPdpt virt)
      let pd ← A.map (entryAddr e)
      splitPd A virt flags pgflags pml4 pdpt { l with pd := pd }
    else splitExit A .tableNotMapped pml4 pdpt l
  else splitExit A .tableNotMapped pml4 .null l

/-- `VM_RES_UNMAP`. -/
def vmResUnmap (x : Ptr) (i : ℕ) (unmap : Bool) : Prog σ ℕ := do
  let e ← A.load x i
  if unmap then
    A.store x i 0
    pure (entryAddr e)
  else pure (entryAddr e)

/-- `vmem_find_unmap` behind the search. -/
def findUnmapEntry (l : Locals) (unmap : Bool) : Prog σ ℕ := do
  let e ← A.load l.pd l.ipd
  if isLarge e then
    let result ← vmResUnmap A l.pd l.ipd unmap
    A.unmap l.pd
    pure result
  else if l.pt.addr ≠ 0 then
    let result ← vmResUnmap A l.pt l.ipt unmap
    A.unmap l.pt
    A.unmap l.pd
    pure result
  else
    A.unmap l.pd
    pure 0

/-- `vmem_find_unmap`: a large page is found with a second search. -/
def vmemFindUnmap (l : Locals) (spc virt : ℕ) (unmap : Bool) : Prog σ ℕ := do
  let (split, l) ← vmemMgmtSplit A spc virt 0 0 l
  match split with
  | .splitSuccess => findUnmapEntry A l unmap
  | .tableNotMapped => pure 0
  | .smallExpected =>
    let (split, l) ← vmemMgmtSplit A spc virt vmSplitLarge 0 l
    match split with
    | .splitSuccess => findUnmapEntry A l unmap
    | _ => halt (.fatal "second chance failure during virtual memory mapping lookup\n")
  | _ => halt (.fatal "unexpected error during virtual memory mapping lookup\n")

/-- `VM_SET_IFN_PRESENT`. -/
def vmSetIfnPresent (x : Ptr) (i phys flags : ℕ) : Prog σ Bool := do
  let e ← A.load x i
  if isPresent e then pure false
  else
    A.store x i (phys ||| pgPresent ||| flags)
    pure true

/-- `vmem_map` behind the search. -/
def mapEntry (l : Locals) (phys flags : ℕ) : Prog σ Bool :=
  if isLarge flags then vmSetIfnPresent A l.pd l.ipd phys flags
  else if l.pt.addr ≠ 0 then vmSetIfnPresent A l.pt l.ipt phys flags
  else pure false

/-- `vmem_map`. -/
def vmemMap (l : Locals) (spc phys virt flags : ℕ) : Prog σ Bool := do
  let (split, l) ← vmemMgmtSplit A spc virt
    (vmSplitAlloc ||| if isLarge flags then vmSplitLarge else 0) flags l
  match split with
  | .splitSuccess | .tableNotMapped =>
    let result ← mapEntry A l phys flags
    unmapIf A l.pt
    unmapIf A l.pd
    pure result
  | _ => pure false

/-- `vmem_unmap`. -/
def vmemUnmap (l : Locals) (spc virt : ℕ) : Prog σ ℕ := vmemFindUnmap A l spc virt true

/-- `vmem_resolve`. -/
def vmemResolve (l : Locals) (spc virt : ℕ) : Prog σ ℕ := vmemFindUnmap A l spc virt false

end Code

end Tachyon.Vmem
