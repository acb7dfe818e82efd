import Tachyon.Lib.Memory
import Tachyon.Lib.Prog
import Tachyon.Paging
import Tachyon.Rd

/-!
# Multiboot (`mboot.c`)

The boot loader leaves an information structure, a memory map, an array of modules and the modules
somewhere in physical memory.  The kernel maps one page of them at a time into a window of virtual
addresses, and reads them there.

* `Boot`: the physical memory, the mappings of the current address space, `mboot_pg_temp`, the global
  mappings, and a state `ρ` of the physical memory manager;
* `mbootMap`, `mbootUnmap`, `load`: the window, and reads through it;
* `mbootPmemProtect`, `mbootPmemInit`, `mbootFindRd`: the source.

`mbootPmemProtect` and `mbootPmemInit` are given what they call of the physical memory manager.  The
page tables of the window are there from its first use on, since `vmem_unmap` keeps them, so that a
mapping takes no page of physical memory later; `tables v` says that `vmem_map` finds or makes the
tables for the page `v`.
-/

namespace Tachyon.Mboot

open Prog

def mbootMagic : ℕ := 0x2BADB002

def mbootFlMods : ℕ := 0x008
def mbootFlMemmap : ℕ := 0x040

def mbootMmAvailable : ℕ := 1

def mbootVtempRegStart : ℕ := 0xA0000000
def mbootVtempRegEnd : ℕ := 0xA00F0000

/-- `sizeof(mboot_info_t)`, and the places of its fields. -/
def infoSize : ℕ := 96
def offFlags : ℕ := 0
def offModsCnt : ℕ := 20
def offModsAddr : ℕ := 24
def offMmapLen : ℕ := 44
def offMmapAddr : ℕ := 48

/-- `sizeof(mboot_mod_t)`, and the places of its fields. -/
def modSize : ℕ := 16
def offStart : ℕ := 0
def offEnd : ℕ := 4

/-- The places of the fields of the packed `mboot_mmap_t`. -/
def offSize : ℕ := 0
def offAddr : ℕ := 4
def offLen : ℕ := 12
def offType : ℕ := 20

/-- The place of the field `num_files` of `rd_header_t`. -/
def offNumFiles : ℕ := 8

/-- `RD_VIRTUAL`. -/
def rdVirtual : ℕ := 0xFFFFFFFF81000000 + 0x1000 + 0x1000 * 0x10 + 0x1000 + 0x110000 + 0x1000

/-- Subtraction of 32-bit words. -/
def sub32 (a b : ℕ) : ℕ := (a + (2 ^ 32 - b % 2 ^ 32)) % 2 ^ 32

/-- `ALIGN_UP` of a 32-bit word. -/
def alignUp32 (x : ℕ) : ℕ := alignDn ((x + (pageSize4K - 1)) % 2 ^ 32) pageSize4K

structure Boot (ρ : Type) where
  ram : Mem
  /-- The physical page at the address of a virtual page. -/
  maps : ℕ → Option ℕ
  /-- `mboot_pg_temp`. -/
  pgTemp : ℕ
  /-- The pairs of addresses given to `vmem_mgmt_add_global_mapping`. -/
  globals : List (ℕ × ℕ)
  pmem : ρ

variable {ρ : Type}

/-! ### Virtual memory -/

/-- `vmem_resolve`: a page that is mapped to physical page `0` looks like one that is not mapped. -/
def vmemResolve (s : Boot ρ) (virt : ℕ) : ℕ := (s.maps (alignDn virt pageSize4K)).getD 0

/-- `vmem_map`, which refuses a page that is mapped already. -/
def vmemMap (tables : ℕ → Bool) (phys virt : ℕ) : Prog (Boot ρ) Bool := fun s =>
  if tables virt && (s.maps virt).isNone then
    .ok (true, { s with maps := Function.update s.maps virt (some phys) })
  else .ok (false, s)

def vmemUnmap (virt : ℕ) : Prog (Boot ρ) Unit :=
  modify fun s => { s with maps := Function.update s.maps (alignDn virt pageSize4K) none }

/-- One byte at a virtual address. -/
def loadByte (virt : ℕ) : Prog (Boot ρ) UInt8 := fun s =>
  match s.maps (alignDn virt pageSize4K) with
  | some phys => .ok (s.ram (phys + alignRst virt pageSize4K), s)
  | none => .error (.pageFault virt)

/-- The `n`-byte number at a virtual address. -/
def load (virt : ℕ) : ℕ → Prog (Boot ρ) ℕ
  | 0 => pure 0
  | n + 1 => do
    let b ← loadByte virt
    let rest ← load (virt + 1) n
    pure (b.toNat + 256 * rest)

/-- A call of the physical memory manager. -/
def callPmem {α : Type} (p : Prog ρ α) : Prog (Boot ρ) α :=
  zoom (·.pmem) (fun t s => { s with pmem := t }) p

/-! ### The window -/

/-- The loop of `mboot_find_free_page`. -/
def findLoop : ℕ → Prog (Boot ρ) Unit
  | 0 => pure ()
  | n + 1 => fun s =>
    if vmemResolve s s.pgTemp ≠ 0 ∧ s.pgTemp < mbootVtempRegEnd then
      findLoop n { s with pgTemp := s.pgTemp + pageSize4K }
    else .ok ((), s)

/-- `mboot_find_free_page`; `NULL` is `0`.  The window has no more pages than the loop can take. -/
def mbootFindFreePage : Prog (Boot ρ) ℕ := do
  findLoop ((mbootVtempRegEnd - mbootVtempRegStart) / pageSize4K)
  let s ← get
  if mbootVtempRegEnd ≤ s.pgTemp then pure 0 else pure s.pgTemp

variable (tables : ℕ → Bool)

def mbootMap (mbiStruct : ℕ) : Prog (Boot ρ) ℕ := do
  let vaddr ← mbootFindFreePage
  if vaddr = 0 then pure 0
  else
    let done ← vmemMap tables (alignDn mbiStruct pageSize4K) vaddr
    pure (if done then vaddr + alignRst mbiStruct pageSize4K else 0)

def mbootUnmap (mapped : ℕ) : Prog (Boot ρ) Unit := vmemUnmap mapped

/-! ### Protecting -/

/-- The loop over the modules in `mboot_pmem_protect`: `mod` behind the last one. -/
def protectMods (pmemReserve : ℕ → ℕ → Prog ρ Bool) (mbi : ℕ) :
    ℕ → ℕ → ℕ → Prog (Boot ρ) ℕ
  | 0, _, _ => halt .fuel
  | fuel + 1, i, mod => do
    let modsCnt ← load (mbi + offModsCnt) 4
    if i < modsCnt then
      let start ← load (mod + offStart) 4
      let stop ← load (mod + offEnd) 4
      let _ ← callPmem (pmemReserve (alignDn start pageSize4K) (sub32 stop start))
      protectMods pmemReserve mbi fuel (i + 1) (mod + modSize)
    else pure mod

/-- The memory map in `mboot_pmem_protect`. -/
def protectMemmap (pmemReserve : ℕ → ℕ → Prog ρ Bool) (mbi : ℕ) : Prog (Boot ρ) Unit := do
  let flags ← load (mbi + offFlags) 4
  if flags &&& mbootFlMemmap = 0 then pure ()
  else
    let mmapAddr ← load (mbi + offMmapAddr) 4
    let mmapLen ← load (mbi + offMmapLen) 4
    let _ ← callPmem (pmemReserve (alignDn mmapAddr pageSize4K) mmapLen)
    pure ()

/-- The array of modules and the modules in `mboot_pmem_protect`. -/
def protectModules (pmemReserve : ℕ → ℕ → Prog ρ Bool) (fuel mbi : ℕ) : Prog (Boot ρ) Unit := do
  let flags ← load (mbi + offFlags) 4
  if flags &&& mbootFlMods = 0 then pure ()
  else
    let modsCnt ← load (mbi + offModsCnt) 4
    if modsCnt = 0 then pure ()
    else
      let modsAddr ← load (mbi + offModsAddr) 4
      let _ ← callPmem (pmemReserve (alignDn modsAddr pageSize4K) (modsCnt * modSize))
      let mod ← mbootMap tables modsAddr
      let mod ← protectMods pmemReserve mbi fuel 0 mod
      mbootUnmap mod

def mbootPmemProtect (pmemReserve : ℕ → ℕ → Prog ρ Bool) (fuel ax bx : ℕ) :
    Prog (Boot ρ) Unit :=
  if ax ≠ mbootMagic then pure ()
  else do
    let _ ← callPmem (pmemReserve (alignDn bx pageSize4K) infoSize)
    let mbi ← mbootMap tables bx
    protectMemmap pmemReserve mbi
    protectModules tables pmemReserve fuel mbi
    mbootUnmap mbi

/-! ### The memory map -/

/-- One entry of the map. -/
def addEntry (pmemAdd : ℕ → ℕ → Prog ρ Unit) (mmap : ℕ) : Prog (Boot ρ) Unit := do
  let type ← load (mmap + offType) 4
  if type = mbootMmAvailable then
    let addr ← load (mmap + offAddr) 8
    let len ← load (mmap + offLen) 8
    callPmem (pmemAdd addr len)
  else pure ()

/-- The loop of `mboot_pmem_init`. -/
def initLoop (pmemAdd : ℕ → ℕ → Prog ρ Unit) (mbi mm : ℕ) : ℕ → ℕ → Prog (Boot ρ) Unit
  | 0, _ => halt .fuel
  | fuel + 1, mmap => do
    let mmapLen ← load (mbi + offMmapLen) 4
    if mmap < add64 mm mmapLen then
      addEntry pmemAdd mmap
      -- the field `size` does not count itself
      let size ← load (mmap + offSize) 4
      initLoop pmemAdd mbi mm fuel (add64 (add64 mmap size) 4)
    else pure ()

/-- The part of `mboot_pmem_init` between the mapping of the information structure and its end. -/
def initMemmap (pmemAdd : ℕ → ℕ → Prog ρ Unit) (fuel mbi : ℕ) : Prog (Boot ρ) Unit := do
  let flags ← load (mbi + offFlags) 4
  if flags &&& mbootFlMemmap = 0 then pure ()
  else
    let mmapAddr ← load (mbi + offMmapAddr) 4
    let mm ← mbootMap tables mmapAddr
    initLoop pmemAdd mbi mm fuel mm
    mbootUnmap mm

def mbootPmemInit (pmemAdd : ℕ → ℕ → Prog ρ Unit) (fuel ax bx : ℕ) : Prog (Boot ρ) Unit :=
  if ax ≠ mbootMagic then pure ()
  else do
    let mbi ← mbootMap tables bx
    initMemmap tables pmemAdd fuel mbi
    mbootUnmap mbi

/-! ### The RAM disk -/

/-- The loop that maps the RAM disk. -/
def mapRd (last : ℕ) : ℕ → ℕ → ℕ → Prog (Boot ρ) Unit
  | 0, _, _ => halt .fuel
  | fuel + 1, firstPhys, virt =>
    if firstPhys < last then do
      let done ← vmemMap tables firstPhys virt
      if done then
        modify fun s => { s with globals := s.globals ++ [(firstPhys, virt)] }
        mapRd last fuel (add64 firstPhys pageSize4K) (add64 virt pageSize4K)
      else halt (.fatal "cannot map %p to %p for rd\n")
    else pure ()

/-- The branch of `mboot_find_rd` for a module that has the magic number. -/
def foundRd (fuel start stop : ℕ) : Prog (Boot ρ) ℕ := do
  if Rd.rdVsz - pageSize4K < sub32 stop start then
    halt (.fatal "rd too large to be mapped: %d bytes!\n")
  else
    mapRd tables (alignUp32 stop) fuel (alignDn start pageSize4K) rdVirtual
    pure (rdVirtual + alignRst start pageSize4K)

/-- The loop over the modules in `mboot_find_rd`: the RAM disk, or else `mod` behind the last
module. -/
def findMods (mbi : ℕ) : ℕ → ℕ → ℕ → Prog (Boot ρ) (ℕ ⊕ ℕ)
  | 0, _, _ => halt .fuel
  | fuel + 1, i, mod => do
    let modsCnt ← load (mbi + offModsCnt) 4
    if i < modsCnt then
      let start ← load (mod + offStart) 4
      let mapped ← mbootMap tables start
      let magic ← load mapped 4
      if magic = Rd.rdMagic then
        let stop ← load (mod + offEnd) 4
        -- for the message about the RAM disk, still through the window
        let _ ← load (mapped + offNumFiles) 4
        let rd ← foundRd tables fuel start stop
        pure (.inl rd)
      else
        mbootUnmap mapped
        findMods mbi fuel (i + 1) (mod + modSize)
    else pure (.inr mod)

/-- The part of `mboot_find_rd` between the mapping of the information structure and its end. -/
def findModules (fuel mbi : ℕ) : Prog (Boot ρ) (Option ℕ) := do
  let flags ← load (mbi + offFlags) 4
  if flags &&& mbootFlMods = 0 then pure none
  else
    let modsCnt ← load (mbi + offModsCnt) 4
    if modsCnt = 0 then pure none
    else
      let modsAddr ← load (mbi + offModsAddr) 4
      let mod ← mbootMap tables modsAddr
      let found ← findMods tables mbi fuel 0 mod
      match found with
      | .inl rd => pure (some rd)
      | .inr mod => do
        mbootUnmap mod
        pure none

/-- `mboot_find_rd`; what is mapped for the search stays mapped when the RAM disk is found. -/
def mbootFindRd (fuel ax bx : ℕ) : Prog (Boot ρ) ℕ :=
  if ax ≠ mbootMagic then pure 0
  else do
    let mbi ← mbootMap tables bx
    let found ← findModules tables fuel mbi
    match found with
    | some rd => pure rd
    | none => do
      mbootUnmap mbi
      pure 0

end Tachyon.Mboot
