import Tachyon.Pmem.Bitmap

/-!
# Physical memory

`pmem.c`: a list of regions of physical memory, each with a bitmap of its pages.

* `pmemAlloc`: two passes over the list, the first one skipping regions that are too full;
* `pmemReserve`: two passes over the range, the first one only checking;
* `pmemFree`, `pmemInfo`.

Locks and log messages are left out.  A loop that the source does not bound takes fuel.
-/

namespace Tachyon.Pmem

def pmemPagesize : ℕ := 4096

/-- `pmem_region_t`; the `next` pointers are the order of the list of regions. -/
structure Region (σ : Type) where
  bmap : Bitmap σ
  start : ℕ
  length : ℕ

/-- `pmem_info_t`. -/
structure Info where
  allocPages : ℕ
  freePages : ℕ
  deriving DecidableEq, Repr

variable {σ : Type} [BitStore σ]

/-- `PMEM_PAGES`. -/
def pmemPages (len : ℕ) : ℕ := alignUp len pmemPagesize / pmemPagesize

/-- `PMEM_TO_REGBIT`. -/
def pmemToRegbit (r : Region σ) (a : ℕ) : ℕ :=
  sub64 (alignDn a pmemPagesize) r.start / pmemPagesize

/-- `PMEM_FROM_REGBIT`. -/
def pmemFromRegbit (r : Region σ) (i : ℕ) : ℕ := add64 r.start (mul64 i pmemPagesize)

def pmemRegContains (r : Region σ) (addr : ℕ) : Bool :=
  decide (r.start ≤ addr) && decide (addr < add64 r.start r.length)

/-- A signed 64-bit value passed for an unsigned parameter. -/
def toUnsigned (x : ℤ) : ℕ := (x % 2 ^ 64).toNat

/-! ### Allocating -/

/-- The search in one region: an address, or the region with its new hint. -/
def allocRegion (fuel : ℕ) (reg : Region σ) (length : ℕ) (align : ℤ) :
    Except Halt (Option ℕ × Region σ) :=
  bmapSearch fuel false (pmemPages length) (toUnsigned (align.tdiv pmemPagesize)) bmapSrchHinted
    reg.bmap >>= fun r =>
  match r.1 with
  | none => .ok (none, { reg with bmap := r.2 })
  | some idx =>
    let f := bmapFill r.2 true idx (add64 idx (pmemPages length))
    .ok (if f.1 then some (pmemFromRegbit reg idx) else none, { reg with bmap := f.2 })

/-- `pmem_alloc_helper`; the regions behind the one that serves the request are not visited. -/
def pmemAllocHelper (fuel length : ℕ) (align : ℤ) (useFdeg : Bool) :
    List (Region σ) → Except Halt (Option ℕ × List (Region σ))
  | [] => .ok (none, [])
  | reg :: regs =>
    (if useFdeg then bmapFdeg reg.bmap else .ok 0) >>= fun fdeg =>
    (if fdeg = 0 ∨ mul64 length 100 < mul64 reg.length (sub64 100 fdeg) then
      allocRegion fuel reg length align
    else .ok (none, reg)) >>= fun r =>
    match r.1 with
    | some addr => .ok (some addr, r.2 :: regs)
    | none =>
      pmemAllocHelper fuel length align useFdeg regs >>= fun q => .ok (q.1, r.2 :: q.2)

def pmemAlloc (fuel length : ℕ) (align : ℤ) : Prog (List (Region σ)) ℕ := fun regs =>
  pmemAllocHelper fuel length align true regs >>= fun r =>
  match r.1 with
  | some addr => .ok (addr, r.2)
  | none =>
    pmemAllocHelper fuel length align false r.2 >>= fun q =>
    match q.1 with
    | some addr => .ok (addr, q.2)
    | none => .error (.fatal "out of physical memory\n")

/-! ### Reserving -/

/-- How a part of a pass of `pmem_reserve` ends. -/
inductive Pass
  /-- A page was taken already: `return false`. -/
  | refused
  /-- The end of the range was reached: `goto pass_ok`. -/
  | passOk
  /-- The pass goes on at `cur`. -/
  | next (cur : ℕ)
  deriving DecidableEq, Repr

/-- The pages of one region from `cur` on. -/
def reserveRegion (checkPass : Bool) (top : ℕ) :
    ℕ → Region σ → ℕ → Except Halt (Pass × Region σ)
  | 0, _, _ => .error .fuel
  | fuel + 1, reg, cur =>
    if pmemRegContains reg cur then
      let idx := pmemToRegbit reg cur
      if checkPass && bmapGet reg.bmap idx then .ok (.refused, reg)
      else
        let reg := if checkPass then reg else { reg with bmap := bmapSet reg.bmap idx true }
        if top ≤ add64 cur pmemPagesize then .ok (.passOk, reg)
        else reserveRegion checkPass top fuel reg (add64 cur pmemPagesize)
    else .ok (.next cur, reg)

/-- One round over the list of regions. -/
def reserveRegions (checkPass : Bool) (top fuel : ℕ) :
    List (Region σ) → ℕ → Except Halt (Pass × List (Region σ))
  | [], cur => .ok (.next cur, [])
  | reg :: regs, cur =>
    reserveRegion checkPass top fuel reg cur >>= fun r =>
    match r.1 with
    | .next cur =>
      reserveRegions checkPass top fuel regs cur >>= fun q => .ok (q.1, r.2 :: q.2)
    | p => .ok (p, r.2 :: regs)

/-- One pass; after each round over the list `cur` moves on by a page, contained in a region or
not. -/
def reservePass (checkPass : Bool) (top : ℕ) :
    ℕ → List (Region σ) → ℕ → Except Halt (Bool × List (Region σ))
  | 0, _, _ => .error .fuel
  | fuel + 1, regs, cur =>
    if cur < top then
      reserveRegions checkPass top fuel regs cur >>= fun r =>
      match r.1 with
      | .refused => .ok (false, r.2)
      | .passOk => .ok (true, r.2)
      | .next cur => reservePass checkPass top fuel r.2 (add64 cur pmemPagesize)
    else .ok (true, regs)

def pmemReserve (fuel addr length : ℕ) : Prog (List (Region σ)) Bool := fun regs =>
  if alignRst addr pmemPagesize ≠ 0 then .error (.fatal "misaligned physical address!\n")
  else
    reservePass true (add64 addr length) fuel regs addr >>= fun r =>
    if r.1 then reservePass false (add64 addr length) fuel r.2 addr >>= fun q => .ok (true, q.2)
    else .ok (false, r.2)

/-! ### Freeing -/

/-- `pmem_free`; an address outside of all regions only causes a warning. -/
def pmemFree (addr length : ℕ) : List (Region σ) → List (Region σ)
  | [] => []
  | reg :: regs =>
    if pmemRegContains reg addr then
      let bit := pmemToRegbit reg addr
      { reg with bmap := (bmapFill reg.bmap false bit (add64 bit (pmemPages length))).2 } :: regs
    else reg :: pmemFree addr length regs

def pmemInfo (regs : List (Region σ)) : Info :=
  regs.foldl (fun info reg =>
    ⟨add64 info.allocPages reg.bmap.setCnt,
      add64 info.freePages (sub64 reg.bmap.bits reg.bmap.setCnt)⟩) ⟨0, 0⟩

end Tachyon.Pmem
