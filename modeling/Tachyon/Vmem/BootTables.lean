import Tachyon.Vmem.Model

/-!
# The boot page tables

The tables of `paging.S`, one frame after the other from an address `base` that the linker chooses.
-/

namespace Tachyon.Vmem

def pgBaseKflags : ℕ := pgPresent ||| pgWritable

variable (base : ℕ)

def x8664PgPtLow : ℕ := base
def x8664PgPtTemp : ℕ := base + 0x1000
def x8664PgPdLow : ℕ := base + 0x2000
def x8664PgPdHigh : ℕ := base + 0x3000
def x8664PgPdTemp : ℕ := base + 0x4000
def x8664PgPdptLow : ℕ := base + 0x5000
def x8664PgKernelPdpt : ℕ := base + 0x6000
def x8664PgPml4 : ℕ := base + 0x7000

/-- The frames that the code knows by name. -/
def bootFrames : Boot where
  ptTemp := x8664PgPtTemp base
  kernelPdpt := x8664PgKernelPdpt base
  ptLow := x8664PgPtLow base

/-- The entry `i` of the boot table in the frame `f`. -/
def bootTable (f i : ℕ) : ℕ :=
  if f = x8664PgPtLow base then
    if i = 0 ∨ 512 ≤ i then 0 else i * pageSize4K + (pgBaseKflags ||| pgGlobal)
  else if f = x8664PgPdLow base then
    if i = 0 then x8664PgPtLow base + pgBaseKflags
    else if i = 1 then 0x200000 + (pgBaseKflags ||| pgLarge ||| pgGlobal)
    else 0
  else if f = x8664PgPdHigh base then
    if i < 2 then i * 0x200000 + (pgBaseKflags ||| pgLarge ||| pgGlobal) else 0
  else if f = x8664PgPdTemp base then
    if i = 511 then x8664PgPtTemp base + pgBaseKflags else 0
  else if f = x8664PgPdptLow base then
    if i = 0 then x8664PgPdLow base + pgBaseKflags else 0
  else if f = x8664PgKernelPdpt base then
    if i = 510 then x8664PgPdHigh base + pgBaseKflags
    else if i = 511 then x8664PgPdTemp base + pgBaseKflags
    else 0
  else if f = x8664PgPml4 base then
    if i = 0 then x8664PgPdptLow base + pgBaseKflags
    else if i = 511 then x8664PgKernelPdpt base + pgBaseKflags
    else 0
  else 0

/-- The boot tables, with frames for new tables; all slots are empty. -/
def bootVm (pmem : List ℕ) : Vm where
  tables := ⟨bootTable base, pmem, []⟩
  mapspace := fun _ => 0

end Tachyon.Vmem
