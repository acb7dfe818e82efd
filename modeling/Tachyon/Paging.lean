import Tachyon.Lib.Word

/-!
# Paging constants

The flag bits and page sizes of `paging.h`, and the fixed virtual addresses of `defs.h`.

`PG_EXECUTE_DISABLE` is written `(1 << 63)` in the source: a shift of a 32-bit `int`, stored into a
`uint32_t`.  Neither the folded constant nor bit 63 survives there, so it contributes no bit to the
flags of `vmem_map` and is `0` here.
-/

namespace Tachyon

def pgPresent : ℕ := 2 ^ 0
def pgWritable : ℕ := 2 ^ 1
def pgUser : ℕ := 2 ^ 2
def pgWritethrough : ℕ := 2 ^ 3
def pgNoncachable : ℕ := 2 ^ 4
def pgLarge : ℕ := 2 ^ 7
def pgGlobal : ℕ := 2 ^ 8
def pgExecuteDisable : ℕ := 0

def pageSize4K : ℕ := 0x1000
def pageSize2M : ℕ := 0x200000

/-- `PG_KFLAGS`. -/
def pgKflags : ℕ := pgPresent ||| pgWritable ||| pgGlobal

def kheapStart : ℕ := 0xFFFFFF0000000000
def kheapEnd : ℕ := 0xFFFFFFFF70000000
def ksheapStart : ℕ := 0xFFFFFFFF70000000
def ksheapEnd : ℕ := 0xFFFFFFFF80000000
def pheapStart : ℕ := 0x0000000000400000
def pheapEnd : ℕ := 0x0000700000000000 - 0x10000

end Tachyon
