import Tachyon.Lib.Prog
import Tachyon.Lib.Word

/-!
# Threads, their contexts and the CPU

Threads, contexts and processes by their addresses (`0` is `NULL`), and one CPU with its current
context (`cpu_locals->context`), its interrupt flag and its `CR3`.

* `intrDisable`, `intrEnable` (`intr.c`): the nesting counter `ifda_cnt` lives in the current context;
* `spcSwitch` (`spc.c`), `thrSwitch`, `thrCurrent`, `thrCreate` (`thread.c`);
* `isrEntry`, `isrExit` (`idt.S`, `state.S`): what an interrupt does before and behind its handler.
-/

namespace Tachyon.Threads

open Prog Function

/-- `thread_state_t`. -/
inductive ThreadState
  | initial
  | runnable
  | running
  | yielded
  | waiting
  | aborting
  | aborted
  | exited
  deriving DecidableEq, Repr

/-- `priority_t`, without the bound `PrioMaxPrio`. -/
inductive Priority
  | idle
  | lowest
  | low
  | normal
  | high
  | highest
  | kernel
  deriving DecidableEq, Repr

/-- The number of a priority. -/
def Priority.toNat : Priority → ℕ
  | .idle => 0
  | .lowest => 1
  | .low => 2
  | .normal => 3
  | .high => 4
  | .highest => 5
  | .kernel => 6

/-- `thr_context_t`: of the saved CPU state the interrupt flag and `CR3`. -/
structure Context where
  rflagsIf : Bool
  cr3 : ℕ
  ifdaCnt : ℕ
  thread : ℕ
  deriving DecidableEq, Repr

/-- `thread_t`. -/
structure Thread where
  state : ThreadState
  priority : Priority
  parent : ℕ
  context : ℕ
  preemptAt : ℕ
  deriving DecidableEq, Repr

/-- `process_t`. -/
structure Process where
  id : ℕ
  space : ℕ
  priority : Priority
  deriving DecidableEq, Repr

/-- The descriptors in memory and the CPU. -/
structure Kernel where
  thread : ℕ → Thread
  context : ℕ → Context
  process : ℕ → Process
  /-- The current context. -/
  current : ℕ
  /-- `IF` in `RFLAGS`. -/
  intFlag : Bool
  cr3 : ℕ

/-- Change a thread. -/
def Kernel.setThread (k : Kernel) (t : ℕ) (f : Thread → Thread) : Kernel :=
  { k with thread := Function.update k.thread t (f (k.thread t)) }

/-- Change a context. -/
def Kernel.setContext (k : Kernel) (c : ℕ) (f : Context → Context) : Kernel :=
  { k with context := Function.update k.context c (f (k.context c)) }

/-! ### Interrupts -/

/-- `intr_disable`; the counter is a `uint8_t`. -/
def intrDisable (k : Kernel) : Kernel :=
  { k with intFlag := false }.setContext k.current
    fun c => { c with ifdaCnt := (c.ifdaCnt + 1) % 256 }

/-- `intr_enable`: the counter goes down, and at zero interrupts are enabled if `doIt`. -/
def intrEnable (doIt : Bool) (k : Kernel) : Bool × Kernel :=
  let k := k.setContext k.current fun c => { c with ifdaCnt := c.ifdaCnt - 1 }
  if (k.context k.current).ifdaCnt = 0 then
    (true, if doIt then { k with intFlag := true } else k)
  else (false, k)

/-- The entry of an interrupt: `cli`, `intr_disable`, and `x86_64_isr_state_save` into the current
context. -/
def isrEntry (k : Kernel) : Kernel :=
  (intrDisable { k with intFlag := false }).setContext k.current
    fun c => { c with rflagsIf := k.intFlag, cr3 := k.cr3 }

/-- The end of an interrupt: `intr_enable(false)`, `x86_64_isr_state_restore` from the then current
context, and `iretq`.  The saved `CR3` is not restored. -/
def isrExit (k : Kernel) : Kernel :=
  let k := (intrEnable false k).2
  { k with intFlag := (k.context k.current).rflagsIf }

/-! ### Address spaces and threads -/

/-- `spc_switch`. -/
def spcSwitch (target : ℕ) (k : Kernel) : Kernel :=
  if target = k.cr3 then k else { k with cr3 := target }

/-- `thr_current`. -/
def thrCurrent (k : Kernel) : ℕ := (k.context k.current).thread

/-- `thr_switch`, with the thread it returns. -/
def thrSwitch (target : ℕ) (k : Kernel) : ℕ × Kernel :=
  let old := thrCurrent k
  let k := { k with current := (k.thread target).context }
  -- the context of a CPU that never ran a thread
  if old = 0 then (target, k)
  else
    (old, if (k.thread old).parent ≠ (k.thread target).parent then
        spcSwitch (k.process (k.thread target).parent).space k
      else k)

/-- `thr_create`: the thread at `thr` and its zeroed context at `ctx`. -/
def thrCreate (parent thr ctx : ℕ) (k : Kernel) : Kernel :=
  { k with
    thread := Function.update k.thread thr ⟨.runnable, (k.process parent).priority, parent, ctx, 0⟩
    context := Function.update k.context ctx ⟨true, 0, 0, thr⟩ }

/-! ### The counter and the switch -/

/-- The nesting counter of the current context. -/
def Kernel.count (k : Kernel) : ℕ := (k.context k.current).ifdaCnt

variable {k : Kernel}

@[simp] theorem count_intrDisable : (intrDisable k).count = (k.count + 1) % 256 := by
  simp [Kernel.count, intrDisable, Kernel.setContext]

@[simp] theorem intFlag_intrDisable : (intrDisable k).intFlag = false := rfl

@[simp] theorem count_isrEntry : (isrEntry k).count = (k.count + 1) % 256 := by
  simp [Kernel.count, isrEntry, intrDisable, Kernel.setContext]

@[simp] theorem intFlag_isrEntry : (isrEntry k).intFlag = false := rfl

/-- The counter goes down, and interrupts are enabled when it becomes zero. -/
theorem intrEnable_kernel (doIt : Bool) : (intrEnable doIt k).2 =
    { k.setContext k.current (fun c => { c with ifdaCnt := c.ifdaCnt - 1 }) with
      intFlag := k.intFlag || (doIt && decide (k.count ≤ 1)) } := by
  have hzero : (update k.context k.current { k.context k.current with
      ifdaCnt := (k.context k.current).ifdaCnt - 1 } k.current).ifdaCnt = 0 ↔ k.count ≤ 1 := by
    rw [update_self]
    exact Nat.sub_eq_zero_iff_le
  simp only [intrEnable, Kernel.setContext, hzero]
  by_cases hcount : k.count ≤ 1 <;> cases doIt <;> simp [hcount]

@[simp] theorem count_intrEnable (doIt : Bool) : (intrEnable doIt k).2.count = k.count - 1 := by
  simp [intrEnable_kernel, Kernel.count, Kernel.setContext]

theorem intFlag_intrEnable :
    (intrEnable true k).2.intFlag = (k.intFlag || decide (k.count ≤ 1)) := by
  rw [intrEnable_kernel, Bool.true_and]

/-- The context changes, and the address space if the two threads have different parents. -/
theorem thrSwitch_kernel (target : ℕ) : (thrSwitch target k).2 =
    { k with
      current := (k.thread target).context
      cr3 := if thrCurrent k ≠ 0 ∧ (k.thread (thrCurrent k)).parent ≠ (k.thread target).parent then
        (k.process (k.thread target).parent).space else k.cr3 } := by
  by_cases h1 : thrCurrent k = 0
  · simp [thrSwitch, h1]
  · by_cases h2 : (k.thread (thrCurrent k)).parent = (k.thread target).parent
    · simp [thrSwitch, h1, h2]
    · by_cases h3 : (k.process (k.thread target).parent).space = k.cr3
      · simp [thrSwitch, spcSwitch, h1, h2, h3]
      · simp [thrSwitch, spcSwitch, h1, h2, h3]

@[simp] theorem count_thrSwitch (target : ℕ) :
    (thrSwitch target k).2.count = (k.context (k.thread target).context).ifdaCnt := by
  rw [thrSwitch_kernel]
  rfl

@[simp] theorem intFlag_thrSwitch (target : ℕ) : (thrSwitch target k).2.intFlag = k.intFlag := by
  rw [thrSwitch_kernel]

theorem count_thrCreate {parent thr ctx : ℕ} (h : ctx ≠ k.current) :
    (thrCreate parent thr ctx k).count = k.count := by
  simp [Kernel.count, thrCreate, update_of_ne h.symm]

end Tachyon.Threads
