import Tachyon.Paging
import Tachyon.Stka.Model
import Tachyon.Threads.Model

/-!
# The life of processes and threads (`process.c`, `thread.c`)

Processes and threads by their addresses, with the memory of the stack allocators.  The addresses
that `kheap_alloc` returns and the success of `heap_init` are arguments.  The list of threads of a
process is a list.  The heap of a process and what the scheduler does behind `thr_exit` are not part
of this model.

* `prcNew`, `prcDestroy`, `prcNextTid`, `prcAddThread`, `prcRemoveThread` (`process.c`);
* `thrCreate`, `thrExit`, `thrDelete` (`thread.c`).
-/

namespace Tachyon.Tasks

open Prog Threads

/-- `thread_isolation_t`. -/
inductive Isolation
  | kernel
  | user
  deriving DecidableEq, Repr

/-- `process_t`. -/
structure Process where
  id : ℕ
  space : ℕ
  priority : Priority
  locked : Bool
  ctid : ℕ
  threads : List ℕ
  stka : ℕ
  deriving DecidableEq, Repr

/-- `thr_context_t`: of the saved state the registers that `thr_create` sets. -/
structure Context where
  ss : ℕ
  cs : ℕ
  rdi : ℕ
  rsp : ℕ
  thread : ℕ
  deriving DecidableEq, Repr

/-- `thread_t`. -/
structure Thread where
  id : ℕ
  state : ThreadState
  priority : Priority
  stka : ℕ
  stack : ℕ
  parent : ℕ
  context : ℕ
  deriving DecidableEq, Repr

structure State where
  process : ℕ → Option Process
  thread : ℕ → Option Thread
  context : ℕ → Option Context
  /-- `current` of `process.c`, the next process id. -/
  nextPid : ℕ
  kstackAllocator : ℕ
  mem : Stka.State

/-! ### Access -/

/-- A function of the stack allocator, or of the memory. -/
def onMem {α : Type} (p : Prog Stka.State α) : Prog State α :=
  zoom (fun s => s.mem) (fun m s => { s with mem := m }) p

def loadProcess (prc : ℕ) : Prog State Process := fun s =>
  match s.process prc with
  | none => .error .undefined
  | some p => .ok (p, s)

def storeProcess (prc : ℕ) (p : Option Process) : Prog State Unit :=
  modify fun s => { s with process := Function.update s.process prc p }

def loadThread (thr : ℕ) : Prog State Thread := fun s =>
  match s.thread thr with
  | none => .error .undefined
  | some t => .ok (t, s)

def storeThread (thr : ℕ) (t : Option Thread) : Prog State Unit :=
  modify fun s => { s with thread := Function.update s.thread thr t }

def storeContext (ctx : ℕ) (c : Option Context) : Prog State Unit :=
  modify fun s => { s with context := Function.update s.context ctx c }

/-- The memory that `kheap_alloc` returns is not in use. -/
def fresh {α : Type} (at_ : State → Option α) : Prog State Unit := fun s =>
  if (at_ s).isSome then .error .undefined else .ok ((), s)

/-! ### Processes -/

/-- `SHEAP_START` and `SHEAP_END`. -/
def sheapStart : ℕ := 0x0000700000000000
def sheapEnd : ℕ := 0x0000800000000000

/-- The stacks of a process. -/
def stackDesc (space : ℕ) : Stka.Desc where
  top := sheapEnd
  bottom := sheapStart
  space := space
  pgFl := pgWritable ||| pgUser
  fixed := false
  global := false

/-- `prc_new`; `prc` and `stka` are the addresses of the new process and its stack allocator. -/
def prcNew (prc stka : ℕ) (heapInit : Bool) (space : ℕ) (priority : Priority) : Prog State ℕ :=
  if prc = 0 ∨ space = 0 then pure 0
  else do
    fresh fun s => s.process prc
    let s ← get
    onMem (Stka.spcSwitch space)
    -- the failure leaves the new address space active
    if heapInit then
      if stka = 0 then halt (.pageFault 0)
      else do
        let a ← onMem (Stka.stkaNew stka (stackDesc space))
        storeProcess prc (some ⟨s.nextPid, space, priority, false, 0, [], a⟩)
        modify fun s => { s with nextPid := add64 s.nextPid 1 }
        onMem (Stka.spcSwitch s.mem.cr3)
        pure prc
    else pure 0

def Process.setLock (b : Bool) (p : Process) : Process := { p with locked := b }

/-- `spl_lock` of the lock of a process. -/
def prcLock (prc : ℕ) : Prog State Unit := do
  let p ← loadProcess prc
  if p.locked then halt .fuel else storeProcess prc (some (p.setLock true))

/-- `spl_unlock` of the lock of a process. -/
def prcUnlock (prc : ℕ) : Prog State Unit := do
  let p ← loadProcess prc
  storeProcess prc (some (p.setLock false))

/-- A change of a process under its lock. -/
def prcLocked {α : Type} (prc : ℕ) (f : Process → α × Process) : Prog State α := do
  prcLock prc
  let p ← loadProcess prc
  storeProcess prc (some (f p).2)
  prcUnlock prc
  pure (f p).1

/-- `prc_next_tid`; `tid_t` is a word. -/
def prcNextTid (prc : ℕ) : Prog State ℕ :=
  prcLocked prc fun p => (p.ctid, { p with ctid := add64 p.ctid 1 })

/-- `prc_add_thread`. -/
def prcAddThread (prc thr : ℕ) : Prog State Unit :=
  prcLocked prc fun p => ((), { p with threads := p.threads ++ [thr] })

/-- `prc_remove_thread`. -/
def prcRemoveThread (prc thr : ℕ) : Prog State Unit :=
  prcLocked prc fun p => ((), { p with threads := p.threads.erase thr })

/-- `prc_destroy` up to the point where it takes the process apart. -/
def destroyGuard (prc : ℕ) : Prog State Process := do
  prcLock prc
  let p ← loadProcess prc
  if 0 < p.threads.length then halt (.fatal "trying to destroy process with threads!\n") else pure p

/-- `spc_delete`: nothing is mapped any more. -/
def spcDelete (space : ℕ) : Prog Stka.State Unit :=
  modify fun m => { m with maps := Function.update m.maps space fun _ => none }

def prcDestroy (prc : ℕ) : Prog State Unit :=
  if prc = 0 then pure ()
  else do
    let p ← destroyGuard prc
    onMem (Stka.stkaDelete p.stka)
    onMem (spcDelete p.space)
    storeProcess prc none

/-! ### Threads -/

/-- `GDT_KDATA64`, `GDT_KCODE64`, and their user mode counterparts with the ring. -/
def segments : Isolation → ℕ × ℕ
  | .kernel => (0x20, 0x18)
  | .user => (0x40 ||| 3, 0x38 ||| 3)

/-- `thr_create`; `thr`, `ctx` and `stk` are the addresses of the thread, its context and its
stack. -/
def thrCreate (thr ctx stk parent entry : ℕ) (isolation : Isolation) : Prog State ℕ :=
  if thr = 0 then pure 0
  else do
    fresh fun s => s.thread thr
    let id ← prcNextTid parent
    if ctx = 0 then halt (.pageFault 0)
    else do
      fresh fun s => s.context ctx
      let p ← loadProcess parent
      let s ← get
      let stka := if isolation = .kernel then s.kstackAllocator else p.stka
      let stack ← onMem (Stka.stkaAlloc stka stk)
      -- the stack is used without a check
      if stack = 0 then halt (.pageFault 0)
      else do
        let st ← onMem (Stka.loadStack stack)
        storeContext ctx (some ⟨(segments isolation).1, (segments isolation).2, entry,
          sub64 st.top 16, thr⟩)
        storeThread thr (some ⟨id, .runnable, p.priority, stka, stack, parent, ctx⟩)
        pure thr

/-- `thr_exit`, up to the call of the scheduler. -/
def thrExit (thr : ℕ) : Prog State Unit := do
  let t ← loadThread thr
  storeThread thr (some { t with state := .exited })

/-- `thr_delete`. -/
def thrDelete (thr : ℕ) : Prog State Unit := do
  let t ← loadThread thr
  storeContext t.context none
  onMem (Stka.stkaFree t.stka t.stack)
  storeThread thr none

end Tachyon.Tasks
