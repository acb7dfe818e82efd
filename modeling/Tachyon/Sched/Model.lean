import Tachyon.Lists.Model
import Tachyon.Threads.Model

/-!
# The scheduler (`sched.c`)

The run queues are linked lists of threads, one for each priority, made when they are first needed
(`State`).  The functions that pick, remove and add a thread walk these lists; what `sched_schedule`
does with them is written over any such three functions (`Queueing`), and `linked` are the ones of
the source.

The lock of the scheduler is not part of this model: the functions run one after the other.  The
readings of `systime` and the addresses that `kheap_alloc` returns (`Fresh`) are arguments, and
`schedSchedule` returns the thread it has switched to, for the record.
-/

namespace Tachyon.Sched

open Prog Tachyon.Lists Threads

/-- `SCHED_TIMESLICE_US`. -/
def schedTimesliceUs : ℕ := 5 * 1000

/-- The priorities in the order in which `sched_choose` visits them: from `PrioKernel` down, until
the unsigned counter wraps around. -/
def priorities : List Priority := [.kernel, .highest, .high, .normal, .low, .lowest, .idle]

/-- The threads, the CPU and the run queues. -/
structure State where
  kernel : Kernel
  lists : ListHeap
  /-- `_sched_queues`. -/
  queues : Priority → ℕ

/-- Where `kheap_alloc` puts a new list and a new node. -/
structure Fresh where
  list : ℕ
  node : ℕ
  deriving DecidableEq, Repr

/-! ### The queues -/

/-- A function of `list.c`. -/
def onLists {α : Type} (p : Prog ListHeap α) : Prog State α :=
  zoom (fun s => s.lists) (fun m s => { s with lists := m }) p

/-- The queue of a priority, made if there is none. -/
def schedQueue (p : Priority) (new : Fresh) : Prog State ℕ :=
  get >>= fun s =>
    if s.queues p = 0 then
      onLists (listNew new.list) >>= fun list =>
      modify (fun s => { s with queues := Function.update s.queues p list }) >>= fun _ => pure list
    else pure (s.queues p)

/-- `sched_add_unlocked`. -/
def schedAddUnlocked (new : Fresh) (thread : ℕ) : Prog State Unit :=
  get >>= fun s =>
  schedQueue (s.kernel.thread thread).priority new >>= fun list =>
  onLists (listAdd list thread new.node)

/-- `sched_remove_unlocked`. -/
def schedRemoveUnlocked (fuel thread : ℕ) : Prog State Unit :=
  get >>= fun s => onLists (listRemove fuel (s.queues (s.kernel.thread thread).priority) thread)

/-- The loop of `sched_choose` over one queue: the first runnable thread, or `NULL`. -/
def chooseNode : ℕ → ℕ → Prog State ℕ
  | 0, _ => halt .fuel
  | fuel + 1, node =>
    if node = 0 then pure 0
    else onLists (loadNode node) >>= fun n =>
      get >>= fun s =>
        if n.data ≠ 0 ∧ (s.kernel.thread n.data).state = .runnable then pure n.data
        else chooseNode fuel n.next

/-- The loop of `sched_choose` over the queues. -/
def chooseFrom (fuel : ℕ) : List Priority → Prog State ℕ
  | [] => pure 0
  | p :: ps =>
    get >>= fun s =>
    onLists (listBegin (s.queues p)) >>= fun node =>
    chooseNode fuel node >>= fun thr =>
      if thr ≠ 0 then pure thr else chooseFrom fuel ps

/-- `sched_choose`. -/
def schedChoose (fuel : ℕ) : Prog State ℕ := chooseFrom fuel priorities

/-- Run queues in a state `σ`, next to the threads and the CPU. -/
structure Queueing (σ : Type) where
  kernel : σ → Kernel
  setKernel : Kernel → σ → σ
  choose : Prog σ ℕ
  remove : ℕ → Prog σ Unit
  add : ℕ → Prog σ Unit

/-- The run queues of the source. -/
def linked (fuel : ℕ) (new : Fresh) : Queueing State where
  kernel s := s.kernel
  setKernel k s := { s with kernel := k }
  choose := schedChoose fuel
  remove := schedRemoveUnlocked fuel
  add := schedAddUnlocked new

/-! ### Scheduling -/

section Schedule

variable {σ : Type} (Q : Queueing σ)

/-- Change the threads or the CPU. -/
def Queueing.onKernel (f : Kernel → Kernel) : Prog σ Unit :=
  modify fun s => Q.setKernel (f (Q.kernel s)) s

/-- The thread still has time. -/
def KeepsCpu (now : ℕ) (thread : Thread) : Prop :=
  thread.state = .runnable ∧ now < thread.preemptAt

instance (now : ℕ) (thread : Thread) : Decidable (KeepsCpu now thread) :=
  inferInstanceAs (Decidable (_ ∧ _))

/-- A thread that has yielded is runnable again. -/
def endYield (thread : Thread) : Thread :=
  if thread.state = .yielded then { thread with state := .runnable } else thread

/-- What `sched_schedule` does to the threads and the CPU when it switches to `thr`. -/
def switchTo (thr now : ℕ) (k : Kernel) : Kernel :=
  (thrSwitch thr (k.setThread thr fun t =>
    { t with preemptAt := add64 now schedTimesliceUs })).2

/-- The part of `sched_schedule` that switches from `old` to `thr`. -/
def schedSwitch (old thr now : ℕ) : Prog σ (Option ℕ) :=
  Q.onKernel (switchTo thr now) >>= fun _ =>
  Q.remove thr >>= fun _ =>
    if old ≠ 0 then Q.add old >>= fun _ => pure (some thr) else pure (some thr)

/-- The part of `sched_schedule` behind the test of the time slice. -/
def schedNext (old now : ℕ) : Prog σ (Option ℕ) :=
  Q.choose >>= fun thr =>
    if thr ≠ 0 then schedSwitch Q old thr now
    -- `old->state` is read without a check
    else if old = 0 then halt (.pageFault 0)
    else get >>= fun s =>
      if ((Q.kernel s).thread old).state = .runnable then pure none
      else halt (.fatal "no thread left to schedule - this is bad!\n")

/-- `sched_schedule`; `now` is the time at the test of the time slice, `now'` that of the switch. -/
def schedSchedule (now now' : ℕ) : Prog σ (Option ℕ) :=
  get >>= fun s =>
    if thrCurrent (Q.kernel s) = 0 then schedNext Q 0 now'
    else if KeepsCpu now ((Q.kernel s).thread (thrCurrent (Q.kernel s))) then pure none
    else
      Q.onKernel (fun k => k.setThread (thrCurrent k) endYield) >>= fun _ =>
      schedNext Q (thrCurrent (Q.kernel s)) now'

/-- Set the state of the current thread, and schedule. -/
def leave (state : ThreadState) (now now' : ℕ) : Prog σ (Option ℕ) :=
  get >>= fun s =>
    if thrCurrent (Q.kernel s) = 0 then halt (.pageFault 0)
    else
      Q.onKernel (fun k => k.setThread (thrCurrent k) fun t => { t with state := state }) >>=
      fun _ => schedSchedule Q now now'

/-- `sched_yield`. -/
def schedYield (now now' : ℕ) : Prog σ (Option ℕ) := leave Q .yielded now now'

/-- `thr_exit_current`. -/
def thrExitCurrent (now now' : ℕ) : Prog σ (Option ℕ) := leave Q .exited now now'

/-- `thr_abort` of the current thread; a thread of the kernel process stops the kernel. -/
def thrAbortCurrent (now now' : ℕ) : Prog σ (Option ℕ) :=
  get >>= fun s =>
    if ((Q.kernel s).process ((Q.kernel s).thread (thrCurrent (Q.kernel s))).parent).id = 0 then
      halt (.fatal "tachyon aborted.\n")
    else leave Q .aborting now now'

/-- `sched_add`. -/
def schedAdd (thread : ℕ) : Prog σ (Option ℕ) := Q.add thread >>= fun _ => pure none

/-- The calls of the scheduler. -/
inductive Call
  | add (thread : ℕ)
  | schedule (now now' : ℕ)
  | yield (now now' : ℕ)
  | exit (now now' : ℕ)
  | abort (now now' : ℕ)
  deriving DecidableEq, Repr

def Call.run : Call → Prog σ (Option ℕ)
  | .add thread => schedAdd Q thread
  | .schedule now now' => schedSchedule Q now now'
  | .yield now now' => schedYield Q now now'
  | .exit now now' => thrExitCurrent Q now now'
  | .abort now now' => thrAbortCurrent Q now now'

end Schedule

end Tachyon.Sched
