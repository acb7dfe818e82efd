import Tachyon.Lists.Model

/-!
# Timers (`tmr.c`)

The timers in memory, the list `_timers`, and the functions of `tmr.c`.  The readings of `systime` and
the addresses that `kheap_alloc` returns are given in advance (`clock`, `alloc`); a callback does
nothing to the timers.

`History` records what the queue of timers should hold, and whether all insertions were of the kind
for which `tmr_resched_sorted` works.  No function reads it.
-/

namespace Tachyon.Tmr

open Prog Tachyon.Lists

/-- `TMR_MAX_TIMEOUT`. -/
def tmrMaxTimeout : ℕ := 10 * 1000

/-- `TMR_MIN_TIMEOUT`. -/
def tmrMinTimeout : ℕ := 50

/-- `tmr_t`. -/
structure Timer where
  expire : ℕ
  period : ℕ
  callback : ℕ
  deriving DecidableEq, Repr

/-- What has happened to the timers. -/
structure History where
  /-- The timers that were scheduled, without the one-shots that have expired. -/
  pending : List ℕ
  /-- The timers that were asked for as one-shots. -/
  oneshot : ℕ → Bool
  /-- Every insertion found an empty list or a timer that expires at the same time, and every
  periodic timer was given a period. -/
  met : Bool

structure State where
  timer : ℕ → Option Timer
  lists : ListHeap
  /-- `_timers`. -/
  timers : ℕ
  /-- The readings of `systime`, and how many there were. -/
  clock : ℕ → ℕ
  reads : ℕ
  /-- The results of `kheap_alloc`, and how many there were. -/
  alloc : ℕ → ℕ
  allocs : ℕ
  /-- The callbacks that were called, and the timeouts the generator was set to. -/
  called : List ℕ
  timeouts : List ℕ
  history : History

/-! ### The surroundings -/

def onLists {α : Type} (p : Prog ListHeap α) : Prog State α :=
  zoom (fun s => s.lists) (fun m s => { s with lists := m }) p

/-- `systime`. -/
def systime : Prog State ℕ := fun s => .ok (s.clock s.reads, { s with reads := s.reads + 1 })

/-- `kheap_alloc`. -/
def kheapAlloc : Prog State ℕ := fun s => .ok (s.alloc s.allocs, { s with allocs := s.allocs + 1 })

def loadTimer (a : ℕ) : Prog State Timer := fun s =>
  match s.timer a with
  | some t => .ok (t, s)
  | none => .error (.pageFault a)

def storeTimer (a : ℕ) (t : Timer) : Prog State Unit :=
  modify fun s => { s with timer := Function.update s.timer a (some t) }

/-- `kheap_free` of a timer. -/
def freeTimer (a : ℕ) : Prog State Unit :=
  modify fun s => { s with timer := Function.update s.timer a none }

/-- The generator is set. -/
def generatorSchedule (timeout : ℕ) : Prog State Unit :=
  modify fun s => { s with timeouts := timeout :: s.timeouts }

/-- Record what has happened. -/
def record (f : State → History → History) : Prog State Unit :=
  modify fun s => { s with history := f s s.history }

/-- `kheap_alloc` gives no address that is in use. -/
def allocTimer : Prog State ℕ :=
  kheapAlloc >>= fun a =>
  get >>= fun s => if s.timer a = none then pure a else halt .undefined

def allocNode : Prog State ℕ :=
  kheapAlloc >>= fun a =>
  get >>= fun s => if s.lists.node a = none ∧ a < 2 ^ 64 then pure a else halt .undefined

/-! ### The functions -/

/-- The loop of `tmr_resched_sorted`: the first timer that does not expire before `tmr`. -/
def findPreceeding (tmr : ℕ) : ℕ → ℕ → Prog State ℕ
  | 0, _ => halt .fuel
  | fuel + 1, preceeding =>
    if preceeding = 0 then pure 0
    else
      onLists (loadNode preceeding) >>= fun n =>
      loadTimer n.data >>= fun other =>
      loadTimer tmr >>= fun t =>
        if t.expire ≤ other.expire then pure preceeding
        else findPreceeding tmr fuel n.next

/-- The insertion behind `preceeding` is one that keeps the order. -/
def insertionMet (tmr preceeding : ℕ) (s : State) : Bool :=
  if preceeding = 0 then
    match s.lists.list s.timers with
    | some h => h.head == 0
    | none => false
  else
    match s.lists.node preceeding, s.timer tmr with
    | some n, some t => (s.timer n.data).map Timer.expire == some t.expire
    | _, _ => false

/-- `tmr_resched_sorted`. -/
def tmrReschedSorted (fuel tmr : ℕ) : Prog State Unit :=
  get >>= fun s =>
  onLists (listBegin s.timers) >>= fun head =>
  findPreceeding tmr fuel head >>= fun preceeding =>
  record (fun s h => { h with met := h.met && insertionMet tmr preceeding s }) >>= fun _ =>
  allocNode >>= fun new =>
  onLists (listInsert s.timers preceeding tmr new)

/-- The part of `tmr_handle_expired` behind `list_remove`. -/
def tmrRenew (fuel tmr : ℕ) (t : Timer) : Prog State Unit :=
  if t.period ≠ 0 then
    systime >>= fun current =>
    storeTimer tmr { t with expire := add64 current t.period } >>= fun _ =>
    tmrReschedSorted fuel tmr
  else freeTimer tmr

/-- `tmr_handle_expired`. -/
def tmrHandleExpired (fuel tmr : ℕ) : Prog State Unit :=
  loadTimer tmr >>= fun t =>
  modify (fun s => { s with called := t.callback :: s.called }) >>= fun _ =>
  record (fun _ h => { h with
    pending := if h.oneshot tmr then h.pending.erase tmr else h.pending }) >>= fun _ =>
  get >>= fun s =>
  onLists (listRemove fuel s.timers tmr) >>= fun _ =>
  tmrRenew fuel tmr t

/-- The loop of `tmr_do_handle_tick`. -/
def tickLoop (fuel current : ℕ) : ℕ → ℕ → Prog State Unit
  | 0, _ => halt .fuel
  | k + 1, node =>
    if node = 0 then pure ()
    else
      onLists (loadNode node) >>= fun n =>
      loadTimer n.data >>= fun t =>
        if t.expire ≤ current then
          tmrHandleExpired fuel n.data >>= fun _ => tickLoop fuel current k n.next
        else pure ()

/-- `tmr_do_handle_tick`. -/
def tmrDoHandleTick (fuel : ℕ) : Prog State Unit :=
  get >>= fun s =>
  onLists (listBegin s.timers) >>= fun node =>
  systime >>= fun current =>
  tickLoop fuel current fuel node

/-- `tmr_set_next_tick`. -/
def tmrSetNextTick (fuel : ℕ) : Prog State Unit :=
  systime >>= fun current =>
  tmrDoHandleTick fuel >>= fun _ =>
  get >>= fun s =>
  onLists (listBegin s.timers) >>= fun node =>
    if node ≠ 0 then
      onLists (loadNode node) >>= fun n =>
      loadTimer n.data >>= fun t =>
      generatorSchedule (if t.expire ≤ add64 current tmrMinTimeout then tmrMinTimeout
        else sub64 t.expire current)
    else generatorSchedule tmrMaxTimeout

/-- `tmr_schedule`. -/
def tmrSchedule (fuel callback us : ℕ) (oneshot : Bool) : Prog State Bool :=
  allocTimer >>= fun pt =>
    if callback = 0 then pure false
    else if pt = 0 then halt (.pageFault 0)
    else
      systime >>= fun now =>
      storeTimer pt ⟨add64 us now, if oneshot then 0 else us, callback⟩ >>= fun _ =>
      record (fun _ h => ⟨pt :: h.pending, Function.update h.oneshot pt oneshot,
        h.met && (oneshot || us != 0)⟩) >>= fun _ =>
      tmrReschedSorted fuel pt >>= fun _ =>
      tmrSetNextTick fuel >>= fun _ => pure true

/-- `tmr_handle_tick`. -/
def tmrHandleTick (fuel : ℕ) : Prog State Unit := tmrSetNextTick fuel

end Tachyon.Tmr
