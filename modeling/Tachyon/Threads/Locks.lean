import Tachyon.Lib.Machine
import Tachyon.Threads.Model

/-!
# Spinlocks and the timer interrupt

One CPU that runs calls of the scheduler and of the physical memory allocator, instruction by
instruction as far as locks, the nesting counter and the current context are concerned, and timer
interrupts between any two of them.

`spl_lock` disables interrupts only until it has the lock.

* `Call.code`, `handlerCode`: the instructions of the calls and of the timer interrupt;
* `Cpu.next`: the machine;
* `Clear`: where an interrupt can be taken, its handler finds all its locks free;
* `no_self_deadlock_run`: so it is as long as calls are made with interrupts disabled by
  `intr_disable`;
* `sched_add_deadlock`: a call of `sched_add` with interrupts enabled.
-/

namespace Tachyon.Locks

open Machine Threads List Function Option

/-! ### Code -/

inductive Lock
  /-- `_sched_lock`. -/
  | sched
  /-- `pmem_lock`. -/
  | pmem
  /-- `cga_lock`. -/
  | cga
  deriving DecidableEq, Repr

inductive Instr
  /-- `intr_disable`. -/
  | disable
  /-- `intr_enable(true)`. -/
  | enable
  /-- The loop of `spl_lock`. -/
  | acquire (l : Lock)
  /-- `spl_unlock`. -/
  | release (l : Lock)
  /-- `thr_switch`. -/
  | switch (target : ℕ)
  deriving DecidableEq, Repr

def splLock (l : Lock) : List Instr := [.disable, .acquire l, .enable]

/-- A body between `spl_lock` and `spl_unlock`. -/
def locked (l : Lock) (body : List Instr) : List Instr := splLock l ++ body ++ [.release l]

def tscRead : List Instr := [.disable, .enable]

/-- `log_write`, with a number of calls of `cga_write`. -/
def logWrite (writes : ℕ) : List Instr :=
  .disable :: (List.replicate writes (locked .cga [])).flatten ++ [.enable]

/-- `pmem_alloc`, with a number of regions that are searched. -/
def pmemAlloc (visits : ℕ) : List Instr := (List.replicate visits (locked .pmem [])).flatten

/-- What `systime`, log messages and the growth of the kernel heap do in the course of a function. -/
inductive Part
  | systime
  | log (writes : ℕ)
  | alloc (visits : ℕ)
  deriving DecidableEq, Repr

def Part.code : Part → List Instr
  | .systime => tscRead
  | .log writes => logWrite writes
  | .alloc visits => pmemAlloc visits

def partsCode (ps : List Part) : List Instr := ps.flatMap Part.code

/-- `sched_add` and `sched_remove`. -/
def schedAdd (ps : List Part) : List Instr := locked .sched (partsCode ps)

/-- `sched_schedule`, with the thread that is chosen and what happens behind the switch. -/
def schedSchedule (ps : List Part) (next : Option (ℕ × List Part)) : List Instr :=
  locked .sched (partsCode ps ++
    match next with
    | none => []
    | some (target, qs) => .switch target :: partsCode qs)

/-- `pmem_reserve`; its messages are outside of the lock. -/
def pmemReserve (ps qs : List Part) : List Instr :=
  partsCode ps ++ locked .pmem [] ++ partsCode qs

/-- The calls of a thread. -/
inductive Call
  | schedAdd (ps : List Part)
  | schedRemove (ps : List Part)
  | schedYield (ps : List Part) (next : Option (ℕ × List Part))
  | pmemAlloc (visits : ℕ)
  | pmemReserve (ps qs : List Part)
  deriving DecidableEq, Repr

def Call.code : Call → List Instr
  | .schedAdd ps => Locks.schedAdd ps
  | .schedRemove ps => Locks.schedAdd ps
  | .schedYield ps next => schedSchedule ps next
  | .pmemAlloc visits => Locks.pmemAlloc visits
  | .pmemReserve ps qs => Locks.pmemReserve ps qs

/-- The parts of `tmr_handle_tick`: its own ones, and the callback `sched_schedule`. -/
inductive HandlerPart
  | part (p : Part)
  | schedule (ps : List Part) (next : Option (ℕ × List Part))
  deriving DecidableEq, Repr

def handlerCode (hs : List HandlerPart) : List Instr :=
  hs.flatMap fun
    | .part p => p.code
    | .schedule ps next => schedSchedule ps next

/-! ### The machine -/

/-- The kernel and the locks. -/
structure Core where
  kernel : Kernel
  held : Lock → Bool

/-- One instruction; a lock that is held makes it spin. -/
def runInstr : Instr → Core → Option Core
  | .disable, c => some { c with kernel := intrDisable c.kernel }
  | .enable, c => some { c with kernel := (intrEnable true c.kernel).2 }
  | .acquire l, c =>
    if c.held l then none else some { c with held := Function.update c.held l true }
  | .release l, c => some { c with held := Function.update c.held l false }
  | .switch target, c => some { c with kernel := (thrSwitch target c.kernel).2 }

/-- The instructions that the CPU has before it, and those that were saved in the contexts. -/
structure Cpu where
  core : Core
  code : List Instr
  saved : ℕ → List Instr

inductive Event
  /-- `intr_disable` and `intr_enable(true)` between calls. -/
  | disable
  | enable
  | call (call : Call)
  /-- The next instruction of the call. -/
  | instr
  /-- A timer interrupt. -/
  | interrupt (handler : List HandlerPart)
  deriving DecidableEq, Repr

def Cpu.next : Event → Cpu → Option Cpu
  | .disable, c =>
    if c.code = [] then (runInstr .disable c.core).map fun core => { c with core := core } else none
  | .enable, c =>
    if c.code = [] then (runInstr .enable c.core).map fun core => { c with core := core } else none
  | .call call, c => if c.code = [] then some { c with code := call.code } else none
  | .instr, ⟨core, i :: code, saved⟩ => (runInstr i core).map fun core => ⟨core, code, saved⟩
  | .instr, ⟨_, [], _⟩ => none
  | .interrupt handler, c =>
    if c.core.kernel.intFlag then
      let saved := Function.update c.saved c.core.kernel.current c.code
      (exec runInstr (handlerCode handler) { c.core with kernel := isrEntry c.core.kernel }).map
        fun core => ⟨{ core with kernel := isrExit core.kernel }, saved core.kernel.current, saved⟩
    else none

/-- No lock that the handler of an interrupt takes is held where an interrupt can be taken. -/
def Clear (c : Cpu) : Prop :=
  c.core.kernel.intFlag = true → ∀ hs l, .acquire l ∈ handlerCode hs → c.core.held l = false

/-- A counter between 1 and 253. -/
def Counts (n : ℕ) : Prop := 1 ≤ n ∧ n < 254

/-- Calls are made with interrupts disabled by `intr_disable`, and switch to contexts that count. -/
def Met : Event → Cpu → Prop
  | .call _, c => c.core.kernel.intFlag = false ∧ Counts c.core.kernel.count
  | .instr, c => ∀ target rest, c.code = .switch target :: rest →
    Counts (c.core.kernel.context (c.core.kernel.thread target).context).ifdaCnt
  | _, _ => True

/-! ### Nesting -/

/-- The number of open pairs and the locks taken, the last one first. -/
structure Shape where
  depth : ℕ
  locks : List Lock
  deriving DecidableEq, Repr

/-- Pairs are closed in order, at most two are open at a time and none at a switch; locks are released
in order, and none is taken twice. -/
def Shape.next : Instr → Shape → Option Shape
  | .disable, ⟨d, ls⟩ => if d < 2 then some ⟨d + 1, ls⟩ else none
  | .enable, ⟨d, ls⟩ => if 0 < d then some ⟨d - 1, ls⟩ else none
  | .acquire l, ⟨d, ls⟩ => if l ∈ ls then none else some ⟨d, l :: ls⟩
  | .release l, ⟨d, ls⟩ => if ls.head? = some l then some ⟨d, ls.tail⟩ else none
  | .switch _, ⟨d, ls⟩ => if d = 0 then some ⟨d, ls⟩ else none

variable {d : ℕ} {ls : List Lock} {l : Lock} {body : List Instr}

section Next

variable {s s' : Shape}

theorem next_disable (h : Shape.next .disable s = some s') :
    s.depth < 2 ∧ s' = ⟨s.depth + 1, s.locks⟩ := by
  simp only [Shape.next] at h
  split_ifs at h with hd
  exact ⟨hd, (some.inj h).symm⟩

theorem next_enable (h : Shape.next .enable s = some s') :
    0 < s.depth ∧ s' = ⟨s.depth - 1, s.locks⟩ := by
  simp only [Shape.next] at h
  split_ifs at h with hd
  exact ⟨hd, (some.inj h).symm⟩

theorem next_acquire (h : Shape.next (.acquire l) s = some s') :
    l ∉ s.locks ∧ s' = ⟨s.depth, l :: s.locks⟩ := by
  simp only [Shape.next] at h
  split_ifs at h with hl
  exact ⟨hl, (some.inj h).symm⟩

theorem next_release (h : Shape.next (.release l) s = some s') :
    ∃ ls, s.locks = l :: ls ∧ s' = ⟨s.depth, ls⟩ := by
  simp only [Shape.next] at h
  split_ifs at h with hl
  obtain ⟨ls, hls⟩ := head?_eq_some_iff.1 hl
  refine ⟨ls, hls, ?_⟩
  rw [← some.inj h, hls]
  rfl

theorem next_switch {target : ℕ} (h : Shape.next (.switch target) s = some s') :
    s.depth = 0 ∧ s' = s := by
  simp only [Shape.next] at h
  split_ifs at h with hd
  exact ⟨hd, (some.inj h).symm⟩

end Next

theorem neutral_locked (hd : d < 2) (hl : l ∉ ls)
    (hb : Neutral Shape.next ⟨d, l :: ls⟩ body) : Neutral Shape.next ⟨d, ls⟩ (locked l body) := by
  have hlock : exec Shape.next (splLock l) ⟨d, ls⟩ = some ⟨d, l :: ls⟩ := by
    simp [splLock, exec, Shape.next, hd, hl]
  unfold Neutral at hb ⊢
  rw [locked, exec_append, exec_append, hlock, bind_some, hb, bind_some]
  simp [exec, Shape.next]

theorem neutral_tscRead (hd : d < 2) : Neutral Shape.next ⟨d, ls⟩ tscRead := by
  simp [Neutral, tscRead, exec, Shape.next, hd]

theorem neutral_pmemAlloc (hd : d < 2) (hl : .pmem ∉ ls) (visits : ℕ) :
    Neutral Shape.next ⟨d, ls⟩ (pmemAlloc visits) := by
  refine Neutral.flatten fun es hes => ?_
  rw [eq_of_mem_replicate hes]
  exact neutral_locked hd hl .nil

theorem neutral_logWrite (hl : .cga ∉ ls) (writes : ℕ) :
    Neutral Shape.next ⟨0, ls⟩ (logWrite writes) := by
  have hwrites : Neutral Shape.next ⟨1, ls⟩ (replicate writes (locked .cga [])).flatten := by
    refine Neutral.flatten fun es hes => ?_
    rw [eq_of_mem_replicate hes]
    exact neutral_locked (by decide) hl .nil
  have hopen : Shape.next .disable ⟨0, ls⟩ = some ⟨1, ls⟩ := rfl
  unfold Neutral at hwrites ⊢
  rw [logWrite, cons_append, exec_cons hopen, exec_append, hwrites]
  rfl

/-- Code outside of a lock, or under the lock of the scheduler. -/
theorem neutral_part (hl : .pmem ∉ ls) (hl' : .cga ∉ ls) (p : Part) :
    Neutral Shape.next ⟨0, ls⟩ p.code := by
  cases p with
  | systime => exact neutral_tscRead (by decide)
  | log writes => exact neutral_logWrite hl' writes
  | alloc visits => exact neutral_pmemAlloc (by decide) hl visits

theorem neutral_partsCode (hl : .pmem ∉ ls) (hl' : .cga ∉ ls) (ps : List Part) :
    Neutral Shape.next ⟨0, ls⟩ (partsCode ps) := by
  refine Neutral.flatten fun es hes => ?_
  obtain ⟨p, -, rfl⟩ := mem_map.1 hes
  exact neutral_part hl hl' p

theorem neutral_schedAdd (ps : List Part) : Neutral Shape.next ⟨0, []⟩ (schedAdd ps) :=
  neutral_locked (by decide) not_mem_nil (neutral_partsCode (by decide) (by decide) ps)

theorem neutral_schedSchedule (ps : List Part) (next : Option (ℕ × List Part)) :
    Neutral Shape.next ⟨0, []⟩ (schedSchedule ps next) := by
  refine neutral_locked (by decide) not_mem_nil
    ((neutral_partsCode (by decide) (by decide) ps).append ?_)
  cases next with
  | none => exact .nil
  | some b => exact neutral_partsCode (by decide) (by decide) b.2

theorem Call.neutral (call : Call) : Neutral Shape.next ⟨0, []⟩ call.code := by
  have hparts : ∀ ps, Neutral Shape.next ⟨0, []⟩ (partsCode ps) :=
    neutral_partsCode not_mem_nil not_mem_nil
  cases call with
  | schedAdd ps => exact neutral_schedAdd ps
  | schedRemove ps => exact neutral_schedAdd ps
  | schedYield ps next => exact neutral_schedSchedule ps next
  | pmemAlloc visits => exact neutral_pmemAlloc (by decide) not_mem_nil visits
  | pmemReserve ps qs =>
    exact ((hparts ps).append (neutral_locked (by decide) not_mem_nil .nil)).append (hparts qs)

theorem neutral_handlerCode (hs : List HandlerPart) :
    Neutral Shape.next ⟨0, []⟩ (handlerCode hs) := by
  refine Neutral.flatten fun es hes => ?_
  obtain ⟨h, -, rfl⟩ := mem_map.1 hes
  cases h with
  | part p => exact neutral_part not_mem_nil not_mem_nil p
  | schedule ps next => exact neutral_schedSchedule ps next

/-! ### The locks that are held -/

variable {c c' c₀ : Cpu} {core core' : Core} {i : Instr} {s s' : Shape}

/-- Exactly the locks `ls` are held. -/
structure Holding (core : Core) (ls : List Lock) : Prop where
  nodup : ls.Nodup
  held : ∀ l, core.held l = true ↔ l ∈ ls

theorem Holding.congr (h : Holding core ls) (heq : core'.held = core.held) : Holding core' ls :=
  ⟨h.nodup, by rw [heq]; exact h.held⟩

theorem acquire_eq_some (h : runInstr (.acquire l) core = some core') :
    core' = { core with held := update core.held l true } := by
  simp only [runInstr] at h
  split_ifs at h
  exact (some.inj h).symm

theorem Holding.instr (h : Holding core s.locks) (hs : Shape.next i s = some s')
    (hrun : runInstr i core = some core') : Holding core' s'.locks := by
  cases i with
  | disable =>
    cases hrun
    obtain ⟨-, rfl⟩ := next_disable hs
    exact h.congr rfl
  | enable =>
    cases hrun
    obtain ⟨-, rfl⟩ := next_enable hs
    exact h.congr rfl
  | acquire l =>
    obtain rfl := acquire_eq_some hrun
    obtain ⟨hmem, rfl⟩ := next_acquire hs
    refine ⟨nodup_cons.2 ⟨hmem, h.nodup⟩, fun l' => ?_⟩
    by_cases hl : l' = l
    · simp [hl]
    · simpa [update_of_ne hl, hl] using h.held l'
  | release l =>
    cases hrun
    obtain ⟨ls, hls, rfl⟩ := next_release hs
    rw [hls] at h
    obtain ⟨hnot, hnd⟩ := nodup_cons.1 h.nodup
    refine ⟨hnd, fun l' => ?_⟩
    by_cases hl : l' = l
    · subst hl
      simpa using hnot
    · simpa [update_of_ne hl, hl] using h.held l'
  | switch target =>
    cases hrun
    obtain ⟨-, rfl⟩ := next_switch hs
    exact h.congr rfl

theorem Holding.exec {es : List Instr} (h : Holding core s.locks)
    (hs : Machine.exec Shape.next es s = some s')
    (hrun : Machine.exec runInstr es core = some core') : Holding core' s'.locks := by
  induction es generalizing s core with
  | nil =>
    cases hs
    cases hrun
    exact h
  | cons i es ih =>
    obtain ⟨s1, hs1, hs⟩ := bind_eq_some_iff.1 hs
    obtain ⟨core1, hrun1, hrun⟩ := bind_eq_some_iff.1 hrun
    exact ih (h.instr hs1 hrun1) hs hrun

/-! ### Runs -/

/-- Inside of a call interrupts are disabled, and the counter says so beyond the open pairs. -/
structure Running (core : Core) (s : Shape) : Prop where
  flag : core.kernel.intFlag = false
  low : s.depth < core.kernel.count
  high : core.kernel.count ≤ 253 + s.depth

theorem Running.instr (h : Running core s) (hs : Shape.next i s = some s')
    (hrun : runInstr i core = some core')
    (hmet : ∀ target, i = .switch target →
      Counts (core.kernel.context (core.kernel.thread target).context).ifdaCnt) :
    Running core' s' := by
  obtain ⟨hflag, hlow, hhigh⟩ := h
  cases i with
  | disable =>
    cases hrun
    obtain ⟨hd, rfl⟩ := next_disable hs
    refine ⟨rfl, ?_, ?_⟩ <;> simp only [count_intrDisable] <;> omega
  | enable =>
    cases hrun
    obtain ⟨hd, rfl⟩ := next_enable hs
    -- the caller's own `intr_disable` still counts
    have hgt : ¬core.kernel.count ≤ 1 := by omega
    refine ⟨?_, ?_, ?_⟩ <;> simp only [intFlag_intrEnable, count_intrEnable]
    · simp [hflag, hgt]
    · omega
    · omega
  | acquire l =>
    obtain rfl := acquire_eq_some hrun
    obtain ⟨-, rfl⟩ := next_acquire hs
    exact ⟨hflag, hlow, hhigh⟩
  | release l =>
    cases hrun
    obtain ⟨ls, -, rfl⟩ := next_release hs
    exact ⟨hflag, hlow, hhigh⟩
  | switch target =>
    cases hrun
    obtain ⟨hd, rfl⟩ := next_switch hs
    obtain ⟨h1, h2⟩ := hmet target rfl
    refine ⟨?_, ?_, ?_⟩ <;> simp only [intFlag_thrSwitch, count_thrSwitch]
    · exact hflag
    · omega
    · omega

/-- A CPU between calls, with all locks free. -/
structure Start (c : Cpu) : Prop where
  code : c.code = []
  saved : ∀ x, c.saved x = []
  held : ∀ l, c.core.held l = false

/-- Only calls with interrupts disabled are under way. -/
structure Inv (c : Cpu) : Prop where
  saved : ∀ x, c.saved x = []
  shape : ∃ s, Machine.exec Shape.next c.code s = some ⟨0, []⟩ ∧ Holding c.core s.locks ∧
    (c.code ≠ [] → Running c.core s)

theorem Start.inv (h : Start c) : Inv c :=
  ⟨h.saved, ⟨0, []⟩, by rw [h.code]; rfl, ⟨nodup_nil, by simp [h.held]⟩, absurd h.code⟩

/-- Between calls all locks are free. -/
theorem Inv.holding (h : Inv c) (hcode : c.code = []) : Holding c.core [] := by
  obtain ⟨s, hs, hheld, -⟩ := h.shape
  rw [hcode] at hs
  cases hs
  exact hheld

/-- Where an interrupt can be taken, no call is under way. -/
theorem Inv.code_eq_nil (h : Inv c) (hif : c.core.kernel.intFlag = true) : c.code = [] := by
  obtain ⟨s, -, -, hrunning⟩ := h.shape
  by_contra hne
  have := (hrunning hne).flag
  cases hif.symm.trans this

/-- The state between calls. -/
theorem Inv.idle (hsaved : ∀ x, c.saved x = []) (hcode : c.code = []) (hheld : Holding c.core []) :
    Inv c :=
  ⟨hsaved, ⟨0, []⟩, by rw [hcode]; rfl, hheld, absurd hcode⟩

/-- What one event preserves. -/
theorem Inv.next {e : Event} (h : Inv c) (hmet : Met e c) (hnext : Cpu.next e c = some c') :
    Inv c' := by
  cases e with
  | disable =>
    simp only [Cpu.next, runInstr, map_some] at hnext
    split_ifs at hnext with hcode
    cases hnext
    exact .idle h.saved hcode ((h.holding hcode).congr rfl)
  | enable =>
    simp only [Cpu.next, runInstr, map_some] at hnext
    split_ifs at hnext with hcode
    cases hnext
    exact .idle h.saved hcode ((h.holding hcode).congr rfl)
  | call call =>
    simp only [Cpu.next] at hnext
    split_ifs at hnext with hcode
    cases hnext
    obtain ⟨hflag, hlow, hhigh⟩ := hmet
    exact ⟨h.saved, ⟨0, []⟩, call.neutral, h.holding hcode,
      fun _ => ⟨hflag, hlow, Nat.le_of_lt_succ hhigh⟩⟩
  | instr =>
    obtain ⟨core, code, saved⟩ := c
    cases code with
    | nil => cases hnext
    | cons i code =>
      obtain ⟨core', hrun, rfl⟩ := map_eq_some_iff.1 hnext
      obtain ⟨s, hs, hheld, hrunning⟩ := h.shape
      obtain ⟨s', hs', hcode⟩ := bind_eq_some_iff.1 hs
      refine ⟨h.saved, s', hcode, hheld.instr hs' hrun, fun _ => ?_⟩
      refine (hrunning (cons_ne_nil _ _)).instr hs' hrun fun target hi => ?_
      exact hmet target code (by rw [hi])
  | interrupt handler =>
    simp only [Cpu.next] at hnext
    split_ifs at hnext with hif
    have hcode := h.code_eq_nil hif
    obtain ⟨core', hrun, rfl⟩ := map_eq_some_iff.1 hnext
    have hsaved : ∀ x, update c.saved c.core.kernel.current c.code x = [] := fun x => by
      rw [hcode, show ([] : List Instr) = c.saved c.core.kernel.current from (h.saved _).symm,
        update_eq_self, h.saved, h.saved]
    have hentry : Holding { c.core with kernel := isrEntry c.core.kernel } [] :=
      (h.holding hcode).congr rfl
    -- the handler releases what it takes
    have hexit := Holding.exec hentry (neutral_handlerCode handler) hrun
    exact .idle hsaved (hsaved _) (hexit.congr rfl)

theorem Inv.clear (h : Inv c) : Clear c := by
  intro hif hs l _
  have := (h.holding (h.code_eq_nil hif)).held l
  simpa using this

theorem next_instr {code : List Instr} {saved : ℕ → List Instr} (h : runInstr i core = some core') :
    Cpu.next .instr ⟨core, i :: code, saved⟩ = some ⟨core', code, saved⟩ :=
  map_eq_some_iff.2 ⟨core', h, rfl⟩

/-- A call of `sched_add` with the counter at zero enables interrupts while it holds the lock. -/
theorem not_clear_of_schedAdd (hcode : c.code = []) (hheld : Holding c.core [])
    (hcount : c.core.kernel.count = 0) (ps : List Part) :
    ∃ c', Machine.exec Cpu.next [.call (.schedAdd ps), .instr, .instr, .instr] c = some c' ∧
      ¬Clear c' := by
  obtain ⟨⟨k, held⟩, code, saved⟩ := c
  obtain rfl : code = [] := hcode
  have hfree : held .sched = false := by simpa using hheld.held .sched
  have hacquire : runInstr (.acquire .sched) ⟨intrDisable k, held⟩ =
      some ⟨intrDisable k, update held .sched true⟩ := by
    simp [runInstr, hfree]
  refine ⟨⟨⟨(intrEnable true (intrDisable k)).2, update held .sched true⟩,
    partsCode ps ++ [.release .sched], saved⟩, ?_, fun hclear => ?_⟩
  · have hcall : Cpu.next (.call (.schedAdd ps)) ⟨⟨k, held⟩, [], saved⟩ =
        some ⟨⟨k, held⟩, .disable :: .acquire .sched :: .enable ::
          (partsCode ps ++ [.release .sched]), saved⟩ := rfl
    have hdisable : runInstr .disable ⟨k, held⟩ = some ⟨intrDisable k, held⟩ := rfl
    rw [exec_cons hcall, exec_cons (next_instr hdisable), exec_cons (next_instr hacquire)]
    rfl
  · have hflag : (intrEnable true (intrDisable k)).2.intFlag = true := by
      have hzero : k.count = 0 := hcount
      rw [intFlag_intrEnable, count_intrDisable, hzero]
      rfl
    have hsched : update held .sched true .sched = false :=
      hclear hflag [.schedule [] none] .sched (by decide)
    cases hsched

/-- **No self-deadlock on a spinlock** in every run whose calls are made with interrupts disabled by
`intr_disable` and switch to contexts that count.  From any such run a call of `sched_add` with the
counter at zero leads to a state in which an interrupt finds the lock taken. -/
theorem no_self_deadlock_run (h₀ : Start c₀) (hrun : Runs Cpu.next Met c₀ c) :
    Clear c ∧ ∀ ps, c.code = [] → c.core.kernel.count = 0 →
      ∃ c', Machine.exec Cpu.next [.call (.schedAdd ps), .instr, .instr, .instr] c = some c' ∧
        ¬Clear c' := by
  have hinv : Inv c := hrun.inv h₀.inv fun h hmet hnext => h.next hmet hnext
  exact ⟨hinv.clear, fun ps hcode hcount =>
    not_clear_of_schedAdd hcode (hinv.holding hcode) hcount ps⟩

/-- Thread 1 runs with interrupts enabled. -/
def oneThread : Cpu where
  core :=
    { kernel :=
        { thread := fun x => ⟨.runnable, .normal, 1, 16 * x, 0⟩
          context := fun x => ⟨true, 0, 0, x / 16⟩
          process := fun _ => ⟨0, 0x1000, .normal⟩
          current := 16
          intFlag := true
          cr3 := 0x1000 }
      held := fun _ => false }
  code := []
  saved := fun _ => []

theorem oneThread_start : Start oneThread := ⟨rfl, fun _ => rfl, fun _ => rfl⟩

/-- A timer interrupt inside of `sched_add` finds the lock of the scheduler taken. -/
theorem sched_add_deadlock : Start oneThread ∧
    ∃ c, exec Cpu.next [.call (.schedAdd []), .instr, .instr, .instr] oneThread = some c ∧
      c.core.kernel.intFlag = true ∧ c.core.held .sched = true ∧
      Cpu.next (.interrupt [.schedule [] none]) c = none ∧ ¬Clear c := by
  refine ⟨oneThread_start, _, rfl, rfl, rfl, rfl, fun hclear => ?_⟩
  have : true = false := hclear rfl [.schedule [] none] .sched (by decide)
  cases this

/-- The same call behind `intr_disable`. -/
theorem no_self_deadlock_run_disabled : ∃ c, Runs Cpu.next Met oneThread c ∧
    c.core.held .sched = true ∧ Clear c := by
  have hno : ∀ {c : Cpu} {i : Instr} {code : List Instr}, c.code = i :: code →
      (∀ t, i ≠ .switch t) → Met .instr c := fun hcode hi target rest heq => by
    cases hcode.symm.trans heq
    exact absurd rfl (hi target)
  have hcall : Runs Cpu.next Met oneThread _ := .step (e := .call (.schedAdd []))
    (.step (e := .disable) .start trivial rfl) ⟨rfl, by decide, by decide⟩ rfl
  have hrun : Runs Cpu.next Met oneThread _ := .step (.step hcall
    (hno rfl (by simp)) rfl) (hno rfl (by simp)) rfl
  exact ⟨_, hrun, rfl, (no_self_deadlock_run oneThread_start hrun).1⟩

end Tachyon.Locks
