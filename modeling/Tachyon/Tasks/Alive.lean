import Tachyon.Lib.Machine
import Tachyon.Tasks.Model

/-!
# The threads that a process knows

`process_t.threads` is meant to be the list of all threads that are alive, and `prc_destroy` relies
on it.  Neither `thr_create` nor `thr_delete` touches it.

* `Op`, `State.next`: creating processes, and creating, ending and deleting threads;
* `Alone`: the lists are empty, and the locks are free;
* `KnowsThreads`, `DestroysIdle`: what `process_t.threads` and the guard of `prc_destroy` are meant
  to be;
* `knows_threads_iff`: both hold exactly while the process has no threads.
-/

namespace Tachyon.Tasks

open Prog Machine Threads Function Option

variable {s s' s₀ : State} {prc : ℕ} {p : Process}

/-! ### Calls -/

inductive Op
  | prcNew (prc stka : ℕ) (heapInit : Bool) (space : ℕ) (priority : Priority)
  | thrCreate (thr ctx stk parent entry : ℕ) (isolation : Isolation)
  | thrExit (thr : ℕ)
  | thrDelete (thr : ℕ)
  deriving DecidableEq, Repr

def Op.run : Op → Prog State Unit
  | .prcNew prc stka heapInit space priority =>
    Tasks.prcNew prc stka heapInit space priority >>= fun _ => pure ()
  | .thrCreate thr ctx stk parent entry isolation =>
    Tasks.thrCreate thr ctx stk parent entry isolation >>= fun _ => pure ()
  | .thrExit thr => Tasks.thrExit thr
  | .thrDelete thr => Tasks.thrDelete thr

/-- The state behind a call; a call that does not return ends the run. -/
def State.next (op : Op) (s : State) : Option State :=
  match op.run s with
  | .ok (_, s') => some s'
  | .error _ => none

/-- There are no processes and threads. -/
structure Start (s : State) : Prop where
  process : ∀ prc, s.process prc = none
  thread : ∀ thr, s.thread thr = none

/-! ### What the calls do to the processes -/

/-- The processes know of no threads, and are not locked. -/
def Alone (s : State) : Prop := ∀ prc p, s.process prc = some p → p.threads = [] ∧ p.locked = false

/-- The program keeps the processes alone. -/
def KeepsAlone {α : Type} (q : Prog State α) : Prop := ∀ s, Alone s → wlp q (fun _ s' => Alone s') s

section Rules

variable {α β : Type}

theorem KeepsAlone.pure (a : α) : KeepsAlone (pure a) := fun _ h => wlp_pure h

theorem KeepsAlone.halt (e : Halt) : KeepsAlone (halt e : Prog State α) := fun _ _ => wlp_halt

theorem KeepsAlone.bind {q : Prog State α} {f : α → Prog State β} (hq : KeepsAlone q)
    (hf : ∀ a, KeepsAlone (f a)) : KeepsAlone (q >>= f) := fun s h =>
  wlp_bind fun a s' ha => hf a s' (hq s h a s' ha)

theorem KeepsAlone.ite {c : Prop} [Decidable c] {q r : Prog State α} (hq : KeepsAlone q)
    (hr : KeepsAlone r) : KeepsAlone (if c then q else r) := by
  split_ifs
  · exact hq
  · exact hr

/-- A program that leaves the processes as they are. -/
theorem KeepsAlone.of_process {q : Prog State α}
    (h : ∀ s, wlp q (fun _ s' => s'.process = s.process) s) : KeepsAlone q := by
  intro s hs a s' hq prc p hp
  rw [h s a s' hq] at hp
  exact hs prc p hp

theorem KeepsAlone.get : KeepsAlone get := by
  refine .of_process fun s => ?_
  rintro _ _ ⟨⟩
  rfl

theorem KeepsAlone.onMem (q : Prog Stka.State α) : KeepsAlone (onMem q) :=
  .of_process fun _ => wlp_zoom fun _ _ _ => rfl

theorem KeepsAlone.fresh (f : State → Option α) : KeepsAlone (fresh f) := by
  refine .of_process fun s _ s' h => ?_
  unfold Tasks.fresh at h
  split_ifs at h
  cases h
  rfl

theorem KeepsAlone.loadProcess (prc : ℕ) : KeepsAlone (loadProcess prc) := by
  refine .of_process fun s _ s' h => ?_
  unfold Tasks.loadProcess at h
  split at h
  · cases h
  · cases h
    rfl

theorem KeepsAlone.loadThread (thr : ℕ) : KeepsAlone (loadThread thr) := by
  refine .of_process fun s _ s' h => ?_
  unfold Tasks.loadThread at h
  split at h
  · cases h
  · cases h
    rfl

theorem KeepsAlone.storeThread (thr : ℕ) (t : Option Thread) : KeepsAlone (storeThread thr t) := by
  refine .of_process fun s => ?_
  rintro _ _ ⟨⟩
  rfl

theorem KeepsAlone.storeContext (ctx : ℕ) (c : Option Context) :
    KeepsAlone (storeContext ctx c) := by
  refine .of_process fun s => ?_
  rintro _ _ ⟨⟩
  rfl

/-- A process that is stored knows of no threads. -/
theorem KeepsAlone.storeProcess (prc : ℕ) (h : p.threads = [] ∧ p.locked = false) :
    KeepsAlone (storeProcess prc (some p)) := by
  rintro s hs _ _ ⟨⟩ prc' p' hp
  by_cases heq : prc' = prc
  · subst heq
    simp only [update_self] at hp
    cases hp
    exact h
  · simp only [update_of_ne heq] at hp
    exact hs prc' p' hp

end Rules

theorem loadProcess_spec : wlp (loadProcess prc) (fun p s' => s.process prc = some p ∧ s' = s) s := by
  intro p s' h
  unfold loadProcess at h
  split at h
  · cases h
  · cases h
    exact ⟨‹_›, rfl⟩

/-- The state with another process at an address. -/
def State.setProcess (s : State) (prc : ℕ) (p : Process) : State :=
  { s with process := Function.update s.process prc (some p) }

theorem prcLock_spec : wlp (prcLock prc) (fun _ s' => ∃ p, s.process prc = some p ∧
    p.locked = false ∧ s' = s.setProcess prc (p.setLock true)) s := by
  refine wlp_bind fun p s1 hload => ?_
  obtain ⟨hp, rfl⟩ := loadProcess_spec p s1 hload
  refine wlp_ite (fun _ => wlp_halt) fun hfree => ?_
  rintro _ _ ⟨⟩
  exact ⟨p, hp, Bool.eq_false_of_not_eq_true hfree, rfl⟩

/-- A change under the lock: the lock was free, and is free again. -/
theorem prcLocked_spec {α : Type} {f : Process → α × Process} :
    wlp (prcLocked prc f) (fun _ s' => ∃ p, s.process prc = some p ∧ p.locked = false ∧
      s' = s.setProcess prc ((f (p.setLock true)).2.setLock false)) s := by
  refine wlp_bind fun _ s1 hlock => ?_
  obtain ⟨p, hp, hfree, rfl⟩ := prcLock_spec _ s1 hlock
  refine wlp_bind fun p1 s1 hload => ?_
  obtain ⟨hp1, rfl⟩ := loadProcess_spec p1 s1 hload
  simp only [State.setProcess, update_self, some.injEq] at hp1
  subst hp1
  refine wlp_modify_bind (wlp_bind fun _ s1 hunlock => wlp_pure ?_)
  obtain ⟨p2, s2, hload, hunlock⟩ := bind_eq_ok.1 hunlock
  obtain ⟨hp2, rfl⟩ := loadProcess_spec p2 s2 hload
  simp only [State.setProcess, update_self, some.injEq] at hp2
  subst hp2
  cases hunlock
  exact ⟨p, hp, hfree, by simp [State.setProcess]⟩

theorem KeepsAlone.prcNextTid (prc : ℕ) : KeepsAlone (prcNextTid prc) := by
  intro s hs _ s' h
  obtain ⟨p, hp, -, rfl⟩ := prcLocked_spec _ s' h
  intro prc' p' hp'
  unfold State.setProcess at hp'
  by_cases heq : prc' = prc
  · subst heq
    simp only [update_self] at hp'
    cases hp'
    exact ⟨(hs prc' p hp).1, rfl⟩
  · simp only [update_of_ne heq] at hp'
    exact hs prc' p' hp'

/-- No call tells a process of a thread. -/
theorem Op.keepsAlone (op : Op) : KeepsAlone op.run := by
  cases op with
  | prcNew prc stka heapInit space priority =>
    refine .bind (.ite (.pure 0) ?_) fun _ => .pure ()
    refine .bind (.fresh _) fun _ => .bind .get fun s => .bind (.onMem _) fun _ => ?_
    refine .ite (.ite (.halt _) (.bind (.onMem _) fun a => ?_)) (.pure 0)
    refine .bind (.storeProcess prc ⟨rfl, rfl⟩) fun _ => ?_
    refine .bind (.of_process fun s => ?_) fun _ => .bind (.onMem _) fun _ => .pure prc
    rintro _ _ ⟨⟩
    rfl
  | thrCreate thr ctx stk parent entry isolation =>
    refine .bind (.ite (.pure 0) ?_) fun _ => .pure ()
    refine .bind (.fresh _) fun _ => .bind (.prcNextTid parent) fun id => ?_
    refine .ite (.halt _) (.bind (.fresh _) fun _ => .bind (.loadProcess parent) fun p => ?_)
    refine .bind .get fun s => .bind (.onMem _) fun stack => ?_
    refine .ite (.halt _) (.bind (.onMem _) fun st => ?_)
    exact .bind (.storeContext _ _) fun _ => .bind (.storeThread _ _) fun _ => .pure thr
  | thrExit thr => exact .bind (.loadThread thr) fun t => .storeThread _ _
  | thrDelete thr =>
    exact .bind (.loadThread thr) fun t => .bind (.storeContext _ _) fun _ =>
      .bind (.onMem _) fun _ => .storeThread _ _

theorem alone_runs (h0 : Start s₀) (hrun : Runs State.next (fun _ _ => True) s₀ s) : Alone s := by
  refine hrun.inv (fun prc p hp => ?_) fun {op s s'} hs _ hnext => ?_
  · rw [h0.process prc] at hp
    cases hp
  · unfold State.next at hnext
    split at hnext
    · cases hnext
      exact op.keepsAlone s hs _ _ ‹_›
    · cases hnext

/-! ### What a process knows -/

/-- The thread was created for the process, and has not been deleted. -/
def State.IsAlive (s : State) (prc thr : ℕ) : Prop :=
  ∃ t, s.thread thr = some t ∧ t.parent = prc

/-- `process_t.threads` are exactly the threads that are alive. -/
def KnowsThreads (s : State) (prc : ℕ) (p : Process) : Prop :=
  ∀ thr, thr ∈ p.threads ↔ s.IsAlive prc thr

/-- `prc_destroy` gets to the point where it takes the process apart only if no thread is alive. -/
def DestroysIdle (s : State) (prc : ℕ) : Prop :=
  ∀ r, destroyGuard prc s = .ok r → ∀ thr, ¬ s.IsAlive prc thr

/-- The guard of `prc_destroy` lets every process through. -/
theorem destroyGuard_passes (h : Alone s) (hp : s.process prc = some p) :
    ∃ r, destroyGuard prc s = .ok r := by
  obtain ⟨hempty, hfree⟩ := h prc p hp
  have hload : ∀ {t : State} {q : Process}, t.process prc = some q →
      loadProcess prc t = .ok (q, t) := fun hq => by rw [loadProcess, hq]
  have hlock : prcLock prc s = .ok ((), s.setProcess prc (p.setLock true)) := by
    rw [prcLock, run_ok (hload hp), if_neg (by simp [hfree])]
    rfl
  have hself : (s.setProcess prc (p.setLock true)).process prc = some (p.setLock true) := by
    simp [State.setProcess]
  rw [destroyGuard, run_ok hlock, run_ok (hload hself), if_neg (by simp [Process.setLock, hempty])]
  exact ⟨_, rfl⟩

/-- **A process knows its threads exactly while it has none**, and only then destroying it is
safe. -/
theorem knows_threads_iff (h₀ : Start s₀) (hrun : Runs State.next (fun _ _ => True) s₀ s)
    (hp : s.process prc = some p) :
    (KnowsThreads s prc p ↔ ∀ thr, ¬ s.IsAlive prc thr) ∧
      (DestroysIdle s prc ↔ ∀ thr, ¬ s.IsAlive prc thr) := by
  have halone := alone_runs h₀ hrun
  have hempty := (halone prc p hp).1
  refine ⟨⟨fun h thr halive => ?_, fun h thr => ?_⟩, fun h => ?_, fun h _ _ => h⟩
  · have hmem := (h thr).2 halive
    rw [hempty] at hmem
    cases hmem
  · rw [hempty]
    exact ⟨fun hmem => absurd hmem (by simp), fun halive => absurd halive (h thr)⟩
  · obtain ⟨r, hr⟩ := destroyGuard_passes halone hp
    exact h r hr

/-- Nothing but memory for two stacks. -/
def empty : State where
  process _ := none
  thread _ := none
  context _ := none
  nextPid := 0
  kstackAllocator := 0
  mem :=
    { allocator := fun _ => ⟨stackDesc 0, 0, [], false⟩
      stack := fun _ => none
      maps := fun _ _ => none
      globals := []
      inUse := fun _ => false
      content := fun _ _ => 0xFF
      frames := [11, 12, 13, 14]
      cr3 := 8 }

/-- The state behind a call, if it returns. -/
def State.call (s : State) (op : Op) : State := (State.next op s).getD s

theorem State.next_call {op : Op} (h : (State.next op s).isSome = true) :
    State.next op s = some (s.call op) := by
  obtain ⟨s', hs'⟩ := isSome_iff_exists.1 h
  rw [State.call, hs', getD_some]

/-- A process, and a process with a thread. -/
def oneProcess : State := empty.call (.prcNew 100 101 true 9 .normal)
def oneThread : State := oneProcess.call (.thrCreate 102 103 104 100 0x401000 .user)

theorem knows_threads_iff_new : ∃ p, oneProcess.process 100 = some p ∧
    (KnowsThreads oneProcess 100 p ↔ ∀ thr, ¬ oneProcess.IsAlive 100 thr) ∧
      (DestroysIdle oneProcess 100 ↔ ∀ thr, ¬ oneProcess.IsAlive 100 thr) := by
  have hrun : Runs State.next (fun _ _ => True) empty oneProcess :=
    .step .start trivial (State.next_call (by decide +kernel))
  have hp : oneProcess.process 100 = some ⟨0, 9, .normal, false, 0, [], 101⟩ := by decide +kernel
  exact ⟨_, hp, knows_threads_iff ⟨fun _ => rfl, fun _ => rfl⟩ hrun hp⟩

/-- A process with a thread that its list does not have, and that `prc_destroy` takes apart. -/
theorem destroy_live_thread : oneThread.IsAlive 100 102 ∧
    (∃ p, oneThread.process 100 = some p ∧ p.threads = []) ∧
    (prcDestroy 100).value oneThread = some () := by
  refine ⟨?_, ?_, by decide +kernel⟩
  · exact ⟨⟨0, .runnable, .normal, 101, 104, 100, 103⟩, by decide +kernel, rfl⟩
  · exact ⟨⟨0, 9, .normal, false, 1, [], 101⟩, by decide +kernel, rfl⟩

end Tachyon.Tasks
