import Tachyon.Sched.Queues

/-!
# Where the threads are

`Trace s₀ tr s`: the calls `tr` of the scheduler lead from `s₀` to `s`.  The invariant `Inv` says that
the current thread is in no queue and every other registered thread is in the queue of its own
priority, once.

* `Call.outcome`: what a call does with the current thread and the queues;
* `sched_places_run`: along every run, every registered thread is in exactly one place.
-/

namespace Tachyon.Sched

open Prog Tachyon.Lists Threads List Function

/-! ### Runs -/

/-- A call of a run, the thread it has switched to, and the state it left. -/
structure Entry where
  call : Call
  switched : Option ℕ
  state : State

/-- The thread a call registers. -/
def Call.added : Call → Option ℕ
  | .add x => some x
  | _ => none

/-- The registered threads: the first one, and those that were added. -/
def registered (s₀ : State) (tr : List Entry) : List ℕ :=
  thrCurrent s₀.kernel :: tr.filterMap fun e => e.call.added

/-- A thread as `thr_create` makes it: its context belongs to it. -/
structure Wired (k : Kernel) (x : ℕ) : Prop where
  nonnull : x ≠ 0
  context : (k.context (k.thread x).context).thread = x

/-- Only new threads are added. -/
def Call.Allowed (reg : List ℕ) (k : Kernel) : Call → Prop
  | .add x => x ∉ reg ∧ Wired k x
  | _ => True

/-- The allocations of a call succeed. -/
structure Allocates (new : Fresh) (s : State) : Prop where
  node : FreshNode s.lists new.node
  list : new.list ≠ 0 ∧ s.lists.list new.list = none

/-- A call returns. -/
structure Step (reg : List ℕ) (s : State) (call : Call) (r : Option ℕ) (s' : State) : Prop where
  allowed : call.Allowed reg s.kernel
  returns : ∃ new, Allocates new s ∧
    Returns (fun fuel => call.run (linked fuel new)) s r s'

/-- Behind `sched_init`, on a thread. -/
structure Start (s : State) : Prop where
  current : Wired s.kernel (thrCurrent s.kernel)
  queues : ∀ p, s.queues p = 0

/-- The calls `tr` lead from `s₀` to `s`. -/
inductive Trace (s₀ : State) : List Entry → State → Prop
  | nil : Trace s₀ [] s₀
  | snoc {tr : List Entry} {s s' : State} {call : Call} {r : Option ℕ} (run : Trace s₀ tr s)
      (step : Step (registered s₀ tr) s call r s') : Trace s₀ (tr ++ [⟨call, r, s'⟩]) s'

/-! ### One call on the sequences -/

/-- Set the state of a thread. -/
def setState (x : ℕ) (st : ThreadState) (k : Kernel) : Kernel :=
  k.setThread x fun t => { t with state := st }

variable {t t' : Ideal} {k : Kernel} {reg : List ℕ} {x old thr now now' y : ℕ} {call : Call}
  {r : Option ℕ}

@[simp] theorem setState_context (st : ThreadState) : (setState x st k).context = k.context := rfl

@[simp] theorem setState_current (st : ThreadState) : (setState x st k).current = k.current := rfl

@[simp] theorem thrCurrent_setState (st : ThreadState) :
    thrCurrent (setState x st k) = thrCurrent k := rfl

/-- What a change of threads keeps of each, it keeps in the kernel. -/
theorem setThread_field {α : Type} (f : Thread → α) {g : Thread → Thread}
    (hf : ∀ t, f (g t) = f t) (y : ℕ) : f ((k.setThread x g).thread y) = f (k.thread y) := by
  by_cases h : y = x
  · subst h
    simp [Kernel.setThread, hf]
  · simp [Kernel.setThread, h]

section

variable (st : ThreadState)
include st

@[simp] theorem setState_priority (y : ℕ) :
    ((setState x st k).thread y).priority = (k.thread y).priority :=
  setThread_field Thread.priority (by intro t; rfl) y

@[simp] theorem setState_thread_context (y : ℕ) :
    ((setState x st k).thread y).context = (k.thread y).context :=
  setThread_field Thread.context (by intro t; rfl) y

theorem setState_state_of_ne (h : y ≠ x) :
    ((setState x st k).thread y).state = (k.thread y).state := by
  simp [setState, Kernel.setThread, h]

@[simp] theorem setState_state_self : ((setState x st k).thread x).state = st := by
  simp [setState, Kernel.setThread]

end

theorem setState_self : setState x (k.thread x).state k = k := by
  simp [setState, Kernel.setThread]

theorem setState_setState (st st' : ThreadState) :
    setState x st' (setState x st k) = setState x st' k := by
  simp [setState, Kernel.setThread]

/-- The state behind the test of `Yielded`. -/
theorem setThread_endYield : k.setThread x endYield = setState x (endYield (k.thread x)).state k := by
  have h : endYield (k.thread x) = { k.thread x with state := (endYield (k.thread x)).state } := by
    unfold endYield
    split_ifs
    · rfl
    · rfl
  exact congrArg (fun v => { k with thread := update k.thread x v }) h

@[simp] theorem switchTo_context : (switchTo thr now k).context = k.context := by
  unfold switchTo thrSwitch spcSwitch
  dsimp only
  split_ifs <;> rfl

theorem switchTo_thread : (switchTo thr now k).thread =
    (k.setThread thr fun t => { t with preemptAt := add64 now schedTimesliceUs }).thread := by
  unfold switchTo thrSwitch spcSwitch
  dsimp only
  split_ifs <;> rfl

theorem switchTo_current : (switchTo thr now k).current = (k.thread thr).context := by
  have h : ((k.setThread thr fun t =>
      { t with preemptAt := add64 now schedTimesliceUs }).thread thr).context =
      (k.thread thr).context := by simp [Kernel.setThread]
  rw [← h]
  unfold switchTo thrSwitch spcSwitch
  dsimp only
  split_ifs <;> rfl

@[simp] theorem switchTo_priority (y : ℕ) :
    ((switchTo thr now k).thread y).priority = (k.thread y).priority := by
  rw [switchTo_thread]
  exact setThread_field Thread.priority (by intro t; rfl) y

@[simp] theorem switchTo_state (y : ℕ) :
    ((switchTo thr now k).thread y).state = (k.thread y).state := by
  rw [switchTo_thread]
  exact setThread_field Thread.state (by intro t; rfl) y

@[simp] theorem switchTo_thread_context (y : ℕ) :
    ((switchTo thr now k).thread y).context = (k.thread y).context := by
  rw [switchTo_thread]
  exact setThread_field Thread.context (by intro t; rfl) y

theorem thrCurrent_switchTo (h : (k.context (k.thread thr).context).thread = thr) :
    thrCurrent (switchTo thr now k) = thr := by
  rw [thrCurrent, switchTo_context, switchTo_current, h]

/-- After a switch from `old` to `thr`. -/
def Ideal.switched (t : Ideal) (old thr now : ℕ) : Ideal where
  kernel := switchTo thr now t.kernel
  queue p := (if p = (t.kernel.thread thr).priority then (t.queue p).erase thr else t.queue p) ++
    if p = (t.kernel.thread old).priority then [old] else []

theorem schedSwitch_ideal (h0 : old ≠ 0) :
    schedSwitch ideal old thr now t = .ok (some thr, t.switched old thr now) := by
  simp only [schedSwitch, ideal, Queueing.onKernel, run_bind, run_modify, ne_eq, h0,
    not_false_eq_true, if_true, run_pure, switchTo_priority]
  refine congrArg (fun q => Except.ok (some thr, Ideal.mk _ q)) (funext fun p => ?_)
  by_cases hold : p = (t.kernel.thread old).priority
  · subst hold
    by_cases hthr : (t.kernel.thread old).priority = (t.kernel.thread thr).priority
    · simp [hthr]
    · simp [hthr]
  · by_cases hthr : p = (t.kernel.thread thr).priority
    · subst hthr
      simp [hold]
    · simp [hold, hthr]

/-- What is behind the test of the time slice. -/
theorem schedNext_ideal (h0 : old ≠ 0) : schedNext ideal old now t =
    if t.chooseFrom priorities ≠ 0 then
      .ok (some (t.chooseFrom priorities), t.switched old (t.chooseFrom priorities) now)
    else if (t.kernel.thread old).state = .runnable then .ok (none, t)
    else .error (.fatal "no thread left to schedule - this is bad!\n") := by
  unfold schedNext
  rw [run_ok (show ideal.choose t = .ok (t.chooseFrom priorities, t) from rfl)]
  split_ifs with hne hr
  · exact schedSwitch_ideal h0
  · exact (congrFun (if_pos hr) t).trans rfl
  · exact (congrFun (if_neg hr) t).trans rfl

theorem schedSchedule_ideal (h0 : thrCurrent t.kernel ≠ 0) : schedSchedule ideal now now' t =
    if KeepsCpu now (t.kernel.thread (thrCurrent t.kernel)) then .ok (none, t)
    else schedNext ideal (thrCurrent t.kernel) now' ⟨setState (thrCurrent t.kernel)
      (endYield (t.kernel.thread (thrCurrent t.kernel))).state t.kernel, t.queue⟩ := by
  unfold schedSchedule
  rw [run_get_bind, if_neg (show ¬ thrCurrent (ideal.kernel t) = 0 from h0), ← setThread_endYield]
  by_cases hk : KeepsCpu now (t.kernel.thread (thrCurrent t.kernel))
  · rw [if_pos hk]
    exact (congrFun (if_pos hk) t).trans rfl
  · rw [if_neg hk]
    exact (congrFun (if_neg hk) t).trans rfl

theorem leave_ideal (st : ThreadState) (h0 : thrCurrent t.kernel ≠ 0) :
    leave ideal st now now' t =
      schedSchedule ideal now now' ⟨setState (thrCurrent t.kernel) st t.kernel, t.queue⟩ := by
  unfold leave
  rw [run_get_bind, if_neg (show ¬ thrCurrent (ideal.kernel t) = 0 from h0)]
  rfl

/-- The thread kept the CPU, or it lost it to the first thread that can run. -/
inductive Outcome (t : Ideal) (old : ℕ) (st : ThreadState) : Option ℕ → Ideal → Prop
  | stays : Outcome t old st none ⟨setState old st t.kernel, t.queue⟩
  | switches {thr now : ℕ} (chosen : thr ≠ 0 ∧
      Ideal.chooseFrom ⟨setState old st t.kernel, t.queue⟩ priorities = thr) :
      Outcome t old st (some thr)
        (Ideal.switched ⟨setState old st t.kernel, t.queue⟩ old thr now)

theorem schedSchedule_outcome (h0 : thrCurrent t.kernel ≠ 0)
    (h : schedSchedule ideal now now' t = .ok (r, t')) :
    (r = none ∧ t' = t) ∨ Outcome t (thrCurrent t.kernel)
      (endYield (t.kernel.thread (thrCurrent t.kernel))).state r t' := by
  rw [schedSchedule_ideal h0, schedNext_ideal h0] at h
  split_ifs at h with hk hne hr
  · cases h
    exact .inl ⟨rfl, rfl⟩
  · cases h
    exact .inr (.switches ⟨hne, rfl⟩)
  · cases h
    exact .inr .stays

/-- After `sched_add`. -/
def Ideal.added (t : Ideal) (x : ℕ) : Ideal :=
  let p := (t.kernel.thread x).priority
  ⟨t.kernel, Function.update t.queue p (t.queue p ++ [x])⟩

variable {st : ThreadState} {p : Priority} {e : Halt}

theorem Outcome.of_setState {st' : ThreadState}
    (h : Outcome ⟨setState old st t.kernel, t.queue⟩ old st' r t') : Outcome t old st' r t' := by
  cases h with
  | stays =>
    rw [setState_setState]
    exact .stays
  | switches chosen =>
    rw [setState_setState] at chosen ⊢
    exact .switches chosen

theorem leave_outcome (h0 : thrCurrent t.kernel ≠ 0) (h : leave ideal st now now' t = .ok (r, t')) :
    ∃ st', Outcome t (thrCurrent t.kernel) st' r t' := by
  rw [leave_ideal st h0] at h
  rcases schedSchedule_outcome (t := ⟨setState (thrCurrent t.kernel) st t.kernel, t.queue⟩) h0 h with
    ⟨rfl, rfl⟩ | hout
  · exact ⟨st, .stays⟩
  · exact ⟨_, hout.of_setState⟩

/-- What a call does. -/
theorem Call.outcome (h0 : thrCurrent t.kernel ≠ 0) (h : call.run ideal t = .ok (r, t')) :
    (∃ x, call = .add x ∧ r = none ∧ t' = t.added x) ∨
      call.added = none ∧ ∃ st, Outcome t (thrCurrent t.kernel) st r t' := by
  cases call with
  | add x =>
    cases h
    exact .inl ⟨x, rfl, rfl, rfl⟩
  | schedule now now' =>
    refine .inr ⟨rfl, ?_⟩
    rcases schedSchedule_outcome h0 h with ⟨rfl, rfl⟩ | hout
    · refine ⟨(t'.kernel.thread (thrCurrent t'.kernel)).state, ?_⟩
      have hstay : Outcome t' (thrCurrent t'.kernel)
        (t'.kernel.thread (thrCurrent t'.kernel)).state none ⟨setState _ _ t'.kernel, t'.queue⟩ :=
        .stays
      rwa [setState_self] at hstay
    · exact ⟨_, hout⟩
  | yield now now' => exact .inr ⟨rfl, leave_outcome h0 h⟩
  | exit now now' => exact .inr ⟨rfl, leave_outcome h0 h⟩
  | abort now now' =>
    refine .inr ⟨rfl, ?_⟩
    have h : (if (t.kernel.process (t.kernel.thread (thrCurrent t.kernel)).parent).id = 0 then
        halt (.fatal "tachyon aborted.\n") else leave ideal .aborting now now') t = .ok (r, t') := h
    split_ifs at h with hid
    · cases h
    · exact leave_outcome h0 h

/-! ### The invariant -/

/-- The current thread is in no queue, every other registered one is in its own, once. -/
structure Inv (reg : List ℕ) (t : Ideal) : Prop where
  wired : ∀ x ∈ reg, Wired t.kernel x
  current : thrCurrent t.kernel ∈ reg
  mem : ∀ p x, x ∈ t.queue p ↔
    x ∈ reg ∧ x ≠ thrCurrent t.kernel ∧ (t.kernel.thread x).priority = p
  nodup : ∀ p, (t.queue p).Nodup

/-- The chosen thread is the first one of its queue that can run, and no queue of a higher priority
has one. -/
theorem Ideal.chooseFrom_spec (hthr : thr ≠ 0) (h : t.chooseFrom priorities = thr) :
    (priorities.flatMap t.queue).find? (Eligible t.kernel) = some thr := by
  unfold Ideal.chooseFrom at h
  cases hf : (priorities.flatMap t.queue).find? fun x => Eligible t.kernel x with
  | none =>
    rw [hf] at h
    exact absurd h.symm hthr
  | some y =>
    rw [hf] at h
    exact congrArg some h

section

variable (h : Inv reg t)
include h

theorem Inv.setState (st : ThreadState) : Inv reg ⟨setState x st t.kernel, t.queue⟩ := by
  refine ⟨fun y hy => ⟨(h.wired y hy).nonnull, ?_⟩, h.current, fun p y => ?_, h.nodup⟩
  · simpa using (h.wired y hy).context
  · simpa using h.mem p y

/-- The queue that loses `thr`. -/
theorem Inv.mem_remaining :
    y ∈ (if p = (t.kernel.thread thr).priority then (t.queue p).erase thr else t.queue p) ↔
      y ∈ t.queue p ∧ y ≠ thr := by
  split_ifs with hp
  · rw [(h.nodup p).mem_erase_iff, and_comm]
  · refine ⟨fun hy => ⟨hy, ?_⟩, fun hy => hy.1⟩
    rintro rfl
    exact hp ((h.mem p y).1 hy).2.2.symm

theorem Inv.switched (hthr : thr ∈ t.queue p) :
    Inv reg (t.switched (thrCurrent t.kernel) thr now) := by
  obtain ⟨hreg, hne, -⟩ := (h.mem p thr).1 hthr
  have hcur : thrCurrent (t.switched (thrCurrent t.kernel) thr now).kernel = thr :=
    thrCurrent_switchTo (h.wired thr hreg).context
  refine ⟨fun y hy => ⟨(h.wired y hy).nonnull, ?_⟩, ?_, fun p y => ?_, fun p => ?_⟩
  · simpa [Ideal.switched] using (h.wired y hy).context
  · rw [hcur]
    exact hreg
  · rw [hcur]
    simp only [Ideal.switched, switchTo_priority, mem_append, h.mem_remaining, h.mem]
    constructor
    · rintro (⟨⟨hy, -, hp⟩, hyt⟩ | hy)
      · exact ⟨hy, hyt, hp⟩
      · split_ifs at hy with hp
        · obtain rfl := mem_singleton.1 hy
          exact ⟨h.current, hne.symm, hp.symm⟩
        · cases hy
    · rintro ⟨hy, hyt, hp⟩
      by_cases hyc : y = thrCurrent t.kernel
      · rw [← hyc, if_pos hp.symm]
        exact .inr mem_cons_self
      · exact .inl ⟨⟨hy, hyc, hp⟩, hyt⟩
  · refine List.Nodup.append ?_ ?_ ?_
    · split_ifs
      · exact (h.nodup p).erase thr
      · exact h.nodup p
    · split_ifs
      · exact nodup_singleton _
      · exact nodup_nil
    · intro y hy hy'
      rw [h.mem_remaining, h.mem] at hy
      split_ifs at hy'
      · exact hy.1.2.1 (mem_singleton.1 hy')
      · cases hy'

theorem Inv.added (hnew : x ∉ reg) (hw : Wired t.kernel x) : Inv (reg ++ [x]) (t.added x) := by
  have hcur : x ≠ thrCurrent t.kernel := fun hx => hnew (hx ▸ h.current)
  refine ⟨fun y hy => ?_, mem_append_left _ h.current, fun p y => ?_, fun p => ?_⟩
  · rcases mem_append.1 hy with hy | hy
    · exact h.wired y hy
    · rw [mem_singleton.1 hy]
      exact hw
  · show y ∈ update t.queue _ _ p ↔ y ∈ reg ++ [x] ∧ y ≠ thrCurrent t.kernel ∧
      (t.kernel.thread y).priority = p
    rw [mem_append, mem_singleton]
    by_cases hp : p = (t.kernel.thread x).priority
    · subst hp
      rw [update_self, mem_append, mem_singleton, h.mem]
      constructor
      · rintro (⟨hy, hyc, hp⟩ | rfl)
        · exact ⟨.inl hy, hyc, hp⟩
        · exact ⟨.inr rfl, hcur, rfl⟩
      · rintro ⟨hy | hy, hyc, hp⟩
        · exact .inl ⟨hy, hyc, hp⟩
        · exact .inr hy
    · rw [update_of_ne hp, h.mem]
      constructor
      · rintro ⟨hy, hyc, hp⟩
        exact ⟨.inl hy, hyc, hp⟩
      · rintro ⟨hy | rfl, hyc, hp'⟩
        · exact ⟨hy, hyc, hp'⟩
        · exact absurd hp'.symm hp
  · show (update t.queue _ _ p).Nodup
    by_cases hp : p = (t.kernel.thread x).priority
    · subst hp
      rw [update_self]
      refine (h.nodup _).append (nodup_singleton x) fun y hy hy' => ?_
      rw [mem_singleton.1 hy'] at hy
      exact hnew ((h.mem _ x).1 hy).1
    · rw [update_of_ne hp]
      exact h.nodup p

/-- One call keeps the invariant. -/
theorem Inv.step (ha : call.Allowed reg t.kernel)
    (hrun : call.run ideal t = .ok (r, t')) : Inv (reg ++ call.added.toList) t' := by
  rcases Call.outcome (h.wired _ h.current).nonnull hrun with
    ⟨x, rfl, rfl, rfl⟩ | ⟨hadd, st, hout⟩
  · exact h.added ha.1 ha.2
  rw [hadd, Option.toList_none, append_nil]
  cases hout with
  | stays => exact h.setState st
  | switches chosen =>
    have hfind := Ideal.chooseFrom_spec chosen.1 chosen.2
    obtain ⟨p, -, hp⟩ := mem_flatMap.1 (mem_of_find?_eq_some hfind)
    exact (h.setState st).switched hp

end

theorem schedSchedule_error (h0 : thrCurrent t.kernel ≠ 0)
    (h : schedSchedule ideal now now' t = .error e) : ∃ msg, e = .fatal msg := by
  rw [schedSchedule_ideal h0, schedNext_ideal h0] at h
  split_ifs at h
  cases h
  exact ⟨_, rfl⟩

/-- A call on the sequences that does not return has stopped the kernel. -/
theorem Call.error (h0 : thrCurrent t.kernel ≠ 0)
    (h : call.run ideal t = .error e) : ∃ msg, e = .fatal msg := by
  have hleave : ∀ st now now', leave ideal st now now' t = .error e → ∃ msg, e = .fatal msg := by
    intro st now now' h
    rw [leave_ideal st h0] at h
    exact schedSchedule_error (t := ⟨setState (thrCurrent t.kernel) st t.kernel, t.queue⟩) h0 h
  cases call with
  | add x => cases h
  | schedule now now' => exact schedSchedule_error h0 h
  | yield now now' => exact hleave _ _ _ h
  | exit now now' => exact hleave _ _ _ h
  | abort now now' =>
    have h : (if (t.kernel.process (t.kernel.thread (thrCurrent t.kernel)).parent).id = 0 then
        halt (.fatal "tachyon aborted.\n") else leave ideal .aborting now now') t = .error e := h
    split_ifs at h with hid
    · cases h
      exact ⟨_, rfl⟩
    · exact hleave _ _ _ h

/-! ### Runs on the linked lists -/

section Linked

variable {s s' s₀ : State} {tr : List Entry} {call : Call} {r : Option ℕ}

theorem mem_priorities (p : Priority) : p ∈ priorities := by cases p <;> decide

/-- Fuel for every queue. -/
theorem Ideal.exists_fuel (t : Ideal) (n : ℕ) : ∃ m, n ≤ m ∧ ∀ p, (t.queue p).length ≤ m := by
  refine ⟨n + (priorities.map fun p => (t.queue p).length).sum, Nat.le_add_right _ _, fun p => ?_⟩
  have := single_le_sum (fun _ _ => Nat.zero_le _) _
    (mem_map_of_mem (f := fun p => (t.queue p).length) (mem_priorities p))
  omega

theorem Allocates.ready {new : Fresh} {fuel : ℕ} (h : Allocates new s) (hrep : Rep s t)
    (hfuel : ∀ p, (t.queue p).length < fuel) : Ready fuel new s t :=
  ⟨hrep, hfuel, h.node, h.list⟩

/-- A call on the linked lists returns what it returns on the sequences. -/
theorem Step.ideal (hrep : Rep s t) (hinv : Inv reg t) (h : Step reg s call r s') :
    ∃ t', call.run ideal t = .ok (r, t') ∧ Rep s' t' := by
  obtain ⟨new, halloc, n, hret⟩ := h.returns
  obtain ⟨m, hnm, hm⟩ := t.exists_fuel n
  have hrel := call.run_rel (halloc.ready hrep fun p => Nat.lt_succ_of_le (hm p))
  have hcall : call.run (linked (m + 1) new) s = .ok (r, s') := hret (m + 1) (by omega)
  cases hi : call.run Sched.ideal t with
  | error e =>
    obtain ⟨msg, rfl⟩ := Call.error (hinv.wired _ hinv.current).nonnull hi
    have := hrel.2 _ hi (by simp)
    cases hcall.symm.trans this
  | ok a =>
    obtain ⟨b, t'⟩ := a
    obtain ⟨a, s1, hs1, rfl, hrep'⟩ := hrel.1 b t' hi
    cases hcall.symm.trans hs1
    exact ⟨t', rfl, hrep'⟩

/-- The sequences in the lists are determined. -/
theorem Rep.unique (h : Rep s t) (h' : Rep s t') : t = t' := by
  obtain ⟨ns, h⟩ := h
  obtain ⟨ns', h'⟩ := h'
  have hq : t.queue = t'.queue := by
    funext p
    rw [← h.data p, ← h'.data p]
    rcases h.list p with ⟨h0, hnil⟩ | hl
    · rcases h'.list p with ⟨-, hnil'⟩ | hl'
      · rw [hnil, hnil']
      · exact absurd h0 hl'.nonnull
    rcases h'.list p with ⟨h0, -⟩ | hl'
    · exact absurd h0 hl.nonnull
    · obtain ⟨-, ⟨head, hhdr, hseg⟩, -⟩ := hl
      obtain ⟨-, ⟨head', hhdr', hseg'⟩, -⟩ := hl'
      rw [hhdr, Option.some.injEq, ListHdr.mk.injEq] at hhdr'
      rw [← hhdr'.1] at hseg'
      rw [hseg.unique hseg']
  exact Ideal.ext (h.kernel.symm.trans h'.kernel) hq

theorem registered_snoc (e : Entry) :
    registered s₀ (tr ++ [e]) = registered s₀ tr ++ e.call.added.toList := by
  unfold registered
  cases h : e.call.added <;> simp [h]

theorem Start.inv (h : Start s₀) :
    Rep s₀ ⟨s₀.kernel, fun _ => []⟩ ∧ Inv (registered s₀ []) ⟨s₀.kernel, fun _ => []⟩ := by
  refine ⟨⟨fun _ => [], rfl, fun _ => rfl, fun p => .inl ⟨h.queues p, rfl⟩,
    fun p _ _ h0 => absurd (h.queues p) h0, by simp⟩, ?_, ?_, fun p x => ?_, fun _ => nodup_nil⟩
  · simpa [registered] using h.current
  · simp [registered]
  · simp only [registered, filterMap_nil, not_mem_nil, mem_singleton, false_iff]
    exact fun hx => hx.2.1 hx.1

/-- **The invariant along every run.** -/
theorem Trace.inv (h : Start s₀) (hrun : Trace s₀ tr s) :
    ∃ t, Rep s t ∧ Inv (registered s₀ tr) t := by
  induction hrun with
  | nil => exact ⟨_, h.inv⟩
  | snoc _ step ih =>
    obtain ⟨t, hrep, hinv⟩ := ih
    obtain ⟨t', ht', hrep'⟩ := step.ideal hrep hinv
    obtain ⟨ns, hns⟩ := hrep
    refine ⟨t', hrep', ?_⟩
    rw [registered_snoc]
    exact hinv.step (hns.kernel ▸ step.allowed) ht'

/-- The thread is the current one or once in its own queue, and nowhere else. -/
def OnePlace (k : Kernel) (queue : Priority → List ℕ) (x : ℕ) : Prop :=
  x = thrCurrent k ∧ (∀ p, x ∉ queue p) ∨
    x ≠ thrCurrent k ∧ (queue (k.thread x).priority).count x = 1 ∧
      ∀ p ≠ (k.thread x).priority, x ∉ queue p

theorem Inv.onePlace (h : Inv reg t) (hx : x ∈ reg) : OnePlace t.kernel t.queue x := by
  by_cases hc : x = thrCurrent t.kernel
  · exact .inl ⟨hc, fun p hp => ((h.mem p x).1 hp).2.1 hc⟩
  · refine .inr ⟨hc, count_eq_one_of_mem (h.nodup _) ((h.mem _ x).2 ⟨hx, hc, rfl⟩), ?_⟩
    exact fun p hp hmem => hp ((h.mem p x).1 hmem).2.2.symm

/-- No thread is lost or duplicated, and what is switched to could run. -/
structure Placed (reg : List ℕ) (s : State) : Prop where
  places : ∃ t, Rep s t ∧ ∀ x ∈ reg, OnePlace s.kernel t.queue x
  runnable : ∀ call thr s', Step reg s call (some thr) s' →
    (s.kernel.thread thr).state = .runnable ∧ thrCurrent s'.kernel = thr
  /-- A call whose allocations succeed returns or stops the kernel. -/
  progress : ∀ (call : Call) new, call.Allowed reg s.kernel → Allocates new s → ∃ n, ∀ fuel, n < fuel →
    (∃ r s', call.run (linked fuel new) s = .ok (r, s')) ∨
      ∃ msg, call.run (linked fuel new) s = .error (.fatal msg)

/-- The thread a call switches to is queued and can run. -/
theorem Inv.chosen (h : Inv reg t) (hthr : thr ≠ 0)
    (hc : Ideal.chooseFrom ⟨Sched.setState (thrCurrent t.kernel) st t.kernel, t.queue⟩ priorities =
      thr) : thr ∈ reg ∧ thr ≠ thrCurrent t.kernel ∧ (t.kernel.thread thr).state = .runnable := by
  have hfind := Ideal.chooseFrom_spec hthr hc
  obtain ⟨p, -, hp⟩ := mem_flatMap.1 (mem_of_find?_eq_some hfind)
  obtain ⟨hreg, hne, -⟩ := (h.mem p thr).1 hp
  have hel : Eligible (Sched.setState (thrCurrent t.kernel) st t.kernel) thr := by
    simpa using find?_some hfind
  exact ⟨hreg, hne, (setState_state_of_ne st hne).symm.trans hel.2⟩

/-- **No thread is lost or duplicated.**  From a current thread and empty queues, along every run of
the scheduler: every registered thread is either the current one or once in the queue of its
priority, and every thread that is switched to was runnable. -/
theorem sched_places_run (h : Start s₀) (hrun : Trace s₀ tr s) : Placed (registered s₀ tr) s := by
  obtain ⟨t, hrep, hinv⟩ := hrun.inv h
  have hk : s.kernel = t.kernel := by
    obtain ⟨ns, hns⟩ := hrep
    exact hns.kernel
  have h0 := (hinv.wired _ hinv.current).nonnull
  refine ⟨⟨t, hrep, fun x hx => hk ▸ hinv.onePlace hx⟩, fun call thr s' step => ?_,
    fun call new _ halloc => ?_⟩
  · obtain ⟨t', ht', hrep'⟩ := step.ideal hrep hinv
    rcases Call.outcome h0 ht' with ⟨x, -, hnone, -⟩ | ⟨-, st, hout⟩
    · cases hnone
    cases hout with
    | switches chosen =>
      obtain ⟨hreg, -, hrun⟩ := hinv.chosen chosen.1 chosen.2
      obtain ⟨ns', hns'⟩ := hrep'
      refine ⟨hk ▸ hrun, ?_⟩
      rw [hns'.kernel]
      exact thrCurrent_switchTo (by simpa using (hinv.wired thr hreg).context)
  · obtain ⟨n, -, hn⟩ := t.exists_fuel 0
    refine ⟨n, fun fuel hfuel => ?_⟩
    have hrel := call.run_rel (halloc.ready hrep fun p => lt_of_le_of_lt (hn p) hfuel)
    cases hi : call.run Sched.ideal t with
    | error e =>
      obtain ⟨msg, rfl⟩ := Call.error h0 hi
      exact .inr ⟨msg, hrel.2 _ hi (by simp)⟩
    | ok a =>
      obtain ⟨r, s', hs', -⟩ := hrel.1 a.1 a.2 hi
      exact .inl ⟨r, s', hs'⟩

end Linked

/-! ### A run of two threads -/

/-- Thread `1` of the highest priority runs, thread `2` has the priority `p`; each has its context at
`16` times its address. -/
def twoThreads (p : Priority) : State where
  kernel :=
    { thread := fun x => ⟨.runnable, if x = 2 then p else .kernel, 1, 16 * x, 0⟩
      context := fun c => ⟨true, 0, 0, c / 16⟩
      process := fun _ => ⟨0, 0x1000, .kernel⟩
      current := 16
      intFlag := false
      cr3 := 0x1000 }
  lists := ⟨fun _ => none, fun _ => none⟩
  queues := fun _ => 0

theorem twoThreads_start (p : Priority) : Start (twoThreads p) :=
  ⟨⟨by cases p <;> decide, by cases p <;> decide⟩, fun _ => rfl⟩

/-- A call that returns with some fuel. -/
theorem Step.of_value {reg : List ℕ} {s : State} (call : Call) (new : Fresh) (n : ℕ)
    (ha : call.Allowed reg s.kernel) (hnew : Allocates new s)
    (h : (call.run (linked n new)).value s = some r) :
    Step reg s call r ((call.run (linked n new)).exec s) :=
  ⟨ha, new, hnew, .of_le (call.run_le new) (eq_ok_of_value h)⟩

/-- The second thread is added. -/
def twoQueued (p : Priority) : State :=
  ((Call.add 2).run (linked 5 ⟨0x100, 0x200⟩)).exec (twoThreads p)

theorem twoQueued_trace (p : Priority) :
    Trace (twoThreads p) [⟨.add 2, none, twoQueued p⟩] (twoQueued p) :=
  .snoc .nil (.of_value (.add 2) ⟨0x100, 0x200⟩ 5 ⟨by cases p <;> decide, by decide,
    by cases p <;> decide⟩ ⟨⟨by decide, by decide, rfl⟩, by decide, rfl⟩
    (by cases p <;> decide +kernel))

/-- The first thread loses the CPU to the second one. -/
theorem sched_places_run_two : ∃ tr s, Trace (twoThreads .normal) tr s ∧
    tr.map Entry.switched = [none, some 2] ∧ Placed [1, 2] s := by
  have hrun := Trace.snoc (twoQueued_trace .normal) (.of_value (.schedule 10 20) ⟨0x300, 0x400⟩ 5
    trivial ⟨⟨by decide, by decide, rfl⟩, by decide, rfl⟩ (r := some 2) (by decide +kernel))
  exact ⟨_, _, hrun, rfl, sched_places_run (twoThreads_start _) hrun⟩

end Tachyon.Sched
