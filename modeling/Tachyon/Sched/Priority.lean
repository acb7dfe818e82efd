import Tachyon.Sched.Runs

/-!
# Priorities

`sched_choose` takes a thread of the highest priority among the queued threads that can run
(`Ideal.chooseFrom_max`).  The current thread is in no queue while the choice is made, so it may lose
the CPU to a thread of a lower priority: no runnable thread outranks the new current one exactly
when the old one cannot run or is met by a queued one (`sched_priority_iff`).
-/

namespace Tachyon.Sched

open Prog Tachyon.Lists Threads List

variable {t t' : Ideal} {s s' s₀ : State} {tr : List Entry} {reg : List ℕ} {thr now now' x : ℕ}
  {st : ThreadState}

/-- The chosen thread is of the highest priority. -/
theorem Ideal.chooseFrom_max (hthr : thr ≠ 0) (h : t.chooseFrom priorities = thr) :
    ∃ q, thr ∈ t.queue q ∧ Eligible t.kernel thr ∧
      ∀ p, ∀ x ∈ t.queue p, Eligible t.kernel x → p.toNat ≤ q.toNat := by
  have hfind := Ideal.chooseFrom_spec hthr h
  have hel : Eligible t.kernel thr := by simpa using find?_some hfind
  rw [find?_flatMap, findSome?_eq_some_iff] at hfind
  obtain ⟨ps1, q, ps2, hps, hq, hnone⟩ := hfind
  refine ⟨q, mem_of_find?_eq_some hq, hel, fun p x hx hex => ?_⟩
  have hsorted : priorities.Pairwise fun p q => q.toNat ≤ p.toNat := by decide
  rw [hps, pairwise_append, pairwise_cons] at hsorted
  have hp := hps ▸ mem_priorities p
  rcases mem_append.1 hp with hp | hp
  · have := find?_eq_none.1 (hnone p hp) x hx
    exact absurd hex (by simpa using this)
  · rcases mem_cons.1 hp with rfl | hp
    · exact le_refl _
    · exact hsorted.2.1.1 p hp

/-- The thread is in a queue. -/
def Queued (s : State) (x : ℕ) : Prop := ∃ t, Rep s t ∧ ∃ p, x ∈ t.queue p

/-- No runnable thread, queued in `s'` or current in `s`, has a higher priority than the current one
of `s'`. -/
def NoneHigher (s s' : State) : Prop :=
  ∀ x, Queued s' x ∨ x = thrCurrent s.kernel → (s'.kernel.thread x).state = .runnable →
    (s'.kernel.thread x).priority.toNat ≤ (s'.kernel.thread (thrCurrent s'.kernel)).priority.toNat

/-- The current thread cannot go on, or a queued thread that can run has at least its priority. -/
def Met (s : State) : Prop :=
  let old := s.kernel.thread (thrCurrent s.kernel)
  old.state = .runnable ∨ old.state = .yielded →
    ∃ x, Queued s x ∧ (s.kernel.thread x).state = .runnable ∧
      old.priority.toNat ≤ (s.kernel.thread x).priority.toNat

theorem endYield_state {th : Thread} :
    (endYield th).state = .runnable ↔ th.state = .runnable ∨ th.state = .yielded := by
  unfold endYield
  split_ifs with h
  · simp [h]
  · simp [h]

theorem Rep.kernel_eq (h : Rep s t) : s.kernel = t.kernel := by
  obtain ⟨ns, hns⟩ := h
  exact hns.kernel

theorem Inv.queued_iff (hinv : Inv reg t) (hrep : Rep s t) :
    Queued s x ↔ x ∈ reg ∧ x ≠ thrCurrent s.kernel := by
  rw [hrep.kernel_eq]
  constructor
  · rintro ⟨t1, hrep1, p, hp⟩
    rw [← hrep.unique hrep1, hinv.mem] at hp
    exact ⟨hp.1, hp.2.1⟩
  · exact fun hx => ⟨t, hrep, _, (hinv.mem _ x).2 ⟨hx.1, hx.2, rfl⟩⟩

/-- The threads after a switch to `thr`. -/
structure Switches (st : ThreadState) (thr : ℕ) (t t' : Ideal) : Prop where
  current : thrCurrent t'.kernel = thr
  nonnull : thr ≠ 0
  chosen : Ideal.chooseFrom ⟨setState (thrCurrent t.kernel) st t.kernel, t.queue⟩ priorities = thr
  priority : ∀ x, (t'.kernel.thread x).priority = (t.kernel.thread x).priority
  queue : ∀ p, t'.queue p =
    (if p = (t.kernel.thread thr).priority then (t.queue p).erase thr else t.queue p) ++
      if p = (t.kernel.thread (thrCurrent t.kernel)).priority then [thrCurrent t.kernel] else []
  old : (t'.kernel.thread (thrCurrent t.kernel)).state = st
  other : ∀ x ≠ thrCurrent t.kernel, (t'.kernel.thread x).state = (t.kernel.thread x).state

theorem Inv.switches (hinv : Inv reg t)
    (hout : Outcome t (thrCurrent t.kernel) st (some thr) t') : Switches st thr t t' := by
  cases hout with
  | switches chosen =>
    obtain ⟨hreg, -, -⟩ := hinv.chosen chosen.1 chosen.2
    refine ⟨thrCurrent_switchTo ?_, chosen.1, chosen.2, fun x => ?_, fun p => ?_, ?_, fun x hx => ?_⟩
    · simpa using (hinv.wired thr hreg).context
    · simp [Ideal.switched]
    · simp [Ideal.switched]
    · simp [Ideal.switched]
    · exact (switchTo_state x).trans (setState_state_of_ne st hx)

/-- The thread that is switched to has the highest priority of those that are queued and can run. -/
theorem Switches.max (h : Switches st thr t t')
    (hinv : Inv reg t) (hx : x ∈ reg) (hne : x ≠ thrCurrent t.kernel)
    (hr : (t.kernel.thread x).state = .runnable) :
    (t.kernel.thread x).priority.toNat ≤ (t.kernel.thread thr).priority.toNat := by
  obtain ⟨q, hq, -, hmax⟩ := Ideal.chooseFrom_max h.nonnull h.chosen
  rw [((hinv.mem q thr).1 hq).2.2]
  refine hmax _ x ((hinv.mem _ x).2 ⟨hx, hne, rfl⟩) ⟨(hinv.wired x hx).nonnull, ?_⟩
  rw [setState_state_of_ne st hne, hr]

/-- **Strict priority, exactly.**  After a switch, no runnable thread outranks the new current one
if and only if the old one could not go on or was met by a queued thread. -/
theorem sched_priority_iff (h : Start s₀) (hrun : Trace s₀ tr s)
    (hstep : Step (registered s₀ tr) s (.schedule now now') (some thr) s') :
    NoneHigher s s' ↔ Met s := by
  obtain ⟨t, hrep, hinv⟩ := hrun.inv h
  obtain ⟨t', ht', hrep'⟩ := hstep.ideal hrep hinv
  have hinv' : Inv (registered s₀ tr) t' := by
    simpa [Call.added] using hinv.step (hrep.kernel_eq ▸ hstep.allowed) ht'
  rcases schedSchedule_outcome (hinv.wired _ hinv.current).nonnull ht' with ⟨hnone, -⟩ | hout
  · cases hnone
  have hsw := hinv.switches hout
  obtain ⟨hreg, hne, hthr⟩ := hinv.chosen hsw.nonnull hsw.chosen
  simp only [NoneHigher, Met, hinv.queued_iff hrep, hinv'.queued_iff hrep', hrep.kernel_eq,
    hrep'.kernel_eq, hsw.current, hsw.priority, ← endYield_state]
  constructor
  · intro hall hold
    exact ⟨thr, ⟨hreg, hne⟩, hthr, hall _ (Or.inr rfl) (hsw.old.trans hold)⟩
  intro hmet x hx hr
  by_cases hxo : x = thrCurrent t.kernel
  · -- the old thread
    subst hxo
    obtain ⟨y, ⟨hy, hyo⟩, hyr, hle⟩ := hmet (hsw.old.symm.trans hr)
    exact hle.trans (hsw.max hinv hy hyo hyr)
  · rw [hsw.other x hxo] at hr
    exact hsw.max hinv (hx.resolve_right hxo).1 hxo hr

theorem twoQueued_step (p : Priority) :
    Step (registered (twoThreads p) [⟨.add 2, none, twoQueued p⟩]) (twoQueued p) (.schedule 10 20)
      (some 2) (((Call.schedule 10 20).run (linked 5 ⟨0x300, 0x400⟩)).exec (twoQueued p)) :=
  .of_value (.schedule 10 20) ⟨0x300, 0x400⟩ 5 trivial
    ⟨⟨by decide, by decide, by cases p <;> rfl⟩, by decide, by cases p <;> rfl⟩
    (by cases p <;> decide +kernel)

/-- A thread of the highest priority, whose time slice is over, loses the CPU to one of normal
priority. -/
theorem sched_priority_inverted : ∃ tr s s', Start (twoThreads .normal) ∧
    Trace (twoThreads .normal) tr s ∧
    Step (registered (twoThreads .normal) tr) s (.schedule 10 20) (some 2) s' ∧
    ¬ NoneHigher s s' := by
  refine ⟨_, _, _, twoThreads_start _, twoQueued_trace _, twoQueued_step _, fun hall => ?_⟩
  have := hall 1 (Or.inr (by decide +kernel)) (by decide +kernel)
  revert this
  decide +kernel

/-- Between threads of the same priority. -/
theorem sched_priority_iff_peers : ∃ tr s s', Start (twoThreads .kernel) ∧
    Trace (twoThreads .kernel) tr s ∧
    Step (registered (twoThreads .kernel) tr) s (.schedule 10 20) (some 2) s' ∧
    (NoneHigher s s' ↔ Met s) :=
  ⟨_, _, _, twoThreads_start _, twoQueued_trace _, twoQueued_step _,
    sched_priority_iff (twoThreads_start _) (twoQueued_trace _) (twoQueued_step _)⟩

end Tachyon.Sched
