import Tachyon.Sched.Priority

/-!
# Round robin

Two threads of the same priority that can run whenever they are queued take turns.  `Turn thr other t n`
follows the two from the call that puts `thr` back into its queue: `other` is ahead of it in the
queue and was not selected yet (`n = 0`), or it was selected once and runs, or stands behind `thr`.

* `Turn.step`: what one call does to it;
* `sched_round_robin`: between two selections of `thr`, `other` is selected exactly once.
-/

namespace Tachyon.Sched

open Prog Tachyon.Lists Threads List Option

variable {t t' : Ideal} {s s' s₀ : State} {tr tr₁ tr₂ : List Entry} {reg : List ℕ}
  {thr other x y : ℕ} {call : Call} {e : Entry}

/-! ### The order in a queue -/

/-- `x` stands before `y`. -/
def Before (x y : ℕ) (l : List ℕ) : Prop := ∃ r₁ r₂, l = r₁ ++ r₂ ∧ x ∈ r₁ ∧ y ∈ r₂

variable {l : List ℕ} {z n : ℕ} {st : ThreadState} {r : Option ℕ}

theorem Before.append (h : Before x y l) (l' : List ℕ) : Before x y (l ++ l') := by
  obtain ⟨r1, r2, rfl, hx, hy⟩ := h
  exact ⟨r1, r2 ++ l', append_assoc _ _ _, hx, mem_append_left _ hy⟩

theorem Before.erase (h : Before x y l) (hx : x ≠ z) (hy : y ≠ z) :
    Before x y (l.erase z) := by
  obtain ⟨r1, r2, rfl, hx1, hy2⟩ := h
  rw [erase_append]
  split_ifs
  · exact ⟨_, _, rfl, (mem_erase_of_ne hx).2 hx1, hy2⟩
  · exact ⟨_, _, rfl, hx1, (mem_erase_of_ne hy).2 hy2⟩

/-- What stands behind a thread that can run is not found first. -/
theorem Before.find?_ne {P : ℕ → Bool} (h : Before x y l) (hnd : l.Nodup)
    (hx : P x = true) : l.find? P ≠ some y := by
  obtain ⟨r1, r2, rfl, hx1, hy2⟩ := h
  obtain ⟨z, hz⟩ : ∃ z, r1.find? P = some z :=
    isSome_iff_exists.1 (find?_isSome.2 ⟨x, hx1, hx⟩)
  rw [find?_append, hz, some_or, ne_eq, some.injEq]
  rintro rfl
  exact (nodup_append.1 hnd).2.2 z (mem_of_find?_eq_some hz) z hy2 rfl

/-! ### Turns -/

/-- The two threads after `thr` was put back, `other` having been selected `n` times. -/
inductive Turn (thr other : ℕ) (t : Ideal) : ℕ → Prop
  | ahead (before : Before other thr (t.queue (t.kernel.thread thr).priority)) : Turn thr other t 0
  | runs (current : thrCurrent t.kernel = other) : Turn thr other t 1
  | behind (before : Before thr other (t.queue (t.kernel.thread thr).priority)) :
      Turn thr other t 1

/-- Two registered threads of one priority. -/
structure Peers (reg : List ℕ) (thr other : ℕ) (t : Ideal) : Prop where
  inv : Inv reg t
  ne : other ≠ thr
  mem_thr : thr ∈ reg
  mem_other : other ∈ reg
  priority : (t.kernel.thread other).priority = (t.kernel.thread thr).priority

/-- A thread behind one that can run is not selected. -/
theorem Inv.selected_ne (h : Inv reg t) (hsw : Switches st y t t')
    (hb : Before x y (t.queue (t.kernel.thread y).priority))
    (hx : (t.kernel.thread x).state = .runnable) : False := by
  have hfind := Ideal.chooseFrom_spec hsw.nonnull hsw.chosen
  rw [find?_flatMap, findSome?_eq_some_iff] at hfind
  obtain ⟨-, q, -, -, hq, -⟩ := hfind
  obtain rfl := ((h.mem q y).1 (mem_of_find?_eq_some hq)).2.2
  have hxq : x ∈ t.queue (t.kernel.thread y).priority := by
    obtain ⟨r1, r2, hl, hx1, -⟩ := hb
    rw [hl]
    exact mem_append_left _ hx1
  obtain ⟨hreg, hne, -⟩ := (h.mem _ x).1 hxq
  refine hb.find?_ne (h.nodup _) ?_ hq
  rw [decide_eq_true_eq]
  exact ⟨(h.wired x hreg).nonnull, (setState_state_of_ne st hne).trans hx⟩

theorem Before.mem (h : Before x y l) : x ∈ l ∧ y ∈ l := by
  obtain ⟨r1, r2, rfl, hx, hy⟩ := h
  exact ⟨mem_append_left _ hx, mem_append_right _ hy⟩

/-- The order of two other threads survives a switch. -/
theorem Switches.before {p : Priority} (hsw : Switches st z t t')
    (hb : Before x y (t.queue p)) (hx : x ≠ z) (hy : y ≠ z) : Before x y (t'.queue p) := by
  rw [hsw.queue p]
  refine Before.append ?_ _
  split_ifs
  · exact hb.erase hx hy
  · exact hb

/-- The threads can run when they are queued. -/
def RunnableIfQueued (t : Ideal) (x : ℕ) : Prop :=
  x ≠ thrCurrent t.kernel → (t.kernel.thread x).state = .runnable

/-- The current thread stays, and threads are added behind the others. -/
theorem Turn.extend (h : Turn thr other t n) (hcur : thrCurrent t'.kernel = thrCurrent t.kernel)
    (hprio : (t'.kernel.thread thr).priority = (t.kernel.thread thr).priority)
    (hq : ∀ p, ∃ l, t'.queue p = t.queue p ++ l) : Turn thr other t' n := by
  obtain ⟨l, hl⟩ := hq (t.kernel.thread thr).priority
  cases h with
  | ahead before =>
    refine .ahead ?_
    rw [hprio, hl]
    exact before.append l
  | runs current => exact .runs (hcur.trans current)
  | behind before =>
    refine .behind ?_
    rw [hprio, hl]
    exact before.append l

theorem Ideal.added_queue (t : Ideal) (x : ℕ) (p : Priority) :
    ∃ l, (t.added x).queue p = t.queue p ++ l := by
  by_cases hp : p = (t.kernel.thread x).priority
  · subst hp
    exact ⟨[x], Function.update_self _ _ _⟩
  · exact ⟨[], by rw [append_nil]; exact Function.update_of_ne hp _ _⟩

section

variable (h : Turn thr other t n) (hp : Peers reg thr other t)
include h hp

/-- A switch to a thread other than `thr`. -/
theorem Turn.switch (hsw : Switches st z t t') (hz : z ≠ thr) (hthr : RunnableIfQueued t thr) :
    Turn thr other t' (if z = other then n + 1 else n) := by
  have hprio := hsw.priority thr
  obtain ⟨-, hzcur, -⟩ := hp.inv.chosen hsw.nonnull hsw.chosen
  cases h with
  | ahead before =>
    split_ifs with hzo
    · exact .runs (hsw.current.trans hzo)
    · refine .ahead ?_
      rw [hprio]
      exact hsw.before before (Ne.symm hzo) hz.symm
  | runs current =>
    -- `other` is put back behind `thr`
    rw [if_neg (fun hzo => hzcur (hzo.trans current.symm))]
    refine .behind ?_
    rw [hprio, hsw.queue, current, hp.priority, if_pos rfl]
    refine ⟨_, [other], rfl, ?_, mem_cons_self⟩
    rw [hp.inv.mem_remaining, hp.inv.mem]
    exact ⟨⟨hp.mem_thr, fun hc => hp.ne (current.symm.trans hc.symm), rfl⟩, hz.symm⟩
  | behind before =>
    have hcur : thr ≠ thrCurrent t.kernel := ((hp.inv.mem _ _).1 before.mem.1).2.1
    have hzo : z ≠ other := by
      rintro rfl
      rw [← hp.priority] at before
      exact hp.inv.selected_ne hsw before (hthr hcur)
    rw [if_neg hzo]
    refine .behind ?_
    rw [hprio]
    exact hsw.before before hz.symm (Ne.symm hzo)

/-- One call that does not select `thr`. -/
theorem Turn.step (hrun : call.run ideal t = .ok (r, t')) (hr : r ≠ some thr)
    (hthr : RunnableIfQueued t thr) : Turn thr other t' (if r = some other then n + 1 else n) := by
  rcases Call.outcome (hp.inv.wired _ hp.inv.current).nonnull hrun with
    ⟨x, rfl, rfl, rfl⟩ | ⟨-, st, hout⟩
  · exact h.extend rfl rfl (t.added_queue x)
  cases r with
  | none =>
    cases hout
    exact h.extend rfl (setState_priority _ _) fun p => ⟨[], (append_nil _).symm⟩
  | some z =>
    have := h.switch hp (hp.inv.switches hout) (by simpa using hr) hthr
    simpa using this

/-- When `thr` is selected, `other` was. -/
theorem Turn.selected (hrun : call.run ideal t = .ok (some thr, t'))
    (hother : RunnableIfQueued t other) : n = 1 := by
  rcases Call.outcome (hp.inv.wired _ hp.inv.current).nonnull hrun with ⟨x, -, hnone, -⟩ | ⟨-, st, hout⟩
  · cases hnone
  cases h with
  | ahead before =>
    have hcur : other ≠ thrCurrent t.kernel := ((hp.inv.mem _ _).1 before.mem.1).2.1
    exact (hp.inv.selected_ne (hp.inv.switches hout) before (hother hcur)).elim
  | runs => rfl
  | behind => rfl

end

/-- The call that puts `thr` back. -/
theorem Peers.put_back (hp : Peers reg thr other t)
    (hcur : thrCurrent t.kernel = thr) (hrun : call.run ideal t = .ok (some z, t')) :
    Turn thr other t' (if z = other then 1 else 0) := by
  rcases Call.outcome (hp.inv.wired _ hp.inv.current).nonnull hrun with ⟨x, -, hnone, -⟩ | ⟨-, st, hout⟩
  · cases hnone
  have hsw := hp.inv.switches hout
  by_cases hzo : z = other
  · rw [if_pos hzo]
    exact .runs (hsw.current.trans hzo)
  rw [if_neg hzo]
  refine .ahead ?_
  rw [hsw.priority, hsw.queue, hcur, if_pos rfl]
  refine ⟨_, [thr], rfl, ?_, mem_cons_self⟩
  rw [hp.inv.mem_remaining, hp.inv.mem]
  exact ⟨⟨hp.mem_other, fun hc => hp.ne (hc.trans hcur), hp.priority⟩, Ne.symm hzo⟩

theorem Peers.step (hp : Peers reg thr other t)
    (ha : call.Allowed reg t.kernel) (hrun : call.run ideal t = .ok (r, t')) :
    Peers (reg ++ call.added.toList) thr other t' := by
  refine ⟨hp.inv.step ha hrun, hp.ne, mem_append_left _ hp.mem_thr,
    mem_append_left _ hp.mem_other, ?_⟩
  rcases Call.outcome (hp.inv.wired _ hp.inv.current).nonnull hrun with
    ⟨x, rfl, rfl, rfl⟩ | ⟨-, st, hout⟩
  · exact hp.priority
  · cases hout with
    | stays => simpa using hp.priority
    | switches => simpa [Ideal.switched] using hp.priority

/-! ### Runs -/

theorem Trace.snoc_inv (h : Trace s₀ (tr ++ [e]) s) :
    s = e.state ∧ ∃ s', Trace s₀ tr s' ∧ Step (registered s₀ tr) s' e.call e.switched e.state := by
  generalize htr : tr ++ [e] = tr' at h
  cases h with
  | nil => simp at htr
  | snoc run step =>
    obtain ⟨rfl, he⟩ := append_inj' htr rfl
    cases he
    exact ⟨rfl, _, run, step⟩

/-- The state of a run is that of its last entry. -/
theorem Trace.last (h : Trace s₀ (tr₁ ++ e :: tr₂) s) :
    ∃ a ∈ e :: tr₂, s = a.state := by
  obtain ⟨zs, a, hza⟩ := (eq_nil_or_concat (e :: tr₂)).resolve_left (cons_ne_nil _ _)
  rw [concat_eq_append] at hza
  rw [hza, ← append_assoc] at h
  exact ⟨a, by simp [hza], h.snoc_inv.1⟩

theorem Trace.runnableIfQueued
    (hrun : Trace s₀ (tr₁ ++ e :: tr₂) s) (hrep : Rep s t) (hinv : Inv reg t) (hx : x ∈ reg)
    (hready : ∀ a ∈ e :: tr₂, Queued a.state x → (a.state.kernel.thread x).state = .runnable) :
    RunnableIfQueued t x := by
  obtain ⟨a, ha, rfl⟩ := hrun.last
  intro hcur
  have := hready a ha ((hinv.queued_iff hrep).2 ⟨hx, hrep.kernel_eq ▸ hcur⟩)
  rwa [hrep.kernel_eq] at this

/-- The entries select `x` that often. -/
def selections (x : ℕ) (tr : List Entry) : ℕ := tr.countP fun a => a.switched = some x

/-- The threads keep their priorities. -/
theorem Trace.priority (h : Start s₀) (hrun : Trace s₀ tr s) (x : ℕ) :
    (s.kernel.thread x).priority = (s₀.kernel.thread x).priority := by
  induction hrun with
  | nil => rfl
  | snoc run step ih =>
    obtain ⟨t, hrep, hinv⟩ := run.inv h
    obtain ⟨t', ht', hrep'⟩ := step.ideal hrep hinv
    rw [← ih, hrep.kernel_eq, hrep'.kernel_eq]
    rcases Call.outcome (hinv.wired _ hinv.current).nonnull ht' with ⟨x, -, -, rfl⟩ | ⟨-, st, hout⟩
    · rfl
    · cases hout with
      | stays => simp
      | switches => simp [Ideal.switched]

/-- After a selection of `thr`, as long as there is no switch. -/
theorem Trace.current_of_kept (h : Start s₀)
    (hrun : Trace s₀ (tr₁ ++ e :: tr₂) s) (hsel : e.switched = some thr)
    (hkeep : ∀ a ∈ tr₂, a.switched = none) :
    thrCurrent s.kernel = thr ∧ thr ∈ registered s₀ (tr₁ ++ e :: tr₂) := by
  induction tr₂ using reverseRecOn generalizing s with
  | nil =>
    obtain ⟨rfl, s', run, step⟩ := hrun.snoc_inv
    obtain ⟨t, hrep, hinv⟩ := run.inv h
    obtain ⟨t', ht', hrep'⟩ := step.ideal hrep hinv
    rw [hsel] at ht'
    rcases Call.outcome (hinv.wired _ hinv.current).nonnull ht' with
      ⟨x, -, hnone, -⟩ | ⟨-, st, hout⟩
    · cases hnone
    · have hsw := hinv.switches hout
      rw [hrep'.kernel_eq, registered_snoc]
      exact ⟨hsw.current, mem_append_left _ (hinv.chosen hsw.nonnull hsw.chosen).1⟩
  | append_singleton tr₂ a ih =>
    rw [← cons_append, ← append_assoc] at hrun ⊢
    obtain ⟨rfl, s', run, step⟩ := hrun.snoc_inv
    obtain ⟨hcur, hreg⟩ := ih run fun b hb => hkeep b (mem_append_left _ hb)
    obtain ⟨t, hrep, hinv⟩ := run.inv h
    obtain ⟨t', ht', hrep'⟩ := step.ideal hrep hinv
    rw [registered_snoc]
    refine ⟨?_, mem_append_left _ hreg⟩
    rw [hkeep a (by simp)] at ht'
    rw [hrep.kernel_eq] at hcur
    rw [hrep'.kernel_eq]
    rcases Call.outcome (hinv.wired _ hinv.current).nonnull ht' with
      ⟨x, -, -, rfl⟩ | ⟨-, st, hout⟩
    · exact hcur
    · cases hout
      exact hcur

section Round

variable {e e' e'' : Entry} {tr₁ tr₂ tr₃ : List Entry} (h : Start s₀)
  (hsel : e.switched = some thr) (hkeep : ∀ a ∈ tr₂, a.switched = none)
  (hother : other ∈ registered s₀ (tr₁ ++ e :: tr₂)) (hne : other ≠ thr)
  (hprio : (s₀.kernel.thread other).priority = (s₀.kernel.thread thr).priority)

include h hsel hkeep hother hne hprio

/-- Before `thr` is put back, it is current and the other one is queued. -/
theorem Trace.peers_of_kept (hrun : Trace s₀ (tr₁ ++ e :: tr₂) s) :
    ∃ t, Rep s t ∧ thrCurrent t.kernel = thr ∧
      Peers (registered s₀ (tr₁ ++ e :: tr₂)) thr other t := by
  obtain ⟨hcur, hreg⟩ := hrun.current_of_kept h hsel hkeep
  obtain ⟨t, hrep, hinv⟩ := hrun.inv h
  rw [hrep.kernel_eq] at hcur
  refine ⟨t, hrep, hcur, hinv, hne, hreg, hother, ?_⟩
  rw [← hrep.kernel_eq, hrun.priority h, hrun.priority h, hprio]

/-- From the call that puts `thr` back, as long as it is not selected again. -/
theorem Trace.turn (hback : e'.switched ≠ none) (hnext : ∀ a ∈ e' :: tr₃, a.switched ≠ some thr)
    (hready : ∀ a ∈ e' :: tr₃, Queued a.state thr → (a.state.kernel.thread thr).state = .runnable)
    (hrun : Trace s₀ (tr₁ ++ e :: tr₂ ++ e' :: tr₃) s) :
    ∃ t, Rep s t ∧ Peers (registered s₀ (tr₁ ++ e :: tr₂ ++ e' :: tr₃)) thr other t ∧
      Turn thr other t (selections other (e' :: tr₃)) := by
  induction tr₃ using reverseRecOn generalizing s with
  | nil =>
    obtain ⟨rfl, s', run, step⟩ := hrun.snoc_inv
    obtain ⟨t, hrep, hcur, hp⟩ := run.peers_of_kept h hsel hkeep hother hne hprio
    obtain ⟨t', ht', hrep'⟩ := step.ideal hrep hp.inv
    obtain ⟨z, hz⟩ := ne_none_iff_exists'.1 hback
    rw [registered_snoc]
    refine ⟨t', hrep', hp.step (hrep.kernel_eq ▸ step.allowed) ht', ?_⟩
    rw [hz] at ht'
    have hturn := hp.put_back hcur ht'
    rw [selections, countP_singleton, hz]
    simpa using hturn
  | append_singleton tr₃ a ih =>
    rw [← cons_append] at hnext hready hrun ⊢
    rw [← append_assoc] at hrun ⊢
    obtain ⟨rfl, s', run, step⟩ := hrun.snoc_inv
    obtain ⟨t, hrep, hp, hturn⟩ := ih (fun b hb => hnext b (mem_append_left _ hb))
      (fun b hb => hready b (mem_append_left _ hb)) run
    obtain ⟨t', ht', hrep'⟩ := step.ideal hrep hp.inv
    rw [registered_snoc]
    refine ⟨t', hrep', hp.step (hrep.kernel_eq ▸ step.allowed) ht', ?_⟩
    have hrunnable := run.runnableIfQueued hrep hp.inv hp.mem_thr fun b hb =>
      hready b (mem_append_left _ hb)
    have hstep := hturn.step hp ht' (hnext a (by simp)) hrunnable
    rw [selections, countP_append, countP_singleton]
    simp only [decide_eq_true_eq]
    split_ifs at hstep ⊢
    · exact hstep
    · exact hstep

/-- **Round robin.**  Two threads of the same priority: `thr` is selected by `e`, put back by `e'`
and selected again by `e''`.  If `other` was registered before `thr` was put back, and both can run
whenever they are queued, `other` is selected exactly once in between. -/
theorem sched_round_robin (hback : e'.switched ≠ none)
    (hnext : ∀ a ∈ e' :: tr₃, a.switched ≠ some thr)
    (hready : ∀ a ∈ e' :: tr₃, ∀ x, x = thr ∨ x = other → Queued a.state x →
      (a.state.kernel.thread x).state = .runnable)
    (hrun : Trace s₀ (tr₁ ++ e :: tr₂ ++ e' :: tr₃ ++ [e'']) s) (hsel' : e''.switched = some thr) :
    selections other (tr₂ ++ e' :: tr₃) = 1 := by
  obtain ⟨-, s', run, step⟩ := hrun.snoc_inv
  obtain ⟨t, hrep, hp, hturn⟩ := run.turn h hsel hkeep hother hne hprio hback hnext
    fun a ha => hready a ha thr (.inl rfl)
  obtain ⟨t', ht', -⟩ := step.ideal hrep hp.inv
  rw [hsel'] at ht'
  have hrunnable := run.runnableIfQueued hrep hp.inv hp.mem_other fun b hb =>
    hready b hb other (.inr rfl)
  have hone := hturn.selected hp ht' hrunnable
  have hzero : selections other tr₂ = 0 := by
    rw [selections, countP_eq_zero]
    intro a ha
    simp [hkeep a ha]
  unfold selections at hone hzero ⊢
  rw [countP_append, hzero, hone]

end Round

/-- Two threads, four switches. -/
theorem sched_round_robin_two : ∃ tr₁ e e' e'' s,
    Trace (twoThreads .kernel) (tr₁ ++ e :: [] ++ e' :: [] ++ [e'']) s ∧ e.switched = some 1 ∧
    e''.switched = some 1 ∧ selections 2 ([] ++ e' :: []) = 1 := by
  have h₂ := Trace.snoc (twoQueued_trace .kernel) (twoQueued_step .kernel)
  have h₃ := Trace.snoc h₂ (.of_value (.schedule 6000 6000) ⟨0x500, 0x600⟩ 5 trivial
    ⟨⟨by decide, by decide, rfl⟩, by decide, rfl⟩ (r := some 1) (by decide +kernel))
  have h₄ := Trace.snoc h₃ (.of_value (.schedule 12000 12000) ⟨0x700, 0x800⟩ 5 trivial
    ⟨⟨by decide, by decide, rfl⟩, by decide, rfl⟩ (r := some 2) (by decide +kernel))
  have h₅ := Trace.snoc h₄ (.of_value (.schedule 18000 18000) ⟨0x900, 0xa00⟩ 5 trivial
    ⟨⟨by decide, by decide, rfl⟩, by decide, rfl⟩ (r := some 1) (by decide +kernel))
  refine ⟨_, _, _, _, _, h₅, rfl, rfl, sched_round_robin (twoThreads_start _) rfl (by simp) ?_
    (by decide) (by decide) (by simp) ?_ ?_ h₅ rfl⟩
  · decide +kernel
  · simp
  · rintro a ha x hx -
    rw [mem_singleton] at ha
    subst ha
    rcases hx with rfl | rfl
    · decide +kernel
    · decide +kernel

end Tachyon.Sched
