import Tachyon.Sched.Runs

/-!
# Removed threads

`sched_remove` takes a thread out of its queue.  The current thread is in no queue, and the next
switch puts it into one.

* `schedRemove`: the source;
* `Reached`: the states behind any calls, removals included, with the threads that are registered;
* `Later`: calls behind a removal;
* `removed_stay_removed`: a thread that was queued is not switched to any more.
-/

namespace Tachyon.Sched

open Prog Tachyon.Lists Threads List Function

variable {s s' s₀ s₁ : State} {t t' : Ideal} {reg : List ℕ} {tr : List Entry} {call : Call}
  {r : Option ℕ} {x : ℕ}

/-- `sched_remove`. -/
def schedRemove (fuel thread : ℕ) : Prog State Unit := schedRemoveUnlocked fuel thread

/-- The threads that are left when `x` is removed: the current one stays. -/
def remaining (k : Kernel) (reg : List ℕ) (x : ℕ) : List ℕ :=
  if x = thrCurrent k then reg else reg.filter (· ≠ x)

/-- The states of the scheduler, with the registered threads. -/
inductive Reached (s₀ : State) : List ℕ → State → Prop
  | start (start : Start s₀) : Reached s₀ [thrCurrent s₀.kernel] s₀
  | call {reg : List ℕ} {s s' : State} {call : Call} {r : Option ℕ} (run : Reached s₀ reg s)
      (step : Step reg s call r s') : Reached s₀ (reg ++ call.added.toList) s'
  | remove {reg : List ℕ} {s s' : State} {x : ℕ} (run : Reached s₀ reg s)
      (returns : Returns (fun fuel => schedRemove fuel x) s () s') :
      Reached s₀ (remaining s.kernel reg x) s'

/-! ### One removal -/

theorem Inv.removed (h : Inv reg t) (hx : x ≠ thrCurrent t.kernel) :
    Inv (reg.filter (· ≠ x)) (t.removed x) := by
  have hmem : ∀ y, y ∈ reg.filter (· ≠ x) ↔ y ∈ reg ∧ y ≠ x := by simp
  refine ⟨fun y hy => h.wired y ((hmem y).1 hy).1, (hmem _).2 ⟨h.current, hx.symm⟩,
    fun p y => ?_, fun p => ?_⟩
  · show y ∈ update t.queue _ _ p ↔ y ∈ reg.filter (· ≠ x) ∧ y ≠ thrCurrent t.kernel ∧
      (t.kernel.thread y).priority = p
    rw [hmem]
    by_cases hp : p = (t.kernel.thread x).priority
    · subst hp
      rw [update_self, (h.nodup _).mem_erase_iff, h.mem]
      tauto
    rw [update_of_ne hp, h.mem]
    constructor
    · rintro ⟨hy, hyc, hprio⟩
      refine ⟨⟨hy, ?_⟩, hyc, hprio⟩
      rintro rfl
      exact hp hprio.symm
    · rintro ⟨⟨hy, -⟩, hyc, hprio⟩
      exact ⟨hy, hyc, hprio⟩
  · show (update t.queue _ _ p).Nodup
    by_cases hp : p = (t.kernel.thread x).priority
    · subst hp
      rw [update_self]
      exact (h.nodup _).erase x
    · rw [update_of_ne hp]
      exact h.nodup p

/-- The current thread is in no queue. -/
theorem Inv.removed_current (h : Inv reg t) (hx : x = thrCurrent t.kernel) : t.removed x = t := by
  have hnot : x ∉ t.queue (t.kernel.thread x).priority := fun hmem => ((h.mem _ x).1 hmem).2.1 hx
  unfold Ideal.removed
  dsimp only
  rw [erase_of_not_mem hnot, update_eq_self]

theorem Inv.remaining (h : Inv reg t) (x : ℕ) :
    Inv (Sched.remaining t.kernel reg x) (t.removed x) := by
  unfold Sched.remaining
  split_ifs with hx
  · rw [h.removed_current hx]
    exact h
  · exact h.removed hx

/-- `sched_remove` always returns. -/
theorem schedRemove_returns (x : ℕ) (hrep : Rep s t) :
    ∃ s', Returns (fun fuel => schedRemove fuel x) s () s' ∧ Rep s' (t.removed x) := by
  obtain ⟨m, hm, hrep', -⟩ := schedRemove_ok x hrep
  obtain ⟨n, -, hn⟩ := t.exists_fuel 0
  exact ⟨_, ⟨n, fun fuel hfuel => hm fuel fun p => lt_of_le_of_lt (hn p) hfuel⟩, hrep'⟩

/-- The invariant of all states. -/
theorem Reached.inv (h : Reached s₀ reg s) : ∃ t, Rep s t ∧ Inv reg t := by
  induction h with
  | start start => exact ⟨_, start.inv⟩
  | call _ step ih =>
    obtain ⟨t, hrep, hinv⟩ := ih
    obtain ⟨t', ht', hrep'⟩ := step.ideal hrep hinv
    obtain ⟨ns, hns⟩ := hrep
    exact ⟨t', hrep', hinv.step (hns.kernel ▸ step.allowed) ht'⟩
  | @remove _ s _ x _ returns ih =>
    obtain ⟨t, hrep, hinv⟩ := ih
    obtain ⟨s', hs', hrep'⟩ := schedRemove_returns x hrep
    obtain ⟨-, rfl⟩ := returns.unique hs'
    obtain ⟨ns, hns⟩ := hrep
    exact ⟨_, hrep', hns.kernel ▸ hinv.remaining x⟩

/-! ### Behind a removal -/

/-- Calls from `s₁` on, where `reg` are registered. -/
inductive Later (reg : List ℕ) (s₁ : State) : List Entry → State → Prop
  | nil : Later reg s₁ [] s₁
  | snoc {tr : List Entry} {s s' : State} {call : Call} {r : Option ℕ} (run : Later reg s₁ tr s)
      (step : Step (reg ++ tr.filterMap fun e => e.call.added) s call r s') :
      Later reg s₁ (tr ++ [⟨call, r, s'⟩]) s'

/-- What is switched to is registered. -/
theorem Step.switched_mem {thr : ℕ} (hrep : Rep s t) (hinv : Inv reg t)
    (h : Step reg s call (some thr) s') : thr ∈ reg := by
  obtain ⟨t', ht', -⟩ := h.ideal hrep hinv
  rcases Call.outcome (hinv.wired _ hinv.current).nonnull ht' with ⟨x, -, hnone, -⟩ | ⟨-, st, hout⟩
  · cases hnone
  · cases hout with
    | switches chosen => exact (hinv.chosen chosen.1 chosen.2).1

/-- Along the calls the invariant holds, and only threads that are registered are switched to. -/
theorem Later.inv (hrep : Rep s₁ t) (hinv : Inv reg t) (h : Later reg s₁ tr s) :
    (∃ t', Rep s t' ∧ Inv (reg ++ tr.filterMap fun e => e.call.added) t') ∧
    ∀ e ∈ tr, ∀ thr, e.switched = some thr → thr ∈ reg ++ tr.filterMap fun e => e.call.added := by
  induction h with
  | nil => exact ⟨⟨t, hrep, by simpa using hinv⟩, by simp⟩
  | @snoc tr s s' call r _ step ih =>
    obtain ⟨⟨t', hrep', hinv'⟩, hall⟩ := ih
    obtain ⟨t'', ht'', hrep''⟩ := step.ideal hrep' hinv'
    obtain ⟨ns, hns⟩ := id hrep'
    have hadded : (tr ++ [(⟨call, r, s'⟩ : Entry)]).filterMap (fun e => e.call.added) =
        tr.filterMap (fun e => e.call.added) ++ call.added.toList := by
      rw [filterMap_append, filterMap_cons, filterMap_nil]
      dsimp only
      cases call.added <;> rfl
    rw [hadded, ← append_assoc]
    refine ⟨⟨t'', hrep'', hinv'.step (hns.kernel ▸ step.allowed) ht''⟩, fun e he thr hthr => ?_⟩
    refine mem_append_left _ ?_
    rcases mem_append.1 he with hold | hnew
    · exact hall e hold thr hthr
    · obtain rfl := mem_singleton.1 hnew
      obtain rfl : r = some thr := hthr
      exact step.switched_mem hrep' hinv'

/-- **Removed threads stay removed**, if they were queued: `sched_remove` returns, and whatever is
called then, other than `sched_add` for this thread, no call switches to it. -/
theorem removed_stay_removed (h : Reached s₀ reg s) (hcurrent : x ≠ thrCurrent s.kernel) :
    ∃ s₁, Returns (fun fuel => schedRemove fuel x) s () s₁ ∧
      ∀ tr s', Later (reg.filter (· ≠ x)) s₁ tr s' → (∀ e ∈ tr, e.call ≠ .add x) →
        ∀ e ∈ tr, e.switched ≠ some x := by
  obtain ⟨t, hrep, hinv⟩ := h.inv
  obtain ⟨ns, hns⟩ := id hrep
  obtain ⟨s₁, hs₁, hrep₁⟩ := schedRemove_returns x hrep
  refine ⟨s₁, hs₁, fun tr s' hlater hadd e he hswitched => ?_⟩
  have hinv₁ : Inv (reg.filter (· ≠ x)) (t.removed x) := hinv.removed (hns.kernel ▸ hcurrent)
  rcases List.mem_append.1 ((hlater.inv hrep₁ hinv₁).2 e he x hswitched) with hold | hnew
  · simp at hold
  obtain ⟨e', he', hcall⟩ := List.mem_filterMap.1 hnew
  refine hadd e' he' ?_
  unfold Call.added at hcall
  split at hcall
  · cases hcall
    assumption
  · cases hcall

theorem twoQueued_reached : Reached (twoThreads .kernel) [1, 2] (twoQueued .kernel) :=
  .call (.start (twoThreads_start _)) (.of_value (.add 2) ⟨0x100, 0x200⟩ 5
    ⟨by decide, by decide, rfl⟩ ⟨⟨by decide, by decide, rfl⟩, by decide, rfl⟩ (r := none)
    (by decide +kernel))

theorem removed_stay_removed_queued :
    ∃ s₁, Returns (fun fuel => schedRemove fuel 2) (twoQueued .kernel) () s₁ ∧
      ∀ tr s', Later ([1, 2].filter (· ≠ 2)) s₁ tr s' → (∀ e ∈ tr, e.call ≠ .add 2) →
        ∀ e ∈ tr, e.switched ≠ some 2 :=
  removed_stay_removed twoQueued_reached (by decide +kernel)

/-- More fuel for `sched_remove`. -/
theorem schedRemove_le (x fuel : ℕ) : Le (schedRemove fuel x) (schedRemove (fuel + 1) x) :=
  Le.bind (Le.refl _) fun _ => Le.zoom (listRemove_le _ _ _)

/-- The current thread is removed, loses the CPU and gets it back. -/
theorem removed_current_runs : ∃ s₁ tr s',
    Returns (fun fuel => schedRemove fuel 1) (twoQueued .kernel) () s₁ ∧
    Later [1, 2] s₁ tr s' ∧ tr.map Entry.call = [.schedule 10 20, .schedule 6000 6010] ∧
    tr.map Entry.switched = [some 2, some 1] := by
  have hremove := Returns.of_le (schedRemove_le 1)
    (eq_ok_of_value (p := schedRemove 5 1) (s := twoQueued .kernel) (a := ()) (by decide +kernel))
  refine ⟨_, _, _, hremove, .snoc (.snoc .nil (.of_value (.schedule 10 20) ⟨0x300, 0x400⟩ 5 trivial
    ⟨⟨by decide, by decide, ?_⟩, by decide, ?_⟩ ?_))
    (.of_value (.schedule 6000 6010) ⟨0x500, 0x600⟩ 5 trivial
      ⟨⟨by decide, by decide, ?_⟩, by decide, ?_⟩ ?_), rfl, rfl⟩ <;> decide +kernel

end Tachyon.Sched
