import Mathlib.Logic.Relation

/-!
# Machines

A machine is a partial function `next` from events and states to states.

* `exec next es s`: the state behind the events `es`; `Neutral` if it is `s` again;
* `Runs next met s s'`: a run all of whose events meet a condition on the state they happen in;
* `Runs.inv`: what such events preserve holds along the run.
-/

namespace Tachyon.Machine

open List Option

variable {σ ε : Type} (next : ε → σ → Option σ) (met : ε → σ → Prop)

/-- The state behind a list of events. -/
def exec : List ε → σ → Option σ
  | [], s => some s
  | e :: es, s => (next e s).bind (exec es)

/-- A run whose events all meet the condition. -/
inductive Runs (s₀ : σ) : σ → Prop
  | start : Runs s₀ s₀
  | step {s s' : σ} {e : ε} (run : Runs s₀ s) (met : met e s) (next : next e s = some s') :
      Runs s₀ s'

variable {next met} {s₀ s : σ}

/-- The invariant rule. -/
theorem Runs.inv {P : σ → Prop} (h0 : P s₀)
    (hstep : ∀ {e s s'}, P s → met e s → next e s = some s' → P s') (h : Runs next met s₀ s) :
    P s := by
  induction h with
  | start => exact h0
  | step _ hmet hnext ih => exact hstep ih hmet hnext

/-- One more event in front. -/
theorem exec_cons {e : ε} {es : List ε} {s' : σ} (h : next e s = some s') :
    exec next (e :: es) s = exec next es s' := by
  rw [exec, h, bind_some]

theorem exec_append (xs ys : List ε) (s : σ) :
    exec next (xs ++ ys) s = (exec next xs s).bind (exec next ys) := by
  induction xs generalizing s with
  | nil => rfl
  | cons e xs ih =>
    rw [cons_append, exec, exec, bind_assoc]
    exact congrArg _ (funext ih)

/-- Code that leads back to the same state. -/
def Neutral (next : ε → σ → Option σ) (s : σ) (es : List ε) : Prop := exec next es s = some s

theorem Neutral.nil : Neutral next s [] := rfl

theorem Neutral.append {xs ys : List ε} (hx : Neutral next s xs) (hy : Neutral next s ys) :
    Neutral next s (xs ++ ys) := by
  unfold Neutral at *
  rw [exec_append, hx, bind_some, hy]

theorem Neutral.flatten {l : List (List ε)} (h : ∀ es ∈ l, Neutral next s es) :
    Neutral next s l.flatten := by
  induction l with
  | nil => rfl
  | cons es l ih =>
    rw [flatten_cons]
    exact (h es mem_cons_self).append (ih fun x hx => h x (mem_cons_of_mem _ hx))

end Tachyon.Machine
