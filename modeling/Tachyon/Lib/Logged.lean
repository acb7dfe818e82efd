import Mathlib.Tactic

/-!
# Computations with a log

`Logged ω ε α` is a computation that may fail, together with the events up to its end or its
failure.

* `Logged.bind`: sequencing; `result_bind` says that the log does not matter for the result;
* `Logged.Follows`: a computation that takes the events of another one in the same order, and may
  stop early; `Follows.imp`, `Follows.note` and `Follows.bind` are its rules.
-/

namespace Tachyon

open List

/-- The events of a computation, and how it ends. -/
structure Logged (ω ε α : Type) where
  events : List ω
  result : Except ε α

namespace Logged

variable {ω ε α β γ δ : Type}

def ok (a : α) : Logged ω ε α := ⟨[], .ok a⟩

def fail (e : ε) : Logged ω ε α := ⟨[], .error e⟩

/-- One event, and then `x`. -/
def note (w : ω) (x : Logged ω ε α) : Logged ω ε α := ⟨w :: x.events, x.result⟩

def bind (x : Logged ω ε α) (f : α → Logged ω ε β) : Logged ω ε β :=
  match x.result with
  | .error e => ⟨x.events, .error e⟩
  | .ok a => ⟨x.events ++ (f a).events, (f a).result⟩

@[simp] theorem result_ok (a : α) : (ok a : Logged ω ε α).result = .ok a := rfl

@[simp] theorem result_fail (e : ε) : (fail e : Logged ω ε α).result = .error e := rfl

@[simp] theorem result_bind (x : Logged ω ε α) (f : α → Logged ω ε β) :
    (x.bind f).result = x.result >>= fun a => (f a).result := by
  obtain ⟨l, e | a⟩ := x <;> rfl

/-- `x` and `y` have the same events and fail for the same reason, or return values related by `R`;
or `x` stops before `y` does, with a value in `stop`. -/
inductive Follows (stop : α → Prop) (R : List ω → α → β → Prop) :
    Logged ω ε α → Logged ω ε β → Prop
  | early {l l' : List ω} {a : α} {y : Except ε β} (ends : stop a) (events : l <+: l') :
      Follows stop R ⟨l, .ok a⟩ ⟨l', y⟩
  | failed {l : List ω} {e : ε} : Follows stop R ⟨l, .error e⟩ ⟨l, .error e⟩
  | done {l : List ω} {a : α} {b : β} (rel : R l a b) : Follows stop R ⟨l, .ok a⟩ ⟨l, .ok b⟩

variable {stop : α → Prop} {stop' : γ → Prop} {R R' : List ω → α → β → Prop}
  {S : List ω → γ → δ → Prop} {x : Logged ω ε α} {y : Logged ω ε β}

theorem Follows.imp (h : Follows stop R x y) (hR : ∀ l a b, R l a b → R' l a b) :
    Follows stop R' x y := by
  cases h with
  | early hs hl => exact .early hs hl
  | failed => exact .failed
  | done hr => exact .done (hR _ _ _ hr)

/-- Both computations take one more event in front. -/
theorem Follows.note {w : ω} (h : Follows stop (fun l => R (w :: l)) x y) :
    Follows stop R (x.note w) (y.note w) := by
  cases h with
  | early hs hl => exact .early hs ((prefix_cons_inj w).2 hl)
  | failed => exact .failed
  | done hr => exact .done hr

section

variable (h : Follows stop R x y)
include h

/-- Both computations go on; the one that has stopped early does so without an event. -/
theorem Follows.bind {f : α → Logged ω ε γ} {g : β → Logged ω ε δ}
    (hstop : ∀ a, stop a → ∃ c, f a = ok c ∧ stop' c)
    (hR : ∀ l a b, R l a b → Follows stop' (fun m => S (l ++ m)) (f a) (g b)) :
    Follows stop' S (x.bind f) (y.bind g) := by
  cases h with
  | @early l l' a y hs hl =>
    obtain ⟨c, hc, hs'⟩ := hstop a hs
    have hx : Logged.bind ⟨l, .ok a⟩ f = ⟨l, .ok c⟩ := by
      simp [Logged.bind, hc, ok]
    rw [hx]
    cases y with
    | error e => exact .early hs' hl
    | ok b => exact .early hs' (hl.trans (prefix_append _ _))
  | failed => exact .failed
  | @done l a b hr =>
    have hfg := hR l a b hr
    generalize hfa : f a = u at hfg
    generalize hgb : g b = w at hfg
    have hx : Logged.bind ⟨l, .ok a⟩ f = ⟨l ++ u.events, u.result⟩ := by rw [← hfa]; rfl
    have hy : Logged.bind ⟨l, .ok b⟩ g = ⟨l ++ w.events, w.result⟩ := by rw [← hgb]; rfl
    rw [hx, hy]
    cases hfg with
    | early hs hl => exact .early hs ((prefix_append_right_inj l).2 hl)
    | failed => exact .failed
    | done hr => exact .done hr

/-- The events of the one that follows come first. -/
theorem Follows.events_prefix : x.events <+: y.events := by
  cases h with
  | early _ hl => exact hl
  | failed => exact prefix_rfl
  | done _ => exact prefix_rfl

/-- Unless it stops early, it has the same events. -/
theorem Follows.events_eq (hx : ∀ a, x.result = .ok a → ¬stop a) :
    x.events = y.events := by
  cases h with
  | early hs _ => exact absurd hs (hx _ rfl)
  | failed => rfl
  | done _ => rfl

end

end Logged

end Tachyon
