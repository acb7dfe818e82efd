import Mathlib.Tactic

/-!
# Imperative programs and their pre- and postconditions

A program over a state type `σ` returns a value and a new state, or halts without returning
(`Halt`): a fatal error, a page fault, a division by zero, fuel that ran out before the end of a
loop, or a step outside of what the state describes (`Halt.undefined`).

* `wlp p Q s`: *if* `p` returns from `s`, the result satisfies `Q` (partial correctness);
* `wp p Q s`: `p` returns from `s` and the result satisfies `Q` (total correctness);
* `ends p Q E s`: `p` returns from `s` with a result in `Q`, or it halts for a reason in `E`.

They have the rules of sequencing, choice and consequence.
-/

namespace Tachyon

/-- The ways in which a call does not return. -/
inductive Halt
  | fatal (msg : String)
  | pageFault (addr : ℕ)
  | divideError
  | fuel
  | undefined
  deriving DecidableEq, Repr

/-- A program over the state `σ` with a value in `α`. -/
def Prog (σ α : Type) : Type := σ → Except Halt (α × σ)

namespace Prog

variable {σ τ α β : Type}

instance : Monad (Prog σ) where
  pure a := fun s => .ok (a, s)
  bind p f := fun s => match p s with
    | .ok (a, s') => f a s'
    | .error e => .error e

/-- The current state. -/
def get : Prog σ σ := fun s => .ok (s, s)

/-- Replace the state. -/
def set (s : σ) : Prog σ Unit := fun _ => .ok ((), s)

/-- Change the state. -/
def modify (f : σ → σ) : Prog σ Unit := fun s => .ok ((), f s)

/-- Stop without returning. -/
def halt (e : Halt) : Prog σ α := fun _ => .error e

/-- Run a program on a part of the state. -/
def zoom (part : σ → τ) (put : τ → σ → σ) (p : Prog τ α) : Prog σ α := fun s =>
  match p (part s) with
  | .ok (a, t) => .ok (a, put t s)
  | .error e => .error e

/-- The value a program returns, if it returns. -/
def value (p : Prog σ α) (s : σ) : Option α :=
  match p s with
  | .ok (a, _) => some a
  | .error _ => none

/-- The state a program leaves, or the one it started in if it does not return. -/
def exec (p : Prog σ α) (s : σ) : σ :=
  match p s with
  | .ok (_, s') => s'
  | .error _ => s

variable {p q : Prog σ α} {s s' : σ} {a : α} {e : Halt} {ε : Type} {f : α → Prog σ β} {c : Prop}
  {Q R : α → σ → Prop} {E : Halt → Prop}

theorem eq_ok_of_value (h : p.value s = some a) :
    p s = .ok (a, p.exec s) := by
  unfold value at h
  unfold exec
  split at h
  · simp only [Option.some.injEq] at h
    subst h
    simp only [*]
  · cases h

/-- The reason for which a program halts, if it does not return. -/
def halted (p : Prog σ α) (s : σ) : Option Halt :=
  match p s with
  | .ok _ => none
  | .error e => some e

theorem eq_error_of_halted (h : p.halted s = some e) :
    p s = .error e := by
  unfold halted at h
  split at h
  · cases h
  · simp only [Option.some.injEq] at h
    subst h
    assumption

theorem ne_error_of_value (h : p.value s = some a) :
    p s ≠ .error e := by
  rw [eq_ok_of_value h]
  simp

/-- Partial correctness: every result that is returned satisfies `Q`. -/
def wlp (p : Prog σ α) (Q : α → σ → Prop) (s : σ) : Prop := ∀ a s', p s = .ok (a, s') → Q a s'

/-- Total correctness: the program returns, with a result that satisfies `Q`. -/
def wp (p : Prog σ α) (Q : α → σ → Prop) (s : σ) : Prop := ∃ a s', p s = .ok (a, s') ∧ Q a s'

@[simp] theorem run_pure (a : α) (s : σ) : (pure a : Prog σ α) s = .ok (a, s) := rfl
@[simp] theorem run_get (s : σ) : (get : Prog σ σ) s = .ok (s, s) := rfl
@[simp] theorem run_set (s t : σ) : (set t : Prog σ Unit) s = .ok ((), t) := rfl
@[simp] theorem run_modify (f : σ → σ) (s : σ) : modify f s = .ok ((), f s) := rfl
@[simp] theorem run_halt (e : Halt) (s : σ) : (halt e : Prog σ α) s = .error e := rfl

theorem except_bind_eq_ok {x : Except ε α} {f : α → Except ε β} {r : β} :
    (x >>= f) = .ok r ↔ ∃ a, x = .ok a ∧ f a = .ok r := by
  cases x with
  | error e => simp [bind, Except.bind]
  | ok a => simp [bind, Except.bind]

theorem except_bind_ne_error {x : Except ε α} {f : α → Except ε β} {e : ε}
    (hx : x ≠ .error e) (hf : ∀ a, x = .ok a → f a ≠ .error e) : (x >>= f) ≠ .error e := by
  cases x with
  | error e' => exact fun h => hx (by simpa [bind, Except.bind] using h)
  | ok a => exact hf a rfl

/-- A sequence returns exactly when both parts do. -/
theorem bind_eq_ok {t : σ} {b : β} :
    (p >>= f) s = .ok (b, t) ↔ ∃ a s', p s = .ok (a, s') ∧ f a s' = .ok (b, t) := by
  show (match p s with
    | .ok (a, s') => f a s'
    | .error e => .error e) = .ok (b, t) ↔ _
  cases hp : p s with
  | error e => simp
  | ok r => obtain ⟨a, s'⟩ := r; simp

theorem run_ok (h : p s = .ok (a, s')) : (p >>= f) s = f a s' := by
  show (match p s with
    | .ok (a, s') => f a s'
    | .error e => .error e) = _
  rw [h]

theorem run_error (h : p s = .error e) : (p >>= f) s = .error e := by
  show (match p s with
    | .ok (a, s') => f a s'
    | .error e => .error e) = _
  rw [h]

theorem run_get_bind {f : σ → Prog σ β} : (get >>= f) s = f s s :=
  run_ok (run_get s)

theorem run_bind_ne_error
    (hp : p s ≠ .error e) (hf : ∀ a s', p s = .ok (a, s') → f a s' ≠ .error e) :
    (p >>= f) s ≠ .error e := by
  cases h : p s with
  | error e' =>
    rw [run_error h]
    rintro ⟨⟩
    exact hp h
  | ok r =>
    rw [run_ok h]
    exact hf r.1 r.2 h

/-- A sequence, step by step. -/
theorem run_bind (p : Prog σ α) (f : α → Prog σ β) (s : σ) :
    (p >>= f) s = match p s with
      | .ok (a, s') => f a s'
      | .error e => .error e := rfl

/-! ### Loops -/

/-- With enough fuel, the program returns `a` and `s'`. -/
def Returns (p : ℕ → Prog σ α) (s : σ) (a : α) (s' : σ) : Prop :=
  ∃ n, ∀ fuel, n < fuel → p fuel s = .ok (a, s')

theorem Returns.unique {p : ℕ → Prog σ α} {s1 s2 : σ} {a1 a2 : α} (h1 : Returns p s a1 s1)
    (h2 : Returns p s a2 s2) : a1 = a2 ∧ s1 = s2 := by
  obtain ⟨n1, h1⟩ := h1
  obtain ⟨n2, h2⟩ := h2
  have h := h1 (n1 + n2 + 1) (by omega)
  rw [h2 (n1 + n2 + 1) (by omega), Except.ok.injEq, Prod.mk.injEq] at h
  exact ⟨h.1.symm, h.2.symm⟩

/-- What `p` returns, `q` returns too. -/
def Le (p q : Prog σ α) : Prop := ∀ s r, p s = .ok r → q s = .ok r

theorem Le.refl (p : Prog σ α) : Le p p := fun _ _ h => h

theorem Le.halt (q : Prog σ α) : Le (halt e) q := fun _ _ h => by cases h

theorem Le.bind {g : α → Prog σ β} (h : Le p q) (hf : ∀ a, Le (f a) (g a)) :
    Le (p >>= f) (q >>= g) := by
  intro s r hr
  obtain ⟨a, s', hp, hfa⟩ := bind_eq_ok.1 hr
  rw [run_ok (h s _ hp)]
  exact hf a s' r hfa

theorem Le.ite [Decidable c] {p' q' : Prog σ α} (h : Le p q) (h' : Le p' q') :
    Le (if c then p else p') (if c then q else q') := by
  split_ifs
  · exact h
  · exact h'

theorem Le.zoom {part : σ → τ} {put : τ → σ → σ} {p q : Prog τ α} (h : Le p q) :
    Le (zoom part put p) (zoom part put q) := by
  intro s r hr
  unfold Prog.zoom at hr ⊢
  cases hp : p (part s) with
  | error e => rw [hp] at hr; cases hr
  | ok a =>
    rw [hp] at hr
    rw [h _ _ hp]
    exact hr

/-- The same for results alone: what `x` returns, `y` returns too. -/
def OkLe {ε : Type} (x y : Except ε α) : Prop := ∀ r, x = .ok r → y = .ok r

theorem OkLe.refl (x : Except ε α) : OkLe x x := fun _ h => h

theorem OkLe.error {e : ε} (y : Except ε α) : OkLe (.error e) y := fun _ h => by cases h

theorem OkLe.bind {x y : Except ε α} {f g : α → Except ε β} (h : OkLe x y)
    (hf : ∀ a, OkLe (f a) (g a)) : OkLe (x >>= f) (y >>= g) := by
  intro r hr
  obtain ⟨a, hx, hfa⟩ := except_bind_eq_ok.1 hr
  exact except_bind_eq_ok.2 ⟨a, h a hx, hf a r hfa⟩

/-- If more fuel returns no less, one run that returns is enough. -/
theorem Returns.of_le {p : ℕ → Prog σ α} {n : ℕ}
    (hle : ∀ n, Le (p n) (p (n + 1))) (h : p n s = .ok (a, s')) : Returns p s a s' := by
  refine ⟨n, fun fuel hfuel => ?_⟩
  induction fuel, hfuel.le using Nat.le_induction with
  | base => exact h
  | succ m hm ih =>
    rcases Nat.lt_or_ge n m with hlt | hge
    · exact hle m s _ (ih hlt)
    · obtain rfl : n = m := le_antisymm hm hge
      exact hle n s _ h

/-! ### Rules -/

theorem wlp_pure (h : Q a s) : wlp (pure a) Q s := by
  rintro _ _ ⟨⟩; exact h

theorem wlp_halt : wlp (halt e) Q s := by
  rintro _ _ ⟨⟩

theorem wlp_bind {Q : β → σ → Prop}
    (h : wlp p (fun a s' => wlp (f a) Q s') s) : wlp (p >>= f) Q s := by
  intro b t hb
  obtain ⟨a, s', hp, hf⟩ := bind_eq_ok.1 hb
  exact h a s' hp b t hf

theorem wlp_mono (h : wlp p Q s) (hQR : ∀ a s', Q a s' → R a s') : wlp p R s :=
  fun a s' hp => hQR a s' (h a s' hp)

theorem wlp_seq {R : β → σ → Prop} (h : wlp p Q s) (hf : ∀ a s', Q a s' → wlp (f a) R s') :
    wlp (p >>= f) R s :=
  wlp_bind (wlp_mono h hf)

theorem wlp_get_bind {f : σ → Prog σ β} {Q : β → σ → Prop} (h : wlp (f s) Q s) :
    wlp (get >>= f) Q s := by
  apply wlp_bind
  rintro _ _ ⟨⟩
  exact h

theorem wlp_modify_bind {g : σ → σ} {f : Unit → Prog σ β} {Q : β → σ → Prop}
    (h : wlp (f ()) Q (g s)) : wlp (modify g >>= f) Q s := by
  apply wlp_bind
  rintro _ _ ⟨⟩
  exact h

theorem wlp_ite [Decidable c]
    (ht : c → wlp p Q s) (hf : ¬ c → wlp q Q s) : wlp (if c then p else q) Q s := by
  split_ifs with h
  · exact ht h
  · exact hf h

/-- A program on a part of the state changes only that part. -/
theorem wlp_zoom {part : σ → τ} {put : τ → σ → σ} {p : Prog τ α}
    (h : ∀ a t, p (part s) = .ok (a, t) → Q a (put t s)) : wlp (zoom part put p) Q s := by
  intro a s' hs
  unfold zoom at hs
  cases hp : p (part s) with
  | error e => rw [hp] at hs; cases hs
  | ok r =>
    obtain ⟨a', t⟩ := r
    rw [hp] at hs
    cases hs
    exact h _ _ hp

/-! ### Programs that may halt -/

/-- The program returns with a result that satisfies `Q`, or halts for a reason in `E`. -/
def ends (p : Prog σ α) (Q : α → σ → Prop) (E : Halt → Prop) (s : σ) : Prop :=
  (∀ a s', p s = .ok (a, s') → Q a s') ∧ ∀ e, p s = .error e → E e

theorem ends_pure (h : Q a s) :
    ends (pure a) Q E s := by
  refine ⟨?_, fun e he => (by cases he)⟩
  rintro _ _ ⟨⟩
  exact h

/-- A single step that halts. -/
theorem ends_error (hp : p s = .error e) (h : E e) : ends p Q E s := by
  refine ⟨fun a s' ha => ?_, fun e' he => ?_⟩
  · cases hp.symm.trans ha
  · cases hp.symm.trans he
    exact h

theorem ends_halt (h : E e) :
    ends (halt e) Q E s := ends_error rfl h

theorem ends_bind {Q : β → σ → Prop}
    (h : ends p (fun a s' => ends (f a) Q E s') E s) : ends (p >>= f) Q E s := by
  refine ⟨fun b t hb => ?_, fun e he => ?_⟩
  · obtain ⟨a, s', hp, hf⟩ := bind_eq_ok.1 hb
    exact (h.1 a s' hp).1 b t hf
  cases hp : p s with
  | error e' =>
    rw [run_error hp] at he
    cases he
    exact h.2 _ hp
  | ok r =>
    obtain ⟨a, s'⟩ := r
    rw [run_ok hp] at he
    exact (h.1 a s' hp).2 e he

/-- A program that never halts returns. -/
theorem wp_of_ends (h : ends p Q (fun _ => False) s) : wp p Q s := by
  cases hp : p s with
  | error e => exact (h.2 e hp).elim
  | ok r => exact ⟨r.1, r.2, hp, h.1 r.1 r.2 hp⟩

theorem ends_mono (h : ends p Q E s) (hQR : ∀ a s', Q a s' → R a s') : ends p R E s :=
  ⟨fun a s' hp => hQR a s' (h.1 a s' hp), h.2⟩

theorem ends_seq {R : β → σ → Prop} (h : ends p Q E s)
    (hf : ∀ a s', Q a s' → ends (f a) R E s') : ends (p >>= f) R E s :=
  ends_bind (ends_mono h hf)

theorem ends_ite [Decidable c] (ht : c → ends p Q E s) (hf : ¬ c → ends q Q E s) :
    ends (if c then p else q) Q E s := by
  split_ifs with h
  · exact ht h
  · exact hf h

/-- A single step that returns. -/
theorem ends_ok (hp : p s = .ok (a, s')) (h : Q a s') : ends p Q E s := by
  refine ⟨fun b t hb => ?_, fun e he => ?_⟩
  · cases hp.symm.trans hb
    exact h
  · cases hp.symm.trans he

theorem ends_step {Q : β → σ → Prop} (hp : p s = .ok (a, s')) (h : ends (f a) Q E s') :
    ends (p >>= f) Q E s :=
  ends_bind (ends_ok hp h)

end Prog

end Tachyon
