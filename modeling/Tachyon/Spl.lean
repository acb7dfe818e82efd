import Mathlib.Logic.Function.Basic
import Tachyon.Lib.Machine
import Tachyon.Lib.Word

/-!
# Mutual exclusion (`spl.S`)

Any number of threads and interrupt handlers, on any CPUs, that take a spinlock, work on what it
guards and release it, in any order of their instructions.

`spl_try_lock` puts its result in `rax` and then calls `intr_enable`, so its caller gets the result of
that call.

* `next`: the machine;
* `Owned`: the word of the lock names the one agent that is inside;
* `spl_exclusive`: so it is in all runs in which only who is inside works and releases, and what
  `spl_try_lock` returns is what happened;
* `try_lock_result_lost`: two agents are inside if it is not.
-/

namespace Tachyon.Spl

open Machine Function

variable {ι δ : Type}

/-- Where an agent is, with the register `rbx`. -/
inductive Phase
  | out
  /-- In `spl_lock`, or in `spl_try_lock` if it tries `once`. -/
  | wait (once : Bool) (rbx : ℕ)
  | inside (rbx : ℕ)

structure State (ι δ : Type) where
  locked : ℕ
  phase : ι → Phase
  data : δ

inductive Event (ι δ : Type)
  /-- A call of `spl_lock` or `spl_try_lock` on the CPU `id`, up to the instruction. -/
  | call (a : ι) (once : Bool) (id : ℕ)
  /-- `lock cmpxchg %rbx, (%rdi)`; `intr_enable` returns `r` behind it. -/
  | cmpxchg (a : ι) (r : Bool)
  | work (a : ι) (f : δ → δ)
  | splUnlock (a : ι)

def Event.agent : Event ι δ → ι
  | call a _ _ | cmpxchg a _ | work a _ | splUnlock a => a

def next [DecidableEq ι] : Event ι δ → State ι δ → Option (State ι δ)
  | .call a once id, s => match s.phase a with
    | .out => some { s with phase := update s.phase a (.wait once (add64 id 1)) }
    | _ => none
  | .cmpxchg a r, s => match s.phase a with
    | .wait false rbx => some { s with
        locked := if s.locked = 0 then rbx else s.locked
        phase := update s.phase a (if s.locked = 0 then .inside rbx else .wait false rbx) }
    -- the caller of `spl_try_lock` goes by what it returns
    | .wait true rbx => some { s with
        locked := if s.locked = 0 then rbx else s.locked
        phase := update s.phase a (if r then .inside rbx else .out) }
    | _ => none
  | .work _ f, s => some { s with data := f s.data }
  -- nobody asks who has the lock
  | .splUnlock a, s => some { s with locked := 0, phase := update s.phase a .out }

def splLocked (s : State ι δ) : Bool := s.locked != 0

/-- `spl_mine` on the CPU `id`. -/
def splMine (id : ℕ) (s : State ι δ) : Bool := s.locked == add64 id 1

/-- Only who is inside works and releases the lock, and `intr_enable` happens to return whether
`spl_try_lock` has found the lock free. -/
def Disciplined : Event ι δ → State ι δ → Prop
  | .call _ _ id, _ => id < 2 ^ 32
  | .cmpxchg a r, s => ∀ rbx, s.phase a = .wait true rbx → (r = true ↔ s.locked = 0)
  | .work a _, s | .splUnlock a, s => ∃ b, s.phase a = .inside b

/-- The agent that is inside, if there is one, is the one that the word of the lock names. -/
structure Owned (s : State ι δ) (o : Option ι) : Prop where
  inside : ∀ a b, s.phase a = .inside b ↔ o = some a ∧ s.locked = b
  free : s.locked = 0 ↔ o = none
  wait : ∀ a once b, s.phase a = .wait once b → b ≠ 0

variable [DecidableEq ι] {s s' : State ι δ} {e : Event ι δ} {o : Option ι} {a : ι} {b : ℕ}

theorem Owned.next (h : Owned s o) (hmet : Disciplined e s) (hnext : next e s = some s') :
    ∃ o', Owned s' o' := by
  obtain ⟨hin, hfree, hwait⟩ := h
  cases e <;> simp only [Spl.next, Disciplined] at hmet hnext <;> (try split at hnext) <;>
    cases hnext
  · exact ⟨o, by grind, hfree, by grind [add64]⟩
  · rename_i a _ _ _ _
    exact ⟨if s.locked = 0 then some a else o, by grind, by grind, by grind⟩
  · rename_i a _ _ _ _
    exact ⟨if s.locked = 0 then some a else o, by grind, by grind, by grind⟩
  · exact ⟨o, hin, hfree, hwait⟩
  · exact ⟨none, by grind, by simp, by grind⟩

/-- What an agent inside sees does not depend on the others. -/
theorem Owned.next_of_ne (h : Owned s o) (ha : s.phase a = .inside b) (hmet : Disciplined e s)
    (hne : e.agent ≠ a) (hnext : Spl.next e s = some s') :
    s'.phase a = .inside b ∧ s'.data = s.data := by
  obtain ⟨hin, hfree, -⟩ := h
  cases e <;> simp only [Spl.next, Disciplined] at hmet hnext <;> (try split at hnext) <;>
    cases hnext <;> grind [Event.agent]

/-- **Mutual exclusion** along any run: `spl_locked` and `spl_mine` know who is inside, a
`lock cmpxchg` takes the lock exactly if nobody is, and who is inside is alone and finds the data as
it left them, whatever the others do. -/
theorem spl_exclusive {d : δ} (h : Runs next Disciplined ⟨0, fun _ => .out, d⟩ s) :
    (splLocked s ↔ ∃ a b, s.phase a = .inside b) ∧
    (∀ id < 2 ^ 32, splMine id s ↔ ∃ a, s.phase a = .inside (id + 1)) ∧
    (∀ a once b r, s.phase a = .wait once b → Disciplined (.cmpxchg a r) s →
      ∃ s', next (.cmpxchg a r) s = some s' ∧
        (s'.phase a = .inside b ↔ ∀ c d, s.phase c ≠ .inside d)) ∧
    ∀ a b, s.phase a = .inside b → (∀ c d, s.phase c = .inside d → c = a) ∧
      ∀ s', Runs next (fun e t => Disciplined e t ∧ e.agent ≠ a) s s' →
        s'.phase a = .inside b ∧ s'.data = s.data := by
  obtain ⟨o, hown⟩ := h.inv (P := fun s => ∃ o, Owned s o) ⟨none, by simp, by simp, by simp⟩
    fun ⟨_, ho⟩ => ho.next
  have hin := hown.inside
  have hfree := hown.free
  refine ⟨?_, fun id hid => ?_, fun a once b r ha hr => ?_,
    fun a b ha => ⟨fun c d hc => by grind, fun s' hrun => ?_⟩⟩
  · cases o <;> simp_all [splLocked]
  · rw [splMine, add64_of_lt (by omega)]
    cases o <;> simp_all
  · cases once <;> refine ⟨_, by simp only [next, ha]; rfl, ?_⟩
    · cases o <;> simp_all
    · have hr' := hr b ha
      cases o <;> simp_all
  · have hinv := hrun.inv (P := fun t => (∃ o, Owned t o) ∧ t.phase a = .inside b ∧ t.data = s.data)
      ⟨⟨o, hown⟩, ha, rfl⟩ fun ⟨⟨_, ho⟩, hin, hd⟩ ⟨hmet, hne⟩ hnext =>
        ⟨ho.next hmet hnext, (ho.next_of_ne hin hmet hne hnext).imp_right (·.trans hd)⟩
    exact hinv.2

/-- The CPU 1 has the lock, and the CPU 0 has to wait. -/
theorem spl_exclusive_waits : ∃ s : State Bool ℕ, splMine 1 s ∧ s.phase false = .wait false 1 := by
  have h₀ : Runs next Disciplined (⟨0, fun _ => .out, 0⟩ : State Bool ℕ) _ := .start
  have h₁ := h₀.step (e := .call false false 0) (by simp [Disciplined]) rfl
  have h₂ := h₁.step (e := .call true false 1) (by simp [Disciplined]) rfl
  have h₃ := h₂.step (e := .cmpxchg true true) (by simp [Disciplined]) rfl
  exact ⟨_, ((spl_exclusive h₃).2.1 1 (by decide)).2 ⟨true, rfl⟩, rfl⟩

/-- `intr_enable` returns something else, and two agents are inside. -/
theorem try_lock_result_lost : ∃ s : State Bool ℕ,
    Runs next (fun _ _ => True) ⟨0, fun _ => .out, 0⟩ s ∧ ∀ a, ∃ b, s.phase a = .inside b := by
  have h₀ : Runs next (fun _ _ => True) (⟨0, fun _ => .out, 0⟩ : State Bool ℕ) _ := .start
  have h₁ := h₀.step (e := .call false false 0) trivial rfl
  have h₂ := h₁.step (e := .cmpxchg false true) trivial rfl
  have h₃ := h₂.step (e := .call true true 1) trivial rfl
  have h₄ := h₃.step (e := .cmpxchg true true) trivial rfl
  exact ⟨_, h₄, fun a => by cases a <;> exact ⟨_, rfl⟩⟩

end Tachyon.Spl
