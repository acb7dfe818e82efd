import Tachyon.Lib.Prog

/-!
# Locks in a state

A lock is a flag in a state.  `acquire` waits while the flag is set: nothing else runs that could
clear it, so the program runs out of fuel.

* `Frees`: if the program returns, the flag is clear;
* `frees_critical`: a critical section;
* `Guarded`: a state that knows of no lock, with a lock next to it.
-/

namespace Tachyon

/-- A lock in the state. -/
structure Lock (σ : Type) where
  held : σ → Bool
  put : Bool → σ → σ
  held_put : ∀ b s, held (put b s) = b

namespace Lock

open Prog

variable {σ α β : Type} (L : Lock σ)

def acquire : Prog σ Unit := fun s => if L.held s then .error .fuel else .ok ((), L.put true s)

def release : Prog σ Unit := modify (L.put false)

/-- If the program returns, the lock is free. -/
def Frees (p : Prog σ α) (s : σ) : Prop := wlp p (fun _ s' => L.held s' = false) s

variable {L} {s : σ}

theorem frees_release (a : α) : L.Frees (L.release >>= fun _ => Pure.pure a) s :=
  wlp_modify_bind (wlp_pure (L.held_put _ _))

/-- Only what comes last matters. -/
theorem Frees.bind {p : Prog σ α} {f : α → Prog σ β} (h : ∀ a s', L.Frees (f a) s') :
    L.Frees (p >>= f) s :=
  wlp_bind fun a s' _ => h a s'

/-- A critical section. -/
theorem frees_critical (p : Prog σ α) :
    L.Frees (L.acquire >>= fun _ => p >>= fun a => L.release >>= fun _ => Pure.pure a) s :=
  .bind fun _ _ => .bind fun a _ => frees_release a

end Lock

/-- A state with a lock next to it. -/
structure Guarded (σ : Type) where
  locked : Bool
  rest : σ

/-- The lock next to the state. -/
def Guarded.lock (σ : Type) : Lock (Guarded σ) := ⟨Guarded.locked, fun b s => { s with locked := b },
  fun _ _ => rfl⟩

/-- A program on the state itself. -/
def Guarded.inside {σ α : Type} (p : Prog σ α) : Prog (Guarded σ) α :=
  Prog.zoom Guarded.rest (fun t s => { s with rest := t }) p

end Tachyon
