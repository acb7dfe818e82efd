import Tachyon.Cga
import Tachyon.Pmem.Model
import Tachyon.Sched.Model
import Tachyon.Stka.Ranges
import Tachyon.Tasks.Alive

/-!
# Spinlocks are released

The functions that take a spinlock, with the lock in the state.  For physical memory and the
scheduler they are the functions of the other models with the lock added; what they call does not
touch the lock, and may return anything.

* `pmemAllocHelperLocked`, `pmemReserveLocked`: with `pmem_lock`, released in the middle of loops;
  they do what `pmemAllocHelper` and `pmemReserve` do;
* `schedScheduleLocked`, `schedAddLocked`, `schedRemoveLocked`: with `_sched_lock`;
* `spinlocks_released`: `stka_alloc` is the only one that returns with its lock held, and it does so
  exactly if there is no room for a stack.
-/

namespace Tachyon

open Prog

/-! ### Physical memory -/

namespace Pmem

variable {σ α : Type} [BitStore σ] {checkPass b : Bool} {top fuel length : ℕ} {align : ℤ}
  {lock : α → Bool} {x : Except Halt α}

/-- `pmem_lock`, as all of the state. -/
def pmemLock : Lock Bool := ⟨id, fun b _ => b, fun _ _ => rfl⟩

/-- A step that does not touch the lock. -/
def unlocked {α : Type} (x : Except Halt α) : Prog Bool α := fun b =>
  match x with
  | .ok a => .ok (a, b)
  | .error e => .error e

/-- `pmem_alloc_helper`. -/
def pmemAllocHelperLocked (fuel length : ℕ) (align : ℤ) (useFdeg : Bool) :
    List (Region σ) → Prog Bool (Option ℕ × List (Region σ))
  | [] => pure (none, [])
  | reg :: regs => do
    let fdeg ← unlocked (if useFdeg then bmapFdeg reg.bmap else .ok 0)
    if fdeg = 0 ∨ mul64 length 100 < mul64 reg.length (sub64 100 fdeg) then do
      pmemLock.acquire
      let r ← unlocked (bmapSearch fuel false (pmemPages length)
        (toUnsigned (align.tdiv pmemPagesize)) bmapSrchHinted reg.bmap)
      match r.1 with
      | some idx =>
        let f := bmapFill r.2 true idx (add64 idx (pmemPages length))
        if f.1 then do
          pmemLock.release
          pure (some (pmemFromRegbit reg idx), { reg with bmap := f.2 } :: regs)
        else do
          pmemLock.release
          let q ← pmemAllocHelperLocked fuel length align useFdeg regs
          pure (q.1, { reg with bmap := f.2 } :: q.2)
      | none => do
        pmemLock.release
        let q ← pmemAllocHelperLocked fuel length align useFdeg regs
        pure (q.1, { reg with bmap := r.2 } :: q.2)
    else do
      let q ← pmemAllocHelperLocked fuel length align useFdeg regs
      pure (q.1, reg :: q.2)

/-- The pages of one region; a page that is taken releases the lock. -/
def reserveRegionLocked (checkPass : Bool) (top : ℕ) :
    ℕ → Region σ → ℕ → Prog Bool (Pass × Region σ)
  | 0, _, _ => halt .fuel
  | fuel + 1, reg, cur =>
    if pmemRegContains reg cur then
      let idx := pmemToRegbit reg cur
      if checkPass && bmapGet reg.bmap idx then do
        pmemLock.release
        pure (.refused, reg)
      else
        let reg := if checkPass then reg else { reg with bmap := bmapSet reg.bmap idx true }
        if top ≤ add64 cur pmemPagesize then pure (.passOk, reg)
        else reserveRegionLocked checkPass top fuel reg (add64 cur pmemPagesize)
    else pure (.next cur, reg)

/-- One round over the list of regions. -/
def reserveRegionsLocked (checkPass : Bool) (top fuel : ℕ) :
    List (Region σ) → ℕ → Prog Bool (Pass × List (Region σ))
  | [], cur => pure (.next cur, [])
  | reg :: regs, cur => do
    let r ← reserveRegionLocked checkPass top fuel reg cur
    match r.1 with
    | .next cur => do
      let q ← reserveRegionsLocked checkPass top fuel regs cur
      pure (q.1, r.2 :: q.2)
    | p => pure (p, r.2 :: regs)

/-- One pass. -/
def reservePassLocked (checkPass : Bool) (top : ℕ) :
    ℕ → List (Region σ) → ℕ → Prog Bool (Bool × List (Region σ))
  | 0, _, _ => halt .fuel
  | fuel + 1, regs, cur =>
    if cur < top then do
      let r ← reserveRegionsLocked checkPass top fuel regs cur
      match r.1 with
      | .refused => pure (false, r.2)
      | .passOk => pure (true, r.2)
      | .next cur => reservePassLocked checkPass top fuel r.2 (add64 cur pmemPagesize)
    else pure (true, regs)

/-- `pmem_reserve`. -/
def pmemReserveLocked (fuel addr length : ℕ) (regs : List (Region σ)) :
    Prog Bool (Bool × List (Region σ)) :=
  if alignRst addr pmemPagesize ≠ 0 then halt (.fatal "misaligned physical address!\n")
  else do
    pmemLock.acquire
    let r ← reservePassLocked true (add64 addr length) fuel regs addr
    if r.1 then do
      let q ← reservePassLocked false (add64 addr length) fuel r.2 addr
      pmemLock.release
      pure (true, q.2)
    else pure (false, r.2)

/-- The result of a step, and the lock behind it. -/
def withLock {α : Type} (lock : α → Bool) (x : Except Halt α) : Except Halt (α × Bool) :=
  x.map fun a => (a, lock a)

theorem withLock_eq_ok {a : α} (h : withLock lock x = .ok (a, b)) : b = lock a := by
  cases x with
  | error e => cases h
  | ok y =>
    cases h
    rfl

theorem unlocked_eq (x : Except Halt α) (b : Bool) :
    unlocked x b = withLock (fun _ => b) x := by
  cases x <;> rfl

/-- Two steps one after the other, with the lock as the first one leaves it. -/
theorem bind_withLock {β : Type} {p : Prog Bool α} {f : α → Prog Bool β}
    {g : α → Except Halt β} {lock' : β → Bool}
    (hp : p b = withLock lock x) (hf : ∀ a, f a (lock a) = withLock lock' (g a)) :
    (p >>= f) b = withLock lock' (x >>= g) := by
  rw [run_bind, hp]
  cases x with
  | error e => rfl
  | ok a => exact hf a

/-- With the lock held, a part of a pass releases it exactly if it refuses. -/
theorem reserveRegionLocked_eq (fuel : ℕ) (reg : Region σ) (cur : ℕ) :
    reserveRegionLocked checkPass top fuel reg cur true =
      withLock (fun r => decide (r.1 ≠ .refused)) (reserveRegion checkPass top fuel reg cur) := by
  induction fuel generalizing reg cur with
  | zero => rfl
  | succ fuel ih =>
    unfold reserveRegionLocked reserveRegion
    dsimp only
    split_ifs
    · rfl
    · rfl
    · rfl
    · exact ih _ _
    · exact ih _ _
    · rfl

theorem reserveRegionsLocked_eq (regs : List (Region σ)) (cur : ℕ) :
    reserveRegionsLocked checkPass top fuel regs cur true =
      withLock (fun r => decide (r.1 ≠ .refused)) (reserveRegions checkPass top fuel regs cur) := by
  induction regs generalizing cur with
  | nil => rfl
  | cons reg regs ih =>
    refine bind_withLock (reserveRegionLocked_eq fuel reg cur) fun r => ?_
    obtain ⟨pass, reg'⟩ := r
    cases pass with
    | refused => rfl
    | passOk => rfl
    | next cur' => exact bind_withLock (ih cur') fun q => rfl

theorem reservePassLocked_eq (fuel : ℕ) (regs : List (Region σ)) (cur : ℕ) :
    reservePassLocked checkPass top fuel regs cur true =
      withLock (fun r => r.1) (reservePass checkPass top fuel regs cur) := by
  induction fuel generalizing regs cur with
  | zero => rfl
  | succ fuel ih =>
    unfold reservePassLocked reservePass
    split_ifs
    · refine bind_withLock (reserveRegionsLocked_eq regs cur) fun r => ?_
      obtain ⟨pass, regs'⟩ := r
      cases pass with
      | refused => rfl
      | passOk => rfl
      | next cur' => exact ih regs' (add64 cur' pmemPagesize)
    · rfl

/-- `pmem_reserve` with its lock does what it does without, and leaves the lock free. -/
theorem pmemReserveLocked_eq (fuel addr length : ℕ) (regs : List (Region σ)) :
    pmemReserveLocked fuel addr length regs false =
      withLock (fun _ => false) (pmemReserve fuel addr length regs) := by
  unfold pmemReserveLocked pmemReserve
  split_ifs
  · rfl
  · refine bind_withLock (reservePassLocked_eq fuel regs addr) fun r => ?_
    obtain ⟨ok, regs'⟩ := r
    cases ok with
    | false => rfl
    | true => exact bind_withLock (reservePassLocked_eq fuel regs' addr) fun q => rfl

/-- `pmem_alloc_helper` with its lock does what it does without, and leaves the lock free. -/
theorem pmemAllocHelperLocked_eq (useFdeg : Bool) (regs : List (Region σ)) :
    pmemAllocHelperLocked fuel length align useFdeg regs false =
      withLock (fun _ => false) (pmemAllocHelper fuel length align useFdeg regs) := by
  induction regs with
  | nil => rfl
  | cons reg regs ih =>
    unfold pmemAllocHelperLocked pmemAllocHelper
    refine bind_withLock (unlocked_eq _ _) fun fdeg => ?_
    by_cases hroom : fdeg = 0 ∨ mul64 length 100 < mul64 reg.length (sub64 100 fdeg)
    · rw [if_pos hroom, if_pos hroom]
      unfold allocRegion
      rw [bind_assoc]
      refine bind_withLock (unlocked_eq _ _) fun r => ?_
      obtain ⟨found, bmap⟩ := r
      cases found with
      | none => exact bind_withLock ih fun q => rfl
      | some idx =>
        dsimp only
        split_ifs
        · rfl
        · exact bind_withLock ih fun q => rfl
    · rw [if_neg hroom, if_neg hroom]
      exact bind_withLock ih fun q => rfl

end Pmem

/-! ### The scheduler -/

namespace Sched

variable {σ : Type} (Q : Queueing σ)

/-- A body between `spl_lock` and `spl_unlock` of `_sched_lock`. -/
def schedLocked {α : Type} (body : Prog σ α) : Prog (Guarded σ) α :=
  (Guarded.lock σ).acquire >>= fun _ =>
  Guarded.inside body >>= fun a =>
  (Guarded.lock σ).release >>= fun _ => pure a

/-- `sched_schedule`; every `goto done` leads to the release of the lock. -/
def schedScheduleLocked (now now' : ℕ) : Prog (Guarded σ) (Option ℕ) :=
  schedLocked (schedSchedule Q now now')

/-- `sched_add`. -/
def schedAddLocked (thread : ℕ) : Prog (Guarded σ) Unit := schedLocked (Q.add thread)

/-- `sched_remove`. -/
def schedRemoveLocked (thread : ℕ) : Prog (Guarded σ) Unit := schedLocked (Q.remove thread)

end Sched

/-! ### Stacks -/

namespace Stka

variable {s : State} {a stk : ℕ}

/-- Without room for a stack, `stka_alloc` returns with the lock held. -/
theorem stkaAlloc_full (hfree : (s.allocator a).locked = false) (hfull : (s.allocator a).Full) :
    stkaAlloc a stk s = .ok (0, (lock a).put true s) := by
  have hlock : (lock a).acquire s = .ok ((), (lock a).put true s) := by
    unfold Lock.acquire
    rw [if_neg (by rw [show (lock a).held s = _ from hfree]; decide)]
  have hfull' : (((lock a).put true s).allocator a).Full := by
    simpa [lock, State.setAllocator, Allocator.Full] using hfull
  rw [stkaAlloc, run_ok hlock, run_get_bind]
  dsimp only
  rw [if_pos hfull']
  rfl

theorem stkaAlloc_room (hroom : ¬ (s.allocator a).Full) : (lock a).Frees (stkaAlloc a stk) s := by
  refine wlp_bind fun _ s1 hlock => wlp_get_bind (wlp_ite (fun hfull => absurd ?_ hroom) fun _ => ?_)
  · unfold Lock.acquire at hlock
    split_ifs at hlock
    cases hlock
    simpa [lock, State.setAllocator, Allocator.Full] using hfull
  · exact Lock.Frees.bind fun _ _ => .bind fun _ _ => .bind fun _ _ => Lock.frees_release stk

end Stka

/-! ### All of them -/

/-- The lock of a process. -/
def Tasks.State.prcHeld (s : Tasks.State) (prc : ℕ) : Bool :=
  ((s.process prc).map Tasks.Process.locked).getD false

theorem Tasks.prcLocked_frees (prc : ℕ) (f : Process → α × Process) (s : State) :
    wlp (prcLocked prc f) (fun _ s' => s'.prcHeld prc = false) s := by
  intro _ s' h
  obtain ⟨p, -, -, rfl⟩ := prcLocked_spec _ s' h
  simp [State.prcHeld, State.setProcess, Process.setLock]

/-- A call of a function that takes a spinlock, with the state it is made in. -/
inductive LockCall (σ τ : Type)
  | pmemAllocHelper (fuel length : ℕ) (align : ℤ) (useFdeg : Bool) (regs : List (Pmem.Region σ))
  | pmemReserve (fuel addr length : ℕ) (regs : List (Pmem.Region σ))
  | stkaAlloc (a stk : ℕ) (s : Stka.State)
  | schedSchedule (Q : Sched.Queueing τ) (now now' : ℕ) (s : τ)
  | schedAdd (Q : Sched.Queueing τ) (thread : ℕ) (s : τ)
  | schedRemove (Q : Sched.Queueing τ) (thread : ℕ) (s : τ)
  | prcNextTid (prc : ℕ) (s : Tasks.State)
  | prcAddThread (prc thr : ℕ) (s : Tasks.State)
  | prcRemoveThread (prc thr : ℕ) (s : Tasks.State)
  | cgaWrite (str : List UInt8) (s : Cga.Screen)

variable {σ τ : Type}

/-- If the call is made with the lock free and returns, the lock is free again. -/
def LockCall.Releases [Pmem.BitStore σ] : LockCall σ τ → Prop
  | .pmemAllocHelper fuel length align useFdeg regs =>
    wlp (Pmem.pmemAllocHelperLocked fuel length align useFdeg regs) (fun _ b => b = false) false
  | .pmemReserve fuel addr length regs =>
    wlp (Pmem.pmemReserveLocked fuel addr length regs) (fun _ b => b = false) false
  | .stkaAlloc a stk s => (Stka.lock a).Frees (Stka.stkaAlloc a stk) ((Stka.lock a).put false s)
  | .schedSchedule Q now now' s =>
    (Guarded.lock τ).Frees (Sched.schedScheduleLocked Q now now') ⟨false, s⟩
  | .schedAdd Q thread s => (Guarded.lock τ).Frees (Sched.schedAddLocked Q thread) ⟨false, s⟩
  | .schedRemove Q thread s => (Guarded.lock τ).Frees (Sched.schedRemoveLocked Q thread) ⟨false, s⟩
  | .prcNextTid prc s => wlp (Tasks.prcNextTid prc) (fun _ s' => s'.prcHeld prc = false) s
  | .prcAddThread prc thr s =>
    wlp (Tasks.prcAddThread prc thr) (fun _ s' => s'.prcHeld prc = false) s
  | .prcRemoveThread prc thr s =>
    wlp (Tasks.prcRemoveThread prc thr) (fun _ s' => s'.prcHeld prc = false) s
  | .cgaWrite str s => (Guarded.lock Cga.Screen).Frees (Cga.cgaWrite str) ⟨false, s⟩

/-- A new stack has room in the region of its allocator. -/
def LockCall.HasRoom : LockCall σ τ → Prop
  | .stkaAlloc a _ s => ¬ (s.allocator a).Full
  | _ => True

/-- **Spinlocks are released on every path**, but for the one of `stka_alloc` without room for a
stack. -/
theorem spinlocks_released [Pmem.BitStore σ] (c : LockCall σ τ) : c.Releases ↔ c.HasRoom := by
  cases c with
  | pmemAllocHelper fuel length align useFdeg regs =>
    refine iff_of_true (fun r b h => ?_) trivial
    rw [Pmem.pmemAllocHelperLocked_eq] at h
    exact Pmem.withLock_eq_ok h
  | pmemReserve fuel addr length regs =>
    refine iff_of_true (fun r b h => ?_) trivial
    rw [Pmem.pmemReserveLocked_eq] at h
    exact Pmem.withLock_eq_ok h
  | stkaAlloc a stk s =>
    have hfull : ((Stka.lock a).put false s |>.allocator a).Full ↔ (s.allocator a).Full := by
      simp [Stka.lock, Stka.State.setAllocator, Stka.Allocator.Full]
    refine ⟨fun h hc => ?_, fun h => Stka.stkaAlloc_room fun hc => h (hfull.1 hc)⟩
    have hheld : (Stka.lock a).held _ = false :=
      h 0 _ (Stka.stkaAlloc_full ((Stka.lock a).held_put false s) (hfull.2 hc))
    rw [(Stka.lock a).held_put] at hheld
    cases hheld
  | schedSchedule Q now now' s => exact iff_of_true (Lock.frees_critical _) trivial
  | schedAdd Q thread s => exact iff_of_true (Lock.frees_critical _) trivial
  | schedRemove Q thread s => exact iff_of_true (Lock.frees_critical _) trivial
  | prcNextTid prc s => exact iff_of_true (Tasks.prcLocked_frees prc _ s) trivial
  | prcAddThread prc thr s => exact iff_of_true (Tasks.prcLocked_frees prc _ s) trivial
  | prcRemoveThread prc thr s => exact iff_of_true (Tasks.prcLocked_frees prc _ s) trivial
  | cgaWrite str s => exact iff_of_true (Lock.frees_critical _) trivial

/-- A region of one page: the first call returns `NULL`, and the second one waits forever. -/
theorem stka_alloc_keeps_lock :
    let s := Stka.emptyState ⟨0x1000, 0x2000, 9, 6, false, false⟩ []
    (Stka.stkaAlloc 1 3).value s = some 0 ∧
      (((Stka.stkaAlloc 1 3).exec s).allocator 1).locked = true ∧
      (Stka.stkaAlloc 1 3).value ((Stka.stkaAlloc 1 3).exec s) = none := by
  decide +kernel

end Tachyon
