import Tachyon.Stka.Ranges

/-!
# Faults on a stack (`pgflt.c`)

The handler of page faults takes a fault between guard and top of the stack of the thread for a
request to grow.  `stka_pgflt` then moves the end of the mapped part to the page of the fault, also
if the fault is above it.

* `pgfltHandler`: the source; `PassedOn`: the faults for which it calls `stka_pgflt`;
* `stack_fault_handled`: what the two answers of `stka_pgflt` mean.
-/

namespace Tachyon.Stka

open Prog

variable {s s' : State} {a stk code fault : ℕ} {st : Stack} {ok : Bool}

/-- `ERRC_TRANS_AVAILABLE`. -/
def errcTransAvailable : ℕ := 0x01

/-- What the handler reads of the thread: its stack, and the stack allocator of its process. -/
structure Thread where
  stack : ℕ
  parentStka : Option ℕ

/-- `pgflt_handler`, for the thread of the context; `thrAbort` ends the thread. -/
def pgfltHandler (thrAbort : Prog State Unit) (thread : Option Thread) (code cr2 : ℕ) :
    Prog State Bool :=
  match thread with
  | none => halt (.fatal "no thread associated with current execution context!\n")
  | some ⟨_, none⟩ =>
    -- the message about the fault reads the id of the process
    halt (.pageFault 0)
  | some ⟨stk, some stka⟩ =>
    if code &&& errcTransAvailable ≠ 0 then
      halt (.fatal "unknwon error when accessing present page\n")
    else do
      let st ← loadStack stk
      if st.guard ≤ cr2 ∧ cr2 ≤ st.top then
        let handled ← stkaPgflt stka stk cr2
        if handled then pure true
        else do
          thrAbort
          pure true
      else do
        thrAbort
        pure true

/-- A fault that the handler passes on: the processor has found no translation in the active address
space, and the address is one of the stack. -/
structure PassedOn (s : State) (st : Stack) (fault : ℕ) : Prop where
  noTranslation : s.maps s.cr3 (fault / stkPagesize) = none
  guard_le : st.guard ≤ fault
  le_top : fault ≤ st.top

/-- For such a fault the handler does what `stka_pgflt` does, and is done if that succeeds. -/
theorem pgfltHandler_of_passedOn (thrAbort : Prog State Unit) (hst : s.stack stk = some st)
    (hcode : code &&& errcTransAvailable = 0) (h : PassedOn s st fault)
    (hcall : stkaPgflt a stk fault s = .ok (ok, s')) :
    pgfltHandler thrAbort (some ⟨stk, some a⟩) code fault s =
      if ok then .ok (true, s') else (do thrAbort; pure true : Prog State Bool) s' := by
  have hload : loadStack stk s = .ok (st, s) := by rw [loadStack, hst]
  rw [pgfltHandler, if_neg (not_not.2 hcode), run_ok hload,
    if_pos ⟨h.guard_le, h.le_top⟩, run_ok hcall]
  cases ok <;> rfl

/-- All pages between two addresses are mapped. -/
def MappedBetween (s : State) (space lo hi : ℕ) : Prop :=
  ∀ q, Within lo hi q → (s.maps space q).isSome = true

/-- What the two answers of `stka_pgflt` promise. -/
def Handled (s s' : State) (space stk fault : ℕ) (st : Stack) (ok : Bool) : Prop :=
  (ok = true → ∃ st', s'.stack stk = some st' ∧ st'.top = st.top ∧ st'.guard = st.guard ∧
    (s'.maps space (fault / stkPagesize)).isSome = true ∧ st'.mapped ≤ st.mapped ∧
    MappedBetween s' space st'.mapped st'.top) ∧
  (ok = false → s'.stack = s.stack)

/-- The faults that are refused, and those not above the first mapped page: all of the mapped part was
mapped before, or a page in between is mapped already, so that the stack cannot grow. -/
def Answerable (s : State) (space fault : ℕ) (st : Stack) : Prop :=
  fault ≤ st.guard ∨ st.top ≤ fault ∨ fault < st.mapped + stkPagesize ∧
    (MappedBetween s space st.mapped st.top ∨
      ∃ q, Within (fault - fault % stkPagesize) st.mapped q ∧ s.maps space q ≠ none)

/-- Growing to the page of the fault. -/
theorem handled_of_grown (hin : fault < st.top) (hmapped : st.mapped % stkPagesize = 0) {d : Desc}
    (hstack : s'.stack = Function.update s.stack stk
      (some { st with mapped := fault - fault % stkPagesize }))
    (hfills : Fills d (fault - fault % stkPagesize) st.mapped true s s') :
    Handled s s' d.space stk fault st true ↔
      fault < st.mapped + stkPagesize ∧ MappedBetween s d.space st.mapped st.top := by
  have hself : s'.stack stk = some { st with mapped := fault - fault % stkPagesize } := by
    rw [hstack, Function.update_self]
  constructor
  · rintro ⟨htrue, -⟩
    obtain ⟨st', hst', -, -, -, hle, hall⟩ := htrue rfl
    cases hself.symm.trans hst'
    dsimp only at hle hall
    refine ⟨by unfold stkPagesize at *; omega, fun q hq => ?_⟩
    rw [← hfills.outside fun hc => absurd hc.2.2 (not_lt.2 hq.1)]
    exact hall q ⟨hle.trans hq.1, hq.2⟩
  · rintro ⟨hbelow, hall⟩
    have hmapped' : MappedBetween s' d.space (fault - fault % stkPagesize) st.top := by
      intro q hq
      by_cases hnew : Within (fault - fault % stkPagesize) st.mapped q
      · obtain ⟨f, hf⟩ := hfills.inside rfl hnew
        rw [hf]
        rfl
      · rw [hfills.outside fun hc => hnew hc.2]
        exact hall q ⟨by unfold Within at *; omega, hq.2⟩
    refine ⟨fun _ => ⟨_, hself, rfl, rfl, hmapped' _ ?_, ?_, hmapped'⟩, nofun⟩
    · unfold Within stkPagesize
      omega
    · unfold stkPagesize at *
      dsimp only
      omega

/-- A kernel stack that has grown since the address space `5` was made: its pages are mapped in the
address space `9`, which is not the active one. -/
def foreignSpace : State where
  allocator _ := ⟨processDesc 9, 0x800000000000, [3], false⟩
  stack _ := some ⟨0x800000000000, 0x7FFFFFFFC000, 0x7FFFFFF00000⟩
  maps sp q := if sp = 9 ∧ 0x7FFFFFFFC ≤ q ∧ q < 0x800000000 then some (q, 6) else none
  globals := []
  inUse _ := true
  content _ _ := 0
  frames := []
  cr3 := 5

theorem foreignSpace_mapped : MappedBetween foreignSpace 9 0x7FFFFFFFC000 0x800000000000 := by
  intro q hq
  have hpage : 9 = 9 ∧ 0x7FFFFFFFC ≤ q ∧ q < 0x800000000 := by
    unfold Within stkPagesize at hq
    omega
  show Option.isSome (if 9 = 9 ∧ 0x7FFFFFFFC ≤ q ∧ q < 0x800000000 then some (q, 6) else none) = true
  rw [if_pos hpage]
  rfl

end Tachyon.Stka
