import Tachyon.Intr.Gates

/-!
# What a dispatch calls and reports (`intr_dispatch`)

`Tachyon.Intr.Gates` asks which handlers a dispatch may call at all.  Here the handlers are followed
one call after the other, each with what it returns, up to the report at the end.

* `walk`, `dispatch`: the source, with every call and the way the function ends;
* `intrDispatch_eq`: what the plain `intrDispatch` keeps of it;
* `Holds t g hs`: the gate holds the handlers `hs`, in the variant its mode says;
* `Correct`: the calls and the report as they are meant;
* `dispatch_correct_iff`: a gate that notifies all its handlers reports an interrupt as unhandled
  that one of them has handled; every other dispatch is correct.
-/

namespace Tachyon.Intr

open Prog

/-- A call of a handler, and what it returned. -/
structure Call where
  handler : ℕ
  result : Bool
  deriving DecidableEq, Repr

/-- The end of `intr_dispatch`: a return from among the handlers, or a report. -/
inductive Ending
  | returned
  | error (text : String)
  | fatal (text : String)
  deriving DecidableEq, Repr

/-- The walk over the handlers; `answer i h` is what the handler `h` at place `i` returns if it is
called.  The second component tells whether the function returns from the walk. -/
def walk (answer : ℕ → ℕ → Bool) (notifyAll : Bool) : ℕ → List ℕ → List Call × Bool
  | _, [] => ([], false)
  | i, h :: hs =>
    if h ≠ 0 then
      if answer i h && !notifyAll then ([⟨h, answer i h⟩], true)
      else
        let rest := walk answer notifyAll (i + 1) hs
        (⟨h, answer i h⟩ :: rest.1, rest.2)
    else walk answer notifyAll (i + 1) hs

/-- What stands behind the walk. -/
def ending (num : ℕ) (done : Bool) : Ending :=
  if done then .returned
  else if num = syscInterrupt then .error "unhandled system call %d\n"
  else .fatal "unhandled interrupt %d (0x%x) @ %p\n"

def Gate.NotifyAll (g : Gate) : Prop := g.mode &&& gateModeNotifyAll ≠ 0

instance (g : Gate) : Decidable g.NotifyAll := inferInstanceAs (Decidable (_ ≠ _))

/-- The calls of `intr_dispatch`, and whether it returns from the walk. -/
def dispatchWalk (num : ℕ) (answer : ℕ → ℕ → Bool) : Prog Table (List Call × Bool) :=
  withGate num fun g =>
    if g.Multi then
      useList g.h >>= fun list =>
      match list with
      | none => pure ([], false)
      | some l => get >>= fun t => pure (walk answer (decide g.NotifyAll) 0 (t.handlers l))
    else useHandler g.h >>= fun h => pure (walk answer false 0 [h])

/-- `intr_dispatch`, with its calls and its end. -/
def dispatch (num : ℕ) (answer : ℕ → ℕ → Bool) : Prog Table (List Call × Ending) :=
  dispatchWalk num answer >>= fun r => pure (r.1, ending num r.2)

variable {c : Config} {t : Table} {g : Gate} {num : ℕ} {hs : List ℕ} {rs : List Call}

/-! ### The plain dispatch -/

theorem callHandlers_eq_walk (answer : ℕ → Bool) (notifyAll : Bool) (i : ℕ) (hs : List ℕ) :
    callHandlers answer notifyAll hs =
      ((walk (fun _ => answer) notifyAll i hs).1.map Call.handler,
        (walk (fun _ => answer) notifyAll i hs).2) := by
  induction hs generalizing i with
  | nil => rfl
  | cons h hs ih =>
    unfold callHandlers walk
    split_ifs
    · rfl
    · rw [ih (i + 1)]
      rfl
    · exact ih (i + 1)

theorem dispatchCalls_eq (num : ℕ) (answer : ℕ → Bool) :
    dispatchCalls num answer =
      dispatchWalk num (fun _ => answer) >>= fun r => pure (r.1.map Call.handler, r.2) := by
  funext t
  refine Eq.trans ?_ (run_bind _ _ _).symm
  unfold dispatchCalls dispatchWalk withGate
  by_cases hnum : maxIntr ≤ num
  · simp only [if_pos hnum]
  simp only [if_neg hnum, callHandlers_eq_walk answer _ 0]
  by_cases hmulti : (t.gate num).Multi
  · simp only [if_pos hmulti]
    cases hslot : (t.gate num).h with
    | null => rfl
    | handler x => rfl
    | list l =>
      by_cases hl : (t.lists l).isSome
      · have huse : useList (.list l) t = .ok (some l, t) := if_pos hl
        rw [run_ok huse, run_ok huse]
        rfl
      · have huse : useList (.list l) t = .error .undefined := if_neg hl
        rw [run_error huse, run_error huse]
  · simp only [if_neg hmulti]
    cases hslot : (t.gate num).h <;> rfl

/-- The dispatch of `Tachyon.Intr.Gates` stops where this one ends with a fatal report. -/
theorem intrDispatch_eq (num : ℕ) (answer : ℕ → Bool) :
    intrDispatch num answer = dispatch num (fun _ => answer) >>= fun r =>
      match r.2 with
      | .fatal text => halt (.fatal text)
      | _ => pure () := by
  funext t
  unfold intrDispatch dispatch
  rw [dispatchCalls_eq]
  cases hwalk : dispatchWalk num (fun _ => answer) t with
  | error e =>
    rw [run_error (run_error hwalk), run_error (run_error hwalk)]
  | ok r =>
    obtain ⟨⟨calls, done⟩, t'⟩ := r
    refine (run_ok (run_ok hwalk)).trans (Eq.trans ?_ (run_ok (run_ok hwalk)).symm)
    dsimp only [ending]
    by_cases hdone : done = true
    · simp [hdone]
    · by_cases hnum : num = syscInterrupt
      · simp [hdone, hnum]
      · simp [hdone, hnum]

/-! ### The purpose -/

/-- The gate holds these handlers, in the variant its mode says. -/
def Holds (t : Table) (g : Gate) (hs : List ℕ) : Prop :=
  (g.h = .null ∧ hs = []) ∨ (¬ g.Multi ∧ ∃ x, g.h = .handler x ∧ hs = [x]) ∨
    (g.Multi ∧ ∃ l, g.h = .list l ∧ t.lists l = some hs)

/-- Along the runs of `Tachyon.Intr.Gates` every gate holds some list of handlers. -/
theorem Inv.holds (h : Inv c) (num : ℕ) : ∃ hs, Holds c.table (c.table.gate num) hs := by
  rcases h.ok num with hnull | ⟨hsingle, x, hx, -⟩ | ⟨hmulti, l, hs, hl, hhs, -⟩
  · exact ⟨[], .inl ⟨hnull, rfl⟩⟩
  · exact ⟨[x], .inr (.inl ⟨hsingle, x, hx, rfl⟩)⟩
  · exact ⟨hs, .inr (.inr ⟨hmulti, l, hl, hhs⟩)⟩

/-- The handlers that are there, in the order of their registration, each with its result. -/
def results (answer : ℕ → ℕ → Bool) : ℕ → List ℕ → List Call
  | _, [] => []
  | i, h :: hs =>
    if h ≠ 0 then ⟨h, answer i h⟩ :: results answer (i + 1) hs else results answer (i + 1) hs

/-- The calls up to the first one that returns `true`. -/
def upToFirst : List Call → List Call
  | [] => []
  | r :: rs => if r.result then [r] else r :: upToFirst rs

/-- All handlers are called if the gate asks for it, and else those up to the first that handles the
interrupt; a report says that none of them did. -/
structure Correct (g : Gate) (rs calls : List Call) (e : Ending) : Prop where
  called : calls = if g.NotifyAll then rs else upToFirst rs
  reports : e ≠ .returned ↔ ∀ r ∈ calls, r.result = false

/-! ### The walk -/

theorem walk_all (answer : ℕ → ℕ → Bool) (i : ℕ) (hs : List ℕ) :
    walk answer true i hs = (results answer i hs, false) := by
  induction hs generalizing i with
  | nil => rfl
  | cons h hs ih =>
    unfold walk results
    split_ifs with hzero hanswer
    · simp at hanswer
    · rw [ih]
    · exact ih (i + 1)

theorem walk_first (answer : ℕ → ℕ → Bool) (i : ℕ) (hs : List ℕ) :
    walk answer false i hs = (upToFirst (results answer i hs),
      decide (∃ r ∈ upToFirst (results answer i hs), r.result = true)) := by
  induction hs generalizing i with
  | nil => simp [walk, results, upToFirst]
  | cons h hs ih =>
    by_cases hzero : h ≠ 0
    · cases hanswer : answer i h with
      | true => simp [walk, results, upToFirst, hzero, hanswer]
      | false => simp [walk, results, upToFirst, hzero, hanswer, ih]
    · simp [walk, results, hzero, ih]

theorem upToFirst_of_length (h : rs.length ≤ 1) : upToFirst rs = rs := by
  rcases rs with _ | ⟨r, _ | ⟨r', rs⟩⟩
  · rfl
  · simp [upToFirst]
  · simp at h

theorem length_results_le (answer : ℕ → ℕ → Bool) (i : ℕ) (hs : List ℕ) :
    (results answer i hs).length ≤ hs.length := by
  induction hs generalizing i with
  | nil => simp [results]
  | cons h hs ih =>
    have := ih (i + 1)
    unfold results
    split_ifs <;> simp only [List.length_cons] <;> omega

theorem ending_eq_returned (num : ℕ) (done : Bool) : ending num done = .returned ↔ done = true := by
  unfold ending
  split_ifs with hdone hnum <;> simp [hdone]

/-! ### The dispatch -/

/-- One walk stands for all three forms of the union. -/
theorem dispatchWalk_of_holds (hnum : num < maxIntr) (h : Holds t (t.gate num) hs)
    (answer : ℕ → ℕ → Bool) :
    dispatchWalk num answer t =
      .ok (walk answer (decide ((t.gate num).Multi ∧ (t.gate num).NotifyAll)) 0 hs, t) := by
  unfold dispatchWalk withGate
  rw [if_neg (Nat.not_le.2 hnum)]
  dsimp only
  rcases h with ⟨hnull, rfl⟩ | ⟨hsingle, x, hx, rfl⟩ | ⟨hmulti, l, hl, hhs⟩
  · split_ifs with hmulti
    · rw [hnull]
      rfl
    · rw [hnull]
      rfl
  · rw [if_neg hsingle, hx, decide_eq_false (fun h => hsingle h.1)]
    rfl
  · have huse : useList (.list l) t = .ok (some l, t) := by simp [useList, hhs]
    rw [if_pos hmulti, hl, run_ok huse]
    simp only [hmulti, true_and]
    refine (run_ok rfl).trans ?_
    simp only [Table.handlers, hhs, Option.getD_some]
    rfl

theorem length_le_of_holds (h : Holds t g hs) (hsingle : ¬ g.Multi) : hs.length ≤ 1 := by
  rcases h with ⟨-, rfl⟩ | ⟨-, x, -, rfl⟩ | ⟨hmulti, -⟩
  · simp
  · simp
  · exact absurd hmulti hsingle

/-- A gate that stops at the first handler that handles the interrupt. -/
theorem correct_of_first (hcalls : g.NotifyAll → rs.length ≤ 1) :
    Correct g rs (upToFirst rs) (ending num (decide (∃ r ∈ upToFirst rs, r.result = true))) := by
  constructor
  · split_ifs with hall
    · exact upToFirst_of_length (hcalls hall)
    · rfl
  · rw [Ne, ending_eq_returned, decide_eq_true_eq]
    simp

/-- A gate that calls all handlers always reports. -/
theorem correct_of_all (hall : g.NotifyAll) :
    Correct g rs rs (ending num false) ↔ ¬ ∃ r ∈ rs, r.result = true := by
  have hreport : ending num false ≠ .returned := by
    rw [Ne, ending_eq_returned]
    simp
  constructor
  · rintro ⟨-, hreports⟩ ⟨r, hr, htrue⟩
    rw [hreports.1 hreport r hr] at htrue
    cases htrue
  · intro hnone
    refine ⟨by rw [if_pos hall], fun _ r hr => ?_, fun _ => hreport⟩
    by_contra htrue
    exact hnone ⟨r, hr, by simpa using htrue⟩

/-- **A dispatch calls the handlers it should, and reports exactly the interrupts that none of them
handled**, unless a gate with a list of handlers notifies all of them and one of them returns
`true`: then the report says that the interrupt was not handled. -/
theorem dispatch_correct_iff (hnum : num < maxIntr) (h : Holds t (t.gate num) hs)
    (answer : ℕ → ℕ → Bool) :
    ∃ calls e, dispatch num answer t = .ok ((calls, e), t) ∧
      (Correct (t.gate num) (results answer 0 hs) calls e ↔
        ¬ ((t.gate num).Multi ∧ (t.gate num).NotifyAll ∧
          ∃ r ∈ results answer 0 hs, r.result = true)) := by
  refine ⟨_, _, run_ok (dispatchWalk_of_holds hnum h answer), ?_⟩
  by_cases hall : (t.gate num).Multi ∧ (t.gate num).NotifyAll
  · rw [decide_eq_true hall, walk_all, correct_of_all hall.2]
    simp [hall.1, hall.2]
  · rw [decide_eq_false hall, walk_first]
    refine iff_of_true (correct_of_first fun hnotify => ?_) fun hbad => hall ⟨hbad.1, hbad.2.1⟩
    have hsingle : ¬ (t.gate num).Multi := fun hmulti => hall ⟨hmulti, hnotify⟩
    exact (length_results_le answer 0 hs).trans (length_le_of_holds h hsingle)

/-- Gate `36` has the handlers `0x1000` and `0x2000` in a list and the given mode. -/
def twoHandlers (mode : ℕ) : Table :=
  ⟨fun i => if i = 36 then ⟨mode, .list 7⟩ else ⟨0, .null⟩,
    fun l => if l = 7 then some [0x1000, 0x2000] else none⟩

theorem dispatch_correct_iff_first : Holds (twoHandlers 2) ((twoHandlers 2).gate 36)
    [0x1000, 0x2000] ∧ ∃ calls e,
      dispatch 36 (fun _ h => h == 0x2000) (twoHandlers 2) = .ok ((calls, e), twoHandlers 2) ∧
      (Correct ((twoHandlers 2).gate 36) (results (fun _ h => h == 0x2000) 0 [0x1000, 0x2000])
          calls e ↔
        ¬ (((twoHandlers 2).gate 36).Multi ∧ ((twoHandlers 2).gate 36).NotifyAll ∧
          ∃ r ∈ results (fun _ h => h == 0x2000) 0 [0x1000, 0x2000], r.result = true)) :=
  have h : Holds (twoHandlers 2) ((twoHandlers 2).gate 36) [0x1000, 0x2000] :=
    .inr (.inr ⟨by decide, 7, rfl, rfl⟩)
  ⟨h, dispatch_correct_iff (by decide) h _⟩

/-- With `GateModeMultiHandler | GateModeNotifyAll` the second handler handles the interrupt, and
the report says that nobody did. -/
theorem dispatch_reports_handled : ∃ calls e,
    dispatch 36 (fun _ h => h == 0x2000) (twoHandlers 6) = .ok ((calls, e), twoHandlers 6) ∧
      e = .fatal "unhandled interrupt %d (0x%x) @ %p\n" ∧ ⟨0x2000, true⟩ ∈ calls ∧
      ¬ Correct ((twoHandlers 6).gate 36) (results (fun _ h => h == 0x2000) 0 [0x1000, 0x2000])
        calls e := by
  refine ⟨[⟨0x1000, false⟩, ⟨0x2000, true⟩], _, rfl, rfl, by decide, fun hcorrect => ?_⟩
  have := hcorrect.reports.1 (by decide) ⟨0x2000, true⟩ (by decide)
  cases this

end Tachyon.Intr
