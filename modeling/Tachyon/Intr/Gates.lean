import Tachyon.Lib.Machine
import Tachyon.Lib.Prog

/-!
# Interrupt gates (`intr.c`)

A gate holds one handler or a list of handlers in a union, and its mode says which.  A use of the
union in another variant than it was written in is `undefined`.

* `intrAdd`, `intrRemove`, `intrSetMode`, `intrDispatch`: the source;
* `Event`, `Config.next`: sequences of calls, with the handlers that were registered since the mode
  of their gate last changed;
* `Typed`: a change of the mode finds no single handler in the union;
* `Inv`: the union is as the mode says, and holds only handlers registered since;
* `gate_variant_run`: what follows for runs.
-/

namespace Tachyon.Intr

open Prog Machine List Function Option

/-- `MAX_INTR`. -/
def maxIntr : ℕ := 60

/-- `SYSC_INTERRUPT`. -/
def syscInterrupt : ℕ := 50

/-- `gatemode_t`; a mode is a union of flags, and `GateModeSingleHandler` (1) is asked for nowhere. -/
def gateModeMultiHandler : ℕ := 2
def gateModeNotifyAll : ℕ := 4

/-- The union `h`, with the variant it was last written in. -/
inductive Slot
  | null
  | handler (h : ℕ)
  | list (l : ℕ)
  deriving DecidableEq, Repr

/-- `intr_gate_desc_t`. -/
structure Gate where
  mode : ℕ
  h : Slot
  deriving DecidableEq, Repr

/-- `intr_gate_table`, and the lists of handlers that exist. -/
structure Table where
  gate : ℕ → Gate
  lists : ℕ → Option (List ℕ)

/-- A handler written to the union. -/
def Slot.ofHandler (h : ℕ) : Slot := if h = 0 then .null else .handler h

/-- The gate calls a list of handlers. -/
def Gate.Multi (g : Gate) : Prop := g.mode &&& gateModeMultiHandler ≠ 0

instance (g : Gate) : Decidable g.Multi := inferInstanceAs (Decidable (_ ≠ _))

/-! ### Access -/

/-- The union as a `list_t*`: `NULL`, or a list that exists. -/
def useList (h : Slot) : Prog Table (Option ℕ) := fun t =>
  match h with
  | .null => .ok (none, t)
  | .handler _ => .error .undefined
  | .list l => if (t.lists l).isSome then .ok (some l, t) else .error .undefined

/-- The union as a handler. -/
def useHandler (h : Slot) : Prog Table ℕ := fun t =>
  match h with
  | .null => .ok (0, t)
  | .handler x => .ok (x, t)
  | .list _ => .error .undefined

def setGate (num : ℕ) (g : Gate) : Prog Table Unit :=
  modify fun t => { t with gate := Function.update t.gate num g }

def setList (l : ℕ) (hs : Option (List ℕ)) : Prog Table Unit :=
  modify fun t => { t with lists := Function.update t.lists l hs }

/-- The handlers in a list. -/
def Table.handlers (t : Table) (l : ℕ) : List ℕ := (t.lists l).getD []

/-- The gate with a number. -/
def withGate {α : Type} (num : ℕ) (f : Gate → Prog Table α) : Prog Table α := fun t =>
  if maxIntr ≤ num then .error (.fatal "gate %d not available\n") else f (t.gate num) t

/-! ### The functions -/

/-- `intr_init`. -/
def intrInit : Table := ⟨fun _ => ⟨0, .null⟩, fun _ => none⟩

/-- `intr_add`; `new` is the address of a new list. -/
def intrAdd (num handler new : ℕ) : Prog Table Unit :=
  withGate num fun g =>
    if g.Multi then
      useList g.h >>= fun list =>
      match list with
      | none => setGate num { g with h := .list new } >>= fun _ => setList new (some [handler])
      | some l => get >>= fun t => setList l (some (t.handlers l ++ [handler]))
    else
      -- the old handler goes into the log
      useHandler g.h >>= fun _ => setGate num { g with h := .ofHandler handler }

/-- `intr_remove`. -/
def intrRemove (num handler : ℕ) : Prog Table Unit :=
  withGate num fun g =>
    if g.Multi then
      useList g.h >>= fun list =>
      match list with
      | none => pure ()
      | some l => get >>= fun t => setList l (some ((t.handlers l).erase handler))
    else
      useHandler g.h >>= fun h =>
        if h ≠ handler then
          halt (.fatal "trying to remove foreign handler for %d: %p != %p\n")
        else setGate num { g with h := .null }

/-- `intr_set_mode`; the list is deleted unless the mode is exactly `GateModeMultiHandler`. -/
def intrSetMode (num mode : ℕ) : Prog Table Unit :=
  withGate num fun g =>
    if g.mode &&& mode ≠ 0 then pure ()
    else
      useList g.h >>= fun list =>
      (match list with
      | none => pure ()
      | some l => setList l (if mode ≠ gateModeMultiHandler then none else some [])) >>= fun _ =>
      setGate num ⟨mode, .null⟩

/-- The loop of `intr_dispatch` over a list: the handlers that are called, and whether one of them
ends the loop. -/
def callHandlers (answer : ℕ → Bool) (notifyAll : Bool) : List ℕ → List ℕ × Bool
  | [] => ([], false)
  | h :: hs =>
    if h ≠ 0 then
      if answer h && !notifyAll then ([h], true)
      else (h :: (callHandlers answer notifyAll hs).1, (callHandlers answer notifyAll hs).2)
    else callHandlers answer notifyAll hs

/-- The handlers that `intr_dispatch` calls; `answer` is what they return. -/
def dispatchCalls (num : ℕ) (answer : ℕ → Bool) : Prog Table (List ℕ × Bool) :=
  withGate num fun g =>
    if g.Multi then
      useList g.h >>= fun list =>
      match list with
      | none => pure ([], false)
      | some l => get >>= fun t =>
        pure (callHandlers answer (decide (g.mode &&& gateModeNotifyAll ≠ 0)) (t.handlers l))
    else useHandler g.h >>= fun h => pure (callHandlers answer false [h])

/-- `intr_dispatch`. -/
def intrDispatch (num : ℕ) (answer : ℕ → Bool) : Prog Table Unit :=
  dispatchCalls num answer >>= fun r =>
    if r.2 ∨ num = syscInterrupt then pure ()
    else halt (.fatal "unhandled interrupt %d (0x%x) @ %p\n")

/-! ### Sequences of calls -/

inductive Event
  | setMode (num mode : ℕ)
  | add (num handler new : ℕ)
  | remove (num handler : ℕ)
  | dispatch (num : ℕ) (answer : ℕ → Bool)

def Event.run : Event → Prog Table Unit
  | .setMode num mode => intrSetMode num mode
  | .add num handler new => intrAdd num handler new
  | .remove num handler => intrRemove num handler
  | .dispatch num answer => intrDispatch num answer

/-- The table, and for each gate the handlers registered since its mode last changed. -/
structure Config where
  table : Table
  since : ℕ → List ℕ

/-- The handlers registered since, behind a call. -/
def Event.since (c : Config) : Event → ℕ → List ℕ
  | .setMode num mode =>
    if (c.table.gate num).mode &&& mode ≠ 0 then c.since else Function.update c.since num []
  | .add num handler _ => Function.update c.since num (handler :: c.since num)
  | .remove _ _ => c.since
  | .dispatch _ _ => c.since

/-- The state behind a call; a call that does not return ends the run. -/
def Config.next (e : Event) (c : Config) : Option Config :=
  match e.run c.table with
  | .ok (_, t) => some ⟨t, e.since c⟩
  | .error _ => none

/-- A new list is none that exists already. -/
def Fresh : Event → Config → Prop
  | .add _ _ new, c => c.table.lists new = none
  | _, _ => True

/-- A change of the mode finds no single handler in the union. -/
def Typed : Event → Config → Prop
  | .setMode num mode, c => maxIntr ≤ num ∨ (c.table.gate num).mode &&& mode ≠ 0 ∨
      (c.table.gate num).Multi ∨ (c.table.gate num).h = .null
  | _, _ => True

/-! ### The invariant -/

variable {c c' : Config} {t : Table} {g : Gate} {num handler : ℕ}

/-- The union is as the mode says, and holds only handlers registered since. -/
def GateOk (t : Table) (since : List ℕ) (g : Gate) : Prop :=
  g.h = .null ∨ (¬ g.Multi ∧ ∃ x, g.h = .handler x ∧ x ∈ since) ∨
    (g.Multi ∧ ∃ l hs, g.h = .list l ∧ t.lists l = some hs ∧ ∀ x ∈ hs, x ∈ since)

structure Inv (c : Config) : Prop where
  ok : ∀ i, GateOk c.table (c.since i) (c.table.gate i)
  own : ∀ {i j l}, (c.table.gate i).h = .list l → (c.table.gate j).h = .list l → i = j

theorem inv_intrInit : Inv ⟨intrInit, fun _ => []⟩ :=
  ⟨fun _ => .inl rfl, fun h => by cases h⟩

variable {rs : List ℕ} {l : ℕ} {e : Event}

/-- A change of one gate, of its list, and of what was registered with it. -/
theorem Inv.change (h : Inv c) (hgate : t.gate = update c.table.gate num g)
    (hlists : ∀ {j l}, j ≠ num → (c.table.gate j).h = .list l → t.lists l = c.table.lists l)
    (hown : ∀ {j l}, j ≠ num → g.h = .list l → (c.table.gate j).h ≠ .list l)
    (hok : GateOk t rs g) : Inv ⟨t, update c.since num rs⟩ := by
  have hself : t.gate num = g := by rw [hgate, update_self]
  have hother : ∀ {j}, j ≠ num → t.gate j = c.table.gate j := fun hj => by
    rw [hgate, update_of_ne hj]
  constructor
  · intro i
    dsimp only
    by_cases hi : i = num
    · subst hi
      rw [hself, update_self]
      exact hok
    · rw [hother hi, update_of_ne hi]
      rcases h.ok i with hnull | hsingle | ⟨hmulti, l, hs, hl, hhs, hmem⟩
      · exact .inl hnull
      · exact .inr (.inl hsingle)
      · exact .inr (.inr ⟨hmulti, l, hs, hl, (hlists hi hl).trans hhs, hmem⟩)
  · intro i j l hi hj
    by_contra hij
    by_cases hin : i = num
    · subst hin
      rw [hself] at hi
      rw [hother (Ne.symm hij)] at hj
      exact hown (Ne.symm hij) hi hj
    · rw [hother hin] at hi
      by_cases hjn : j = num
      · subst hjn
        rw [hself] at hj
        exact hown hin hj hi
      · rw [hother hjn] at hj
        exact hij (h.own hi hj)

/-- Only the list of one gate changes. -/
theorem Inv.change_list {hs : List ℕ} (h : Inv c)
    (hmulti : (c.table.gate num).Multi) (hl : (c.table.gate num).h = .list l)
    (hmem : ∀ x ∈ hs, x ∈ rs) :
    Inv ⟨{ c.table with lists := update c.table.lists l (some hs) },
      update c.since num rs⟩ := by
  refine h.change (update_eq_self _ _).symm (fun {j l'} hj hl' => ?_)
    (fun {j l'} hj hl' hc => hj (h.own hc hl')) ?_
  · refine update_of_ne ?_ _ _
    rintro rfl
    exact hj (h.own hl' hl)
  · exact .inr (.inr ⟨hmulti, l, hs, hl, update_self _ _ _, hmem⟩)

/-- The union of a gate with a list is a list that exists. -/
theorem GateOk.useList (h : GateOk t rs g) (hmulti : g.Multi) :
    (g.h = .null ∧ Intr.useList g.h t = .ok (none, t)) ∨
      ∃ l hs, g.h = .list l ∧ t.lists l = some hs ∧ (∀ x ∈ hs, x ∈ rs) ∧
        Intr.useList g.h t = .ok (some l, t) := by
  rcases h with hnull | ⟨hsingle, -⟩ | ⟨-, l, hs, hl, hhs, hmem⟩
  · exact .inl ⟨hnull, by rw [hnull]; rfl⟩
  · exact absurd hmulti hsingle
  · refine .inr ⟨l, hs, hl, hhs, hmem, ?_⟩
    rw [hl]
    simp [Intr.useList, hhs]

/-- The union of a gate without a list is a handler. -/
theorem GateOk.useHandler (h : GateOk t rs g) (hsingle : ¬ g.Multi) :
    ∃ x, (x = 0 ∨ x ∈ rs) ∧ Intr.useHandler g.h t = .ok (x, t) := by
  rcases h with hnull | ⟨-, x, hx, hmem⟩ | ⟨hmulti, -⟩
  · exact ⟨0, .inl rfl, by rw [hnull]; rfl⟩
  · exact ⟨x, .inr hmem, by rw [hx]; rfl⟩
  · exact absurd hmulti hsingle

theorem gateOk_null (hg : g.h = .null) : GateOk t rs g := .inl hg

/-- Errors that are no use of the wrong variant. -/
def Clean (e : Halt) : Prop := e ≠ .undefined

theorem ends_withGate {α : Type} {f : Gate → Prog Table α} {Q : α → Table → Prop}
    (h : num < maxIntr → ends (f (t.gate num)) Q Clean t) : ends (withGate num f) Q Clean t := by
  unfold ends withGate at *
  split_ifs with hnum
  · refine ⟨fun a t' ha => (by cases ha), fun e he => ?_⟩
    cases he
    unfold Clean
    decide
  · exact h (Nat.lt_of_not_le hnum)

/-- The list of a gate exists. -/
theorem Inv.list_exists {j : ℕ} (h : Inv c) (hl : (c.table.gate j).h = .list l) :
    c.table.lists l ≠ none := by
  rcases h.ok j with hn | ⟨-, x, hx, -⟩ | ⟨-, l', hs, hl', hhs, -⟩
  · cases hn.symm.trans hl
  · cases hx.symm.trans hl
  · rw [hl] at hl'
    cases hl'
    rw [hhs]
    exact some_ne_none hs

theorem Inv.add {new : ℕ} (h : Inv c) (hfresh : c.table.lists new = none) :
    ends (intrAdd num handler new)
      (fun _ t => Inv ⟨t, update c.since num (handler :: c.since num)⟩) Clean c.table := by
  refine ends_withGate fun _ => ends_ite (fun hmulti => ?_) fun hsingle => ?_
  · rcases (h.ok num).useList hmulti with ⟨hnull, huse⟩ | ⟨l, hs, hl, hhs, hmem, huse⟩
    · refine ends_step huse (ends_ok rfl ?_)
      refine h.change rfl (fun {j l} hj hl => ?_) (fun {j l} hj hl hc => ?_) ?_
      · refine update_of_ne ?_ _ _
        rintro rfl
        exact h.list_exists hl hfresh
      · cases hl
        exact h.list_exists hc hfresh
      · exact .inr (.inr ⟨hmulti, new, [handler], rfl, update_self _ _ _, by simp⟩)
    · refine ends_step huse (ends_ok rfl ?_)
      refine h.change_list hmulti hl fun x hx => ?_
      simp only [Table.handlers, hhs, getD_some, mem_append, mem_singleton] at hx
      rcases hx with hx | rfl
      · exact mem_cons_of_mem _ (hmem x hx)
      · exact mem_cons_self
  · obtain ⟨x, -, huse⟩ := (h.ok num).useHandler hsingle
    refine ends_step huse (ends_ok rfl ?_)
    refine h.change rfl (fun _ _ => rfl) (fun {j l} hj hl => ?_) ?_
    · unfold Slot.ofHandler at hl
      split_ifs at hl
    · by_cases hzero : handler = 0
      · exact gateOk_null (if_pos hzero)
      · exact .inr (.inl ⟨hsingle, handler, if_neg hzero, mem_cons_self⟩)

theorem Inv.remove (h : Inv c) :
    ends (intrRemove num handler) (fun _ t => Inv ⟨t, c.since⟩) Clean c.table := by
  have hsince : update c.since num (c.since num) = c.since := update_eq_self _ _
  refine ends_withGate fun _ => ends_ite (fun hmulti => ?_) fun hsingle => ?_
  · rcases (h.ok num).useList hmulti with ⟨hnull, huse⟩ | ⟨l, hs, hl, hhs, hmem, huse⟩
    · exact ends_step huse (ends_pure h)
    · refine ends_step huse (ends_ok rfl ?_)
      rw [← hsince]
      refine h.change_list hmulti hl fun x hx => hmem x ?_
      simp only [Table.handlers, hhs, getD_some] at hx
      exact mem_of_mem_erase hx
  · obtain ⟨x, -, huse⟩ := (h.ok num).useHandler hsingle
    refine ends_step huse (ends_ite (fun _ => ends_halt (by unfold Clean; decide))
      fun _ => ends_ok rfl ?_)
    rw [← hsince]
    exact h.change rfl (fun _ _ => rfl) (fun _ hl => by cases hl) (gateOk_null rfl)

/-- A change of the mode that finds a list or nothing; afterwards no handler is registered. -/
theorem Inv.setMode {mode : ℕ} (h : Inv c) (htyped : Typed (.setMode num mode) c) :
    ends (intrSetMode num mode) (fun _ t => Inv ⟨t, (Event.setMode num mode).since c⟩) Clean
      c.table := by
  refine ends_withGate fun hnum => ends_ite (fun hsame => ends_pure ?_) fun hchange => ?_
  · simp only [Event.since, if_pos hsame]
    exact h
  simp only [Event.since, if_neg hchange]
  have hcase : ((c.table.gate num).h = .null ∧
      Intr.useList (c.table.gate num).h c.table = .ok (none, c.table)) ∨
      ∃ l hs, (c.table.gate num).h = .list l ∧ c.table.lists l = some hs ∧
        (∀ x ∈ hs, x ∈ c.since num) ∧
        Intr.useList (c.table.gate num).h c.table = .ok (some l, c.table) := by
    rcases htyped with hbig | hsame | hmulti | hnull
    · exact absurd hnum (Nat.not_lt.2 hbig)
    · exact absurd hsame hchange
    · exact (h.ok num).useList hmulti
    · exact .inl ⟨hnull, by rw [hnull]; rfl⟩
  rcases hcase with ⟨-, huse⟩ | ⟨l, hs, hl, -, -, huse⟩
  · refine ends_step huse (ends_bind (ends_pure (ends_ok rfl ?_)))
    exact h.change rfl (fun _ _ => rfl) (fun _ hl => by cases hl) (gateOk_null rfl)
  · refine ends_step huse (ends_step rfl (ends_ok rfl ?_))
    refine h.change rfl (fun {j l'} hj hl' => ?_) (fun _ hl => by cases hl) (gateOk_null rfl)
    refine update_of_ne ?_ _ _
    rintro rfl
    exact hj (h.own hl' hl)

/-! ### What is called -/

theorem callHandlers_subset (answer : ℕ → Bool) (notifyAll : Bool) (hs : List ℕ) :
    ∀ x ∈ (callHandlers answer notifyAll hs).1, x ∈ hs ∧ x ≠ 0 := by
  induction hs with
  | nil => simp [callHandlers]
  | cons h hs ih =>
    intro x hx
    unfold callHandlers at hx
    split_ifs at hx with hzero hanswer
    · rw [mem_singleton] at hx
      subst hx
      exact ⟨mem_cons_self, hzero⟩
    · rcases mem_cons.1 hx with rfl | hrest
      · exact ⟨mem_cons_self, hzero⟩
      · exact ⟨mem_cons_of_mem _ (ih x hrest).1, (ih x hrest).2⟩
    · exact ⟨mem_cons_of_mem _ (ih x hx).1, (ih x hx).2⟩

/-- Only handlers registered since the last change of the mode are called. -/
theorem Inv.dispatchCalls (h : Inv c) (answer : ℕ → Bool) :
    ends (dispatchCalls num answer) (fun r t => t = c.table ∧ ∀ x ∈ r.1, x ∈ c.since num) Clean
      c.table := by
  refine ends_withGate fun _ => ends_ite (fun hmulti => ?_) fun hsingle => ?_
  · rcases (h.ok num).useList hmulti with ⟨-, huse⟩ | ⟨l, hs, hl, hhs, hmem, huse⟩
    · exact ends_step huse (ends_pure ⟨rfl, by simp⟩)
    · refine ends_step huse (ends_step rfl (ends_pure ⟨rfl, fun x hx => ?_⟩))
      have hin := (callHandlers_subset _ _ _ x hx).1
      simp only [Table.handlers, hhs, getD_some] at hin
      exact hmem x hin
  · obtain ⟨y, hy, huse⟩ := (h.ok num).useHandler hsingle
    refine ends_step huse (ends_pure ⟨rfl, fun x hx => ?_⟩)
    obtain ⟨hin, hne⟩ := callHandlers_subset _ _ _ x hx
    rw [mem_singleton] at hin
    subst hin
    exact hy.resolve_left hne

/-! ### Runs -/

theorem Inv.event (h : Inv c) (hfresh : Fresh e c) (htyped : Typed e c) :
    ends e.run (fun _ t => Inv ⟨t, e.since c⟩) Clean c.table := by
  cases e with
  | setMode num mode => exact h.setMode htyped
  | add num handler new => exact h.add hfresh
  | remove num handler => exact h.remove
  | dispatch num answer =>
    refine ends_seq (h.dispatchCalls answer) ?_
    rintro r _ ⟨rfl, -⟩
    exact ends_ite (fun _ => ends_pure h) fun _ => ends_halt (by unfold Clean; decide)

/-- A change of the mode that finds a single handler uses it as a list. -/
theorem Inv.untyped (h : Inv c) (htyped : ¬ Typed e c) :
    e.run c.table = .error .undefined := by
  cases e with
  | setMode num mode =>
    simp only [Typed, not_or] at htyped
    obtain ⟨hnum, hchange, hsingle, hnull⟩ := htyped
    obtain ⟨x, hx⟩ : ∃ x, (c.table.gate num).h = .handler x := by
      rcases h.ok num with hn | ⟨-, x, hx, -⟩ | ⟨hmulti, -⟩
      · exact absurd hn hnull
      · exact ⟨x, hx⟩
      · exact absurd hmulti hsingle
    unfold Event.run intrSetMode withGate
    dsimp only
    rw [if_neg hnum]
    refine (congrFun (if_neg hchange) c.table).trans (run_error ?_)
    rw [hx]
    rfl
  | add num handler new => exact absurd trivial htyped
  | remove num handler => exact absurd trivial htyped
  | dispatch num answer => exact absurd trivial htyped

/-- A run of calls from `intr_init` on that change the mode only of gates without a single
handler. -/
def TypedRun (c : Config) : Prop :=
  Runs Config.next (fun e c => Fresh e c ∧ Typed e c) ⟨intrInit, fun _ => []⟩ c

theorem TypedRun.inv (hrun : TypedRun c) : Inv c := by
  refine Runs.inv inv_intrInit (fun {e c c'} h hmet hnext => ?_) hrun
  unfold Config.next at hnext
  cases hcall : e.run c.table with
  | error err =>
    rw [hcall] at hnext
    cases hnext
  | ok r =>
    rw [hcall] at hnext
    cases hnext
    exact (h.event hmet.1 hmet.2).1 _ _ hcall

/-- **The union of a gate is used only in the variant it was written in**, and only handlers
registered since the last change of the mode are called: along every run whose changes of modes find
no single handler.  The first one that does goes wrong. -/
theorem gate_variant_run (hrun : TypedRun c) {e : Event} (hfresh : Fresh e c) :
    (e.run c.table ≠ .error .undefined ↔ Typed e c) ∧
      ∀ num answer r t, dispatchCalls num answer c.table = .ok (r, t) →
        ∀ x ∈ r.1, x ∈ c.since num := by
  have h := hrun.inv
  refine ⟨⟨fun hdef => ?_, fun htyped hundef => ?_⟩, fun num answer r t hcall => ?_⟩
  · by_contra htyped
    exact hdef (h.untyped htyped)
  · exact (h.event hfresh htyped).2 _ hundef rfl
  · exact ((h.dispatchCalls answer).1 r t hcall).2

theorem gate_variant_run_syscalls : ∃ c, TypedRun c ∧ (c.table.gate 50).mode = 2 ∧
    ((Event.setMode 50 1).run c.table ≠ .error .undefined ↔ Typed (.setMode 50 1) c) ∧
      ∀ num answer r t, dispatchCalls num answer c.table = .ok (r, t) →
        ∀ x ∈ r.1, x ∈ c.since num := by
  have hrun : TypedRun _ := .step (e := .add 50 0x1000 7) (.step (e := .setMode 50 2) .start
    ⟨trivial, by unfold Typed; decide⟩ rfl) ⟨rfl, trivial⟩ rfl
  exact ⟨_, hrun, rfl, gate_variant_run hrun trivial⟩

/-- A gate as `intr_init` leaves it, with a handler: setting the mode uses the handler as a list. -/
theorem set_mode_on_handler : ∃ t, intrAdd 50 0x1000 7 intrInit = .ok ((), t) ∧
    intrSetMode 50 2 t = .error .undefined :=
  ⟨_, rfl, rfl⟩

end Tachyon.Intr
