import Tachyon.Stka.Contents
import Tachyon.Tasks.Alive

/-!
# What a new user stack shows

The user threads of one process, from their creation on: their stacks grow when they are created and
by page faults, while any address space may be active.

* `Call`, `runCalls`: creating user threads, faults in their stacks, and changes of the active
  address space;
* `FreeDiffers`: two states that differ only in the contents of free frames;
* `Sealed`: from two such states, the pages mapped for the stacks are all zero in both runs;
* `AtHome`: whenever pages are mapped, the address space of the process is active;
* `sealed_iff`: the first is the case exactly if the second is.
-/

namespace Tachyon.Tasks

open Prog Function Option

variable {s s' t t' u u' : State} {prc : ℕ} {p : Process} {d : Stka.Desc}

/-! ### Calls -/

inductive Call
  | create (thr ctx stk entry : ℕ)
  | fault (stk addr : ℕ)
  | switch (target : ℕ)
  deriving DecidableEq, Repr

/-- `thr_create` with `IsolationUser`, and `stka_pgflt` as the page fault handler calls it. -/
def Call.run (prc : ℕ) : Call → Prog State Unit
  | .create thr ctx stk entry =>
    thrCreate thr ctx stk prc entry .user >>= fun _ => pure ()
  | .fault stk addr =>
    loadProcess prc >>= fun p => onMem (Stka.stkaPgflt p.stka stk addr) >>= fun _ => pure ()
  | .switch target => onMem (Stka.spcSwitch target)

def runCalls (prc : ℕ) : List Call → Prog State Unit
  | [] => pure ()
  | c :: cs => c.run prc >>= fun _ => runCalls prc cs

/-! ### What the calls do -/

/-- The stacks of the process have the description `d`. -/
def Owns (prc : ℕ) (d : Stka.Desc) (s : State) : Prop :=
  ∀ p, s.process prc = some p → (s.mem.allocator p.stka).desc = d

/-- A change of the process that leaves its stack allocator in place. -/
theorem Owns.nextTid {f : Process → ℕ × Process} (h : Owns prc d s)
    (hf : ∀ p, (f p).2.stka = p.stka) :
    wlp (prcLocked prc f) (fun _ s' => Owns prc d s' ∧ s'.mem = s.mem) s := by
  intro _ s' hrun
  obtain ⟨p, hp, -, rfl⟩ := prcLocked_spec _ _ hrun
  refine ⟨fun p' hp' => ?_, rfl⟩
  simp only [State.setProcess, update_self, some.injEq] at hp'
  subst hp'
  show (s.mem.allocator (f (p.setLock true)).2.stka).desc = d
  rw [hf]
  exact h p hp

theorem Owns.grows (h : Owns prc d s) (hprocess : s'.process = s.process)
    (hgrows : Stka.Grows d s.mem s'.mem) : Owns prc d s' := by
  intro p hp
  rw [hprocess] at hp
  rw [hgrows.desc]
  exact h p hp

variable {α : Type}

variable {q : Prog Stka.State α} {f : State → Option α}

theorem onMem_spec {Q : α → Stka.State → Prop}
    (h : wlp q Q s.mem) : wlp (onMem q) (fun a s' => Q a s'.mem ∧ s' = { s with mem := s'.mem }) s :=
  wlp_zoom fun a m hq => ⟨h a m hq, rfl⟩

theorem fresh_spec : wlp (fresh f) (fun _ s' => s' = s) s := by
  intro _ s' h
  unfold fresh at h
  split_ifs at h
  cases h
  rfl

/-- A new user thread has its stack from the allocator of the process. -/
theorem thrCreate_exposes (thr ctx stk entry : ℕ) (h : Owns prc d s) :
    wlp (thrCreate thr ctx stk prc entry .user) (fun _ s' => Owns prc d s' ∧
      Stka.Exposes d s.mem s'.mem) s := by
  refine wlp_ite (fun _ => wlp_pure ⟨h, (Stka.Grows.refl _).toExposes⟩) fun _ => ?_
  refine wlp_bind fun _ s1 hfresh => ?_
  obtain rfl := fresh_spec _ _ hfresh
  refine wlp_bind fun id s2 htid => ?_
  obtain ⟨h2, hmem2⟩ := h.nextTid (fun _ => rfl) id s2 htid
  refine wlp_ite (fun _ => wlp_halt) fun _ => wlp_bind fun _ s3 hfresh => ?_
  obtain rfl := fresh_spec _ _ hfresh
  refine wlp_bind fun p s4 hload => ?_
  obtain ⟨hp, rfl⟩ := loadProcess_spec p s4 hload
  refine wlp_get_bind (wlp_bind fun stack s5 halloc => ?_)
  have hgrows := onMem_spec (Stka.stkaAlloc_grows (h2 p hp)) stack s5 halloc
  have h5 := h2.grows (by rw [hgrows.2]) hgrows.1
  rw [hmem2] at hgrows
  refine wlp_ite (fun _ => wlp_halt) fun _ => wlp_bind fun st s6 hst => ?_
  obtain ⟨⟨-, hmem6⟩, hs6⟩ := onMem_spec Stka.loadStack_spec st s6 hst
  refine wlp_modify_bind (wlp_modify_bind (wlp_pure ⟨?_, ?_⟩))
  · intro p' hp'
    rw [hs6] at hp'
    rw [hmem6]
    exact h5 p' hp'
  · show Stka.Exposes d s1.mem s6.mem
    rw [hmem6]
    exact hgrows.1.toExposes

/-- What a call does to the memory. -/
theorem call_exposes (c : Call) (h : Owns prc d s) :
    wlp (c.run prc) (fun _ s' => Owns prc d s' ∧ Stka.Exposes d s.mem s'.mem) s := by
  cases c with
  | create thr ctx stk entry =>
    exact wlp_bind fun _ s1 hcreate => wlp_pure (thrCreate_exposes _ _ _ _ h _ s1 hcreate)
  | fault stk addr =>
    refine wlp_bind fun p s1 hload => ?_
    obtain ⟨hp, rfl⟩ := loadProcess_spec p s1 hload
    refine wlp_bind fun ok s2 hfault => wlp_pure ?_
    have hgrows := onMem_spec (Stka.stkaPgflt_grows addr (h p hp)) ok s2 hfault
    exact ⟨h.grows (by rw [hgrows.2]) hgrows.1, hgrows.1.toExposes⟩
  | switch target =>
    rintro _ _ ⟨⟩
    exact ⟨h, .of_same rfl rfl rfl⟩

/-! ### Two runs -/

/-- The states differ at most in the contents of the frames. -/
def SameBut (s t : State) : Prop := s = { t with mem := s.mem } ∧ Stka.SameBut s.mem t.mem

theorem SameBut.process (h : SameBut s t) : s.process = t.process := by rw [h.1]

theorem SameBut.maps (h : SameBut s t) : s.mem.maps = t.mem.maps := by rw [h.2]

/-- A step that neither reads nor writes the memory. -/
theorem respects_modify {f : State → State} (h : ∀ t m, f { t with mem := m } = { f t with mem := m })
    (hmem : ∀ t, (f t).mem = t.mem) : Respects SameBut (modify f) := by
  refine .modify fun s t hst => ⟨?_, ?_⟩
  · rw [hst.1, h]
  · rw [hmem, hmem]
    exact hst.2

theorem respects_onMem (h : Respects Stka.SameBut q) :
    Respects SameBut (onMem q) := by
  refine .zoom h (fun s t hst => hst.2) fun s t x y hst hxy => ⟨?_, hxy⟩
  rw [hst.1]

theorem respects_loadProcess (prc : ℕ) : Respects SameBut (loadProcess prc) := by
  intro s t hst p t' h
  obtain ⟨hp, rfl⟩ := loadProcess_spec p t' h
  exact ⟨s, by rw [loadProcess, hst.process, hp], hst⟩

theorem respects_fresh (hf : ∀ s t, SameBut s t → f s = f t) :
    Respects SameBut (fresh f) := by
  intro s t hst _ t' h
  obtain rfl := fresh_spec _ _ h
  refine ⟨s, ?_, hst⟩
  unfold fresh at h ⊢
  rw [hf s t' hst]
  split_ifs at h ⊢
  rfl

theorem respects_storeProcess (prc : ℕ) (p : Option Process) :
    Respects SameBut (storeProcess prc p) :=
  respects_modify (fun _ _ => rfl) fun _ => rfl

theorem respects_prcLocked (prc : ℕ) (f : Process → α × Process) :
    Respects SameBut (prcLocked prc f) := by
  refine .bind (.bind (respects_loadProcess prc) fun p => ?_) fun _ => ?_
  · exact .ite (.halt _) (respects_storeProcess _ _)
  · refine .bind (respects_loadProcess prc) fun p => .bind (respects_storeProcess _ _) fun _ => ?_
    exact .bind (.bind (respects_loadProcess prc) fun _ => respects_storeProcess _ _) fun _ => .pure _

theorem respects_thrCreate (thr ctx stk prc entry : ℕ) (isolation : Isolation) :
    Respects SameBut (thrCreate thr ctx stk prc entry isolation) := by
  refine .ite (.pure 0) (.bind (respects_fresh fun s t h => by rw [h.1]) fun _ => ?_)
  refine .bind (respects_prcLocked _ _) fun id => .ite (.halt _) ?_
  refine .bind (respects_fresh fun s t h => by rw [h.1]) fun _ => ?_
  refine .bind (respects_loadProcess prc) fun p => .get_bind (fun s t h => by rw [h.1]) fun s => ?_
  refine .bind (respects_onMem (Stka.respects_stkaAlloc _ _)) fun stack => .ite (.halt _) ?_
  refine .bind (respects_onMem (Stka.respects_loadStack _)) fun st => ?_
  refine .bind (respects_modify (fun _ _ => rfl) fun _ => rfl) fun _ => ?_
  exact .bind (respects_modify (fun _ _ => rfl) fun _ => rfl) fun _ => .pure thr

/-- No call looks at the contents of the frames. -/
theorem respects_call (prc : ℕ) (c : Call) : Respects SameBut (c.run prc) := by
  cases c with
  | create thr ctx stk entry => exact .bind (respects_thrCreate _ _ _ _ _ _) fun _ => .pure ()
  | fault stk addr =>
    exact .bind (respects_loadProcess prc) fun p =>
      .bind (respects_onMem (Stka.respects_stkaPgflt _ _ _)) fun _ => .pure ()
  | switch target =>
    exact respects_onMem (Stka.respects_modify fun _ _ => rfl)

theorem respects_runCalls (prc : ℕ) (cs : List Call) : Respects SameBut (runCalls prc cs) := by
  induction cs with
  | nil => exact .pure ()
  | cons c cs ih => exact .bind (respects_call prc c) fun _ => ih

theorem SameBut.symm (h : SameBut s t) : SameBut t s := by
  have hmem : t.mem = { s.mem with content := t.mem.content } := by
    rw [h.2]
  exact ⟨by rw [h.1], hmem⟩

/-- Two states that differ only in the contents of free frames. -/
def FreeDiffers (s s' : State) : Prop :=
  SameBut s' s ∧ ∀ f, s.mem.inUse f = true → s'.mem.content f = s.mem.content f

/-- All bytes of a frame are zero. -/
def Zero (bytes : ℕ → UInt8) : Prop := ∀ o, bytes o = 0

/-- Whatever free frames hold: the pages that the calls map for user mode are the same, and all
zero. -/
def Sealed (prc : ℕ) (cs : List Call) (s : State) : Prop :=
  ∀ s' t t', FreeDiffers s s' → runCalls prc cs s = .ok ((), t) →
    runCalls prc cs s' = .ok ((), t') → ∀ sp q f fl, s.mem.maps sp q = none →
      t.mem.maps sp q = some (f, fl) → fl &&& pgUser ≠ 0 →
        Zero (t.mem.content f) ∧ t'.mem.maps sp q = some (f, fl) ∧ Zero (t'.mem.content f)

/-- Every call that maps pages is made in the address space of the stacks. -/
def AtHome (prc : ℕ) (d : Stka.Desc) : List Call → State → Prop
  | [], _ => True
  | c :: cs, s => ∀ s', c.run prc s = .ok ((), s') →
      (s'.mem.maps = s.mem.maps ∨ s.mem.cr3 = d.space) ∧ AtHome prc d cs s'

theorem AtHome.congr {cs : List Call} (h : AtHome prc d cs s) (hst : SameBut s t) :
    AtHome prc d cs t := by
  induction cs generalizing s t with
  | nil => exact trivial
  | cons c cs ih =>
    intro t' ht'
    obtain ⟨s', hs', hst'⟩ := respects_call prc c hst ht'
    obtain ⟨hmaps, hrest⟩ := h s' hs'
    refine ⟨?_, ih hrest hst'⟩
    rw [hst.maps, hst'.maps, show s.mem.cr3 = t.mem.cr3 by rw [hst.2]] at hmaps
    exact hmaps

/-- What a sequence of calls keeps: the pages and their contents; new pages have the flags of the
stacks. -/
structure Kept (d : Stka.Desc) (s t : Stka.State) : Prop where
  maps : ∀ {sp q e}, s.maps sp q = some e → t.maps sp q = some e
  used : ∀ {f}, s.inUse f = true → t.content f = s.content f
  new : ∀ {sp q f fl}, s.maps sp q = none → t.maps sp q = some (f, fl) → fl = d.pgFl

section

variable (cs : List Call) (h : Owns prc d s)
include cs h

theorem runCalls_kept (hrun : runCalls prc cs s = .ok ((), t)) : Kept d s.mem t.mem := by
  induction cs generalizing s with
  | nil =>
    cases hrun
    exact ⟨id, fun _ => rfl, fun hnone hsome => by rw [hnone] at hsome; cases hsome⟩
  | cons c cs ih =>
    obtain ⟨_, s1, hcall, hrest⟩ := bind_eq_ok.1 hrun
    obtain ⟨h1, hexp⟩ := call_exposes c h _ s1 hcall
    have hkept := ih h1 hrest
    refine ⟨fun hm => hkept.maps (hexp.maps hm), fun hu => ?_, fun {sp q f fl} hnone hsome => ?_⟩
    · exact (hkept.used (hexp.used hu).1).trans (hexp.used hu).2
    · cases hmid : s1.mem.maps sp q with
      | none => exact hkept.new hmid hsome
      | some e =>
        obtain rfl : e = (f, fl) := some.inj ((hkept.maps hmid).symm.trans hsome)
        exact (hexp.new hnone hmid).2.1

/-- At home, new pages are zero. -/
theorem zero_of_atHome (hhome : AtHome prc d cs s) (hrun : runCalls prc cs s = .ok ((), t))
    {sp q f fl : ℕ} (hnone : s.mem.maps sp q = none) (hsome : t.mem.maps sp q = some (f, fl)) :
    Zero (t.mem.content f) := by
  induction cs generalizing s with
  | nil =>
    cases hrun
    cases hnone.symm.trans hsome
  | cons c cs ih =>
    obtain ⟨_, s1, hcall, hrest⟩ := bind_eq_ok.1 hrun
    obtain ⟨h1, hexp⟩ := call_exposes c h _ s1 hcall
    obtain ⟨hcr3, hhome1⟩ := hhome s1 hcall
    cases hmid : s1.mem.maps sp q with
    | none => exact ih h1 hhome1 hrest hmid
    | some e =>
      have hkept := runCalls_kept cs h1 hrest
      obtain rfl : e = (f, fl) := some.inj ((hkept.maps hmid).symm.trans hsome)
      obtain ⟨-, -, -, hused, hcontent⟩ := hexp.new hnone hmid
      rcases hcr3 with hsame | hcr3
      · rw [hsame, hnone] at hmid
        cases hmid
      · intro o
        rw [hkept.used hused, hcontent, if_pos hcr3]

/-- If free frames hold anything else, pages that are zero were mapped at home. -/
theorem atHome_of_zero (hfree : ∀ f, s.mem.inUse f = false → ¬ Zero (s.mem.content f))
    (hrun : runCalls prc cs s = .ok ((), t))
    (hzero : ∀ sp q f fl, s.mem.maps sp q = none → t.mem.maps sp q = some (f, fl) →
      Zero (t.mem.content f)) :
    AtHome prc d cs s := by
  induction cs generalizing s with
  | nil => exact trivial
  | cons c cs ih =>
    obtain ⟨_, s1, hcall, hrest⟩ := bind_eq_ok.1 hrun
    obtain ⟨h1, hexp⟩ := call_exposes c h _ s1 hcall
    have hkept := runCalls_kept cs h1 hrest
    intro s2 hcall2
    cases hcall2.symm.trans hcall
    constructor
    · by_contra hcon
      rw [not_or] at hcon
      obtain ⟨hmaps, hcr3⟩ := hcon
      obtain ⟨sp, hsp⟩ := ne_iff.1 hmaps
      obtain ⟨q, hq⟩ := ne_iff.1 hsp
      cases hnone : s.mem.maps sp q with
      | some e => exact hq ((hexp.maps hnone).trans hnone.symm)
      | none =>
        cases hsome : s1.mem.maps sp q with
        | none => exact hq (hsome.trans hnone.symm)
        | some e =>
          obtain ⟨-, -, hunused, hused, hcontent⟩ := hexp.new hnone hsome
          rw [if_neg hcr3] at hcontent
          have hz := hzero sp q e.1 e.2 hnone (hkept.maps hsome)
          rw [hkept.used hused, hcontent] at hz
          exact hfree _ hunused hz
    · refine ih h1 (fun f hf => ?_) hrest fun sp q f fl hnone hsome => hzero sp q f fl ?_ hsome
      · rw [hexp.free hf]
        exact hfree f (hexp.free_before hf)
      · cases hm : s.mem.maps sp q with
        | none => rfl
        | some e =>
          rw [hexp.maps hm] at hnone
          cases hnone

end

/-- **New user stacks are sealed exactly if they grow at home.** -/
theorem sealed_iff (cs : List Call) (hp : s.process prc = some p)
    (hdesc : (s.mem.allocator p.stka).desc = stackDesc p.space)
    (hrun : runCalls prc cs s = .ok ((), t)) :
    Sealed prc cs s ↔ AtHome prc (stackDesc p.space) cs s := by
  have h : Owns prc (stackDesc p.space) s := by
    intro p' hp'
    obtain rfl : p' = p := Option.some.inj (hp'.symm.trans hp)
    exact hdesc
  constructor
  · intro hsealed
    -- free frames that hold anything but zero
    have hdiffers : FreeDiffers s { s with mem := { s.mem with
        content := fun f => if s.mem.inUse f then s.mem.content f else fun _ => 0xFF } } := by
      refine ⟨⟨rfl, rfl⟩, fun f hf => ?_⟩
      dsimp only
      rw [if_pos hf]
    obtain ⟨t', hrun', hst'⟩ := respects_runCalls prc cs hdiffers.1 hrun
    refine AtHome.congr (atHome_of_zero cs ?_ ?_ hrun' ?_) hdiffers.1
    · exact h
    · intro f hf hz
      have hbyte := hz 0
      dsimp only at hf hbyte
      rw [if_neg (by rw [hf]; decide)] at hbyte
      exact absurd hbyte (by decide)
    · intro sp q f fl hnone hsome
      rw [hst'.maps] at hsome
      refine (hsealed _ t t' hdiffers hrun hrun' sp q f fl hnone hsome ?_).2.2
      rw [(runCalls_kept cs h hrun).new hnone hsome]
      exact (by decide : (pgWritable ||| pgUser) &&& pgUser ≠ 0)
  · intro hhome s' u u' hdiffers hu hu' sp q f fl hnone hsome _
    obtain ⟨t', hrun', hst'⟩ := respects_runCalls prc cs hdiffers.1 hu
    cases hrun'.symm.trans hu'
    have h' : Owns prc (stackDesc p.space) s' := by
      intro p' hp'
      rw [hdiffers.1.process] at hp'
      rw [show s'.mem.allocator = s.mem.allocator by rw [hdiffers.1.2]]
      exact h p' hp'
    have hsome' : u'.mem.maps sp q = some (f, fl) := by rw [hst'.maps, hsome]
    have hnone' : s'.mem.maps sp q = none := by rw [hdiffers.1.maps, hnone]
    exact ⟨zero_of_atHome cs h hhome hu hnone hsome, hsome',
      zero_of_atHome cs h' (hhome.congr hdiffers.1.symm) hu' hnone' hsome'⟩

/-- A thread that is created in its own address space, and whose stack grows. -/
def homeCalls : List Call :=
  [.switch 9, .create 102 103 104 0x401000, .fault 104 0x7FFFFFFFD123]

theorem sealed_iff_home : ∃ p t, oneProcess.process 100 = some p ∧
    runCalls 100 homeCalls oneProcess = .ok ((), t) ∧
    (Sealed 100 homeCalls oneProcess ↔ AtHome 100 (stackDesc p.space) homeCalls oneProcess) := by
  have hp : oneProcess.process 100 = some ⟨0, 9, .normal, false, 0, [], 101⟩ := by decide +kernel
  have hrun := eq_ok_of_value (p := runCalls 100 homeCalls) (s := oneProcess) (a := ())
    (by decide +kernel)
  exact ⟨_, _, hp, hrun, sealed_iff homeCalls hp (by decide +kernel) hrun⟩

/-- A user thread that is created while another address space is active: the highest page of its
stack shows what its frame has held. -/
theorem create_leaks : oneProcess.mem.cr3 = 8 ∧
    (oneThread.mem.maps 9 0x7FFFFFFFF).map Prod.fst = some 12 ∧
    oneThread.mem.content 12 0 = 0xFF := by
  decide +kernel

end Tachyon.Tasks
