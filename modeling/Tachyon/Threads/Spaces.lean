import Tachyon.Lib.Machine
import Tachyon.Threads.Model

/-!
# Address spaces across preemption

One CPU and its threads.  A timer interrupt may switch to another thread wherever interrupts are
enabled.  A thread inside of `prc_new` runs in the address space of the new process, between two
calls of `spc_switch`.

* `Cpu.next`: the machine;
* `Follows`: a thread that runs again is in the address space it was preempted in, and a thread
  outside of `prc_new` is in the one of its parent;
* `space_follows_run`: so it is as long as no thread loses the CPU in a foreign address space and
  `prc_new` does not fail there, and otherwise there is a run that breaks it;
* `space_lost`: a thread that is preempted inside of `prc_new`.
-/

namespace Tachyon.Spaces

open Machine Threads Function Option

structure Cpu where
  kernel : Kernel
  threads : List ℕ
  /-- What a thread inside of `prc_new` keeps in `old`. -/
  window : ℕ → Option ℕ
  /-- `CR3` when a thread was preempted. -/
  preempted : ℕ → Option ℕ
  /-- The same of the thread that has just got the CPU. -/
  resumed : Option ℕ

inductive Event
  | disable
  | enable
  /-- `prc_new` up to its first `spc_switch`. -/
  | prcEnter (space : ℕ)
  /-- The second `spc_switch`. -/
  | prcLeave
  /-- `goto fail` between the two. -/
  | prcFail
  /-- A timer interrupt that leaves the thread running. -/
  | tick
  /-- A timer interrupt with `thr_switch`. -/
  | preempt (target : ℕ)
  deriving DecidableEq, Repr

def Cpu.next : Event → Cpu → Option Cpu
  | .disable, c => some { c with kernel := intrDisable c.kernel, resumed := none }
  | .enable, c => some { c with kernel := (intrEnable true c.kernel).2, resumed := none }
  | .prcEnter space, c =>
    if space = 0 ∨ c.window (thrCurrent c.kernel) ≠ none then none
    else some { c with
      kernel := spcSwitch space c.kernel
      window := Function.update c.window (thrCurrent c.kernel) (some c.kernel.cr3)
      resumed := none }
  | .prcLeave, c =>
    (c.window (thrCurrent c.kernel)).map fun old => { c with
      kernel := spcSwitch old c.kernel
      window := Function.update c.window (thrCurrent c.kernel) none
      resumed := none }
  | .prcFail, c =>
    (c.window (thrCurrent c.kernel)).map fun _ => { c with
      window := Function.update c.window (thrCurrent c.kernel) none
      resumed := none }
  | .tick, c =>
    if c.kernel.intFlag then some { c with
      kernel := isrExit (isrEntry c.kernel)
      preempted := Function.update c.preempted (thrCurrent c.kernel) (some c.kernel.cr3)
      resumed := some c.kernel.cr3 }
    else none
  | .preempt target, c =>
    if c.kernel.intFlag ∧ target ∈ c.threads then
      let preempted := Function.update c.preempted (thrCurrent c.kernel) (some c.kernel.cr3)
      some { c with
        kernel := isrExit (thrSwitch target (isrEntry c.kernel)).2
        preempted := preempted
        resumed := preempted target }
    else none

/-- The address space of the parent of a thread. -/
def own (k : Kernel) (t : ℕ) : ℕ := (k.process (k.thread t).parent).space

/-- The address space follows the thread. -/
structure Follows (c : Cpu) : Prop where
  resumed : ∀ v, c.resumed = some v → c.kernel.cr3 = v
  outside : c.window (thrCurrent c.kernel) = none →
    c.kernel.cr3 = own c.kernel (thrCurrent c.kernel)

/-- A thread loses the CPU in its own address space only, and `prc_new` fails only there. -/
def Met : Event → Cpu → Prop
  | .preempt target, c => target = thrCurrent c.kernel ∨
    c.kernel.cr3 = own c.kernel (thrCurrent c.kernel)
  | .prcFail, c => c.kernel.cr3 = own c.kernel (thrCurrent c.kernel)
  | _, _ => True

/-- The threads and their contexts point to each other, and the threads that wait for the CPU have
interrupts enabled. -/
structure Wired (c : Cpu) : Prop where
  thread : ∀ t ∈ c.threads, t ≠ 0 ∧ (c.kernel.context (c.kernel.thread t).context).thread = t
  mem : thrCurrent c.kernel ∈ c.threads
  current : c.kernel.current = (c.kernel.thread (thrCurrent c.kernel)).context
  flag : ∀ t ∈ c.threads, t ≠ thrCurrent c.kernel →
    (c.kernel.context (c.kernel.thread t).context).rflagsIf = true

/-- A CPU outside of `prc_new`, before the first interrupt. -/
structure Start (c : Cpu) : Prop where
  wired : Wired c
  window : ∀ t, c.window t = none
  preempted : ∀ t, c.preempted t = none
  resumed : c.resumed = none
  cr3 : c.kernel.cr3 = own c.kernel (thrCurrent c.kernel)

/-- Every thread was preempted in its own address space. -/
structure Inv (c : Cpu) : Prop where
  wired : Wired c
  follows : Follows c
  window : ∀ t old, c.window t = some old → old = own c.kernel t
  preempted : ∀ t ∈ c.threads, t ≠ thrCurrent c.kernel → ∀ v, c.preempted t = some v →
    v = own c.kernel t
  waiting : ∀ t, t ≠ thrCurrent c.kernel → c.window t ≠ none → c.preempted t ≠ none

variable {c c' c₀ : Cpu} {k : Kernel}

theorem Start.inv (h : Start c) : Inv c := by
  refine ⟨h.wired, ⟨fun v hv => ?_, fun _ => h.cr3⟩, fun t old ho => ?_, fun t _ _ v hv => ?_,
    fun t _ hw => absurd (h.window t) hw⟩
  · rw [h.resumed] at hv
    cases hv
  · rw [h.window] at ho
    cases ho
  · rw [h.preempted] at hv
    cases hv

/-! ### Changes of the kernel -/

/-- Threads, processes and the threads of contexts stay as they are. -/
structure SameThreads (k k' : Kernel) : Prop where
  thread : k'.thread = k.thread
  process : k'.process = k.process
  back : ∀ x, (k'.context x).thread = (k.context x).thread

variable {k' : Kernel} {target : ℕ} {e : Event}

theorem SameThreads.trans {k'' : Kernel} (h : SameThreads k k') (h' : SameThreads k' k'') :
    SameThreads k k'' :=
  ⟨h'.thread.trans h.thread, h'.process.trans h.process, fun x => (h'.back x).trans (h.back x)⟩

theorem SameThreads.own (h : SameThreads k k') (t : ℕ) : own k' t = own k t := by
  unfold Spaces.own
  rw [h.thread, h.process]

theorem sameThreads_update {ctx : ℕ} {y : Context} (ht : k'.thread = k.thread)
    (hp : k'.process = k.process) (hc : k'.context = update k.context ctx y)
    (hy : y.thread = (k.context ctx).thread) : SameThreads k k' := by
  refine ⟨ht, hp, fun x => ?_⟩
  rw [hc]
  by_cases hx : x = ctx
  · rw [hx, update_self, hy]
  · rw [update_of_ne hx]

theorem sameThreads_intrDisable : SameThreads k (intrDisable k) := sameThreads_update rfl rfl rfl rfl

theorem sameThreads_intrEnable (doIt : Bool) : SameThreads k (intrEnable doIt k).2 := by
  rw [intrEnable_kernel]
  exact sameThreads_update rfl rfl rfl rfl

theorem sameThreads_isrEntry : SameThreads k (isrEntry k) :=
  sameThreads_intrDisable.trans (sameThreads_update rfl rfl rfl rfl)

theorem sameThreads_thrSwitch (target : ℕ) : SameThreads k (thrSwitch target k).2 := by
  rw [thrSwitch_kernel]
  exact ⟨rfl, rfl, fun _ => rfl⟩

theorem sameThreads_isrExit : SameThreads k (isrExit k) :=
  ⟨(sameThreads_intrEnable false).thread, (sameThreads_intrEnable false).process,
    (sameThreads_intrEnable false).back⟩

theorem spcSwitch_kernel (target : ℕ) : spcSwitch target k = { k with cr3 := target } := by
  unfold spcSwitch
  split_ifs with h
  · rw [h]
  · rfl

theorem sameThreads_spcSwitch (target : ℕ) : SameThreads k (spcSwitch target k) := by
  rw [spcSwitch_kernel]
  exact ⟨rfl, rfl, fun _ => rfl⟩

/-- The flag that is saved in a context behind the entry of an interrupt. -/
theorem rflagsIf_isrEntry (x : ℕ) :
    ((isrEntry k).context x).rflagsIf = if x = k.current then k.intFlag
      else (k.context x).rflagsIf := by
  split_ifs with hx
  · subst hx
    simp [isrEntry, intrDisable, Kernel.setContext]
  · simp [isrEntry, intrDisable, Kernel.setContext, update_of_ne hx]

theorem isrExit_kernel : (isrExit k).current = k.current ∧ (isrExit k).cr3 = k.cr3 ∧
    (isrExit k).intFlag = (k.context k.current).rflagsIf ∧
    ∀ x, ((isrExit k).context x).rflagsIf = (k.context x).rflagsIf := by
  have hflag : ∀ x, ((intrEnable false k).2.context x).rflagsIf = (k.context x).rflagsIf := by
    intro x
    rw [intrEnable_kernel]
    by_cases hx : x = k.current
    · subst hx
      simp [Kernel.setContext]
    · simp [Kernel.setContext, update_of_ne hx]
  have hcur : (intrEnable false k).2.current = k.current := by rw [intrEnable_kernel]; rfl
  refine ⟨hcur, ?_, ?_, hflag⟩
  · show (intrEnable false k).2.cr3 = k.cr3
    rw [intrEnable_kernel]
    rfl
  · show ((intrEnable false k).2.context (intrEnable false k).2.current).rflagsIf = _
    rw [hflag, hcur]

/-- A timer interrupt that ends in the context of `target`. -/
structure Switched (k k' : Kernel) (target : ℕ) : Prop where
  same : SameThreads k k'
  current : k'.current = (k.thread target).context
  flag : k'.intFlag = (k'.context k'.current).rflagsIf
  saved : ∀ x, (k'.context x).rflagsIf = if x = k.current then k.intFlag
    else (k.context x).rflagsIf

theorem switched_preempt (target : ℕ) :
    Switched k (isrExit (thrSwitch target (isrEntry k)).2) target := by
  obtain ⟨hcur, -, hflag, hsaved⟩ := isrExit_kernel (k := (thrSwitch target (isrEntry k)).2)
  have hctx : (thrSwitch target (isrEntry k)).2.context = (isrEntry k).context := by
    rw [thrSwitch_kernel]
  refine ⟨(sameThreads_isrEntry.trans (sameThreads_thrSwitch target)).trans sameThreads_isrExit,
    ?_, ?_, fun x => ?_⟩
  · rw [hcur, thrSwitch_kernel]
    rfl
  · rw [hflag, hcur, hsaved]
  · rw [hsaved, hctx, rflagsIf_isrEntry]

theorem switched_tick (hcur : k.current = (k.thread (thrCurrent k)).context) :
    Switched k (isrExit (isrEntry k)) (thrCurrent k) := by
  obtain ⟨hcur', -, hflag, hsaved⟩ := isrExit_kernel
  refine ⟨sameThreads_isrEntry.trans sameThreads_isrExit, hcur'.trans hcur, ?_, fun x => ?_⟩
  · rw [hflag, hcur', hsaved]
  · rw [hsaved, rflagsIf_isrEntry]

/-- The address space behind a timer interrupt. -/
theorem cr3_preempt (hcur : thrCurrent k ≠ 0) (target : ℕ) :
    (isrExit (thrSwitch target (isrEntry k)).2).cr3 =
      if (k.thread (thrCurrent k)).parent = (k.thread target).parent then k.cr3
      else own k target := by
  have hthr : thrCurrent (isrEntry k) = thrCurrent k := sameThreads_isrEntry.back k.current
  rw [isrExit_kernel.2.1, thrSwitch_kernel, hthr]
  by_cases h : (k.thread (thrCurrent k)).parent = (k.thread target).parent
  · rw [if_pos h]
    exact if_neg fun hne => hne.2 h
  · rw [if_neg h]
    exact if_pos ⟨hcur, h⟩

/-! ### Events -/

/-- The kernel keeps its threads and its current context. -/
theorem Wired.same (h : Wired c) (hs : SameThreads c.kernel k')
    (hcur : k'.current = c.kernel.current)
    (hflag : ∀ x, x ≠ c.kernel.current → (k'.context x).rflagsIf = (c.kernel.context x).rflagsIf)
    (hk : c'.kernel = k') (ht : c'.threads = c.threads) :
    Wired c' ∧ thrCurrent c'.kernel = thrCurrent c.kernel := by
  subst hk
  have hthr : thrCurrent c'.kernel = thrCurrent c.kernel := by
    unfold thrCurrent
    rw [hcur, hs.back]
  refine ⟨⟨fun t hmem => ?_, ?_, ?_, fun t hmem hne => ?_⟩, hthr⟩
  · rw [ht] at hmem
    rw [hs.thread, hs.back]
    exact h.thread t hmem
  · rw [hthr, ht]
    exact h.mem
  · rw [hcur, hthr, hs.thread]
    exact h.current
  · rw [ht] at hmem
    rw [hthr] at hne
    -- two threads have two contexts
    have hctx : (c.kernel.thread t).context ≠ c.kernel.current := fun heq => hne <| by
      rw [← (h.thread t hmem).2, heq]
      rfl
    rw [hs.thread, hflag _ hctx]
    exact h.flag t hmem hne

/-- The target of a timer interrupt has the CPU. -/
theorem Wired.switched (h : Wired c) (hs : Switched c.kernel c'.kernel target)
    (hif : c.kernel.intFlag = true) (hmem : target ∈ c.threads) (ht : c'.threads = c.threads) :
    Wired c' ∧ thrCurrent c'.kernel = target ∧ c'.kernel.intFlag = true := by
  have hthr : thrCurrent c'.kernel = target := by
    unfold thrCurrent
    rw [hs.current, hs.same.back]
    exact (h.thread target hmem).2
  have hsaved : ∀ t ∈ c.threads,
      (c'.kernel.context (c.kernel.thread t).context).rflagsIf = true := fun t htm => by
    rw [hs.saved]
    split_ifs with hctx
    · exact hif
    · refine h.flag t htm fun heq => hctx ?_
      rw [heq]
      exact h.current.symm
  refine ⟨⟨fun t htm => ?_, ?_, ?_, fun t htm _ => ?_⟩, hthr, ?_⟩
  · rw [hs.same.thread, hs.same.back]
    exact h.thread t (ht ▸ htm)
  · rw [hthr, ht]
    exact hmem
  · rw [hs.current, hthr, hs.same.thread]
  · rw [hs.same.thread]
    exact hsaved t (ht ▸ htm)
  · rw [hs.flag, hs.current]
    exact hsaved target hmem

section

variable (h : Inv c)
include h

theorem Inv.current_cases : c.window (thrCurrent c.kernel) = none ∧
    c.kernel.cr3 = own c.kernel (thrCurrent c.kernel) ∨
      c.window (thrCurrent c.kernel) = some (own c.kernel (thrCurrent c.kernel)) := by
  cases hw : c.window (thrCurrent c.kernel) with
  | none => exact .inl ⟨rfl, h.follows.outside hw⟩
  | some old => exact .inr (by rw [h.window _ old hw])

/-- An event that keeps the current thread. -/
theorem Inv.same (hs : SameThreads c.kernel c'.kernel) (hcur : c'.kernel.current = c.kernel.current)
    (hflag : ∀ x, x ≠ c.kernel.current →
      (c'.kernel.context x).rflagsIf = (c.kernel.context x).rflagsIf)
    (ht : c'.threads = c.threads) (hp : c'.preempted = c.preempted) (hr : c'.resumed = none)
    (hw : ∀ t, t ≠ thrCurrent c.kernel → c'.window t = c.window t)
    (hcase : c'.window (thrCurrent c.kernel) = none ∧
        c'.kernel.cr3 = own c.kernel (thrCurrent c.kernel) ∨
      c'.window (thrCurrent c.kernel) = some (own c.kernel (thrCurrent c.kernel)))
    : Inv c' := by
  obtain ⟨hwired, hthr⟩ := h.wired.same hs hcur hflag rfl ht
  refine ⟨hwired, ⟨fun v hv => ?_, fun hnone => ?_⟩, fun t old ho => ?_, fun t htm hne v hv => ?_,
    fun t hne hwt => ?_⟩
  · cases hr.symm.trans hv
  · rw [hthr] at hnone ⊢
    rw [hs.own]
    rcases hcase with ⟨-, hc⟩ | hsome
    · exact hc
    · cases hsome.symm.trans hnone
  · rw [hs.own]
    by_cases htc : t = thrCurrent c.kernel
    · subst htc
      rcases hcase with ⟨hnone, -⟩ | hsome
      · cases hnone.symm.trans ho
      · rw [hsome, some.injEq] at ho
        exact ho.symm
    · exact h.window t old (hw t htc ▸ ho)
  · rw [hthr] at hne
    rw [hs.own]
    exact h.preempted t (ht ▸ htm) hne v (hp ▸ hv)
  · rw [hthr] at hne
    rw [hp]
    exact h.waiting t hne (hw t hne ▸ hwt)

/-- A timer interrupt that takes the CPU from a thread in its own address space, or leaves it. -/
theorem Inv.switched (hs : Switched c.kernel c'.kernel target) (hif : c.kernel.intFlag = true)
    (hmem : target ∈ c.threads) (ht : c'.threads = c.threads) (hw : c'.window = c.window)
    (hp : c'.preempted = update c.preempted (thrCurrent c.kernel) (some c.kernel.cr3))
    (hr : c'.resumed = c'.preempted target)
    (hcr3 : target = thrCurrent c.kernel ∧ c'.kernel.cr3 = c.kernel.cr3 ∨
      target ≠ thrCurrent c.kernel ∧ c.kernel.cr3 = own c.kernel (thrCurrent c.kernel) ∧
        c'.kernel.cr3 = own c.kernel target)
    : Inv c' := by
  obtain ⟨hwired, hthr, -⟩ := h.wired.switched hs hif hmem ht
  refine ⟨hwired, ⟨fun v hv => ?_, fun hnone => ?_⟩, fun t old ho => ?_, fun t htm hne v hv => ?_,
    fun t hne hwt => ?_⟩
  · rw [hr, hp] at hv
    rcases hcr3 with ⟨rfl, hc⟩ | ⟨hne, -, hc⟩
    · rw [update_self, some.injEq] at hv
      rw [hc, hv]
    · rw [update_of_ne hne] at hv
      rw [hc, h.preempted target hmem hne v hv]
  · rw [hthr] at hnone ⊢
    rw [hs.same.own]
    rcases hcr3 with ⟨rfl, hc⟩ | ⟨-, -, hc⟩
    · rw [hc]
      exact h.follows.outside (hw ▸ hnone)
    · exact hc
  · rw [hs.same.own]
    exact h.window t old (hw ▸ ho)
  · rw [hthr] at hne
    rw [hs.same.own]
    rw [hp] at hv
    by_cases htc : t = thrCurrent c.kernel
    · subst htc
      rw [update_self, some.injEq] at hv
      rcases hcr3 with ⟨rfl, -⟩ | ⟨-, hc, -⟩
      · exact absurd rfl hne
      · rw [← hv, hc]
    · rw [update_of_ne htc] at hv
      exact h.preempted t (ht ▸ htm) htc v hv
  · rw [hp]
    by_cases htc : t = thrCurrent c.kernel
    · subst htc
      rw [update_self]
      exact some_ne_none _
    · rw [update_of_ne htc]
      exact h.waiting t htc (hw ▸ hwt)

/-- What one event preserves. -/
theorem Inv.next (hmet : Met e c) (hnext : Cpu.next e c = some c') :
    Inv c' := by
  cases e with
  | disable =>
    cases hnext
    refine h.same sameThreads_intrDisable rfl (fun x hx => ?_) rfl rfl rfl (fun _ _ => rfl)
      h.current_cases
    simp [intrDisable, Kernel.setContext, update_of_ne hx]
  | enable =>
    cases hnext
    have hk := intrEnable_kernel (k := c.kernel) true
    refine h.same (sameThreads_intrEnable true) (by rw [hk]; rfl) (fun x hx => ?_) rfl rfl rfl
      (fun _ _ => rfl) ?_
    · rw [hk]
      simp [Kernel.setContext, update_of_ne hx]
    · rw [hk]
      exact h.current_cases
  | prcEnter space =>
    simp only [Cpu.next] at hnext
    split_ifs at hnext with hguard
    cases hnext
    obtain ⟨-, hnone⟩ := not_or.1 hguard
    refine h.same (sameThreads_spcSwitch space) (by rw [spcSwitch_kernel])
      (fun x hx => by rw [spcSwitch_kernel]) rfl rfl rfl (fun t hne => update_of_ne hne _ _)
      (.inr ?_)
    rw [← h.follows.outside (not_not.1 hnone)]
    exact update_self _ _ _
  | prcLeave =>
    obtain ⟨old, hold, rfl⟩ := map_eq_some_iff.1 hnext
    refine h.same (sameThreads_spcSwitch old) (by rw [spcSwitch_kernel])
      (fun x hx => by rw [spcSwitch_kernel]) rfl rfl rfl (fun t hne => update_of_ne hne _ _)
      (.inl ⟨update_self _ _ _, ?_⟩)
    rw [spcSwitch_kernel]
    exact h.window _ old hold
  | prcFail =>
    obtain ⟨old, hold, rfl⟩ := map_eq_some_iff.1 hnext
    exact h.same ⟨rfl, rfl, fun _ => rfl⟩ rfl (fun _ _ => rfl) rfl rfl rfl
      (fun t hne => update_of_ne hne _ _) (.inl ⟨update_self _ _ _, hmet⟩)
  | tick =>
    simp only [Cpu.next] at hnext
    split_ifs at hnext with hif
    cases hnext
    exact h.switched (switched_tick h.wired.current) hif h.wired.mem rfl rfl rfl
      (update_self (thrCurrent c.kernel) (some c.kernel.cr3) c.preempted).symm
      (.inl ⟨rfl, isrExit_kernel.2.1⟩)
  | preempt target =>
    simp only [Cpu.next] at hnext
    split_ifs at hnext with hguard
    cases hnext
    refine h.switched (switched_preempt target) hguard.1 hguard.2 rfl rfl rfl rfl ?_
    have hcr3 := cr3_preempt (h.wired.thread _ h.wired.mem).1 target
    by_cases htc : target = thrCurrent c.kernel
    · refine .inl ⟨htc, hcr3.trans (if_pos ?_)⟩
      rw [htc]
    have hown : c.kernel.cr3 = own c.kernel (thrCurrent c.kernel) := hmet.resolve_left htc
    refine .inr ⟨htc, hown, hcr3.trans ?_⟩
    -- threads of one process share its address space
    split_ifs with hparent
    · rw [hown, own, hparent]
      rfl
    · rfl

/-! ### The condition is needed -/

/-- A thread that loses the CPU in a foreign address space: the next thread runs in that one, or the
thread itself comes back in its own. -/
theorem Inv.not_follows_preempt (hne : target ≠ thrCurrent c.kernel)
    (hown : c.kernel.cr3 ≠ own c.kernel (thrCurrent c.kernel))
    (hnext : Cpu.next (.preempt target) c = some c') :
    ¬Follows c' ∨ ∃ c'', Cpu.next (.preempt (thrCurrent c.kernel)) c' = some c'' ∧
      ¬Follows c'' := by
  simp only [Cpu.next] at hnext
  split_ifs at hnext with hguard
  have hs := switched_preempt (k := c.kernel) target
  have hcr3 := cr3_preempt (h.wired.thread _ h.wired.mem).1 target
  generalize isrExit (thrSwitch target (isrEntry c.kernel)).2 = k' at hnext hs hcr3
  cases hnext
  let c1 : Cpu := { c with kernel := k' }
  obtain ⟨-, hthr, hif⟩ := h.wired.switched (show Switched c.kernel c1.kernel target from hs)
    hguard.1 hguard.2 rfl
  by_cases hparent : (c.kernel.thread (thrCurrent c.kernel)).parent = (c.kernel.thread target).parent
  · -- the address space stays as it is
    refine .inl fun hf => hown ?_
    rw [if_pos hparent] at hcr3
    have hsame : own c.kernel target = own c.kernel (thrCurrent c.kernel) := by
      rw [own, own, hparent]
    rw [← hcr3, ← hsame]
    cases hw : c.window target with
    | none =>
      have hout := hf.outside
      rw [hthr, hs.same.own] at hout
      exact hout hw
    | some old =>
      obtain ⟨v, hv⟩ := ne_none_iff_exists'.1
        (h.waiting target hne (by rw [hw]; exact some_ne_none _))
      rw [← h.preempted target hguard.2 hne v hv]
      exact hf.resumed v ((update_of_ne hne _ _).trans hv)
  · right
    have h0' : thrCurrent k' ≠ 0 := by
      rw [hthr]
      exact (h.wired.thread target hguard.2).1
    have hback := cr3_preempt h0' (thrCurrent c.kernel)
    rw [hthr, hs.same.thread, if_neg (Ne.symm hparent), hs.same.own] at hback
    simp only [Cpu.next]
    rw [if_pos ⟨hif, h.wired.mem⟩]
    refine ⟨_, rfl, fun hf => hown (Eq.symm ?_)⟩
    rw [← hback]
    refine hf.resumed _ ?_
    rw [hthr, update_of_ne hne.symm, update_self]

theorem Inv.not_follows (hmet : ¬Met e c) (hnext : Cpu.next e c = some c') :
    ∃ es c'', exec Cpu.next es c' = some c'' ∧ ¬Follows c'' := by
  cases e with
  | preempt target =>
    obtain ⟨hne, hown⟩ := not_or.1 hmet
    rcases h.not_follows_preempt hne hown hnext with hf | ⟨c'', hback, hf⟩
    · exact ⟨[], c', rfl, hf⟩
    · exact ⟨[.preempt (thrCurrent c.kernel)], c'', exec_cons hback, hf⟩
  | prcFail =>
    obtain ⟨old, hold, rfl⟩ := map_eq_some_iff.1 hnext
    exact ⟨[], _, rfl, fun hf => hmet (hf.outside (update_self _ _ _))⟩
  | disable => exact absurd trivial hmet
  | enable => exact absurd trivial hmet
  | prcEnter space => exact absurd trivial hmet
  | prcLeave => exact absurd trivial hmet
  | tick => exact absurd trivial hmet

end

/-! ### Runs -/

/-- **The address space follows the thread** in every run in which no thread loses the CPU inside of
`prc_new` in a foreign address space and `prc_new` does not fail there.  From any such run an event
of another kind leads to a run in which it does not. -/
theorem space_follows_run (h₀ : Start c₀) (hrun : Runs Cpu.next Met c₀ c) :
    Follows c ∧ ∀ e c', Cpu.next e c = some c' → ¬Met e c →
      ∃ es c'', exec Cpu.next es c' = some c'' ∧ ¬Follows c'' := by
  have hinv : Inv c := hrun.inv h₀.inv fun h hmet hnext => h.next hmet hnext
  exact ⟨hinv.follows, fun e c' hnext hmet => hinv.not_follows hmet hnext⟩

/-- Thread 1 of process 1 runs, thread 2 of process 2 waits. -/
def twoProcesses : Cpu where
  kernel :=
    { thread := fun t => ⟨.runnable, .normal, t, 16 * t, 0⟩
      context := fun x => ⟨true, 0, 0, x / 16⟩
      process := fun p => ⟨p, 0x1000 * p, .normal⟩
      current := 16
      intFlag := true
      cr3 := 0x1000 }
  threads := [1, 2]
  window := fun _ => none
  preempted := fun _ => none
  resumed := none

theorem twoProcesses_start : Start twoProcesses :=
  ⟨⟨by decide, by decide, rfl, fun _ _ _ => rfl⟩, fun _ => rfl, fun _ => rfl, rfl, rfl⟩

/-- Thread 1 is preempted inside of `prc_new` and comes back in the address space of its parent. -/
theorem space_lost : Start twoProcesses ∧
    ∃ c, exec Cpu.next [.prcEnter 0x3000, .preempt 2, .preempt 1] twoProcesses = some c ∧
      c.resumed = some 0x3000 ∧ c.kernel.cr3 = 0x1000 ∧ ¬Follows c := by
  refine ⟨twoProcesses_start, _, rfl, rfl, rfl, fun hf => ?_⟩
  have : (0x1000 : ℕ) = 0x3000 := hf.resumed _ rfl
  cases this

/-- Thread 1 is preempted behind `prc_new`. -/
theorem space_follows_run_leave : ∃ c, Runs Cpu.next Met twoProcesses c ∧
    c.kernel.cr3 = 0x2000 ∧ Follows c := by
  have hrun : Runs Cpu.next Met twoProcesses _ := .step (e := .preempt 2) (.step (e := .prcLeave)
    (.step (e := .prcEnter 0x3000) .start trivial rfl) trivial rfl) (.inr rfl) rfl
  exact ⟨_, hrun, rfl, (space_follows_run twoProcesses_start hrun).1⟩

end Tachyon.Spaces
