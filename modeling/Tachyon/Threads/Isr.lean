import Tachyon.Lib.Machine
import Tachyon.Threads.Model

/-!
# Interrupts inside of an interrupt handler

One CPU that runs threads and interrupt handlers.  Inside of a handler there are pairs of
`intr_disable` and `intr_enable(true)` (in `tsc_read`, `log_write`, `spl_lock`) and calls of
`thr_switch`, which exchange the context that holds the nesting counter.

* `Cpu.next`: the machine;
* `isr_off_run`: the interrupt flag stays clear in the handler as long as every `thr_switch` goes to
  a context that counts more than the open pairs, and otherwise there is a run that sets it;
* `isr_fresh_thread`: a handler that switches to a new thread.
-/

namespace Tachyon.Isr

open Machine Threads

/-- The kernel, and the number of open pairs if the CPU is inside of an interrupt handler. -/
structure Cpu where
  kernel : Kernel
  isr : Option ℕ

/-- What the CPU does next. -/
inductive Event
  /-- `intr_disable` and `intr_enable(true)` outside of handlers. -/
  | threadDisable
  | threadEnable
  /-- `thr_create`. -/
  | create (parent thr ctx : ℕ)
  /-- An interrupt. -/
  | enter
  /-- `intr_disable` and `intr_enable(true)` of a pair in the handler. -/
  | disable
  | enable
  /-- `thr_switch`. -/
  | switch (target : ℕ)
  /-- The end of the handler. -/
  | exit
  deriving DecidableEq, Repr

def Cpu.next : Event → Cpu → Option Cpu
  | .threadDisable, ⟨k, none⟩ => some ⟨intrDisable k, none⟩
  | .threadEnable, ⟨k, none⟩ => some ⟨(intrEnable true k).2, none⟩
  -- the context comes from `kheap_alloc`
  | .create parent thr ctx, ⟨k, isr⟩ =>
    if ctx = k.current then none else some ⟨thrCreate parent thr ctx k, isr⟩
  | .enter, ⟨k, none⟩ => some ⟨isrEntry k, some 0⟩
  | .disable, ⟨k, some d⟩ => some ⟨intrDisable k, some (d + 1)⟩
  | .enable, ⟨k, some (d + 1)⟩ => some ⟨(intrEnable true k).2, some d⟩
  | .switch target, ⟨k, some d⟩ => some ⟨(thrSwitch target k).2, some d⟩
  | .exit, ⟨k, some 0⟩ => some ⟨isrExit k, none⟩
  | _, _ => none

variable {k : Kernel} {c c' c₀ : Cpu} {d ctx : ℕ} {e : Event}

/-! ### Runs -/

/-- The interrupt flag is clear inside of the handler. -/
def Off (c : Cpu) : Prop := c.isr.isSome → c.kernel.intFlag = false

/-- A counter that does not wrap around, and a switch to a context that counts more than the open
pairs. -/
def Met : Event → Cpu → Prop
  | .enter, c => c.kernel.count < 255
  | .disable, c => c.kernel.count < 255
  | .switch target, c => ∀ d, c.isr = some d →
    d < (c.kernel.context (c.kernel.thread target).context).ifdaCnt
  | _, _ => True

/-- A CPU outside of handlers. -/
structure Start (c : Cpu) : Prop where
  isr : c.isr = none
  bytes : ∀ x, (c.kernel.context x).ifdaCnt < 256

/-- Inside of the handler the counter is above the number of open pairs. -/
structure Inv (c : Cpu) : Prop where
  bytes : ∀ x, (c.kernel.context x).ifdaCnt < 256
  off : ∀ d, c.isr = some d → c.kernel.intFlag = false ∧ d < c.kernel.count

theorem Start.inv (h : Start c) : Inv c :=
  ⟨h.bytes, fun d hd => by rw [h.isr] at hd; cases hd⟩

/-- The counters are bytes. -/
def Bytes (k : Kernel) : Prop := ∀ x, (k.context x).ifdaCnt < 256

/-- A change of one counter. -/
theorem bytes_setContext {f : Context → Context} (h : Bytes k)
    (hf : (f (k.context ctx)).ifdaCnt < 256) : Bytes (k.setContext ctx f) := by
  intro x
  by_cases hx : x = ctx
  · subst hx
    simpa [Kernel.setContext] using hf
  · simpa [Kernel.setContext, Function.update_of_ne hx] using h x

theorem bytes_intrDisable (h : Bytes k) : Bytes (intrDisable k) :=
  bytes_setContext h (Nat.mod_lt _ (by decide))

theorem bytes_intrEnable (doIt : Bool) (h : Bytes k) : Bytes (intrEnable doIt k).2 := by
  have hlt : (k.context k.current).ifdaCnt - 1 < 256 := lt_of_le_of_lt (Nat.sub_le _ _) (h _)
  rw [intrEnable_kernel]
  exact bytes_setContext (f := fun c => { c with ifdaCnt := c.ifdaCnt - 1 }) h hlt

theorem bytes_isrEntry (h : Bytes k) : Bytes (isrEntry k) := by
  have hd := bytes_intrDisable h
  exact bytes_setContext hd (hd k.current)

theorem bytes_thrCreate {parent thr : ℕ} (h : Bytes k) :
    Bytes (thrCreate parent thr ctx k) := by
  intro x
  by_cases hx : x = ctx
  · subst hx
    simp [thrCreate]
  · simpa [thrCreate, Function.update_of_ne hx] using h x

/-- What one event preserves. -/
theorem Inv.next (h : Inv c) (hmet : Met e c) (hnext : Cpu.next e c = some c') :
    Inv c' := by
  obtain ⟨k, isr⟩ := c
  obtain ⟨hbytes, hoff⟩ := h
  cases e with
  | threadDisable =>
    cases isr <;> cases hnext
    exact ⟨bytes_intrDisable hbytes, fun d hd => by cases hd⟩
  | threadEnable =>
    cases isr <;> cases hnext
    exact ⟨bytes_intrEnable true hbytes, fun d hd => by cases hd⟩
  | create parent thr ctx =>
    simp only [Cpu.next] at hnext
    split_ifs at hnext with hctx
    cases hnext
    refine ⟨bytes_thrCreate hbytes, fun d hd => ?_⟩
    rw [count_thrCreate hctx]
    exact hoff d hd
  | enter =>
    cases isr <;> cases hnext
    refine ⟨bytes_isrEntry hbytes, fun d hd => ⟨rfl, ?_⟩⟩
    cases hd
    have hlt : Kernel.count k < 255 := hmet
    rw [count_isrEntry]
    omega
  | disable =>
    cases isr <;> cases hnext
    refine ⟨bytes_intrDisable hbytes, fun d hd => ⟨rfl, ?_⟩⟩
    cases hd
    have hlt : Kernel.count k < 255 := hmet
    have hgt : _ < k.count := (hoff _ rfl).2
    rw [count_intrDisable]
    omega
  | enable =>
    rcases isr with _ | _ | d <;> cases hnext
    refine ⟨bytes_intrEnable true hbytes, fun d hd => ?_⟩
    cases hd
    obtain ⟨hflag, hlt⟩ : k.intFlag = false ∧ d + 1 < k.count := hoff _ rfl
    -- an outer pair or the handler itself still counts
    have hgt : ¬k.count ≤ 1 := by omega
    rw [intFlag_intrEnable, count_intrEnable, hflag]
    exact ⟨by simp [hgt], by omega⟩
  | switch target =>
    cases isr <;> cases hnext
    refine ⟨?_, fun d hd => ?_⟩
    · rw [thrSwitch_kernel]
      exact hbytes
    · rw [intFlag_thrSwitch, count_thrSwitch]
      exact ⟨(hoff d hd).1, hmet d hd⟩
  | exit =>
    rcases isr with _ | _ | d <;> cases hnext
    exact ⟨bytes_intrEnable false hbytes, fun d hd => by cases hd⟩

/-! ### The condition is needed -/

/-- A pair sets the interrupt flag at counter zero. -/
theorem not_off_of_pair (h : k.count = 0) :
    ∃ c, exec Cpu.next [.disable, .enable] ⟨k, some d⟩ = some c ∧ ¬Off c := by
  refine ⟨_, rfl, fun hoff => ?_⟩
  have : (intrEnable true (intrDisable k)).2.intFlag = false := hoff rfl
  rw [intFlag_intrEnable, count_intrDisable, h] at this
  simp at this

/-- With no more counts than open pairs, closing them sets the interrupt flag. -/
theorem not_off_of_close (h : k.count ≤ d + 1) :
    ∃ es c, exec Cpu.next es ⟨k, some (d + 1)⟩ = some c ∧ ¬Off c := by
  induction d generalizing k with
  | zero =>
    refine ⟨[.enable], _, rfl, fun hoff => ?_⟩
    have : (intrEnable true k).2.intFlag = false := hoff rfl
    rw [intFlag_intrEnable, decide_eq_true h, Bool.or_true] at this
    cases this
  | succ d ih =>
    obtain ⟨es, c, hes, hc⟩ := ih (k := (intrEnable true k).2) (by rw [count_intrEnable]; omega)
    exact ⟨.enable :: es, c, hes, hc⟩

theorem Inv.not_off (h : Inv c) (hmet : ¬Met e c) (hnext : Cpu.next e c = some c') :
    ∃ es c'', exec Cpu.next es c' = some c'' ∧ ¬Off c'' := by
  obtain ⟨k, isr⟩ := c
  have hbyte : k.count < 256 := h.bytes _
  cases e with
  | enter =>
    cases isr <;> cases hnext
    have h255 : ¬k.count < 255 := hmet
    refine ⟨[.disable, .enable], not_off_of_pair ?_⟩
    rw [count_isrEntry, show k.count = 255 by omega]
  | disable =>
    cases isr <;> cases hnext
    have h255 : ¬k.count < 255 := hmet
    refine not_off_of_close ?_
    rw [count_intrDisable, show k.count = 255 by omega]
    omega
  | switch target =>
    rcases isr with _ | d <;> cases hnext
    have hle : (k.context (k.thread target).context).ifdaCnt ≤ d := by
      by_contra hgt
      refine hmet fun d' hd' => ?_
      cases hd'
      exact Nat.lt_of_not_le hgt
    rw [← count_thrSwitch] at hle
    cases d with
    | zero => exact ⟨[.disable, .enable], not_off_of_pair (Nat.le_zero.1 hle)⟩
    | succ d => exact not_off_of_close hle
  | threadDisable => exact absurd trivial hmet
  | threadEnable => exact absurd trivial hmet
  | create parent thr ctx => exact absurd trivial hmet
  | enable => exact absurd trivial hmet
  | exit => exact absurd trivial hmet

/-! ### Runs from a thread -/

/-- **Interrupts stay off inside of an interrupt handler** in every run whose counters do not wrap
around and whose switches all go to contexts that count more than the open pairs.  From any such run
an event of another kind leads to a run that sets the flag inside of the handler. -/
theorem isr_off_run (h₀ : Start c₀) (hrun : Runs Cpu.next Met c₀ c) :
    Off c ∧ ∀ e c', Cpu.next e c = some c' → ¬Met e c →
      ∃ es c'', exec Cpu.next es c' = some c'' ∧ ¬Off c'' := by
  have hinv : Inv c := hrun.inv h₀.inv fun h hmet hnext => h.next hmet hnext
  refine ⟨fun hisr => ?_, fun e c' hnext hmet => hinv.not_off hmet hnext⟩
  obtain ⟨d, hd⟩ := Option.isSome_iff_exists.1 hisr
  exact (hinv.off d hd).1

/-- Thread 1 runs with interrupts enabled. -/
def oneThread : Cpu where
  kernel :=
    { thread := fun x => ⟨.runnable, .normal, 1, 16 * x, 0⟩
      context := fun x => ⟨true, 0, 0, x / 16⟩
      process := fun _ => ⟨0, 0x1000, .normal⟩
      current := 16
      intFlag := true
      cr3 := 0x1000 }
  isr := none

theorem oneThread_start : Start oneThread := ⟨rfl, fun _ => show 0 < 256 by decide⟩

/-- A handler switches to a new thread, whose context counts zero, and reads the time. -/
theorem isr_fresh_thread : Start oneThread ∧
    ∃ c, exec Cpu.next [.create 1 2 32, .enter, .switch 2, .disable, .enable] oneThread = some c ∧
      c.isr = some 0 ∧ ¬Off c := by
  refine ⟨oneThread_start, _, rfl, rfl, fun hoff => ?_⟩
  have : true = false := hoff rfl
  cases this

/-- A handler that stays with its thread. -/
theorem isr_off_run_pair : ∃ c, Runs Cpu.next Met oneThread c ∧ c.isr = some 1 ∧ Off c := by
  have hrun : Runs Cpu.next Met oneThread _ := .step (e := .disable) (.step (e := .enter) .start
    (show 0 < 255 by decide) rfl) (show 1 < 255 by decide) rfl
  exact ⟨_, hrun, rfl, (isr_off_run oneThread_start hrun).1⟩

end Tachyon.Isr
