import Tachyon.Lib.Machine
import Tachyon.Lib.Prog
import Tachyon.Lib.Word

/-!
# The system time of the realtime clock (`rtc.c`)

The clock counts a fixed number of microseconds for each tick, and adds what the time stamp counter
says about the time since the last one.  The time stamp counter never goes back.

* `rtcTickHandler`, `rtcSystime`, `rtcSetRate`: the source, for a calibrated clock;
* `Event`, `Config.next`: ticks, changes of the rate and reads in any order; a tick can also come in
  the course of a read, between the accesses to the time stamp counter, `_tsc_at_tick` and
  `_systime`;
* `Steady`: a tick makes up for the time that was interpolated so far, and nothing overflows;
* `systime_monotone`: then the time never goes back, and otherwise it can.
-/

namespace Tachyon.Rtc

open Prog Machine Option

/-- `RTC_RATE_8192HZ` and `RTC_RATE_2HZ`, the bounds for a rate. -/
def rtcRate8192Hz : ℕ := 0x3
def rtcRate2Hz : ℕ := 0xF

/-- `RTC_A_DIVIDER_32768`. -/
def rtcADivider32768 : ℕ := 2 <<< 4

/-- `RTC_INCREMENT_US`. -/
def rtcIncrementUs (x : ℕ) : ℕ := 1 * 1000 * 1000 / (32768 >>> (x - 1))

/-- The variables of the source, and register A of the device. -/
structure Clock where
  systime : ℕ
  increment : ℕ
  tscAtTick : ℕ
  tscHz : ℕ
  stateA : ℕ
  deriving DecidableEq, Repr

/-- `rtc_tick_handler` without calibration; `t` is the time stamp it reads. -/
def rtcTickHandler (t : ℕ) (k : Clock) : Clock :=
  { k with systime := add64 k.systime k.increment, tscAtTick := t }

/-- `tsc_us` in `rtc_systime`; the difference is signed. -/
def Clock.tscUs (k : Clock) (current : ℕ) : ℕ :=
  let tscDiff := sub64 current k.tscAtTick
  if k.tscHz ≠ 0 ∧ 0 < toSigned tscDiff then mul64 tscDiff 1000000 / k.tscHz else 0

/-- `rtc_systime`, if no tick comes in between; `current` is the time stamp it reads. -/
def rtcSystime (current : ℕ) (k : Clock) : ℕ := add64 k.systime (k.tscUs current)

/-- `rtc_set_rate`. -/
def rtcSetRate (rate : ℕ) : Prog Clock ℕ :=
  if rate < rtcRate8192Hz ∨ rtcRate2Hz < rate then halt (.fatal "RTC rate out of range: 0x%x!\n")
  else
    get >>= fun k =>
    modify (fun k => { k with stateA := rtcADivider32768 ||| rate,
                              increment := rtcIncrementUs rate }) >>= fun _ =>
    pure (k.stateA &&& 0xF)

/-! ### Ticks, changes of the rate and reads -/

/-- How far a call of `rtc_systime` is: it has read the time stamp counter, or computed `tsc_us`. -/
inductive Reader
  | idle
  | read (current : ℕ)
  | interpolated (us : ℕ)
  deriving DecidableEq, Repr

/-- The clock, the last value of the time stamp counter, the call of `rtc_systime` that is in
progress, and the results of those before, the latest first. -/
structure Config where
  clock : Clock
  tsc : ℕ
  reader : Reader
  reads : List ℕ
  deriving DecidableEq, Repr

/-- A tick, a change of the rate, and the steps of `rtc_systime`. -/
inductive Event
  | tick (t : ℕ)
  | setRate (rate : ℕ)
  | tscRead (t : ℕ)
  | interpolate
  | finish

/-- A value that the time stamp counter can have next. -/
def Config.Later (c : Config) (t : ℕ) : Prop := c.tsc ≤ t ∧ t < 2 ^ 64

instance (c : Config) (t : ℕ) : Decidable (c.Later t) := inferInstanceAs (Decidable (_ ∧ _))

def Config.next : Event → Config → Option Config
  | .tick t, c =>
    if c.Later t then some { c with clock := rtcTickHandler t c.clock, tsc := t } else none
  | .setRate rate, c =>
    match rtcSetRate rate c.clock with
    | .ok (_, k) => some { c with clock := k }
    | .error _ => none
  | .tscRead t, c =>
    match c.reader with
    | .idle => if c.Later t then some { c with tsc := t, reader := .read t } else none
    | _ => none
  | .interpolate, c =>
    match c.reader with
    | .read current => some { c with reader := .interpolated (c.clock.tscUs current) }
    | _ => none
  | .finish, c =>
    match c.reader with
    | .interpolated us =>
      some { c with reader := .idle, reads := add64 c.clock.systime us :: c.reads }
    | _ => none

/-- A call of `rtc_systime` that no tick interrupts. -/
def readAt (t : ℕ) : List Event := [.tscRead t, .interpolate, .finish]

/-- A calibrated clock, before the first read. -/
structure Calibrated (c : Config) : Prop where
  hz : 0 < c.clock.tscHz
  tsc : c.clock.tscAtTick ≤ c.tsc ∧ c.tsc < 2 ^ 64
  reads : c.reader = .idle ∧ c.reads = []

/-- The microseconds since the last tick, in exact arithmetic. -/
def Clock.elapsed (k : Clock) (t : ℕ) : ℕ := (t - k.tscAtTick) * 1000000 / k.tscHz

/-- The signed arithmetic of `rtc_systime` does not overflow. -/
def Clock.Fits (k : Clock) (t : ℕ) : Prop :=
  (t - k.tscAtTick) * 1000000 < 2 ^ 63 ∧ k.tscAtTick - t ≤ 2 ^ 63

/-- A tick adds at least what was interpolated since the one before, and does not come between the
accesses to `_tsc_at_tick` and `_systime`, unless the interpolated time is `0`; and nothing
overflows. -/
def Steady : Event → Config → Prop
  | .tick t, c => c.clock.elapsed t ≤ c.clock.increment ∧
      c.clock.systime + c.clock.increment < 2 ^ 64 ∧ ∀ us, c.reader = .interpolated us → us = 0
  | .interpolate, c => ∀ current, c.reader = .read current → c.clock.Fits current
  | .finish, c => ∀ us, c.reader = .interpolated us → c.clock.systime + us < 2 ^ 64
  | _, _ => True

/-! ### The functions -/

variable {k : Clock} {c c' : Config} {t old rate : ℕ}

theorem Clock.elapsed_mono (k : Clock) {t t' : ℕ} (h : t ≤ t') : k.elapsed t ≤ k.elapsed t' :=
  Nat.div_le_div_right (Nat.mul_le_mul_right _ (Nat.sub_le_sub_right h _))

/-- Without overflow the interpolated time is exact, and `0` for a tick that came later. -/
theorem Clock.tscUs_eq (hz : 0 < k.tscHz) (hat : k.tscAtTick < 2 ^ 64) (ht : t < 2 ^ 64)
    (hfits : k.Fits t) : k.tscUs t = k.elapsed t := by
  unfold Clock.tscUs Clock.elapsed
  dsimp only
  obtain ⟨hprod, hback⟩ := hfits
  rcases Nat.lt_trichotomy k.tscAtTick t with hlt | heq | hgt
  · have hdiff : sub64 t k.tscAtTick = t - k.tscAtTick := sub64_of_le hlt.le ht
    have hsigned : toSigned (t - k.tscAtTick) = (t - k.tscAtTick : ℕ) :=
      toSigned_of_lt (by omega)
    rw [hdiff, hsigned, mul64_of_lt (by omega)]
    exact if_pos ⟨hz.ne', by omega⟩
  · have hdiff : sub64 t k.tscAtTick = 0 := by
      rw [heq, sub64_of_le le_rfl ht, Nat.sub_self]
    have hzero : toSigned 0 = 0 := by decide
    rw [hdiff, if_neg (by rw [hzero]; omega), heq]
    simp
  · have hdiff : sub64 t k.tscAtTick = 2 ^ 64 - (k.tscAtTick - t) := by
      unfold sub64
      omega
    have hneg : ¬ 0 < toSigned (2 ^ 64 - (k.tscAtTick - t)) := by
      unfold toSigned
      split_ifs <;> omega
    have hzero : t - k.tscAtTick = 0 := by omega
    rw [hdiff, if_neg fun h => hneg h.2, hzero]
    simp

/-- What a change of the rate leaves behind. -/
theorem rtcSetRate_ok {k' : Clock} (h : rtcSetRate rate k = .ok (old, k')) :
    old = k.stateA &&& 0xF ∧
      k' = { k with stateA := rtcADivider32768 ||| rate, increment := rtcIncrementUs rate } := by
  unfold rtcSetRate at h
  split_ifs at h with hrate
  · cases h
  · cases h
    exact ⟨rfl, rfl⟩

/-- A call without interruption returns what `rtc_systime` computes. -/
theorem exec_readAt (hidle : c.reader = .idle) (hlater : c.Later t) :
    exec Config.next (readAt t) c =
      some { c with tsc := t, reads := rtcSystime t c.clock :: c.reads } := by
  obtain ⟨clock, tsc, reader, reads⟩ := c
  cases hidle
  have hread : Config.next (.tscRead t) ⟨clock, tsc, .idle, reads⟩ =
      some ⟨clock, t, .read t, reads⟩ := if_pos hlater
  rw [readAt, exec_cons hread]
  rfl

/-! ### The invariant -/

/-- The time the call in progress has found so far. -/
def Config.found (c : Config) : ℕ :=
  match c.reader with
  | .idle => c.clock.elapsed c.tsc
  | .read current => c.clock.elapsed current
  | .interpolated us => us

/-- The results are in order, and the next one is not below them. -/
structure Inv (c : Config) : Prop where
  hz : 0 < c.clock.tscHz
  tscAtTick_le : c.clock.tscAtTick ≤ c.tsc
  tsc_lt : c.tsc < 2 ^ 64
  current_le : ∀ current, c.reader = .read current → current ≤ c.tsc
  found_le : c.found ≤ c.clock.elapsed c.tsc
  reads_le : ∀ r ∈ c.reads, r ≤ c.clock.systime + c.found
  sorted : c.reads.Pairwise (· ≥ ·)

theorem Calibrated.inv (h : Calibrated c) : Inv c := by
  obtain ⟨hidle, hnone⟩ := h.reads
  refine ⟨h.hz, h.tsc.1, h.tsc.2, ?_, ?_, ?_, ?_⟩
  · intro current hread
    cases hidle.symm.trans hread
  · simp [Config.found, hidle]
  · simp [hnone]
  · simp [hnone]

section

variable (h : Inv c)
include h

theorem Inv.found_le_at (ht : c.Later t) : c.found ≤ c.clock.elapsed t :=
  h.found_le.trans (c.clock.elapsed_mono ht.1)

/-- The time counted at a tick makes up for what was found before. -/
theorem Inv.tick (ht : c.Later t) (hsteady : Steady (.tick t) c) :
    Inv { c with clock := rtcTickHandler t c.clock, tsc := t } := by
  obtain ⟨helapsed, hfits, hlate⟩ := hsteady
  have hsystime : add64 c.clock.systime c.clock.increment =
      c.clock.systime + c.clock.increment := add64_of_lt hfits
  have hfound := (h.found_le_at ht).trans helapsed
  refine ⟨h.hz, le_rfl, ht.2, ?_, ?_, ?_, h.sorted⟩
  · intro current hread
    exact (h.current_le current hread).trans ht.1
  · unfold Config.found
    cases hreader : c.reader with
    | idle => exact le_rfl
    | read current => exact Clock.elapsed_mono _ ((h.current_le current hreader).trans ht.1)
    | interpolated us =>
      rw [hlate us hreader]
      exact Nat.zero_le _
  · intro r hr
    have hle := h.reads_le r hr
    show r ≤ add64 c.clock.systime c.clock.increment + _
    omega

theorem Inv.setRate (hset : rtcSetRate rate c.clock = .ok (old, k)) :
    Inv { c with clock := k } := by
  obtain ⟨-, rfl⟩ := rtcSetRate_ok hset
  exact ⟨h.hz, h.tscAtTick_le, h.tsc_lt, h.current_le, h.found_le, h.reads_le, h.sorted⟩

theorem Inv.tscRead (ht : c.Later t) : Inv { c with tsc := t, reader := .read t } := by
  refine ⟨h.hz, h.tscAtTick_le.trans ht.1, ht.2, ?_, le_rfl, ?_, h.sorted⟩
  · rintro _ ⟨⟩
    exact le_rfl
  · intro r hr
    have hle := h.reads_le r hr
    have hfound := h.found_le_at ht
    show r ≤ c.clock.systime + c.clock.elapsed t
    omega

section

variable {current : ℕ} (hread : c.reader = .read current) (hfits : c.clock.Fits current)
include hread hfits

theorem Inv.tscUs :
    c.clock.tscUs current = c.found := by
  have hat : c.clock.tscAtTick < 2 ^ 64 := h.tscAtTick_le.trans_lt h.tsc_lt
  have hlt : current < 2 ^ 64 := (h.current_le current hread).trans_lt h.tsc_lt
  rw [Clock.tscUs_eq h.hz hat hlt hfits]
  simp [Config.found, hread]

theorem Inv.interpolate :
    Inv { c with reader := .interpolated (c.clock.tscUs current) } := by
  have hfound : Config.found { c with reader := .interpolated (c.clock.tscUs current) } =
      c.found := h.tscUs hread hfits
  refine ⟨h.hz, h.tscAtTick_le, h.tsc_lt, ?_, ?_, ?_, h.sorted⟩
  · rintro _ ⟨⟩
  · rw [hfound]
    exact h.found_le
  · rw [hfound]
    exact h.reads_le

end

theorem Inv.finish {us : ℕ} (hus : c.reader = .interpolated us)
    (hfits : c.clock.systime + us < 2 ^ 64) :
    Inv { c with reader := .idle, reads := add64 c.clock.systime us :: c.reads } := by
  have hsum : add64 c.clock.systime us = c.clock.systime + us := add64_of_lt hfits
  have hfound : c.found = us := by simp [Config.found, hus]
  have hle := h.found_le
  have hreads : ∀ r ∈ c.reads, r ≤ c.clock.systime + us := by
    rw [← hfound]
    exact h.reads_le
  refine ⟨h.hz, h.tscAtTick_le, h.tsc_lt, ?_, le_rfl, ?_, ?_⟩
  · rintro _ ⟨⟩
  · intro r hr
    show r ≤ c.clock.systime + c.clock.elapsed c.tsc
    rcases List.mem_cons.1 hr with rfl | hold
    · omega
    · have := hreads r hold
      omega
  · rw [hsum]
    exact List.pairwise_cons.2 ⟨hreads, h.sorted⟩

/-- Every steady event keeps the invariant. -/
theorem Inv.next {e : Event} (hsteady : Steady e c) (hnext : c.next e = some c') : Inv c' := by
  cases e with
  | tick t =>
    simp only [Config.next] at hnext
    split_ifs at hnext with hlater
    cases hnext
    exact h.tick hlater hsteady
  | setRate rate =>
    simp only [Config.next] at hnext
    cases hset : rtcSetRate rate c.clock with
    | error e =>
      rw [hset] at hnext
      cases hnext
    | ok r =>
      rw [hset] at hnext
      cases hnext
      exact h.setRate hset
  | tscRead t =>
    simp only [Config.next] at hnext
    cases hreader : c.reader with
    | idle =>
      simp only [hreader] at hnext
      split_ifs at hnext with hlater
      cases hnext
      exact h.tscRead hlater
    | read current => simp [hreader] at hnext
    | interpolated us => simp [hreader] at hnext
  | interpolate =>
    simp only [Config.next] at hnext
    cases hreader : c.reader with
    | idle => simp [hreader] at hnext
    | read current =>
      simp only [hreader, some.injEq] at hnext
      subst hnext
      exact h.interpolate hreader (hsteady current hreader)
    | interpolated us => simp [hreader] at hnext
  | finish =>
    simp only [Config.next] at hnext
    cases hreader : c.reader with
    | idle => simp [hreader] at hnext
    | read current => simp [hreader] at hnext
    | interpolated us =>
      simp only [hreader, some.injEq] at hnext
      subst hnext
      exact h.finish hreader (hsteady us hreader)

end

/-! ### Runs -/

section

variable (ht : c.Later t) (hfits : c.clock.Fits t)
  (hbefore : c.clock.systime + c.clock.elapsed t < 2 ^ 64)
  (hcount : c.clock.systime + c.clock.increment < 2 ^ 64)
include ht hfits hbefore hcount

/-- A read right behind a tick goes back exactly if the tick counts less than the read right before
it has interpolated. -/
theorem systime_around_tick (h : Inv c) :
    rtcSystime t (rtcTickHandler t c.clock) < rtcSystime t c.clock ↔
      c.clock.increment < c.clock.elapsed t := by
  have hat : c.clock.tscAtTick < 2 ^ 64 := h.tscAtTick_le.trans_lt h.tsc_lt
  have husTick : (rtcTickHandler t c.clock).tscUs t = 0 := by
    have hfitsTick : (rtcTickHandler t c.clock).Fits t := by simp [Clock.Fits, rtcTickHandler]
    rw [Clock.tscUs_eq (k := rtcTickHandler t c.clock) h.hz ht.2 ht.2 hfitsTick]
    simp [Clock.elapsed, rtcTickHandler]
  have hsumTick : (rtcTickHandler t c.clock).systime = c.clock.systime + c.clock.increment :=
    add64_of_lt hcount
  unfold rtcSystime
  rw [husTick, hsumTick, Clock.tscUs_eq h.hz hat ht.2 hfits, add64_of_lt hbefore,
    add64_of_lt (by omega)]
  omega

/-- Behind any steady run, a read right behind a tick gives less than one right before it exactly if
the tick counts less than was interpolated. -/
theorem exec_tick_not_sorted {c₀ : Config} (hcal : Calibrated c₀)
    (hrun : Runs Config.next Steady c₀ c) (hidle : c.reader = .idle) :
    ∃ c' before behind, exec Config.next (readAt t ++ .tick t :: readAt t) c = some c' ∧
      c'.reads = behind :: before :: c.reads ∧
      (behind < before ↔ c.clock.increment < c.clock.elapsed t) := by
  have hagain : ∀ {d : Config}, d.tsc = t → d.Later t := fun hd => ⟨hd.le, ht.2⟩
  have htick : ∀ {d : Config}, d.tsc = t → d.next (.tick t) =
      some { d with clock := rtcTickHandler t d.clock, tsc := t } := fun hd => if_pos (hagain hd)
  have hinv : Inv c := Runs.inv hcal.inv (fun h hsteady hnext => h.next hsteady hnext) hrun
  refine ⟨⟨rtcTickHandler t c.clock, t, c.reader, rtcSystime t (rtcTickHandler t c.clock) ::
    rtcSystime t c.clock :: c.reads⟩, _, _, ?_, rfl,
    systime_around_tick ht hfits hbefore hcount hinv⟩
  rw [exec_append, exec_readAt hidle ht, bind_some, exec_cons (htick rfl)]
  exact exec_readAt hidle (hagain rfl)

end

/-- **The system time never goes back** along a run in which each tick counts at least what was
interpolated since the one before, and comes in no call of `rtc_systime` behind its interpolation. -/
theorem systime_monotone {c₀ c : Config} (hcal : Calibrated c₀)
    (hrun : Runs Config.next Steady c₀ c) : c.reads.Pairwise (· ≥ ·) := by
  have hinv : Inv c := Runs.inv hcal.inv (fun h hsteady hnext => h.next hsteady hnext) hrun
  exact hinv.sorted

/-- A clock with 8 ticks and 10⁹ time stamps in a second. -/
def eightHz : Config := ⟨⟨0, 125000, 0, 1000000000, 0x2D⟩, 0, .idle, []⟩

theorem systime_monotone_eightHz : ∃ c, Runs Config.next Steady eightHz c ∧
    c.reads = [125000, 124999] ∧ c.reads.Pairwise (· ≥ ·) := by
  have hcal : Calibrated eightHz := ⟨by decide, by decide, by decide⟩
  have hrun : Runs Config.next Steady eightHz _ :=
    .step (e := .finish) (.step (e := .interpolate) (.step (e := .tscRead 125000000)
      (.step (e := .tick 125000000)
        (.step (e := .finish) (.step (e := .interpolate) (.step (e := .tscRead 124999999) .start
          trivial rfl)
          (by rintro _ ⟨⟩; unfold Clock.Fits; decide) rfl) (by rintro _ ⟨⟩; decide) rfl)
        ⟨by decide, by decide, by rintro _ ⟨⟩⟩ rfl)
      trivial rfl) (by rintro _ ⟨⟩; unfold Clock.Fits; decide) rfl) (by rintro _ ⟨⟩; decide) rfl
  exact ⟨_, hrun, by decide, systime_monotone hcal hrun⟩

/-- A tick that comes one microsecond late. -/
theorem late_tick_goes_back : Calibrated eightHz ∧ ∃ c,
    exec Config.next (readAt 125001000 ++ .tick 125001000 :: readAt 125001000) eightHz = some c ∧
      c.reads = [125000, 125001] :=
  ⟨⟨by decide, by decide, by decide⟩, _, rfl, by decide⟩

end Tachyon.Rtc
