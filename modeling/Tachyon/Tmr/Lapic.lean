import Tachyon.Tmr.Model

/-!
# The timer of the local APIC (`lapic_tmr.c`)

`tmr_set_next_tick` sets the timer generator to the time until the first pending timer expires, which
may be any number of microseconds.  The count of the local APIC is a 32-bit register, and zero stops
it.

* `nextTimeout`, `tmrSetNextTick_timeout`: the timeouts of `tmr_set_next_tick`;
* `lapicTmrSched`: the source;
* `lapic_count_exact`: the count is right exactly if it fits into its register.
-/

namespace Tachyon.Tmr

open Prog Tachyon.Lists

variable {s s' : State} {fuel expire current : ℕ}

/-- The timeout of `tmr_set_next_tick` for the first timer. -/
def nextTimeout (expire current : ℕ) : ℕ :=
  if expire ≤ add64 current tmrMinTimeout then tmrMinTimeout else sub64 expire current

/-- The generator is set for a timer that is there, or to the longest timeout. -/
theorem tmrSetNextTick_timeout (h : tmrSetNextTick fuel s = .ok ((), s')) :
    ∃ us rest, s'.timeouts = us :: rest ∧ (us = tmrMaxTimeout ∨
      ∃ a t, s'.timer a = some t ∧ us = nextTimeout t.expire (s.clock s.reads)) := by
  obtain ⟨now, s1, hnow, h1⟩ := bind_eq_ok.1 h
  obtain ⟨_, s2, -, h2⟩ := bind_eq_ok.1 h1
  obtain ⟨_, s3, hget, h3⟩ := bind_eq_ok.1 h2
  obtain ⟨node, s4, -, h4⟩ := bind_eq_ok.1 h3
  cases hnow
  split_ifs at h4
  · obtain ⟨n, s5, -, h5⟩ := bind_eq_ok.1 h4
    obtain ⟨t, s6, ht, h6⟩ := bind_eq_ok.1 h5
    unfold loadTimer at ht
    split at ht
    · cases ht
      cases h6
      exact ⟨_, _, rfl, Or.inr ⟨n.data, _, by assumption, rfl⟩⟩
    · cases ht
  · cases h4
    exact ⟨_, _, rfl, Or.inl rfl⟩

/-! ### The local APIC -/

/-- `IRQ_LAPIC_TIMER`. -/
def irqLapicTimer : ℕ := 0x24 - 1

/-- `_lapic_hz`, and the registers of the local APIC that the timer uses. -/
structure LapicTmr where
  lapicHz : ℕ
  lvtTimer : ℕ
  initialCount : ℕ
  deriving DecidableEq, Repr

/-- `lapic_tmr_sched`; the registers have 32 bits. -/
def lapicTmrSched (us : ℕ) (d : LapicTmr) : LapicTmr :=
  let cnt := mul64 us d.lapicHz / 1000000
  { d with lvtTimer := irqLapicTimer, initialCount := cnt % 2 ^ 32 }

/-- **The timer hardware gets the right count** exactly if that fits into the register, and the
timeout is not zero. -/
theorem lapic_count_exact {d : LapicTmr} (hmin : 1000000 ≤ d.lapicHz) (expire current : ℕ) :
    (nextTimeout expire current * d.lapicHz < 2 ^ 64 ∧
      (lapicTmrSched (nextTimeout expire current) d).initialCount =
        nextTimeout expire current * d.lapicHz / 1000000 ∧
      (lapicTmrSched (nextTimeout expire current) d).initialCount ≠ 0) ↔
    nextTimeout expire current * d.lapicHz < 2 ^ 32 * 1000000 ∧
      nextTimeout expire current ≠ 0 := by
  generalize nextTimeout expire current = us
  constructor
  · rintro ⟨-, hcount, hne⟩
    have hfits : (lapicTmrSched us d).initialCount < 2 ^ 32 := Nat.mod_lt _ (by norm_num)
    refine ⟨by omega, ?_⟩
    rintro rfl
    rw [Nat.zero_mul] at hcount
    omega
  · rintro ⟨hfits, hne⟩
    have hcount : (lapicTmrSched us d).initialCount = us * d.lapicHz / 1000000 := by
      show mul64 us d.lapicHz / 1000000 % 2 ^ 32 = _
      rw [mul64_of_lt (by omega), Nat.mod_eq_of_lt (by omega)]
    have hpos : 1000000 ≤ us * d.lapicHz :=
      hmin.trans (Nat.le_mul_of_pos_left _ (Nat.pos_of_ne_zero hne))
    exact ⟨by omega, hcount, by omega⟩

/-- The longest timeout without a timer, at 10 GHz. -/
theorem lapic_count_exact_tick : (lapicTmrSched (nextTimeout 15000 5000)
    ⟨10000000000, 0, 0⟩).initialCount = 100000000 :=
  ((lapic_count_exact (d := ⟨10000000000, 0, 0⟩) (by decide) 15000 5000).2
    ⟨by decide, by decide⟩).2.1

/-- A timer that expires in `2 ^ 32` microseconds stops the timer. -/
theorem lapic_count_zero : nextTimeout 0x100001388 0x1388 = 0x100000000 ∧
    (lapicTmrSched (nextTimeout 0x100001388 0x1388) ⟨1000000000, 0, 0⟩).initialCount = 0 := by
  decide

end Tachyon.Tmr
