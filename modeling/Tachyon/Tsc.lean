import Tachyon.Lib.Word

/-!
# The time stamp counter (`tsc.c`)

`tsc_read` puts the two halves that `rdtsc` delivers together with inline assembly: `shl $31, %rbx`
and `or %rbx, %rax`.  The upper half is in `rdx`.

* `Instr`, `Instr.exec`: the instructions on the registers; `tscRead`: the source;
* `tscRead_value`: what is read instead of the upper half;
* `tsc_read_elapsed`: when the difference of two reads is the time between them.
-/

namespace Tachyon.Tsc

/-- The registers that the code uses. -/
inductive Reg
  | rax
  | rbx
  | rdx
  deriving DecidableEq, Repr

/-- The contents of the registers, 64-bit words. -/
abbrev Regs := Reg → ℕ

inductive Instr
  | rdtsc
  | shl (count : ℕ) (dst : Reg)
  | or (src dst : Reg)
  deriving DecidableEq, Repr

/-- One instruction, at the value `tsc` of the counter. -/
def Instr.exec (tsc : ℕ) (regs : Regs) : Instr → Regs
  | .rdtsc =>
    Function.update (Function.update regs .rax (tsc % 2 ^ 32)) .rdx (tsc / 2 ^ 32 % 2 ^ 32)
  | .shl count dst => Function.update regs dst ((regs dst <<< count) % 2 ^ 64)
  | .or src dst => Function.update regs dst (regs dst ||| regs src)

/-- The assembly of `tsc_read`. -/
def tscReadCode : List Instr := [.rdtsc, .shl 31 .rbx, .or .rbx .rax]

/-- `tsc_read`: the variable `c` is `rax` behind the code. -/
def tscRead (tsc : ℕ) (regs : Regs) : ℕ := tscReadCode.foldl (Instr.exec tsc) regs .rax

variable {t t₁ t₂ : ℕ} {r r₁ r₂ : Regs}

/-- The upper half of the counter is not used. -/
theorem tscRead_eq (t : ℕ) (r : Regs) : tscRead t r = t % 2 ^ 32 ||| (r .rbx <<< 31) % 2 ^ 64 := rfl

/-- An odd number in `rbx` sets bit 31 of the result, where the counter does not have it. -/
def SetsBit31 (t : ℕ) (r : Regs) : Prop := r .rbx % 2 = 1 ∧ t % 2 ^ 32 < 2 ^ 31

instance : Decidable (SetsBit31 t r) := inferInstanceAs (Decidable (_ ∧ _))

/-- Bit 31 of a lower half. -/
theorem or_bit31 {lo : ℕ} (h : lo < 2 ^ 32) :
    2 ^ 31 ||| lo = if lo < 2 ^ 31 then lo + 2 ^ 31 else lo := by
  split_ifs with hlow
  · rw [or_eq_add_of_dvd (k := 31) dvd_rfl hlow, Nat.add_comm]
  · obtain ⟨l, rfl⟩ : ∃ l, lo = 2 ^ 31 + l := ⟨lo - 2 ^ 31, by omega⟩
    rw [← or_eq_add_of_dvd (k := 31) dvd_rfl (by omega), ← Nat.lor_assoc, Nat.or_self]

/-- Half of `rbx` stands for the upper half of the counter. -/
theorem tscRead_value (t : ℕ) (r : Regs) : tscRead t r =
    r .rbx / 2 % 2 ^ 32 * 2 ^ 32 + (t % 2 ^ 32 + if SetsBit31 t r then 2 ^ 31 else 0) := by
  have hlo : t % 2 ^ 32 < 2 ^ 32 := Nat.mod_lt _ (by norm_num)
  have hupper : 2 ^ 32 ∣ r .rbx / 2 % 2 ^ 32 * 2 ^ 32 := Dvd.intro_left _ rfl
  rw [tscRead_eq, Nat.lor_comm, Nat.shiftLeft_eq]
  rcases Nat.mod_two_eq_zero_or_one (r .rbx) with heven | hodd
  · have hshift : r .rbx * 2 ^ 31 % 2 ^ 64 = r .rbx / 2 % 2 ^ 32 * 2 ^ 32 := by omega
    have hbit : ¬ SetsBit31 t r := fun h => by have := h.1; omega
    rw [hshift, or_eq_add_of_dvd hupper hlo, if_neg hbit, Nat.add_zero]
  · have hshift : r .rbx * 2 ^ 31 % 2 ^ 64 = r .rbx / 2 % 2 ^ 32 * 2 ^ 32 + 2 ^ 31 := by omega
    have hbit : SetsBit31 t r ↔ t % 2 ^ 32 < 2 ^ 31 := and_iff_right hodd
    rw [hshift, ← or_eq_add_of_dvd hupper (by norm_num), Nat.lor_assoc, or_bit31 hlo, if_congr hbit
      rfl rfl]
    split_ifs with hlow
    · exact or_eq_add_of_dvd hupper (by omega)
    · exact or_eq_add_of_dvd hupper hlo

/-- **Two reads differ by the elapsed cycles** exactly if half of `rbx` has changed by as much as the
upper half of the counter, and bit 31 is set from outside in both or in none of the reads. -/
theorem tsc_read_elapsed (hle : t₁ ≤ t₂) (hlt : t₂ < 2 ^ 64) :
    sub64 (tscRead t₂ r₂) (tscRead t₁ r₁) = t₂ - t₁ ↔
      (r₂ .rbx / 2 + t₁ / 2 ^ 32) % 2 ^ 32 = (r₁ .rbx / 2 + t₂ / 2 ^ 32) % 2 ^ 32 ∧
      (SetsBit31 t₁ r₁ ↔ SetsBit31 t₂ r₂) := by
  have hlo : ∀ t r, t % 2 ^ 32 + (if SetsBit31 t r then 2 ^ 31 else 0) < 2 ^ 32 := fun t r => by
    split_ifs with h
    · have := h.2
      omega
    · exact Nat.mod_lt _ (by norm_num)
  have hlo₁ := hlo t₁ r₁
  have hlo₂ := hlo t₂ r₂
  rw [tscRead_value, tscRead_value]
  by_cases hb₁ : SetsBit31 t₁ r₁ <;> by_cases hb₂ : SetsBit31 t₂ r₂ <;>
    simp only [hb₁, hb₂, if_true, if_false, iff_true, iff_false, not_true, and_true,
      and_false, sub64] at hlo₁ hlo₂ ⊢ <;> omega

theorem tsc_read_elapsed_short :
    sub64 (tscRead 0x100005000 fun _ => 6) (tscRead 0x100001000 fun _ => 6) = 0x4000 :=
  (tsc_read_elapsed (by decide) (by decide)).2 ⟨rfl, by decide⟩

/-- One cycle later the lower half starts again at zero. -/
theorem tsc_read_falls_back : tscRead 0xFFFFFFFF (fun _ => 0) = 0xFFFFFFFF ∧
    tscRead 0x100000000 (fun _ => 0) = 0 ∧
    sub64 (tscRead 0x100000000 fun _ => 0) (tscRead 0xFFFFFFFF fun _ => 0) ≠
      0x100000000 - 0xFFFFFFFF := by
  decide

end Tachyon.Tsc
