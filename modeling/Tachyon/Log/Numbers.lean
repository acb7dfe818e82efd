import Mathlib.Data.List.Induction
import Tachyon.Lib.Strings
import Tachyon.Log.Model

/-!
# Formatted numbers (`log_format_u`, `log_format_s`)

`Tachyon.Log.Model` has a formatted number as a list of characters.  Here the functions write it to
memory as the source does: the digits, the last one first, the fill characters and the terminating
`0`, and then the two ends of the buffer change places until the pointers meet.

* `digitLoop`, `fillLoop`, `reverseLoop`, `logFormatUTo`, `logFormatSTo`: the source;
* `field`: the characters that are written for a number, and `logFormatU_eq`: those of the list;
* `logFormatUTo_eq`, `logFormatSTo_eq`: the memory behind a call;
* `Numeral base n ds`: the digits `ds` are the number `n`, without leading zeros;
* `Leaves m m' buf text`: `text` was written to `buf` as a string, and nothing else;
* `format_exact`: a number is formatted exactly.
-/

namespace Tachyon.Log

open Prog List Function Nat

/-! ### The source -/

def putByte (a : ℕ) (c : UInt8) : Prog Mem Unit := modify fun m => Function.update m a c

def getByte (a : ℕ) : Prog Mem UInt8 := fun m => .ok (m a, m)

/-- The digits of the number; `p` behind them. -/
def digitLoop (base : ℕ) : ℕ → ℕ → ℕ → Prog Mem ℕ
  | 0, _, _ => halt .fuel
  | fuel + 1, number, p =>
    putByte p (digit (number % base)) >>= fun _ =>
      if number / base ≠ 0 then digitLoop base fuel (number / base) (p + 1) else pure (p + 1)

/-- The fill characters; `p` behind them. -/
def fillLoop (fill : UInt8) : ℕ → ℕ → Prog Mem ℕ
  | 0, p => pure p
  | n + 1, p => putByte p fill >>= fun _ => fillLoop fill n (p + 1)

/-- The reversal of the buffer between two pointers. -/
def reverseLoop : ℕ → ℕ → ℕ → Prog Mem Unit
  | 0, _, _ => halt .fuel
  | fuel + 1, p1, p2 =>
    if p1 < p2 then
      getByte p1 >>= fun tmp =>
      getByte p2 >>= fun c =>
      putByte p1 c >>= fun _ =>
      putByte p2 tmp >>= fun _ => reverseLoop fuel (p1 + 1) (p2 - 1)
    else pure ()

/-- `log_format_u`. -/
def logFormatUTo (fuel buf number base : ℕ) (fill : UInt8) (width : ℕ) : Prog Mem Unit :=
  if base = 0 then halt (.fatal "log format with base 0!\n")
  else
    digitLoop base fuel number buf >>= fun p =>
    (if fill ≠ 0 then fillLoop fill (width - (p - buf)) p else pure p) >>= fun p =>
    putByte p 0 >>= fun _ => reverseLoop fuel buf (p - 1)

/-- `log_format_s`; the number is a word of 64 bits, and its negation wraps around. -/
def logFormatSTo (fuel buf number base : ℕ) (fill : UInt8) (width : ℕ) : Prog Mem Unit :=
  if toSigned number < 0 then
    putByte buf '-'.toUInt8 >>= fun _ =>
      logFormatUTo fuel (buf + 1) (sub64 0 number) base fill width
  else logFormatUTo fuel buf number base fill width

variable {m : Mem} {base fuel n p buf width : ℕ} {fill : UInt8} {bs : List UInt8}

/-! ### The loops -/

theorem putByte_run (a : ℕ) (c : UInt8) (m : Mem) :
    putByte a c m = .ok ((), update m a c) := rfl

theorem digitLoop_eq (hfuel : 0 < fuel) (hn : n < base ^ fuel) :
    digitLoop base fuel n p m =
      .ok (p + (digits base fuel n).length, writeBytes m p (digits base fuel n)) := by
  induction fuel generalizing n p m with
  | zero => exact absurd hfuel (lt_irrefl 0)
  | succ fuel ih =>
    rw [digitLoop, run_ok (putByte_run _ _ m), digits]
    by_cases hlast : n / base ≠ 0
    · have hrest : n / base < base ^ fuel := Nat.div_lt_of_lt_mul (by rwa [pow_succ'] at hn)
      have hmore : 0 < fuel := by
        by_contra hzero
        rw [Nat.eq_zero_of_not_pos hzero, pow_zero] at hrest
        exact hlast (lt_one_iff.1 hrest)
      rw [if_pos hlast, if_pos hlast, ih hmore hrest, length_cons, writeBytes_cons]
      congr 2
      omega
    · rw [if_neg hlast, if_neg hlast]
      rfl

theorem fillLoop_eq (m : Mem) (fill : UInt8) (n p : ℕ) :
    fillLoop fill n p m = .ok (p + n, writeBytes m p (replicate n fill)) := by
  induction n generalizing m p with
  | zero => rfl
  | succ n ih =>
    rw [fillLoop, run_ok (putByte_run _ _ m), ih, replicate_succ, writeBytes_cons]
    congr 2
    omega

/-- The two ends of the buffer are apart from what lies between them. -/
theorem writeBytes_ends (m : Mem) (a : ℕ) (x y : UInt8) (l : List UInt8) :
    writeBytes m a (x :: (l ++ [y])) =
      writeBytes (update (update m a x) (a + 1 + l.length) y) (a + 1) l := by
  rw [writeBytes_cons, writeBytes_append, writeBytes_update (.inr le_rfl)]
  rfl

theorem reverseLoop_eq (m : Mem) (a fuel : ℕ) (bs : List UInt8) (hfuel : bs.length < fuel) :
    reverseLoop fuel a (a + bs.length - 1) (writeBytes m a bs) =
      .ok ((), writeBytes m a bs.reverse) := by
  -- the induction takes the two ends off at once, as a round of the loop does
  induction bs using bidirectionalRec generalizing m a fuel with
  | nil =>
    rcases fuel with _ | fuel
    · omega
    rw [reverseLoop, if_neg (by simp)]
    rfl
  | singleton b =>
    rcases fuel with _ | fuel
    · omega
    rw [reverseLoop, if_neg (by simp)]
    rfl
  | cons_append x l y ih =>
    have hlen : (x :: (l ++ [y])).length = l.length + 2 := by simp
    rw [hlen] at hfuel ⊢
    obtain ⟨fuel, rfl⟩ := Nat.exists_eq_add_of_lt hfuel
    have hp2 : a + (l.length + 2) - 1 = a + 1 + l.length := by omega
    have hin : a < a + 1 ∨ a + 1 + l.length ≤ a := .inl (lt_succ_self a)
    have hout : a + 1 + l.length < a + 1 ∨ a + 1 + l.length ≤ a + 1 + l.length := .inr le_rfl
    have hswap : writeBytes m a (y :: (l ++ [x])) = update (update
        (writeBytes m a (x :: (l ++ [y]))) a y) (a + 1 + l.length) x := by
      rw [writeBytes_ends, writeBytes_ends, writeBytes_update hout, writeBytes_update hin,
        writeBytes_update hout, writeBytes_update hin]
      funext z
      simp only [update_apply]
      split_ifs <;> rfl
    have hfirst : getByte a (writeBytes m a (x :: (l ++ [y]))) =
        .ok (x, writeBytes m a (x :: (l ++ [y]))) := by
      rw [getByte, writeBytes_cons, writeBytes_of_not_mem (.inl (lt_succ_self a)), update_self]
    have hsecond : getByte (a + 1 + l.length) (writeBytes m a (x :: (l ++ [y]))) =
        .ok (y, writeBytes m a (x :: (l ++ [y]))) := by
      rw [getByte, writeBytes_ends, writeBytes_of_not_mem hout, update_self]
    have hrest := ih (update (update m a y) (a + 1 + l.length) x) (a + 1)
      (l.length + 2 + fuel) (by omega)
    rw [hp2, reverseLoop, if_pos (by omega), run_ok hfirst, run_ok hsecond,
      run_ok (putByte_run _ _ _), run_ok (putByte_run _ _ _), ← hswap,
      writeBytes_ends, hrest, ← l.length_reverse, ← writeBytes_ends]
    simp

/-! ### The functions -/

/-- The digits of a number, the last one first. -/
def numeral (base n : ℕ) : List UInt8 :=
  if n = 0 then [digit 0] else (Nat.digits base n).map digit

/-- The digits of a number in a field, the last one first. -/
def field (base n : ℕ) (fill : UInt8) (width : ℕ) : List UInt8 :=
  numeral base n ++ if fill ≠ 0 then List.replicate (width - (numeral base n).length) fill else []

theorem digits_eq (hbase : 1 < base) (hfuel : 0 < fuel) (hn : n < base ^ fuel) :
    digits base fuel n = numeral base n := by
  induction fuel generalizing n with
  | zero => exact absurd hfuel (lt_irrefl 0)
  | succ fuel ih =>
    have hrest : n / base < base ^ fuel := Nat.div_lt_of_lt_mul (by rwa [pow_succ'] at hn)
    rw [digits, numeral]
    by_cases hzero : n = 0
    · rw [if_pos hzero, hzero, Nat.zero_mod, Nat.zero_div, if_neg (not_not.2 rfl)]
    rw [if_neg hzero, digits_def' hbase (pos_of_ne_zero hzero), map_cons]
    by_cases hlast : n / base = 0
    · rw [if_neg (not_not.2 hlast), hlast, digits_zero, map_nil]
    · have hmore : 0 < fuel := by
        by_contra hnone
        rw [Nat.eq_zero_of_not_pos hnone, pow_zero] at hrest
        exact hlast (lt_one_iff.1 hrest)
      rw [if_pos hlast, ih hmore hrest, numeral, if_neg hlast]

theorem length_digits_le : (digits base fuel n).length ≤ fuel := by
  induction fuel generalizing n with
  | zero => exact le_rfl
  | succ fuel ih =>
    have := ih (n := n / base)
    rw [digits, length_cons]
    split_ifs
    · omega
    · exact succ_le_succ (zero_le _)

section

variable (hbase : 1 < base) (hn : n < 2 ^ 64)
include hbase hn

theorem lt_pow_of_lt (hfuel : 64 ≤ fuel) : n < base ^ fuel :=
  hn.trans_le ((Nat.pow_le_pow_left hbase 64).trans (Nat.pow_le_pow_right (by omega) hfuel))

theorem logFormatU_eq :
    logFormatU n base fill width = .ok (field base n fill width).reverse := by
  unfold logFormatU field
  rw [if_neg (by omega), digits_eq hbase (by omega) (lt_pow_of_lt hbase hn le_rfl)]

theorem length_field_le (fill : UInt8) (width : ℕ) :
    (field base n fill width).length ≤ 64 + width := by
  have hlen : (numeral base n).length ≤ 64 := by
    rw [← digits_eq hbase (by omega) (lt_pow_of_lt hbase hn le_rfl)]
    exact length_digits_le
  unfold field
  split_ifs <;> simp only [length_append, length_replicate, length_nil] <;> omega

/-- **`log_format_u` writes the characters of the field**, in the order in which they are read, and
a `0` behind them. -/
theorem logFormatUTo_eq (hfuel : 64 + width < fuel) :
    logFormatUTo fuel buf n base fill width m =
      .ok ((), writeBytes m buf ((field base n fill width).reverse ++ [0])) := by
  have hlen := length_field_le hbase hn fill width
  have hdigits : digitLoop base fuel n buf m =
      .ok (buf + (numeral base n).length, writeBytes m buf (numeral base n)) := by
    have hlt : n < base ^ fuel := lt_pow_of_lt hbase hn (by omega)
    have := digitLoop_eq (p := buf) (m := m) (by omega) hlt
    rwa [digits_eq hbase (by omega) hlt] at this
  have hfill : (if fill ≠ 0 then fillLoop fill
      (width - (buf + (numeral base n).length - buf)) (buf + (numeral base n).length)
      else pure (buf + (numeral base n).length)) (writeBytes m buf (numeral base n)) =
      .ok (buf + (field base n fill width).length, writeBytes m buf (field base n fill width)) := by
    rw [Nat.add_sub_cancel_left]
    unfold field
    split_ifs
    · rw [fillLoop_eq, writeBytes_append, length_append, length_replicate, add_assoc]
    · rw [append_nil]
      rfl
  rw [logFormatUTo, if_neg (by omega), run_ok hdigits, run_ok hfill, run_ok (putByte_run _ _ _)]
  -- the terminating `0` is not in the way of the reversal
  rw [← writeBytes_update (.inr le_rfl), reverseLoop_eq _ _ _ _ (by omega),
    writeBytes_update (.inr (by simp)), writeBytes_append, length_reverse]
  rfl

end

/-- A signed number in a field, in the order in which it is read. -/
def signedField (base : ℕ) (z : ℤ) (fill : UInt8) (width : ℕ) : List UInt8 :=
  (if z < 0 then ['-'.toUInt8] else []) ++ (field base z.natAbs fill width).reverse

theorem logFormatS_eq {z : ℤ} (hbase : 1 < base) (hz : z.natAbs < 2 ^ 64) :
    logFormatS z base fill width = .ok (signedField base z fill width) := by
  unfold logFormatS signedField
  rw [logFormatU_eq hbase hz]
  split_ifs <;> rfl

/-- The number that `log_format_s` hands on for a negative one. -/
theorem sub64_zero (hn : n < 2 ^ 64) (hneg : toSigned n < 0) : sub64 0 n = (toSigned n).natAbs := by
  unfold toSigned at *
  unfold sub64
  split_ifs at * <;> omega

theorem natAbs_toSigned (hn : n < 2 ^ 64) (hneg : ¬ toSigned n < 0) : (toSigned n).natAbs = n := by
  unfold toSigned at *
  split_ifs at * <;> omega

/-- **`log_format_s` writes the sign and the field of the absolute value.** -/
theorem logFormatSTo_eq (hbase : 1 < base) (hn : n < 2 ^ 64) (hfuel : 64 + width < fuel) :
    logFormatSTo fuel buf n base fill width m =
      .ok ((), writeBytes m buf (signedField base (toSigned n) fill width ++ [0])) := by
  unfold logFormatSTo signedField
  by_cases hneg : toSigned n < 0
  · have hsub : sub64 0 n < 2 ^ 64 := mod_lt _ (by norm_num)
    rw [if_pos hneg, if_pos hneg, run_ok (putByte_run _ _ m),
      logFormatUTo_eq hbase hsub hfuel, sub64_zero hn hneg]
    rfl
  · rw [if_neg hneg, if_neg hneg, logFormatUTo_eq hbase hn hfuel, natAbs_toSigned hn hneg,
      nil_append]

/-! ### Digits and numbers -/

/-- The value of a digit. -/
def digitValue (c : UInt8) : ℕ := if c.toNat < 58 then c.toNat - 48 else c.toNat - 87

/-- The number that the digits are in a base. -/
def readDigits (base : ℕ) (ds : List UInt8) : ℕ :=
  ds.foldl (fun v c => v * base + digitValue c) 0

/-- The digits of a number, without leading zeros. -/
structure Numeral (base n : ℕ) (ds : List UInt8) : Prop where
  ne_nil : ds ≠ []
  digits : ∀ c ∈ ds, ∃ rem < base, c = digit rem
  leading : ds.head? = some (digit 0) → ds = [digit 0]
  value : readDigits base ds = n

theorem digitValue_digit : ∀ rem < 16, digitValue (digit rem) = rem := by decide

theorem digit_ne_zero : ∀ rem < 16, digit rem ≠ 0 := by decide

theorem digit_injective {i j : ℕ} (hi : i < 16) (hj : j < 16) (h : digit i = digit j) : i = j := by
  rw [← digitValue_digit i hi, h, digitValue_digit j hj]

theorem readDigits_reverse (base : ℕ) (ds : List ℕ) (hds : ∀ d ∈ ds, d < 16) :
    readDigits base (ds.map digit).reverse = ofDigits base ds := by
  unfold readDigits
  rw [foldl_reverse]
  induction ds with
  | nil => rfl
  | cons d ds ih =>
    rw [forall_mem_cons] at hds
    rw [map_cons, foldr_cons, ih hds.2, Nat.ofDigits_cons, digitValue_digit d hds.1]
    ring

theorem numeral_reverse (hbase : 1 < base) (hlarge : base ≤ 16) (n : ℕ) :
    Numeral base n (numeral base n).reverse := by
  unfold numeral
  split_ifs with hzero
  · subst hzero
    refine ⟨by simp, fun c hc => ⟨0, by omega, by simpa using hc⟩, fun _ => rfl, ?_⟩
    simp [readDigits, digitValue_digit]
  have hlt : ∀ d ∈ Nat.digits base n, d < base := fun d hd => Nat.digits_lt_base hbase hd
  have hne : Nat.digits base n ≠ [] := digits_ne_nil_iff_ne_zero.2 hzero
  refine ⟨by simpa using hne, fun c hc => ?_, fun hhead => ?_, ?_⟩
  · obtain ⟨d, hd, rfl⟩ := mem_map.1 (mem_reverse.1 hc)
    exact ⟨d, hlt d hd, rfl⟩
  · -- the first digit that is read is the last one that was found, and that is not zero
    rw [head?_reverse, getLast?_map, getLast?_eq_getLast_of_ne_nil hne] at hhead
    have hlast := digit_injective ((hlt _ (getLast_mem hne)).trans_le hlarge) (by omega)
      (Option.some.inj hhead)
    exact absurd hlast (getLast_digit_ne_zero base hzero)
  · rw [readDigits_reverse base _ fun d hd => (hlt d hd).trans_le hlarge, ofDigits_digits]

/-! ### Exact numbers -/

/-- A string with its terminating `0`. -/
def StringIn (m : Mem) : ℕ → List UInt8 → Prop
  | a, [] => m a = 0
  | a, b :: bs => m a = b ∧ b ≠ 0 ∧ StringIn m (a + 1) bs

/-- `text` was written as a string, and nothing else. -/
structure Leaves (m m' : Mem) (buf : ℕ) (text : List UInt8) : Prop where
  string : StringIn m' buf text
  rest : ∀ x, x < buf ∨ buf + text.length < x → m' x = m x

theorem stringIn_writeBytes (hbs : 0 ∉ bs) : StringIn (writeBytes m buf (bs ++ [0])) buf bs := by
  induction bs generalizing m buf with
  | nil => exact update_self buf 0 m
  | cons b bs ih =>
    rw [mem_cons, not_or] at hbs
    refine ⟨?_, Ne.symm hbs.1, ih hbs.2⟩
    rw [cons_append, writeBytes_cons, writeBytes_of_not_mem (.inl (lt_succ_self buf)),
      update_self]

theorem leaves_writeBytes (hbs : 0 ∉ bs) : Leaves m (writeBytes m buf (bs ++ [0])) buf bs := by
  refine ⟨stringIn_writeBytes hbs, fun x hx => writeBytes_of_not_mem ?_⟩
  rw [length_append, length_singleton]
  omega

theorem Numeral.notMem {ds : List UInt8} {c : UInt8} (h : Numeral base n ds) (hlarge : base ≤ 16)
    (hc : ∀ rem < 16, digit rem ≠ c) : c ∉ ds := by
  intro hmem
  obtain ⟨rem, hrem, hdigit⟩ := h.digits c hmem
  exact hc rem (hrem.trans_le hlarge) hdigit.symm

theorem field_reverse (hfill : fill ≠ 0) :
    (field base n fill width).reverse =
      replicate (width - (numeral base n).reverse.length) fill ++ (numeral base n).reverse := by
  unfold field
  rw [if_pos hfill, reverse_append, reverse_replicate, length_reverse]

/-- **Numbers are formatted exactly.**  `log_format_u` writes fill characters and the digits of the
number, together as long as the wider of the two; `log_format_s` writes a sign if there is one, and
the digits of the absolute value.  The number is any word of 64 bits, signed or unsigned. -/
theorem format_exact (hbase : base = 10 ∨ base = 16) (hn : n < 2 ^ 64) (hfill : fill ≠ 0)
    (width buf : ℕ) (m : Mem) :
    (∃ ds m', Numeral base n ds ∧
      (∀ fuel, 64 + width < fuel → logFormatUTo fuel buf n base fill width m = .ok ((), m')) ∧
      Leaves m m' buf (List.replicate (width - ds.length) fill ++ ds) ∧
      (List.replicate (width - ds.length) fill ++ ds).length = max width ds.length) ∧
    ∀ fill', ∃ ds m', Numeral base (toSigned n).natAbs ds ∧
      (∀ fuel, 64 < fuel → logFormatSTo fuel buf n base fill' 0 m = .ok ((), m')) ∧
      Leaves m m' buf (if toSigned n < 0 then '-'.toUInt8 :: ds else ds) := by
  have hone : 1 < base := by omega
  have hlarge : base ≤ 16 := by omega
  constructor
  · have hnum := numeral_reverse hone hlarge n
    refine ⟨_, _, hnum, fun fuel hfuel => logFormatUTo_eq hone hn hfuel, ?_, ?_⟩
    · rw [field_reverse hfill]
      refine leaves_writeBytes fun hzero => ?_
      rcases List.mem_append.1 hzero with hzero | hzero
      · exact hfill (eq_of_mem_replicate hzero).symm
      · exact hnum.notMem hlarge digit_ne_zero hzero
    · rw [length_append, length_replicate]
      omega
  · intro fill'
    have hnum := numeral_reverse hone hlarge (toSigned n).natAbs
    have htext : signedField base (toSigned n) fill' 0 =
        if toSigned n < 0 then '-'.toUInt8 :: (numeral base (toSigned n).natAbs).reverse
        else (numeral base (toSigned n).natAbs).reverse := by
      unfold signedField field
      simp only [Nat.zero_sub, replicate_zero, ite_self, append_nil]
      split_ifs <;> rfl
    refine ⟨_, _, hnum, fun fuel hfuel => logFormatSTo_eq hone hn (by omega), ?_⟩
    rw [htext]
    refine leaves_writeBytes fun hzero => ?_
    split_ifs at hzero
    · rcases List.mem_cons.1 hzero with hzero | hzero
      · exact absurd hzero (by decide)
      · exact hnum.notMem hlarge digit_ne_zero hzero
    · exact hnum.notMem hlarge digit_ne_zero hzero

theorem format_exact_least : (10 = 10 ∨ 10 = 16) ∧ 2 ^ 63 < 2 ^ 64 ∧ ' '.toUInt8 ≠ 0 ∧
    (∃ ds m', Numeral 10 (2 ^ 63) ds ∧
      (∀ fuel, 64 + 30 < fuel →
        logFormatUTo fuel 0x1000 (2 ^ 63) 10 ' '.toUInt8 30 (fun _ => 0) = .ok ((), m')) ∧
      Leaves (fun _ => 0) m' 0x1000 (List.replicate (30 - ds.length) ' '.toUInt8 ++ ds) ∧
      (List.replicate (30 - ds.length) ' '.toUInt8 ++ ds).length = max 30 ds.length) ∧
    ∀ fill', ∃ ds m', Numeral 10 (toSigned (2 ^ 63)).natAbs ds ∧
      (∀ fuel, 64 < fuel →
        logFormatSTo fuel 0x1000 (2 ^ 63) 10 fill' 0 (fun _ => 0) = .ok ((), m')) ∧
      Leaves (fun _ => 0) m' 0x1000 (if toSigned (2 ^ 63) < 0 then '-'.toUInt8 :: ds else ds) :=
  ⟨.inl rfl, by norm_num, by decide,
    format_exact (.inl rfl) (by norm_num) (by decide) 30 0x1000 fun _ => 0⟩

end Tachyon.Log
