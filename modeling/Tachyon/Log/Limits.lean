import Tachyon.Log.Model

/-!
# The formatter and its limits (`log_format_message`)

The formatter reads the format string, writes numbers to `temp` and the message to `buf`.  `Limits`
says which of these accesses are in bounds; the first one that is not is `undefined`.  So each of
the three can be looked at for itself.

* `Limited.logFormatMessage`: the source, with the limits `L`;
* `bounds size`: the limits of `Tachyon.Log.Model`, which does not follow the format string;
* `logFormatMessage_bounds`: that model is the one with these limits.
-/

namespace Tachyon.Log

open Prog

structure Limits where
  /-- The addresses from which the format may be read. -/
  fmt : ℕ → Bool
  /-- The numbers of bytes that may be written to `temp`. -/
  temp : ℕ → Bool
  /-- The places in `buf` that may be written. -/
  buf : ℕ → Bool

namespace Limited

variable (k : Kernel) (L : Limits)

/-! ### Access -/

/-- `log_parse_number`. -/
def logParseNumber : ℕ → ℕ → ℕ → Prog Cursor ℕ
  | 0, _, _ => halt .fuel
  | fuel + 1, str, val =>
    if L.fmt str then
      if IsDigit (k.mem str) then
        logParseNumber fuel (str + 1) ((val * 10 + ((k.mem str).toNat - 48)) % 2 ^ 64)
      else pure val
    else halt .undefined

/-- `*fmt++`. -/
def nextChar : Prog Cursor UInt8 := fun s =>
  if L.fmt s.fmt then .ok (k.mem s.fmt, { s with fmt := s.fmt + 1 }) else .error .undefined

/-- `*p++ = c`. -/
def push (c : UInt8) : Prog Cursor Unit := fun s =>
  if L.buf s.buf.length then .ok ((), { s with buf := s.buf ++ [c] }) else .error .undefined

/-- `CHECKED_APPEND`, with the variable `len` that it finds. -/
def checkedAppend (len : ℕ) (c : UInt8) : Prog Cursor Unit := fun s =>
  if s.buf.length < len then push L c s else .ok ((), s)

/-- Text in `temp`, with the terminating `0`. -/
def inTemp (r : Except Halt (List UInt8)) : Prog Cursor Text := fun s =>
  match r with
  | .ok bs => if L.temp (bs.length + 1) then .ok (.ofBytes bs, s) else .error .undefined
  | .error e => .error e

/-! ### The formatter -/

def appendLoop (text : Text) : ℕ → ℕ → ℕ → Prog Cursor ℕ
  | 0, _, _ => halt .fuel
  | fuel + 1, i, len =>
    if text i = 0 then pure len
    else get >>= fun s =>
      if s.buf.length < len then
        push L (text i) >>= fun _ => appendLoop text fuel (i + 1) (len + 1)
      else appendLoop text fuel i (len + 1)

def padLoop : ℕ → ℕ → Prog Cursor Unit
  | 0, _ => pure ()
  | n + 1, len => checkedAppend L (len + 1) ' '.toUInt8 >>= fun _ => padLoop n (len + 1)

/-- What is behind the label `string`. -/
def appendText (fuel width : ℕ) (text : Text) : Prog Cursor Unit :=
  appendLoop L text fuel 0 0 >>= fun len => padLoop L (width - len) len

def skipDigits : ℕ → UInt8 → Prog Cursor UInt8
  | 0, _ => halt .fuel
  | fuel + 1, c => if IsDigit c then nextChar k L >>= fun c => skipDigits fuel c else pure c

/-- The field width, and the character behind it. -/
def fieldWidth (fuel : ℕ) (c : UInt8) : Prog Cursor (ℕ × UInt8) :=
  if IsDigit c then
    get >>= fun s =>
    logParseNumber k L fuel (s.fmt - 1) 0 >>= fun width =>
    skipDigits k L fuel c >>= fun c =>
    pure (width % 2 ^ 32, c)
  else pure (0, c)

/-- The "long" switch, and the character behind it. -/
def longSwitch (c : UInt8) : Prog Cursor (Bool × UInt8) :=
  if c = 'l'.toUInt8 then nextChar k L >>= fun c => pure (true, c) else pure (false, c)

/-- The `switch` over the conversions: the text to append. -/
def conversion (width : ℕ) (lng : Bool) (c : UInt8) : Prog Cursor Text :=
  if c = 'i'.toUInt8 ∨ c = 'd'.toUInt8 then
    vaArg k >>= fun w =>
      inTemp L (logFormatS (if lng then toSigned w else int32 w) 10 ' '.toUInt8 width)
  else if c = 'u'.toUInt8 then
    vaArg k >>= fun w =>
      inTemp L (logFormatU (if lng then w else w % 2 ^ 32) 10 ' '.toUInt8 width)
  else if c = 'x'.toUInt8 then
    vaArg k >>= fun w =>
      inTemp L (logFormatU (if lng then w else w % 2 ^ 32) 16 '0'.toUInt8 width)
  else if c = 'p'.toUInt8 then
    vaArg k >>= fun w =>
      inTemp L ((logFormatU w 16 '0'.toUInt8 16).map ('0'.toUInt8 :: 'x'.toUInt8 :: ·))
  else if c = 'c'.toUInt8 then vaArg k >>= fun w => inTemp L (.ok [UInt8.ofNat w])
  else if c = 's'.toUInt8 then
    vaArg k >>= fun w =>
      pure (if w = 0 then .ofString "(null)" else fun i => k.mem (w + i))
  else pure (.ofString "(unknown format)")

/-- What follows a `%`. -/
def directive (fuel : ℕ) : Prog Cursor Unit :=
  nextChar k L >>= fun c =>
  fieldWidth k L fuel c >>= fun wc =>
  longSwitch k L wc.2 >>= fun lc =>
  conversion k L wc.1 lc.1 lc.2 >>= fun text =>
  appendText L fuel wc.1 text

/-- The loop of `log_format_message`; `size` is its parameter `len`. -/
def formatLoop (fuel size : ℕ) : ℕ → Prog Cursor Unit
  | 0 => halt .fuel
  | n + 1 =>
    nextChar k L >>= fun c =>
      if c = 0 then pure ()
      else
        (if c ≠ '%'.toUInt8 then checkedAppend L size c else directive k L fuel) >>= fun _ =>
        get >>= fun s => if size ≤ s.buf.length then pure () else formatLoop fuel size n

/-- `log_format_message`: the buffer in front of the terminating `0`. -/
def logFormatMessage (fuel size fmt : ℕ) : Except Halt (List UInt8) :=
  if fmt = 0 then .error (.fatal "null format in log_format_message!\n")
  else
    match formatLoop k L fuel size fuel ⟨fmt, 0, []⟩ with
    | .ok (_, s) => if L.buf s.buf.length then .ok s.buf else .error .undefined
    | .error e => .error e

end Limited

/-! ### The limits of the model -/

/-- The sizes of `temp` and `buf`. -/
def bounds (size : ℕ) : Limits :=
  ⟨fun _ => true, fun n => decide (n ≤ tempSize), fun i => decide (i < size)⟩

variable {k : Kernel} {size : ℕ}

theorem nextChar_bounds : Limited.nextChar k (bounds size) = nextChar k := rfl

theorem push_bounds (c : UInt8) : Limited.push (bounds size) c = push size c := by
  funext s
  simp [Limited.push, bounds, push]

theorem checkedAppend_bounds (len : ℕ) (c : UInt8) :
    Limited.checkedAppend (bounds size) len c = checkedAppend size len c := by
  unfold Limited.checkedAppend checkedAppend
  rw [push_bounds]

theorem inTemp_bounds (r : Except Halt (List UInt8)) :
    Limited.inTemp (bounds size) r = inTemp r := by
  funext s
  cases r with
  | error e => rfl
  | ok bs => simp [Limited.inTemp, bounds, inTemp]

theorem logParseNumber_bounds (fuel str val : ℕ) :
    Limited.logParseNumber k (bounds size) fuel str val = logParseNumber k fuel str val := by
  induction fuel generalizing str val with
  | zero => rfl
  | succ fuel ih =>
    unfold Limited.logParseNumber logParseNumber
    rw [ih]
    rfl

theorem skipDigits_bounds (fuel : ℕ) (c : UInt8) :
    Limited.skipDigits k (bounds size) fuel c = skipDigits k fuel c := by
  induction fuel generalizing c with
  | zero => rfl
  | succ fuel ih =>
    unfold Limited.skipDigits skipDigits
    simp only [ih]
    rfl

theorem appendLoop_bounds (text : Text) (fuel i len : ℕ) :
    Limited.appendLoop (bounds size) text fuel i len = appendLoop size text fuel i len := by
  induction fuel generalizing i len with
  | zero => rfl
  | succ fuel ih =>
    unfold Limited.appendLoop appendLoop
    simp only [ih, push_bounds]

theorem padLoop_bounds (n len : ℕ) : Limited.padLoop (bounds size) n len = padLoop size n len := by
  induction n generalizing len with
  | zero => rfl
  | succ n ih =>
    unfold Limited.padLoop padLoop
    simp only [ih, checkedAppend_bounds]

theorem directive_bounds (fuel : ℕ) :
    Limited.directive k (bounds size) fuel = directive k fuel size := by
  unfold Limited.directive directive Limited.fieldWidth Limited.longSwitch Limited.conversion
    Limited.appendText
  simp only [nextChar_bounds, logParseNumber_bounds, skipDigits_bounds, inTemp_bounds,
    appendLoop_bounds, padLoop_bounds]
  rfl

theorem formatLoop_bounds (fuel n : ℕ) :
    Limited.formatLoop k (bounds size) fuel size n = formatLoop k fuel size n := by
  induction n with
  | zero => rfl
  | succ n ih =>
    unfold Limited.formatLoop formatLoop
    simp only [ih, nextChar_bounds, checkedAppend_bounds, directive_bounds]

/-- **The model of `log_format_message` is the one with the limits of its two buffers.** -/
theorem logFormatMessage_bounds (fuel fmt : ℕ) :
    Limited.logFormatMessage k (bounds size) fuel size fmt = logFormatMessage k fuel size fmt := by
  unfold Limited.logFormatMessage logFormatMessage
  rw [formatLoop_bounds]
  split_ifs
  · rfl
  · cases formatLoop k fuel size fuel ⟨fmt, 0, []⟩ with
    | error e => rfl
    | ok r => simp [bounds]

end Tachyon.Log
