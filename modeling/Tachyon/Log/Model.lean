import Tachyon.Lib.Memory
import Tachyon.Lib.Prog

/-!
# The log and its system call (`log.c`)

`log_write` formats a message into a buffer on the stack and hands it to the writers of the level.
`SysLog` calls it with a string of user space in place of the format.

* `Kernel`: the memory, what `va_arg` finds in registers and on the stack, and the destinations;
* `Cursor`: how far `log_format_message` is in the format and in the arguments, and the buffer;
* `logFormatMessage`, `logWrite`, `logSyscallHandler`: the source.

A write behind the end of `buf` or `temp` is `undefined`.
-/

namespace Tachyon.Log

open Prog

/-- `MAX_LOG_DESTINATIONS`. -/
def maxLogDestinations : ℕ := 32

/-- `MAX_LOG_WRITE_BUFFER`. -/
def maxLogWriteBuffer : ℕ := 1024

/-- The size of `temp`. -/
def tempSize : ℕ := 32

/-- `SysLog`. -/
def sysLog : ℕ := 3

/-- `log_destination_t`. -/
structure Destination where
  writer : Option ℕ
  level : ℕ

/-- What the log reads of the state of the kernel. -/
structure Kernel where
  mem : Mem
  args : ℕ → ℕ
  destinations : ℕ → Destination

/-- The variables `fmt`, `args` and `buf` of `log_format_message`. -/
structure Cursor where
  fmt : ℕ
  arg : ℕ
  buf : List UInt8

/-- What `append` points to. -/
abbrev Text := ℕ → UInt8

def Text.ofBytes (bs : List UInt8) : Text := fun i => bs.getD i 0

def Text.ofString (s : String) : Text := .ofBytes (s.toList.map Char.toUInt8)

/-! ### Numbers -/

def digit (rem : ℕ) : UInt8 := UInt8.ofNat (if rem < 10 then rem + 48 else rem + 97 - 10)

/-- The digits of a number of 64 bits, the last one first. -/
def digits (base : ℕ) : ℕ → ℕ → List UInt8
  | 0, _ => []
  | fuel + 1, number =>
    digit (number % base) :: if number / base ≠ 0 then digits base fuel (number / base) else []

/-- `log_format_u`; the characters in front of the terminating `0`. -/
def logFormatU (number base : ℕ) (fill : UInt8) (width : ℕ) : Except Halt (List UInt8) :=
  if base = 0 then .error (.fatal "log format with base 0!\n")
  else
    let ds := digits base 64 number
    .ok (ds ++ if fill ≠ 0 then List.replicate (width - ds.length) fill else []).reverse

/-- `log_format_s`. -/
def logFormatS (number : ℤ) (base : ℕ) (fill : UInt8) (width : ℕ) : Except Halt (List UInt8) :=
  if number < 0 then (logFormatU number.natAbs base fill width).map ('-'.toUInt8 :: ·)
  else logFormatU number.natAbs base fill width

/-- The signed reading of the lower half of a word. -/
def int32 (w : ℕ) : ℤ := if w % 2 ^ 32 < 2 ^ 31 then w % 2 ^ 32 else (w % 2 ^ 32 : ℕ) - 2 ^ 32

def IsDigit (c : UInt8) : Prop := '0'.toUInt8 ≤ c ∧ c ≤ '9'.toUInt8

instance (c : UInt8) : Decidable (IsDigit c) := inferInstanceAs (Decidable (_ ∧ _))

section

variable (k : Kernel)

/-- `log_parse_number`. -/
def logParseNumber : ℕ → ℕ → ℕ → Prog Cursor ℕ
  | 0, _, _ => halt .fuel
  | fuel + 1, str, val =>
    if IsDigit (k.mem str) then
      logParseNumber fuel (str + 1) ((val * 10 + ((k.mem str).toNat - 48)) % 2 ^ 64)
    else pure val

/-! ### Access -/

/-- `*fmt++`. -/
def nextChar : Prog Cursor UInt8 := fun s => .ok (k.mem s.fmt, { s with fmt := s.fmt + 1 })

/-- `va_arg`, as a word. -/
def vaArg : Prog Cursor ℕ := fun s => .ok (k.args s.arg, { s with arg := s.arg + 1 })

/-- `*p++ = c`, where the buffer has `size` bytes. -/
def push (size : ℕ) (c : UInt8) : Prog Cursor Unit := fun s =>
  if s.buf.length < size then .ok ((), { s with buf := s.buf ++ [c] }) else .error .undefined

/-- `CHECKED_APPEND`, with the variable `len` that it finds. -/
def checkedAppend (size len : ℕ) (c : UInt8) : Prog Cursor Unit := fun s =>
  if s.buf.length < len then push size c s else .ok ((), s)

/-- Text in `temp`. -/
def inTemp (r : Except Halt (List UInt8)) : Prog Cursor Text := fun s =>
  match r with
  | .ok bs => if bs.length < tempSize then .ok (.ofBytes bs, s) else .error .undefined
  | .error e => .error e

/-! ### The formatter -/

/-- The loop over the text to append.  Its `len` hides the parameter, and starts at `0`: as long as
it is not above the length of the buffer, nothing is appended. -/
def appendLoop (size : ℕ) (text : Text) : ℕ → ℕ → ℕ → Prog Cursor ℕ
  | 0, _, _ => halt .fuel
  | fuel + 1, i, len =>
    if text i = 0 then pure len
    else get >>= fun s =>
      if s.buf.length < len then
        push size (text i) >>= fun _ => appendLoop size text fuel (i + 1) (len + 1)
      else appendLoop size text fuel i (len + 1)

/-- The loop over the rest of the field; it runs `width - len` times. -/
def padLoop (size : ℕ) : ℕ → ℕ → Prog Cursor Unit
  | 0, _ => pure ()
  | n + 1, len => checkedAppend size (len + 1) ' '.toUInt8 >>= fun _ => padLoop size n (len + 1)

/-- What is behind the label `string`. -/
def appendText (fuel size width : ℕ) (text : Text) : Prog Cursor Unit :=
  appendLoop size text fuel 0 0 >>= fun len => padLoop size (width - len) len

def skipDigits : ℕ → UInt8 → Prog Cursor UInt8
  | 0, _ => halt .fuel
  | fuel + 1, c => if IsDigit c then nextChar k >>= fun c => skipDigits fuel c else pure c

/-- The field width, and the character behind it. -/
def fieldWidth (fuel : ℕ) (c : UInt8) : Prog Cursor (ℕ × UInt8) :=
  if IsDigit c then
    get >>= fun s =>
    logParseNumber k fuel (s.fmt - 1) 0 >>= fun width =>
    skipDigits k fuel c >>= fun c =>
    pure (width % 2 ^ 32, c)
  else pure (0, c)

/-- The "long" switch, and the character behind it. -/
def longSwitch (c : UInt8) : Prog Cursor (Bool × UInt8) :=
  if c = 'l'.toUInt8 then nextChar k >>= fun c => pure (true, c) else pure (false, c)

/-- The `switch` over the conversions: the text to append. -/
def conversion (width : ℕ) (lng : Bool) (c : UInt8) : Prog Cursor Text :=
  if c = 'i'.toUInt8 ∨ c = 'd'.toUInt8 then
    vaArg k >>= fun w =>
      inTemp (logFormatS (if lng then toSigned w else int32 w) 10 ' '.toUInt8 width)
  else if c = 'u'.toUInt8 then
    vaArg k >>= fun w => inTemp (logFormatU (if lng then w else w % 2 ^ 32) 10 ' '.toUInt8 width)
  else if c = 'x'.toUInt8 then
    vaArg k >>= fun w => inTemp (logFormatU (if lng then w else w % 2 ^ 32) 16 '0'.toUInt8 width)
  else if c = 'p'.toUInt8 then
    vaArg k >>= fun w =>
      inTemp ((logFormatU w 16 '0'.toUInt8 16).map ('0'.toUInt8 :: 'x'.toUInt8 :: ·))
  else if c = 'c'.toUInt8 then vaArg k >>= fun w => inTemp (.ok [UInt8.ofNat w])
  else if c = 's'.toUInt8 then
    vaArg k >>= fun w =>
      pure (if w = 0 then .ofString "(null)" else fun i => k.mem (w + i))
  else pure (.ofString "(unknown format)")

/-- What follows a `%`. -/
def directive (fuel size : ℕ) : Prog Cursor Unit :=
  nextChar k >>= fun c =>
  fieldWidth k fuel c >>= fun wc =>
  longSwitch k wc.2 >>= fun lc =>
  conversion k wc.1 lc.1 lc.2 >>= fun text =>
  appendText fuel size wc.1 text

/-- The loop of `log_format_message`. -/
def formatLoop (fuel size : ℕ) : ℕ → Prog Cursor Unit
  | 0 => halt .fuel
  | n + 1 =>
    nextChar k >>= fun c =>
      if c = 0 then pure ()
      else
        (if c ≠ '%'.toUInt8 then checkedAppend size size c else directive k fuel size) >>= fun _ =>
        get >>= fun s => if size ≤ s.buf.length then pure () else formatLoop fuel size n

/-- `log_format_message`: the buffer in front of the terminating `0`. -/
def logFormatMessage (fuel size fmt : ℕ) : Except Halt (List UInt8) :=
  if fmt = 0 then .error (.fatal "null format in log_format_message!\n")
  else
    match formatLoop k fuel size fuel ⟨fmt, 0, []⟩ with
    | .ok (_, s) => if s.buf.length < size then .ok s.buf else .error .undefined
    | .error e => .error e

/-! ### The writers and the system call -/

/-- The writers that accept a level. -/
def Kernel.writers (lvl : ℕ) : List ℕ :=
  (List.range maxLogDestinations).filterMap fun idx =>
    if lvl ≤ (k.destinations idx).level then (k.destinations idx).writer else none

/-- `log_write`: the writers that are called, each with what it gets. -/
def logWrite (fuel lvl fmt : ℕ) : Except Halt (List (ℕ × List UInt8)) :=
  (logFormatMessage k fuel maxLogWriteBuffer fmt).map fun buf => (k.writers lvl).map (·, buf)

/-- `log_handle_write_syscall`. -/
def logHandleWriteSyscall (fuel _call level str : ℕ) : Except Halt (List (ℕ × List UInt8)) :=
  logWrite k fuel level str

/-- The registers of the interrupted thread, and whether there is one. -/
structure Interrupt where
  rdi : ℕ
  rsi : ℕ
  rdx : ℕ
  thread : Bool

/-- `sysc_get_call`. -/
def syscGetCall (st : Interrupt) : ℕ := st.rdi % 2 ^ 32

/-- The level is a parameter of 32 bits. -/
def Interrupt.level (st : Interrupt) : ℕ := st.rsi % 2 ^ 32

/-- `sysc_call` for the handler of the log. -/
def syscCall (fuel : ℕ) (st : Interrupt) : Except Halt (List (ℕ × List UInt8)) :=
  if st.thread then logHandleWriteSyscall k fuel (syscGetCall st) st.level st.rdx
  else .error (.fatal "no thread associated with execution context!\n")

/-- `log_syscall_handler`. -/
def logSyscallHandler (fuel : ℕ) (st : Interrupt) : Except Halt (Bool × List (ℕ × List UInt8)) :=
  if syscGetCall st = sysLog then (syscCall k fuel st).map (true, ·) else .ok (false, [])

end

end Tachyon.Log
