import Tachyon.Log.Limits
import Tachyon.Log.Numbers

/-!
# Formats and fields

What a format string means, apart from the way it is read: `parse` takes it apart into characters
and directives, and `Fields` gives each of them the text that its argument has.

* `Item`, `parse`: the items of a format, and the width of a directive that the format ends in;
* `Field`, `FieldOf`, `Fields`: the width and the text of an item, and how much of `temp` it takes;
* `expand`: the message;
* `Field.laid`, `laid`: the message as it is laid out when the padding goes by the column of the
  whole line, as it does in the source.
-/

namespace Tachyon.Log

/-! ### Formats -/

inductive Item
  | char (c : UInt8)
  | directive (width : ℕ) (lng : Bool) (conv : UInt8)
  deriving DecidableEq, Repr

/-- Where a character of a format stands: outside a directive, in it behind a field width, or behind
the "long" switch. -/
inductive Mode
  | text
  | width (w : ℕ)
  | long (w : ℕ)

/-- One more digit of a field width. -/
def addDigit (w : ℕ) (c : UInt8) : ℕ := (w * 10 + (c.toNat - 48)) % 2 ^ 64

/-- One more item. -/
def before (it : Item) (r : List Item × Option ℕ) : List Item × Option ℕ := (it :: r.1, r.2)

/-- The items of a format, and the width of the directive in which it ends, if it does. -/
def parse : Mode → List UInt8 → List Item × Option ℕ
  | .text, [] => ([], none)
  | .width w, [] => ([], some (w % 2 ^ 32))
  | .long w, [] => ([], some (w % 2 ^ 32))
  | .text, c :: cs =>
    if c = '%'.toUInt8 then parse (.width 0) cs else before (.char c) (parse .text cs)
  | .width w, c :: cs =>
    if IsDigit c then parse (.width (addDigit w c)) cs
    else if c = 'l'.toUInt8 then parse (.long w) cs
    else before (.directive (w % 2 ^ 32) false c) (parse .text cs)
  | .long w, c :: cs => before (.directive (w % 2 ^ 32) true c) (parse .text cs)

/-- The format does not end inside a directive. -/
def Complete (s : List UInt8) : Prop := (parse .text s).2 = none

instance (s : List UInt8) : Decidable (Complete s) := inferInstanceAs (Decidable (_ = _))

/-- The width, the "long" switch and the rest of a format behind a `%`. -/
def scan (w : ℕ) (cs : List UInt8) : ℕ × Bool × List UInt8 :=
  let width := (cs.takeWhile (IsDigit ·)).foldl addDigit w % 2 ^ 32
  let rest := cs.dropWhile (IsDigit ·)
  if rest.head? = some 'l'.toUInt8 then (width, true, rest.tail) else (width, false, rest)

theorem not_isDigit_l : ¬ IsDigit 'l'.toUInt8 := by decide

theorem parse_width (w : ℕ) (cs : List UInt8) :
    parse (.width w) cs = match (scan w cs).2.2 with
      | [] => ([], some (scan w cs).1)
      | c :: rest => before (.directive (scan w cs).1 (scan w cs).2.1 c) (parse .text rest) := by
  induction cs generalizing w with
  | nil => rfl
  | cons c cs ih =>
    rw [show parse (.width w) (c :: cs) = if IsDigit c then parse (.width (addDigit w c)) cs
      else if c = 'l'.toUInt8 then parse (.long w) cs
      else before (.directive (w % 2 ^ 32) false c) (parse .text cs) from rfl]
    by_cases hdigit : IsDigit c
    · have hscan : scan w (c :: cs) = scan (addDigit w c) cs := by simp [scan, hdigit]
      rw [if_pos hdigit, ih, hscan]
    rw [if_neg hdigit]
    by_cases hlong : c = 'l'.toUInt8
    · subst hlong
      have hscan : scan w ('l'.toUInt8 :: cs) = (w % 2 ^ 32, true, cs) := by
        simp [scan, not_isDigit_l]
      cases cs <;> rfl
    · have hscan : scan w (c :: cs) = (w % 2 ^ 32, false, c :: cs) := by
        simp [scan, hdigit, hlong]
      rw [if_neg hlong, hscan]

/-! ### Fields -/

/-- A field of the message. -/
structure Field where
  width : ℕ
  text : List UInt8
  /-- The number of bytes written to `temp`. -/
  temp : ℕ

/-- The characters of a string constant. -/
def chars (s : String) : List UInt8 := s.toList.map Char.toUInt8

/-- The text of a number, for the conversions that are numbers. -/
def numberText (conv : UInt8) (lng : Bool) (width word : ℕ) : Option (List UInt8) :=
  if conv = 'i'.toUInt8 ∨ conv = 'd'.toUInt8 then
    some (signedField 10 (if lng then toSigned word else int32 word) ' '.toUInt8 width)
  else if conv = 'u'.toUInt8 then
    some (field 10 (if lng then word else word % 2 ^ 32) ' '.toUInt8 width).reverse
  else if conv = 'x'.toUInt8 then
    some (field 16 (if lng then word else word % 2 ^ 32) '0'.toUInt8 width).reverse
  else if conv = 'p'.toUInt8 then
    some ('0'.toUInt8 :: 'x'.toUInt8 :: (field 16 word '0'.toUInt8 16).reverse)
  else none

/-- The text of the other conversions. -/
def OtherText (k : Kernel) (word : ℕ) (conv : UInt8) (text : List UInt8) : Prop :=
  if conv = 'c'.toUInt8 then text = if UInt8.ofNat word = 0 then [] else [UInt8.ofNat word]
  else if conv = 's'.toUInt8 then
    if word = 0 then text = chars "(null)" else StringIn k.mem word text
  else text = chars "(unknown format)"

/-- The field of an item; `arg` is the number of its argument. -/
def FieldOf (k : Kernel) (arg : ℕ) : Item → Field → Prop
  | .char c, f => f = ⟨0, [c], 0⟩
  | .directive w lng conv, f => f.width = w ∧
    match numberText conv lng w (k.args arg) with
    | some text => f.text = text ∧ f.temp = text.length + 1
    | none => OtherText k (k.args arg) conv f.text ∧
      f.temp = if conv = 'c'.toUInt8 then 2 else 0

/-- The conversions that take an argument. -/
def TakesArg (conv : UInt8) : Prop := conv ∈ chars "iduxpcs"

instance (conv : UInt8) : Decidable (TakesArg conv) := inferInstanceAs (Decidable (_ ∈ _))

/-- The number of arguments that an item takes. -/
def Item.args : Item → ℕ
  | .char _ => 0
  | .directive _ _ conv => if TakesArg conv then 1 else 0

/-- The fields of the items, from the argument with the number `arg` on. -/
inductive Fields (k : Kernel) : ℕ → List Item → List Field → Prop
  | nil (arg : ℕ) : Fields k arg [] []
  | cons {arg : ℕ} {it : Item} {f : Field} {its : List Item} {fs : List Field}
      (head : FieldOf k arg it f) (tail : Fields k (arg + it.args) its fs) :
      Fields k arg (it :: its) (f :: fs)

theorem Fields.cons_inv {k : Kernel} {arg : ℕ} {it : Item} {its : List Item} {fs : List Field}
    (h : Fields k arg (it :: its) fs) :
    ∃ f fs', fs = f :: fs' ∧ FieldOf k arg it f ∧ Fields k (arg + it.args) its fs' := by
  cases h with
  | cons head tail => exact ⟨_, _, rfl, head, tail⟩

/-- The field of a directive in which a format ends. -/
def cutOff : Option ℕ → List Field
  | none => []
  | some w => [⟨w, chars "(unknown format)", 0⟩]

/-! ### Messages -/

/-- `n` blanks. -/
def blanks (n : ℕ) : List UInt8 := List.replicate n ' '.toUInt8

/-- A text in a field: the width is filled with blanks. -/
def Field.padded (f : Field) : List UInt8 := f.text ++ blanks (f.width - f.text.length)

/-- The message. -/
def expand (fs : List Field) : List UInt8 := fs.flatMap Field.padded

/-- The number of blanks that the source appends to `n` characters behind the column `b`. -/
def gap (b n width : ℕ) : ℕ := if n = 0 then width - b else width - (b + 1 + n)

/-- A field behind the column `b`, as the source lays it out. -/
def Field.laid (b : ℕ) (f : Field) : List UInt8 :=
  f.text ++ blanks (gap b f.text.length f.width)

/-- The message as the source lays it out. -/
def laid : ℕ → List Field → List UInt8
  | _, [] => []
  | b, f :: fs => f.laid b ++ laid (b + (f.laid b).length) fs

/-- A field behind the column `b` stays within the limits. -/
def Field.Fits (L : Limits) (b : ℕ) (f : Field) : Prop :=
  (f.temp = 0 ∨ L.temp f.temp = true) ∧ ∀ i < (f.laid b).length, L.buf (b + i) = true

instance (L : Limits) (b : ℕ) (f : Field) : Decidable (f.Fits L b) :=
  inferInstanceAs (Decidable (_ ∧ _))

/-- The buffer behind some fields, with the limits `L`; `next` is what happens behind the last
one. -/
def lay (L : Limits) (size : ℕ) (next : List UInt8 → Except Halt (List UInt8)) :
    List Field → List UInt8 → Except Halt (List UInt8)
  | [], b => next b
  | f :: fs, b =>
    if f.Fits L b.length then
      if size ≤ (b ++ f.laid b.length).length then .ok (b ++ f.laid b.length)
      else lay L size next fs (b ++ f.laid b.length)
    else .error .undefined

end Tachyon.Log
