import Tachyon.Lib.Guard
import Tachyon.Lib.Word

/-!
# The screen (`cga.c`)

`cga_write` puts characters into the video memory, moves the cursor and scrolls.  Cells are numbered
from the start of the video memory; the pointer into it can run in front of the first one.

* `writeChar`: one round of the loop of `cga_write`;
* `cgaWrite`: the function with its lock;
* `writeChar_onScreen`: the cursor does not leave the screen.
-/

namespace Tachyon.Cga

open Prog

def cgaWidth : ℕ := 80
def cgaHeight : ℕ := 25

/-- `__cga_attr`. -/
def cgaAttr : ℕ := 0x0700

structure Screen where
  /-- `__cga_x`. -/
  x : ℕ
  /-- `__cga_y`. -/
  y : ℕ
  cell : ℤ → ℕ

/-- `CALC_LOCATION`. -/
def Screen.location (s : Screen) : ℤ := (cgaWidth * s.y + s.x : ℕ)

/-- A character with its attribute; a `char` is extended with its sign. -/
def glyph (c : UInt8) : ℕ := (if c.toNat < 128 then c.toNat else 0xFF00 + c.toNat) ||| cgaAttr

def space : ℕ := 0x20 ||| cgaAttr

/-- `n` blanks from `cur` on. -/
def Screen.blanks (s : Screen) (cur : ℤ) (n : ℕ) : Screen :=
  { s with cell := fun i => if cur ≤ i ∧ i < cur + n then space else s.cell i }

/-- `scroll1`. -/
def scroll1 (s : Screen) : Screen :=
  { s with cell := fun i =>
      if 0 ≤ i ∧ i < (cgaWidth * cgaHeight - cgaWidth : ℕ) then s.cell (i + cgaWidth)
      else if (cgaWidth * cgaHeight - cgaWidth : ℕ) ≤ i ∧ i < (cgaWidth * cgaHeight : ℕ) then space
      else s.cell i }

/-- The `switch` of `cga_write`; the counters are 16 bits wide. -/
def putChar (c : UInt8) (s : Screen) (cur : ℤ) : Screen × ℤ :=
  if c = 0x09 then
    let n := alignUp (s.x + 1) 8 - s.x
    let s := { s.blanks cur n with x := (s.x + n) % 2 ^ 16 }
    (s, s.location - 1)
  else if c = 0x08 then
    let s := { s with x := s.x - 1 }
    (s.blanks s.location 1, s.location)
  else
    ({ s with x := (s.x + 1) % 2 ^ 16, cell := Function.update s.cell cur (glyph c) }, cur)

/-- The end of a line. -/
def endLine (c : UInt8) (s : Screen) (cur : ℤ) : Screen × ℤ :=
  if cgaWidth ≤ s.x ∨ c = 0x0A ∨ c = 0x0D then
    let s := { s with x := 0 }
    -- a carriage return moves the cursor, but not the pointer
    if c ≠ 0x0D then
      let s := { s with y := (s.y + 1) % 2 ^ 16 }
      (s, s.location - 1)
    else (s, cur)
  else (s, cur)

/-- The end of the screen. -/
def endScreen (s : Screen) (cur : ℤ) : Screen × ℤ :=
  if cgaHeight ≤ s.y then
    let s := { scroll1 s with y := cgaHeight - 1 }
    (s, s.location - 1)
  else (s, cur)

/-- One character. -/
def writeChar (c : UInt8) (r : Screen × ℤ) : Screen × ℤ :=
  let r := if c ≠ 0x0A ∧ c ≠ 0x0D then putChar c r.1 r.2 else r
  let r := endLine c r.1 r.2
  let r := endScreen r.1 r.2
  (r.1, r.2 + 1)

/-- The loop of `cga_write` over a string without its terminator; `NULL` is the empty string. -/
def writeChars (str : List UInt8) (s : Screen) : Screen :=
  (str.foldl (fun r c => writeChar c r) (s, s.location)).1

def cgaWrite (str : List UInt8) : Prog (Guarded Screen) Unit :=
  (Guarded.lock Screen).acquire >>= fun _ =>
  Guarded.inside (modify (writeChars str)) >>= fun _ =>
  (Guarded.lock Screen).release >>= fun _ => pure ()

/-! ### The cursor -/

/-- The cursor is on the screen. -/
def Screen.OnScreen (s : Screen) : Prop := s.x < cgaWidth ∧ s.y < cgaHeight

theorem putChar_y (c : UInt8) (s : Screen) (cur : ℤ) : (putChar c s cur).1.y = s.y := by
  unfold putChar
  split_ifs <;> rfl

theorem endLine_spec (c : UInt8) (s : Screen) (cur : ℤ) (hy : s.y < cgaHeight) :
    (endLine c s cur).1.x < cgaWidth ∧ (endLine c s cur).1.y ≤ cgaHeight := by
  unfold endLine cgaWidth cgaHeight at *
  split_ifs <;> dsimp only <;> omega

theorem endScreen_spec (s : Screen) (cur : ℤ) (hx : s.x < cgaWidth) :
    (endScreen s cur).1.OnScreen := by
  unfold endScreen Screen.OnScreen
  split_ifs with h
  · exact ⟨hx, (by decide : cgaHeight - 1 < cgaHeight)⟩
  · exact ⟨hx, Nat.lt_of_not_le h⟩

theorem writeChar_onScreen (c : UInt8) (r : Screen × ℤ) (h : r.1.OnScreen) :
    (writeChar c r).1.OnScreen := by
  unfold writeChar
  refine endScreen_spec _ _ (endLine_spec _ _ _ ?_).1
  split_ifs
  · rw [putChar_y]
    exact h.2
  · exact h.2

end Tachyon.Cga
