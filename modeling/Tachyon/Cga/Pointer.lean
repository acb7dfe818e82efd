import Tachyon.Cga

/-!
# The cursor and the pointer into the video memory (`cga_write`)

The position is kept twice: as the coordinates of the cursor, and as the pointer `vram_current`.

* `charWrites`: the cells that one round of the loop writes (`writeChar_frame`: no others change);
* `Agrees`: the cursor is on the screen, and the pointer is its cell;
* `Proper`: this at the start of every character, and no write besides the screen;
* `writeChar_agrees_iff`: a backspace and a carriage return, and nothing else, part the two;
* `proper_iff`: what this means for a string.
-/

namespace Tachyon.Cga

open List

/-- `n` cells from `cur` on. -/
def cells (cur : ℤ) (n : ℕ) : List ℤ := (List.range n).map fun k : ℕ => cur + (k : ℤ)

/-- The cells that the `switch` of `cga_write` writes. -/
def putWrites (c : UInt8) (s : Screen) (cur : ℤ) : List ℤ :=
  if c = 0x09 then cells cur (alignUp (s.x + 1) 8 - s.x)
  else if c = 0x08 then [{ s with x := s.x - 1 }.location]
  else [cur]

/-- The cells that `scroll1` writes: the lines that move up, and the last one. -/
def scrollWrites : List ℤ := cells 0 (cgaWidth * cgaHeight)

/-- The cells that one round of the loop writes. -/
def charWrites (c : UInt8) (r : Screen × ℤ) : List ℤ :=
  let printed := c ≠ 0x0A ∧ c ≠ 0x0D
  let line := if printed then putChar c r.1 r.2 else r
  (if printed then putWrites c r.1 r.2 else []) ++
    if cgaHeight ≤ (endLine c line.1 line.2).1.y then scrollWrites else []

/-- The screen and the pointer behind a string. -/
def writeAll (str : List UInt8) (r : Screen × ℤ) : Screen × ℤ :=
  str.foldl (fun r c => writeChar c r) r

theorem writeChars_eq_writeAll (str : List UInt8) (s : Screen) :
    writeChars str s = (writeAll str (s, s.location)).1 := rfl

variable {c : UInt8} {str : List UInt8} {s : Screen} {cur i : ℤ} {n : ℕ} {r : Screen × ℤ}

/-! ### The rest of the video memory -/

theorem mem_cells : i ∈ cells cur n ↔ cur ≤ i ∧ i < cur + n := by
  unfold cells
  simp only [mem_map, mem_range]
  constructor
  · rintro ⟨k, hk, rfl⟩
    omega
  · rintro ⟨hle, hlt⟩
    exact ⟨(i - cur).toNat, by omega, by omega⟩

theorem putChar_frame (h : i ∉ putWrites c s cur) : (putChar c s cur).1.cell i = s.cell i := by
  unfold putWrites at h
  unfold putChar
  split_ifs at h ⊢ with htab hback
  · exact if_neg fun hi => h (mem_cells.2 hi)
  · rw [mem_singleton] at h
    refine if_neg fun hi => h ?_
    omega
  · exact Function.update_of_ne (by simpa using h) _ _

theorem endLine_cell (c : UInt8) (s : Screen) (cur : ℤ) : (endLine c s cur).1.cell = s.cell := by
  unfold endLine
  split_ifs <;> rfl

theorem endScreen_frame (h : cgaHeight ≤ s.y → i ∉ scrollWrites) :
    (endScreen s cur).1.cell i = s.cell i := by
  unfold endScreen
  split_ifs with hy
  · have hout := h hy
    rw [scrollWrites, mem_cells] at hout
    unfold scroll1
    dsimp only
    rw [if_neg (by omega), if_neg (by omega)]
  · rfl

/-- A cell that a round does not write stays as it is. -/
theorem writeChar_frame (h : i ∉ charWrites c r) : (writeChar c r).1.cell i = r.1.cell i := by
  unfold charWrites at h
  simp only [mem_append, not_or] at h
  obtain ⟨hput, hscroll⟩ := h
  unfold writeChar
  rw [endScreen_frame (fun hy => by rwa [if_pos hy] at hscroll), endLine_cell]
  split_ifs at hput ⊢ with hprinted
  · exact putChar_frame hput
  · rfl

/-! ### One character -/

/-- The cursor is on the screen, and the pointer is its cell. -/
def Agrees (r : Screen × ℤ) : Prop := r.1.OnScreen ∧ r.2 = r.1.location

/-- A backspace or a carriage return. -/
def Astray (c : UInt8) : Prop := c = 0x08 ∨ c = 0x0D

instance (c : UInt8) : Decidable (Astray c) := inferInstanceAs (Decidable (_ ∨ _))

theorem alignUp_tab {x : ℕ} (hx : x < cgaWidth) :
    x < alignUp (x + 1) 8 ∧ alignUp (x + 1) 8 ≤ cgaWidth := by
  have h8 : alignUp (x + 1) 8 = add64 (x + 1) 7 - add64 (x + 1) 7 % 8 := alignUp_two_pow (x + 1) 3
  rw [h8, add64]
  unfold cgaWidth at *
  omega

/-- The `switch` leaves the pointer one cell in front of the cursor, except for a backspace. -/
theorem putChar_pointer (h : s.OnScreen) (hback : c ≠ 0x08) :
    (putChar c s s.location).2 = (putChar c s s.location).1.location - 1 := by
  obtain ⟨hx, hy⟩ := h
  unfold putChar
  unfold cgaWidth cgaHeight at *
  split_ifs
  · rfl
  · dsimp only [Screen.location, cgaWidth]
    omega

theorem endLine_pointer (hret : c ≠ 0x0D) (h : c ≠ 0x0A → cur = s.location - 1) :
    (endLine c s cur).2 = (endLine c s cur).1.location - 1 := by
  unfold endLine
  split_ifs with hend
  · rfl
  · exact h fun hline => hend (Or.inr (Or.inl hline))

theorem endScreen_pointer (h : cur = s.location - 1) :
    (endScreen s cur).2 = (endScreen s cur).1.location - 1 := by
  unfold endScreen
  split_ifs
  · rfl
  · exact h

theorem writeChar_agrees (h : Agrees r) (hc : ¬ Astray c) : Agrees (writeChar c r) := by
  obtain ⟨hon, hcur⟩ := h
  obtain ⟨hback, hret⟩ := not_or.1 hc
  refine ⟨writeChar_onScreen c r hon, ?_⟩
  unfold writeChar
  dsimp only
  rw [endScreen_pointer (endLine_pointer hret fun hline => ?_), sub_add_cancel]
  rw [if_pos ⟨hline, hret⟩, hcur]
  exact putChar_pointer hon hback

/-- A backspace moves the pointer to the cursor, and then one further. -/
theorem writeChar_backspace (hon : s.OnScreen) :
    (writeChar 0x08 (s, cur)).2 = (writeChar 0x08 (s, cur)).1.location + 1 := by
  obtain ⟨hx, hy⟩ := hon
  have hwidth : ¬ cgaWidth ≤ s.x - 1 := by omega
  have hheight : ¬ cgaHeight ≤ s.y := Nat.not_le.2 hy
  simp [writeChar, putChar, Screen.blanks, endLine, endScreen, hwidth, hheight, Screen.location]

/-- A carriage return leaves the pointer in the middle of the line. -/
theorem writeChar_return (hon : s.OnScreen) :
    (writeChar 0x0D (s, s.location)).2 = s.location + 1 ∧
      (writeChar 0x0D (s, s.location)).1.location = s.location - s.x := by
  have hheight : ¬ cgaHeight ≤ s.y := Nat.not_le.2 hon.2
  simp [writeChar, endLine, endScreen, hheight, Screen.location]

/-- **A backspace and a carriage return part the pointer from the cursor, nothing else does.** -/
theorem writeChar_agrees_iff (h : Agrees r) : Agrees (writeChar c r) ↔ ¬ Astray c := by
  refine ⟨fun hafter hastray => ?_, writeChar_agrees h⟩
  obtain ⟨s, cur⟩ := r
  obtain ⟨hon, hcur⟩ := h
  dsimp only at hon hcur
  subst hcur
  have hpointer := hafter.2
  rcases hastray with rfl | rfl
  · rw [writeChar_backspace hon] at hpointer
    omega
  · rw [(writeChar_return hon).1, (writeChar_return hon).2] at hpointer
    omega

/-- The cell is on the screen. -/
def InScreen (i : ℤ) : Prop := 0 ≤ i ∧ i < (cgaWidth * cgaHeight : ℕ)

theorem putWrites_inScreen (hon : s.OnScreen) (hi : i ∈ putWrites c s s.location) :
    InScreen i := by
  obtain ⟨hx, hy⟩ := hon
  have htab := alignUp_tab hx
  unfold putWrites at hi
  unfold InScreen
  split_ifs at hi
  · rw [mem_cells] at hi
    unfold Screen.location cgaWidth cgaHeight at *
    omega
  · rw [mem_singleton.1 hi]
    unfold Screen.location cgaWidth cgaHeight at *
    dsimp only
    omega
  · rw [mem_singleton.1 hi]
    unfold Screen.location cgaWidth cgaHeight at *
    omega

theorem charWrites_inScreen (h : Agrees r) (hi : i ∈ charWrites c r) : InScreen i := by
  obtain ⟨hon, hcur⟩ := h
  unfold charWrites at hi
  simp only [mem_append, mem_ite_nil_right, hcur] at hi
  rcases hi with ⟨-, hput⟩ | ⟨-, hscroll⟩
  · exact putWrites_inScreen hon hput
  · simpa [scrollWrites, mem_cells, InScreen] using hscroll

/-! ### Strings -/

/-- At the start of every character of the string the cursor and the pointer agree, and what is
written for it lies on the screen. -/
def Proper (str : List UInt8) (s : Screen) : Prop :=
  ∀ pre c post, str = pre ++ c :: post →
    Agrees (writeAll pre (s, s.location)) ∧
      ∀ i ∈ charWrites c (writeAll pre (s, s.location)), InScreen i

theorem writeAll_append (pre post : List UInt8) (r : Screen × ℤ) :
    writeAll (pre ++ post) r = writeAll post (writeAll pre r) := foldl_append

theorem writeAll_agrees (h : Agrees r) (hstr : ∀ c ∈ str, ¬ Astray c) :
    Agrees (writeAll str r) := by
  induction str generalizing r with
  | nil => exact h
  | cons c str ih =>
    exact ih (writeChar_agrees h (hstr c mem_cons_self)) fun d hd => hstr d (mem_cons_of_mem c hd)

/-- **The cursor and the pointer agree at every character, and all writes stay on the screen,
exactly for the strings with no backspace and no carriage return in front of another
character.** -/
theorem proper_iff (str : List UInt8) (s : Screen) (hon : s.OnScreen) :
    Proper str s ↔ ∀ pre c d post, str = pre ++ c :: d :: post → ¬ Astray c := by
  constructor
  · intro h pre c d post hstr
    have hbefore := (h pre c (d :: post) hstr).1
    have hafter := (h (pre ++ [c]) d post (by simp [hstr])).1
    rw [writeAll_append] at hafter
    exact (writeChar_agrees_iff hbefore).1 hafter
  · intro h pre c post hstr
    have hagrees : Agrees (writeAll pre (s, s.location)) := by
      refine writeAll_agrees ⟨hon, rfl⟩ fun d hd => ?_
      obtain ⟨before, behind, rfl⟩ := append_of_mem hd
      -- a character of `pre` is in front of another one, of `pre` or `c` itself
      rcases behind with _ | ⟨e, behind⟩
      · exact h before d c post (by simp [hstr])
      · exact h before d e (behind ++ c :: post) (by simp [hstr])
    exact ⟨hagrees, fun i hi => charWrites_inScreen hagrees hi⟩

theorem proper_iff_lines : (⟨79, 24, fun _ => 0⟩ : Screen).OnScreen ∧
    (Proper [0x41, 0x0A, 0x09] ⟨79, 24, fun _ => 0⟩ ↔
      ∀ pre c d post, ([0x41, 0x0A, 0x09] : List UInt8) = pre ++ c :: d :: post → ¬ Astray c) :=
  ⟨⟨by decide, by decide⟩, proper_iff _ _ ⟨by decide, by decide⟩⟩

/-- A carriage return and a letter at the end of the last line: the letter is written behind the
screen. -/
theorem return_leaves_screen : (⟨79, 24, fun _ => 0⟩ : Screen).OnScreen ∧
    charWrites 0x41 (writeAll [0x0D] (⟨79, 24, fun _ => 0⟩, 1999)) = [2000] ∧
    ¬ InScreen 2000 ∧ ¬ Proper [0x0D, 0x41] ⟨79, 24, fun _ => 0⟩ := by
  have hwrites : charWrites 0x41 (writeAll [0x0D] (⟨79, 24, fun _ => 0⟩, 1999)) = [2000] := by
    decide
  have hout : ¬ InScreen 2000 := by
    unfold InScreen
    decide
  refine ⟨⟨by decide, by decide⟩, hwrites, hout, fun h => hout ?_⟩
  refine (h [0x0D] 0x41 [] rfl).2 2000 ?_
  exact hwrites ▸ mem_singleton_self _

end Tachyon.Cga
