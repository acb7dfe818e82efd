import Tachyon.Log.Scratch

/-!
# The log buffer (`buf`)

`log_format_message` appends texts without a look at the size of the buffer, writes the terminating
`0` behind a full one, and pads a text by the column of the whole line.

* `lay_bounds`, `Call.run_bounds`: a message comes out as `laid` says if there is room for it and
  for the `0`, and else the buffer is left;
* `Field.Short`: a field that gets fewer blanks than its width asks for;
* `Delivers`: the message is the full expansion, cut off to the size of the buffer;
* `Unharmed`: the fields for which it is;
* `delivers_iff`: and no others.
-/

namespace Tachyon.Log

open Prog List

variable {k : Kernel} {s : List UInt8} {fs : List Field} {f : Field} {fuel size fmt col n : ℕ}
  {next : List UInt8 → Except Halt (List UInt8)} {b : List UInt8} {args : ℕ → ℕ}

/-! ### Runs in a buffer of some size -/

/-- The write of the terminating `0`. -/
def terminate (size : ℕ) (b : List UInt8) : Except Halt (List UInt8) :=
  if (bounds size).buf b.length then .ok b else .error .undefined

theorem terminate_of_lt (h : b.length < size) : terminate size b = .ok b :=
  if_pos (decide_eq_true h)

theorem terminate_of_le (h : size ≤ b.length) : terminate size b = .error .undefined :=
  if_neg (by simpa [bounds] using h)

theorem Field.fits_bounds : f.Fits (bounds size) col ↔
    f.temp ≤ tempSize ∧ (f.laid col = [] ∨ col + (f.laid col).length ≤ size) := by
  unfold Field.Fits
  simp only [bounds, decide_eq_true_eq]
  rw [← length_eq_zero_iff]
  refine and_congr (by omega) ⟨fun h => ?_, fun h i hi => by omega⟩
  by_contra hcon
  have := h ((f.laid col).length - 1) (by omega)
  omega

/-- **The rounds in a buffer of the size `size`**: where the fields do not fit, or fill the buffer
up to the last byte, something is written behind its end. -/
theorem lay_bounds (hb : b.length < size) :
    (lay (bounds size) size next fs b).bind (terminate size) =
      if (∀ f ∈ fs, f.temp ≤ tempSize) ∧ b.length + (laid b.length fs).length < size then
        (next (b ++ laid b.length fs)).bind (terminate size)
      else .error .undefined := by
  induction fs generalizing b with
  | nil => rw [if_pos ⟨by simp, by simpa [laid] using hb⟩, lay, laid, append_nil]
  | cons f fs ih =>
    have hlen : (b ++ f.laid b.length).length = b.length + (f.laid b.length).length :=
      length_append
    rw [lay, length_laid_cons]
    simp only [forall_mem_cons]
    by_cases hfits : f.Fits (bounds size) b.length
    · obtain ⟨htemp, hroom⟩ := Field.fits_bounds.1 hfits
      rw [if_pos hfits]
      by_cases hfull : size ≤ (b ++ f.laid b.length).length
      · rw [if_pos hfull, if_neg (by omega)]
        exact terminate_of_le hfull
      · have hrest := ih (Nat.lt_of_not_le hfull)
        rw [if_neg hfull, hrest, hlen, laid, append_assoc, add_assoc]
        simp [htemp]
    · rw [if_neg hfits, if_neg]
      · rfl
      · rintro ⟨⟨htemp, -⟩, hsize⟩
        exact hfits (Field.fits_bounds.2 ⟨htemp, .inr (by omega)⟩)

theorem readable_bounds (size a n : ℕ) : Readable (bounds size) a n := fun _ _ => rfl

/-- **A call in a buffer of the size `size`**: there is room for the fields, or the buffer is
left. -/
theorem Call.run_bounds (h : Call k fmt s fs) (hsize : 0 < size) (hfuel : callFuel s fs ≤ fuel) :
    ∃ arg' j, fuel = j + fs.length + 1 ∧ logFormatMessage k fuel size fmt =
      if (∀ f ∈ fs ++ cutOff (parse .text s).2, f.temp ≤ tempSize) ∧
          (laid 0 (fs ++ cutOff (parse .text s).2)).length < size then
        (goOn k (bounds size) fuel size j (parse .text s).2
          ⟨fmt + s.length + 1, arg', laid 0 (fs ++ cutOff (parse .text s).2)⟩).bind (terminate size)
      else .error .undefined := by
  obtain ⟨arg', j, -, hj, hrun⟩ := h.run (readable_bounds size fmt s.length) hsize hfuel
  refine ⟨arg', j, hj, ?_⟩
  rw [← logFormatMessage_bounds, hrun]
  refine (lay_bounds hsize).trans ?_
  rw [length_nil, zero_add, nil_append]

theorem Call.logFormatMessage_eq (h : Call k fmt s fs) (hcomplete : Complete s) (hsize : 0 < size)
    (hfuel : callFuel s fs ≤ fuel) :
    logFormatMessage k fuel size fmt =
      if (∀ f ∈ fs, f.temp ≤ tempSize) ∧ (laid 0 fs).length < size then .ok (laid 0 fs)
      else .error .undefined := by
  obtain ⟨arg', j, -, hrun⟩ := h.run_bounds hsize hfuel
  rw [show (parse .text s).2 = none from hcomplete, cutOff, append_nil] at hrun
  rw [hrun]
  split_ifs with hfit
  · exact terminate_of_lt hfit.2
  · rfl

/-- Characters without an end fill the buffer. -/
theorem formatLoop_endless (fuel : ℕ) {c : Cursor} (hmem : ∀ i, k.mem (c.fmt + i) = 0x41)
    (hbuf : c.buf.length < size) (hn : size ≤ c.buf.length + n) :
    (bufOf (Limited.formatLoop k (bounds size) fuel size n c)).bind (terminate size) =
      .error .undefined := by
  induction n generalizing c with
  | zero => omega
  | succ n ih =>
    have hnext : Limited.nextChar k (bounds size) c = .ok (0x41, { c with fmt := c.fmt + 1 }) := by
      rw [← hmem 0]
      exact if_pos rfl
    have hfits : (⟨0, [0x41], 0⟩ : Field).Fits (bounds size) c.buf.length :=
      Field.fits_bounds.2 ⟨Nat.zero_le _, .inr (by simpa [Field.laid, gap, blanks] using hbuf)⟩
    have happend : Limited.checkedAppend (bounds size) size 0x41 { c with fmt := c.fmt + 1 } =
        .ok ((), ⟨c.fmt + 1, c.arg, c.buf ++ [0x41]⟩) := by
      unfold Limited.checkedAppend Limited.push
      rw [if_pos hbuf]
      exact if_pos (decide_eq_true hbuf)
    have hround : Round k (bounds size) fuel size c ⟨0, [0x41], 0⟩
        ⟨c.fmt + 1, c.arg, c.buf ++ [0x41]⟩ := by
      refine round_of_append hnext (by decide) ?_
      rw [if_pos (by decide), if_pos hfits]
      exact happend
    rw [hround n, if_pos hfits]
    split_ifs with hfull
    · exact terminate_of_le hfull
    refine ih (fun i => ?_) (Nat.lt_of_not_le hfull) ?_
    · dsimp only
      rw [add_assoc]
      exact hmem (1 + i)
    · dsimp only
      rw [length_append, length_singleton]
      omega

/-! ### Messages that are cut short -/

/-- A field behind the column `col` gets fewer blanks than its width asks for. -/
def Field.Short (col : ℕ) (f : Field) : Prop :=
  f.text.length < f.width ∧ (f.text = [] → col ≠ 0)

instance (col : ℕ) (f : Field) : Decidable (f.Short col) := inferInstanceAs (Decidable (_ ∧ _))

/-- The column behind a field that is filled up to a column of the whole line. -/
def Field.column (col : ℕ) (f : Field) : ℕ :=
  if f.text = [] then max col f.width else max (col + f.text.length) (f.width - 1)

/-- The fields of which the message is right in a buffer of the size `size`: no field is short and
there is room for all of them; or from the first field that is short there are only blanks, and
those fill the buffer just as if the message had been cut off there. -/
def Unharmed (size : ℕ) : ℕ → List Field → Prop
  | col, [] => col < size
  | col, f :: fs =>
    if f.Short col then
      (∀ g ∈ fs, ∀ c ∈ g.text, c = ' '.toUInt8) ∧ (f :: fs).foldl Field.column col + 1 = size
    else Unharmed size (col + max f.text.length f.width) fs

theorem length_blanks (n : ℕ) : (blanks n).length = n := length_replicate

theorem gap_le (col n w : ℕ) : gap col n w ≤ w - n := by
  unfold gap
  split_ifs <;> omega

theorem Field.short_iff : f.Short col ↔
    gap col f.text.length f.width < f.width - f.text.length := by
  unfold Field.Short gap
  rw [← length_eq_zero_iff]
  split_ifs <;> omega

theorem Field.laid_of_not_short (h : ¬ f.Short col) : f.laid col = f.padded := by
  have hle := gap_le col f.text.length f.width
  rw [Field.short_iff] at h
  rw [Field.laid, Field.padded, show gap col f.text.length f.width = f.width - f.text.length by
    omega]

theorem Field.length_padded (f : Field) : f.padded.length = max f.text.length f.width := by
  rw [Field.padded, length_append, length_blanks]
  omega

theorem Field.column_eq (col : ℕ) (f : Field) : f.column col = col + (f.laid col).length := by
  rw [Field.laid, length_append, length_blanks, gap, Field.column]
  simp only [← length_eq_zero_iff]
  split_ifs <;> omega

theorem column_eq (col : ℕ) (fs : List Field) :
    fs.foldl Field.column col = col + (laid col fs).length := by
  induction fs generalizing col with
  | nil => rfl
  | cons f fs ih => rw [foldl_cons, ih, length_laid_cons, Field.column_eq, add_assoc]

theorem Field.thinned_laid (col : ℕ) (f : Field) : Thinned ' '.toUInt8 (f.laid col) f.padded :=
  (Thinned.refl _ _).append (.replicate (gap_le _ _ _))

/-- Only blanks are missing in the message. -/
theorem thinned_laid (col : ℕ) (fs : List Field) :
    Thinned ' '.toUInt8 (laid col fs) (expand fs) := by
  induction fs generalizing col with
  | nil => exact .nil
  | cons f fs ih => exact (f.thinned_laid col).append (ih _)

theorem expand_cons (f : Field) (fs : List Field) : expand (f :: fs) = f.padded ++ expand fs :=
  flatMap_cons

/-- A list of nothing but blanks. -/
theorem eq_blanks {xs : List UInt8} (h : ∀ c ∈ xs, c = ' '.toUInt8) : xs = blanks xs.length :=
  eq_replicate_of_mem h

theorem mem_laid {c : UInt8} (hf : f ∈ fs) (hc : c ∈ f.text) : c ∈ laid col fs := by
  induction fs generalizing col with
  | nil => simp at hf
  | cons g fs ih =>
    rw [laid, mem_append]
    rcases mem_cons.1 hf with rfl | hf
    · exact .inl (mem_append_left _ hc)
    · exact .inr (ih hf)

theorem blank_of_mem_expand (h : ∀ g ∈ fs, ∀ c ∈ g.text, c = ' '.toUInt8) :
    ∀ c ∈ expand fs, c = ' '.toUInt8 := by
  intro c hc
  obtain ⟨g, hg, hc⟩ := mem_flatMap.1 hc
  rcases mem_append.1 hc with hc | hc
  · exact h g hg c hc
  · exact eq_of_mem_replicate hc

/-- Behind a short field nothing but blanks can be right. -/
theorem laid_prefix_iff (hshort : f.Short col) : laid col (f :: fs) <+: expand (f :: fs) ↔
    ∀ g ∈ fs, ∀ c ∈ g.text, c = ' '.toUInt8 := by
  have hgap := Field.short_iff.1 hshort
  obtain ⟨d, hd⟩ := Nat.exists_eq_add_of_lt hgap
  have hpadded : f.padded = f.laid col ++ blanks (d + 1) := by
    rw [Field.padded, hd, Field.laid, append_assoc, blanks, blanks, blanks,
      replicate_append_replicate, add_assoc]
  rw [laid, expand_cons, hpadded, append_assoc, prefix_append_right_inj]
  have hthin := thinned_laid (col + (f.laid col).length) fs
  refine ⟨fun hpre g hg c hc => hthin.eq_of_mem (Nat.succ_pos d) hpre c (mem_laid hg hc),
    fun hblank => ?_⟩
  have hexpand := blank_of_mem_expand hblank
  have hlaid := eq_blanks fun c hc => hexpand c (hthin.sublist.subset hc)
  rw [hlaid, eq_blanks hexpand, blanks, blanks, blanks, replicate_append_replicate]
  have hle := hthin.sublist.length_le
  refine ⟨blanks (d + 1 + (expand fs).length - (laid (col + (f.laid col).length) fs).length), ?_⟩
  rw [blanks, replicate_append_replicate]
  congr 1
  omega

theorem length_laid_lt (fs : List Field) (hshort : f.Short col) :
    (laid col (f :: fs)).length < (expand (f :: fs)).length := by
  have hgap := Field.short_iff.1 hshort
  have hle := (thinned_laid (col + (f.laid col).length) fs).sublist.length_le
  rw [length_laid_cons, expand_cons, length_append, Field.laid, Field.padded,
    length_append, length_append, length_blanks, length_blanks]
  rw [Field.laid, length_append, length_blanks] at hle
  omega

/-- **The message that the source lays out is the expansion, cut off to the size of the buffer,
exactly for these fields.** -/
theorem laid_eq_take_iff (col : ℕ) (fs : List Field) :
    col + (laid col fs).length < size ∧ laid col fs = (expand fs).take (size - 1 - col) ↔
      Unharmed size col fs := by
  induction fs generalizing col with
  | nil => simp [laid, expand, Unharmed]
  | cons f fs ih =>
    rw [Unharmed]
    by_cases hshort : f.Short col
    · have hlt := length_laid_lt fs hshort
      rw [if_pos hshort, ← laid_prefix_iff hshort, column_eq, prefix_iff_eq_take]
      refine ⟨fun h => ?_, fun h => ?_⟩
      · have hlen := congrArg length h.2
        rw [length_take] at hlen
        rw [show (laid col (f :: fs)).length = size - 1 - col by omega]
        exact ⟨h.2, by omega⟩
      · rw [show size - 1 - col = (laid col (f :: fs)).length by omega]
        exact ⟨by omega, h.1⟩
    · have hlen := f.length_padded
      rw [if_neg hshort, ← ih, laid, Field.laid_of_not_short hshort, expand_cons, hlen,
        length_append, hlen, ← add_assoc]
      refine and_congr_right fun hroom => ?_
      rw [take_append, hlen, take_of_length_le (by omega), append_cancel_left_eq,
        Nat.sub_sub (size - 1) col]

/-! ### The function -/

/-- In every call with this format, these arguments and these fields, whatever lies behind the
format, the function returns, writes to the buffer only, and leaves the full expansion there, cut
off to the characters for which there is room. -/
def Delivers (args : ℕ → ℕ) (s : List UInt8) (fs : List Field) (size : ℕ) : Prop :=
  ∀ k fmt, k.args = args → Call k fmt s fs → ∃ n, ∀ fuel, n ≤ fuel →
    logFormatMessage k fuel size fmt = .ok ((expand fs).take (size - 1))

theorem delivers_of_complete (h : Call k fmt s fs) (hcomplete : Complete s) (hsize : 0 < size) :
    Delivers k.args s fs size ↔ (∀ f ∈ fs, f.temp ≤ tempSize) ∧ Unharmed size 0 fs := by
  rw [← laid_eq_take_iff, zero_add, Nat.sub_zero]
  refine ⟨fun hdelivers => ?_, fun hok k' fmt' _ h' => ⟨callFuel s fs, fun fuel hfuel => ?_⟩⟩
  · obtain ⟨n, hn⟩ := hdelivers k fmt rfl h
    have hrun := hn (max n (callFuel s fs)) (le_max_left _ _)
    rw [h.logFormatMessage_eq hcomplete hsize (le_max_right _ _)] at hrun
    split_ifs at hrun with hroom
    exact ⟨hroom.1, hroom.2, Except.ok.inj hrun⟩
  · rw [h'.logFormatMessage_eq hcomplete hsize hfuel, if_pos ⟨hok.1, hok.2.1⟩, ← hok.2.2]

/-- Behind a format that ends inside a directive there may be a text without an end. -/
theorem not_delivers_of_cut (h : Call k fmt s fs) (hcut : ¬ Complete s) (hsize : 0 < size) :
    ¬ Delivers k.args s fs size := by
  intro hdelivers
  obtain ⟨w, hw⟩ := Option.ne_none_iff_exists'.1 hcut
  obtain ⟨k', fmt', hargs, h', htail⟩ := h.elsewhere fun _ => 0x41
  obtain ⟨n, hn⟩ := hdelivers k' fmt' hargs h'
  have hrun := hn (max n (callFuel s fs + size)) (le_max_left _ _)
  have hfuel : callFuel s fs + size ≤ max n (callFuel s fs + size) := le_max_right _ _
  generalize max n (callFuel s fs + size) = fuel at *
  obtain ⟨arg', j, hj, hmessage⟩ := h'.run_bounds hsize ((Nat.le_add_right _ size).trans hfuel)
  rw [hmessage] at hrun
  split_ifs at hrun with hroom
  unfold callFuel at hfuel
  have hendless := formatLoop_endless fuel (n := j) (c := ⟨fmt' + s.length + 1, arg',
    laid 0 (fs ++ cutOff (parse .text s).2)⟩) htail hroom.2 (by dsimp only; omega)
  rw [hw, goOn, ← hw, hendless] at hrun
  cases hrun

/-- **The message is the full expansion, cut off to the size of the buffer, exactly if the format
does not end inside a directive, the numbers fit into `temp`, and the fields are `Unharmed`.** -/
theorem delivers_iff (h : Call k fmt s fs) (hsize : 0 < size) :
    Delivers k.args s fs size ↔
      Complete s ∧ WidthsOk k.args 0 (parse .text s).1 ∧ Unharmed size 0 fs := by
  rw [← temps_le_iff h.args_lt h.fields]
  by_cases hcomplete : Complete s
  · rw [delivers_of_complete h hcomplete hsize]
    exact (and_iff_right hcomplete).symm
  · exact iff_of_false (not_delivers_of_cut h hcomplete hsize) fun hok => hcomplete hok.1

theorem delivers_iff_number :
    Call (formatAt [0x25, 0x64, 0x0A] fun _ => 7) 0x1000 [0x25, 0x64, 0x0A]
      [⟨0, signedField 10 7 ' '.toUInt8 0, 2⟩, ⟨0, [0x0A], 0⟩] ∧
    (Delivers (fun _ => 7) [0x25, 0x64, 0x0A]
      [⟨0, signedField 10 7 ' '.toUInt8 0, 2⟩, ⟨0, [0x0A], 0⟩] 1024 ↔
      Complete [0x25, 0x64, 0x0A] ∧ WidthsOk (fun _ => 7) 0 (parse .text [0x25, 0x64, 0x0A]).1 ∧
        Unharmed 1024 0 [⟨0, signedField 10 7 ' '.toUInt8 0, 2⟩, ⟨0, [0x0A], 0⟩]) :=
  ⟨call_number, delivers_iff call_number (by norm_num)⟩

/-- A message of two characters in a buffer of two bytes: the terminating `0` is written behind
it. -/
theorem full_buffer_is_left :
    StringIn (formatAt [0x6F, 0x6B] fun _ => 0).mem 0x1000 [0x6F, 0x6B] ∧
    logFormatMessage (formatAt [0x6F, 0x6B] fun _ => 0) 16 2 0x1000 = .error .undefined ∧
    ¬ Delivers (fun _ => 0) [0x6F, 0x6B] [⟨0, [0x6F], 0⟩, ⟨0, [0x6B], 0⟩] 2 := by
  have hcall : Call (formatAt [0x6F, 0x6B] fun _ => 0) 0x1000 [0x6F, 0x6B]
      [⟨0, [0x6F], 0⟩, ⟨0, [0x6B], 0⟩] :=
    ⟨by decide, stringIn_writeBytes (by decide), fun _ => by norm_num [formatAt],
      .cons rfl (.cons rfl (.nil _))⟩
  refine ⟨hcall.str, by decide +kernel, fun hdelivers => ?_⟩
  have hok := (delivers_of_complete hcall (by decide) (by norm_num)).1 hdelivers
  simp [Unharmed, Field.Short] at hok

end Tachyon.Log
