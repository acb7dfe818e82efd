import Tachyon.Log.Reads

/-!
# The scratch space for numbers (`temp`)

* `WidthOk`, `WidthsOk`: the field widths for which a number fits into `temp`;
* `temp_le_iff`: no other number does;
* `Call.elsewhere`: the same call with other bytes behind the format;
* `TempSuffices`: no call of `log_format_u` or `log_format_s` writes more than `temp` has;
* `tempSuffices_iff`: what it takes.
-/

namespace Tachyon.Log

open Prog List

variable {k : Kernel} {L : Limits} {s : List UInt8} {fs : List Field} {f : Field} {it : Item}
  {its : List Item} {fuel size fmt arg base n w a : ℕ} {fill : UInt8}
  {next : List UInt8 → Except Halt (List UInt8)} {b : List UInt8} {m : Mem}

/-! ### How long numbers are -/

theorem length_numeral_le {b d : ℕ} (hbase : 1 < b) (hd : 0 < d) (hn : n < b ^ d) :
    (numeral b n).length ≤ d := by
  unfold numeral
  split_ifs
  · exact hd
  · rw [length_map]
    exact (Nat.digits_length_le_iff hbase n).2 hn

theorem length_field (hfill : fill ≠ 0) :
    (field base n fill w).reverse.length = max w (numeral base n).length := by
  rw [field_reverse hfill, length_append, length_replicate, length_reverse]
  omega

/-- The width with which a number fits into `temp`; a sign takes one more byte. -/
def WidthOk (word : ℕ) : Item → Prop
  | .char _ => True
  | .directive w lng conv =>
    if conv = 'i'.toUInt8 ∨ conv = 'd'.toUInt8 then
      if (if lng then toSigned word else int32 word) < 0 then w ≤ 30 else w ≤ 31
    else if conv = 'u'.toUInt8 ∨ conv = 'x'.toUInt8 then w ≤ 31
    else True

/-- The widths of all directives, from the argument with the number `arg` on. -/
def WidthsOk (args : ℕ → ℕ) : ℕ → List Item → Prop
  | _, [] => True
  | arg, it :: its => WidthOk (args arg) it ∧ WidthsOk args (arg + it.args) its

/-- A field fits into `temp` if its width is small enough, and not else. -/
theorem temp_le_iff (hargs : k.args arg < 2 ^ 64) (h : FieldOf k arg it f) :
    f.temp ≤ tempSize ↔ WidthOk (k.args arg) it := by
  have hspace : ' '.toUInt8 ≠ 0 := by decide
  have hzero : '0'.toUInt8 ≠ 0 := by decide
  have hten : (2 : ℕ) ^ 64 ≤ 10 ^ 20 := by norm_num
  have hhex : (2 : ℕ) ^ 64 ≤ 16 ^ 16 := by norm_num
  cases it with
  | char c =>
    cases h
    simp [WidthOk, tempSize]
  | directive w lng conv =>
    obtain ⟨-, h⟩ := h
    unfold numberText at h
    unfold WidthOk tempSize
    dsimp only
    -- the conversions in the order of the `switch`
    by_cases hi : conv = 'i'.toUInt8 ∨ conv = 'd'.toUInt8
    · rw [if_pos hi] at h ⊢
      have hlen := length_numeral_le (by norm_num) (by norm_num)
        ((natAbs_signed_lt lng hargs).trans_le hten)
      rw [h.2, signedField, length_append, length_field hspace]
      generalize (if lng = true then toSigned (k.args arg) else int32 (k.args arg)) = z at *
      split_ifs <;> simp only [length_singleton, length_nil] <;> omega
    rw [if_neg hi] at h ⊢
    by_cases hu : conv = 'u'.toUInt8
    · have hlen := length_numeral_le (by norm_num) (by norm_num)
        ((unsigned_lt lng hargs).trans_le hten)
      rw [if_pos hu] at h
      rw [if_pos (.inl hu), h.2, length_field hspace]
      omega
    rw [if_neg hu] at h
    by_cases hx : conv = 'x'.toUInt8
    · have hlen := length_numeral_le (by norm_num) (by norm_num)
        ((unsigned_lt lng hargs).trans_le hhex)
      rw [if_pos hx] at h
      rw [if_pos (.inr hx), h.2, length_field hzero]
      omega
    rw [if_neg hx] at h
    rw [if_neg (not_or.2 ⟨hu, hx⟩), iff_true]
    by_cases hp : conv = 'p'.toUInt8
    · have hlen := length_numeral_le (by norm_num) (by norm_num) (hargs.trans_le hhex)
      rw [if_pos hp] at h
      rw [h.2, length_cons, length_cons, length_field hzero]
      omega
    · rw [if_neg hp] at h
      rw [h.2]
      split_ifs <;> norm_num

theorem temps_le_iff (hargs : ∀ i, k.args i < 2 ^ 64) (h : Fields k arg its fs) :
    (∀ f ∈ fs, f.temp ≤ tempSize) ↔ WidthsOk k.args arg its := by
  induction h with
  | nil arg => simp [WidthsOk]
  | cons head tail ih => rw [forall_mem_cons, temp_le_iff (hargs _) head, ih, WidthsOk]

/-! ### Other bytes behind the format -/

theorem StringIn.zero_notMem (h : StringIn m a s) : 0 ∉ s := by
  induction s generalizing a with
  | nil => exact not_mem_nil
  | cons b s ih =>
    rw [mem_cons, not_or]
    exact ⟨h.2.1.symm, ih h.2.2⟩

theorem StringIn.congr {m' : Mem} (h : StringIn m a s)
    (heq : ∀ x ≤ a + s.length, m' x = m x) : StringIn m' a s := by
  induction s generalizing a with
  | nil => exact (heq a (Nat.le_add_right a _)).trans h
  | cons b s ih =>
    rw [length_cons] at heq
    exact ⟨(heq a (by omega)).trans h.1, h.2.1, ih h.2.2 fun x hx => heq x (by omega)⟩

theorem OtherText.congr {k' : Kernel} {word : ℕ} {conv : UInt8} (h : OtherText k word conv s)
    (heq : ∀ x ≤ word + s.length, k'.mem x = k.mem x) : OtherText k' word conv s := by
  unfold OtherText at *
  split_ifs at * with hc hnul hs hnull
  · exact h
  · exact h
  · exact h
  · exact StringIn.congr h heq
  · exact h

/-- The fields of a format depend on a part of the memory only. -/
theorem Fields.congr (h : Fields k arg its fs) : ∃ top, ∀ k' : Kernel, k'.args = k.args →
    (∀ x ≤ top, k'.mem x = k.mem x) → Fields k' arg its fs := by
  induction h with
  | nil arg => exact ⟨0, fun k' _ _ => .nil arg⟩
  | @cons arg it f its fs head tail ih =>
    obtain ⟨top, htop⟩ := ih
    refine ⟨max top (k.args arg + f.text.length), fun k' hargs hmem => .cons ?_
      (htop k' hargs fun x hx => hmem x (le_max_of_le_left hx))⟩
    cases it with
    | char c => exact head
    | directive w lng conv =>
      refine ⟨head.1, ?_⟩
      have hbody := head.2
      rw [hargs]
      cases htext : numberText conv lng w (k.args arg) with
      | some text =>
        rw [htext] at hbody
        exact hbody
      | none =>
        rw [htext] at hbody
        exact ⟨hbody.1.congr fun x hx => hmem x (le_max_of_le_right hx), hbody.2⟩

/-- **The bytes behind a format are no part of a call**: there may be any others. -/
theorem Call.elsewhere (h : Call k fmt s fs) (tail : Mem) :
    ∃ k' fmt', k'.args = k.args ∧ Call k' fmt' s fs ∧
      ∀ i, k'.mem (fmt' + s.length + 1 + i) = tail i := by
  obtain ⟨top, htop⟩ := h.fields.congr
  have hzero := h.str.zero_notMem
  have hlen : (s ++ [0]).length = s.length + 1 := by simp
  refine ⟨{ k with mem := writeBytes (fun a => if a ≤ top then k.mem a else
    tail (a - (top + 1 + s.length + 1))) (top + 1) (s ++ [0]) }, top + 1, rfl,
    ⟨Nat.succ_ne_zero top, stringIn_writeBytes hzero, h.args_lt, htop _ rfl fun x hx => ?_⟩,
    fun i => ?_⟩
  · dsimp only
    rw [writeBytes_of_not_mem (.inl (by omega)), if_pos hx]
  · dsimp only
    rw [writeBytes_of_not_mem (.inr (by omega)), if_neg (by omega), Nat.add_sub_cancel_left]

/-! ### The limit -/

/-- A field that does not fit into `temp`, in a buffer with room for everything. -/
theorem lay_of_temp (htemp : ¬ TempsFit L fs) (hbuf : ∀ i, L.buf i = true)
    (hsize : b.length + (laid b.length fs).length < size) :
    lay L size next fs b = .error .undefined := by
  induction fs generalizing b with
  | nil => exact absurd (fun f hf => absurd hf not_mem_nil) htemp
  | cons f fs ih =>
    rw [length_laid_cons] at hsize
    have hlen : (b ++ f.laid b.length).length = b.length + (f.laid b.length).length :=
      length_append
    by_cases hf : f.temp = 0 ∨ L.temp f.temp = true
    · rw [lay, if_pos ⟨hf, fun i _ => hbuf _⟩, hlen, if_neg (by omega)]
      refine ih (fun htail => htemp (forall_mem_cons.2 ⟨hf, htail⟩)) ?_
      rw [hlen]
      omega
    · rw [lay, if_neg fun hfits => hf hfits.1]

/-- Only the writes to `temp` have a limit. -/
def tempOnly : Limits := ⟨fun _ => true, fun n => decide (n ≤ tempSize), fun _ => true⟩

theorem tempsFit_tempOnly : TempsFit tempOnly fs ↔ ∀ f ∈ fs, f.temp ≤ tempSize := by
  unfold TempsFit tempOnly
  simp only [decide_eq_true_eq]
  refine forall₂_congr fun f _ => ?_
  omega

/-- In every call with this format, these arguments and these fields, whatever lies behind the
format and whatever the size of the buffer, the function returns and every number fits into
`temp`. -/
def TempSuffices (args : ℕ → ℕ) (s : List UInt8) (fs : List Field) : Prop :=
  ∀ k fmt, k.args = args → Call k fmt s fs → ∀ size, 0 < size → ∃ n, ∀ fuel, n ≤ fuel →
    ∃ b, Limited.logFormatMessage k tempOnly fuel size fmt = .ok b

theorem readable_tempOnly (a n : ℕ) : Readable tempOnly a n := fun _ _ => rfl

/-- Within the limit the function returns. -/
theorem tempSuffices_of_complete {args : ℕ → ℕ} (hcomplete : Complete s)
    (htemp : ∀ f ∈ fs, f.temp ≤ tempSize) : TempSuffices args s fs := by
  intro k fmt _ h size hsize
  exact ⟨callFuel s fs, fun fuel hfuel => h.isOk hcomplete (readable_tempOnly fmt s.length)
    (tempsFit_tempOnly.2 htemp) (fun i => rfl) hsize hfuel⟩

/-- A number that does not fit is written in a buffer with room for everything. -/
theorem not_tempSuffices_of_temp (h : Call k fmt s fs) (htemp : ¬ ∀ f ∈ fs, f.temp ≤ tempSize) :
    ¬ TempSuffices k.args s fs := by
  intro hsuffices
  obtain ⟨n, hn⟩ := hsuffices k fmt rfl h _
    (Nat.succ_pos (laid 0 (fs ++ cutOff (parse .text s).2)).length)
  obtain ⟨b, hb⟩ := hn (max n (callFuel s fs)) (le_max_left _ _)
  obtain ⟨arg', j, -, -, hrun⟩ := h.run (readable_tempOnly fmt s.length) (Nat.succ_pos _)
    (le_max_right n (callFuel s fs))
  have hbad : ¬ TempsFit tempOnly (fs ++ cutOff (parse .text s).2) := fun hfit =>
    htemp (tempsFit_tempOnly.1 fun f hf => hfit f (mem_append_left _ hf))
  rw [hrun, lay_of_temp hbad (fun i => rfl) (by simp)] at hb
  cases hb

/-- The field of `%40u`: `41` bytes are written to `temp`. -/
def wideField (word : ℕ) : Field := ⟨40, (field 10 (word % 2 ^ 32) ' '.toUInt8 40).reverse, 41⟩

theorem length_wideField (word : ℕ) : (wideField word).text.length = 40 := by
  have hdigits : (numeral 10 (word % 2 ^ 32)).length ≤ 20 :=
    length_numeral_le (by norm_num) (by norm_num) (by omega)
  rw [wideField, length_field (by decide)]
  omega

theorem length_laid_wideField (word col : ℕ) : (laid col [wideField word]).length = 40 := by
  have hlen := length_wideField word
  have hgap : gap col 40 (wideField word).width = 0 := by
    exact Nat.sub_eq_zero_of_le (by simp only [wideField]; omega)
  rw [laid, laid, append_nil, Field.laid, length_append, hlen, hgap, blanks, length_replicate]

theorem formatLoop_wide {c : Cursor} (hargs : ∀ i, k.args i < 2 ^ 64)
    (hstr : StringIn k.mem c.fmt [0x25, 0x34, 0x30, 0x75]) (hsize : c.buf.length + 50 ≤ size)
    (hfuel : c.buf.length + 50 ≤ fuel) :
    bufOf (Limited.formatLoop k tempOnly fuel size (n + 2) c) = .error .undefined := by
  have hfield : FieldOf k c.arg (.directive 40 false 0x75) (wideField (k.args c.arg)) :=
    ⟨rfl, rfl, (length_wideField (k.args c.arg)).symm ▸ rfl⟩
  have hlaid := length_laid_wideField (k.args c.arg) c.buf.length
  have hparse : parse .text [0x25, 0x34, 0x30, 0x75] = ([.directive 40 false 0x75], none) := rfl
  have hroom : [0x25, 0x34, 0x30, 0x75].length + c.buf.length +
      (laid c.buf.length ([wideField (k.args c.arg)] ++ cutOff none)).length + 2 < fuel := by
    rw [cutOff, append_nil, hlaid]
    simp only [length_cons, length_nil]
    omega
  obtain ⟨arg', hloop⟩ := formatLoop_buf hargs hstr (readable_tempOnly _ _) hparse
    (.cons hfield (.nil _)) (by omega : c.buf.length < size) hroom
  have hbad : ¬ TempsFit tempOnly [wideField (k.args c.arg)] := fun hfit => by
    have := tempsFit_tempOnly.1 hfit _ mem_cons_self
    norm_num [wideField, tempSize] at this
  refine (hloop n).trans ?_
  rw [cutOff, append_nil]
  exact lay_of_temp hbad (fun i => rfl) (by rw [hlaid]; omega)

/-- Behind a format that ends inside a directive there may be `%40u`. -/
theorem not_tempSuffices_of_cut (h : Call k fmt s fs) (hcut : ¬ Complete s) :
    ¬ TempSuffices k.args s fs := by
  by_cases htemp : ∀ f ∈ fs, f.temp ≤ tempSize
  swap
  · exact not_tempSuffices_of_temp h htemp
  intro hsuffices
  obtain ⟨w, hw⟩ := Option.ne_none_iff_exists'.1 hcut
  obtain ⟨k', fmt', hargs, h', htail⟩ :=
    h.elsewhere fun i => ([0x25, 0x34, 0x30, 0x75] : List UInt8).getD i 0
  have hsize : 0 < (laid 0 (fs ++ cutOff (parse .text s).2)).length + 50 := by omega
  obtain ⟨n, hn⟩ := hsuffices k' fmt' hargs h' _ hsize
  obtain ⟨b, hb⟩ := hn (max n (callFuel s fs + 50)) (le_max_left _ _)
  have hfuel : callFuel s fs + 50 ≤ max n (callFuel s fs + 50) := le_max_right _ _
  obtain ⟨arg', j, -, hj, hrun⟩ := h'.run (readable_tempOnly fmt' s.length) hsize
    ((Nat.le_add_right _ 50).trans hfuel)
  have hfit : TempsFit tempOnly (fs ++ cutOff (parse .text s).2) := by
    intro f hf
    rcases mem_append.1 hf with hf | hf
    · exact tempsFit_tempOnly.2 htemp f hf
    · rw [hw, cutOff, mem_singleton] at hf
      exact .inl (hf ▸ rfl)
  have hstr : StringIn k'.mem (fmt' + s.length + 1) [0x25, 0x34, 0x30, 0x75] :=
    ⟨htail 0, by decide, htail 1, by decide, htail 2, by decide, htail 3, by decide, htail 4⟩
  generalize max n (callFuel s fs + 50) = fuel at *
  unfold callFuel at hfuel
  obtain ⟨j, rfl⟩ := Nat.exists_eq_add_of_le' (by omega : 2 ≤ j)
  have hwide := formatLoop_wide (n := j) (c := ⟨fmt' + s.length + 1, arg',
    laid 0 (fs ++ cutOff (parse .text s).2)⟩) h'.args_lt hstr le_rfl
    (by dsimp only; omega : _ ≤ fuel)
  rw [hrun, lay_of_room hfit (fun i _ => rfl) (by simp), hw, goOn, ← hw, nil_append,
    length_nil, hwide] at hb
  cases hb

/-- **`temp` is large enough for every number that is formatted, exactly if the format does not end
inside a directive and no field width is too large for its number.** -/
theorem tempSuffices_iff (h : Call k fmt s fs) :
    TempSuffices k.args s fs ↔ Complete s ∧ WidthsOk k.args 0 (parse .text s).1 := by
  rw [← temps_le_iff h.args_lt h.fields]
  refine ⟨fun hsuffices => ⟨?_, ?_⟩, fun hok => tempSuffices_of_complete hok.1 hok.2⟩
  · by_contra hcut
    exact not_tempSuffices_of_cut h hcut hsuffices
  · by_contra htemp
    exact not_tempSuffices_of_temp h htemp hsuffices

theorem tempSuffices_iff_number :
    Call (formatAt [0x25, 0x64, 0x0A] fun _ => 7) 0x1000 [0x25, 0x64, 0x0A]
      [⟨0, signedField 10 7 ' '.toUInt8 0, 2⟩, ⟨0, [0x0A], 0⟩] ∧
    (TempSuffices (fun _ => 7) [0x25, 0x64, 0x0A]
      [⟨0, signedField 10 7 ' '.toUInt8 0, 2⟩, ⟨0, [0x0A], 0⟩] ↔
      Complete [0x25, 0x64, 0x0A] ∧ WidthsOk (fun _ => 7) 0 (parse .text [0x25, 0x64, 0x0A]).1) :=
  ⟨call_number, tempSuffices_iff call_number⟩

/-- The format `%40u`. -/
theorem wide_field_leaves_temp :
    StringIn (formatAt [0x25, 0x34, 0x30, 0x75] fun _ => 7).mem 0x1000 [0x25, 0x34, 0x30, 0x75] ∧
    Limited.logFormatMessage (formatAt [0x25, 0x34, 0x30, 0x75] fun _ => 7) tempOnly 128 1024
      0x1000 = .error .undefined ∧
    ¬ TempSuffices (fun _ => 7) [0x25, 0x34, 0x30, 0x75] [wideField 7] := by
  have hfield : FieldOf (formatAt [0x25, 0x34, 0x30, 0x75] fun _ => 7) 0
      (.directive 40 false 0x75) (wideField 7) :=
    ⟨rfl, rfl, (length_wideField 7).symm ▸ rfl⟩
  have hcall : Call (formatAt [0x25, 0x34, 0x30, 0x75] fun _ => 7) 0x1000
      [0x25, 0x34, 0x30, 0x75] [wideField 7] :=
    ⟨by decide, stringIn_writeBytes (by decide), fun _ => by norm_num [formatAt],
      .cons hfield (.nil _)⟩
  refine ⟨hcall.str, by decide +kernel, not_tempSuffices_of_temp hcall fun htemp => ?_⟩
  have := htemp _ mem_cons_self
  norm_num [wideField, tempSize] at this

end Tachyon.Log
