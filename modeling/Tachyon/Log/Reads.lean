import Tachyon.Log.Rounds

/-!
# Reading the format string

* `lay_of_room`, `lay_isOk`: the rounds within their limits;
* `ReadsWithin k fmt s`: whatever the size of the buffer, `log_format_message` returns and reads
  nothing but the characters of the format `s` and its terminating `0`;
* `readsWithin_iff`: this holds of the formats that do not end inside a directive.
-/

namespace Tachyon.Log

open Prog List

variable {k : Kernel} {L : Limits} {s : List UInt8} {fs : List Field} {f : Field}
  {fuel size fmt : ℕ} {next : List UInt8 → Except Halt (List UInt8)} {b : List UInt8}

/-! ### Fields within the limits -/

/-- What is written to `temp` for the fields is within the limits. -/
def TempsFit (L : Limits) (fs : List Field) : Prop := ∀ f ∈ fs, f.temp = 0 ∨ L.temp f.temp = true

/-- Fields for which there is room. -/
theorem lay_of_room (htemp : TempsFit L fs)
    (hbuf : ∀ i < b.length + (laid b.length fs).length, L.buf i = true)
    (hsize : b.length + (laid b.length fs).length < size) :
    lay L size next fs b = next (b ++ laid b.length fs) := by
  induction fs generalizing b with
  | nil => rw [lay, laid, append_nil]
  | cons f fs ih =>
    obtain ⟨hhead, htail⟩ := forall_mem_cons.1 htemp
    rw [length_laid_cons] at hbuf hsize
    have hfits : f.Fits L b.length := ⟨hhead, fun i hi => hbuf _ (by omega)⟩
    have hlen : (b ++ f.laid b.length).length = b.length + (f.laid b.length).length :=
      length_append
    rw [lay, if_pos hfits, hlen, if_neg (by omega), ih htail, hlen, laid, append_assoc]
    · rw [hlen]
      exact fun i hi => hbuf i (by omega)
    · rw [hlen]
      omega

/-- Fields in a buffer without limits. -/
theorem lay_isOk (size : ℕ) (b : List UInt8) (htemp : TempsFit L fs) (hbuf : ∀ i, L.buf i = true)
    (hnext : ∀ b, ∃ b', next b = .ok b') : ∃ b', lay L size next fs b = .ok b' := by
  induction fs generalizing b with
  | nil => exact hnext b
  | cons f fs ih =>
    obtain ⟨hhead, htail⟩ := forall_mem_cons.1 htemp
    rw [lay, if_pos ⟨hhead, fun i _ => hbuf _⟩]
    split_ifs
    · exact ⟨_, rfl⟩
    · exact ih _ htail

/-! ### The function -/

/-- A call of `log_format_message`: the format `s` is at `fmt`, and `fs` are its fields. -/
structure Call (k : Kernel) (fmt : ℕ) (s : List UInt8) (fs : List Field) : Prop where
  fmt_ne_null : fmt ≠ 0
  str : StringIn k.mem fmt s
  args_lt : ∀ i, k.args i < 2 ^ 64
  fields : Fields k 0 (parse .text s).1 fs

/-- Enough fuel for a call. -/
def callFuel (s : List UInt8) (fs : List Field) : ℕ :=
  s.length + (laid 0 (fs ++ cutOff (parse .text s).2)).length + fs.length + 3

/-- **A call lays out its fields.** -/
theorem Call.run (h : Call k fmt s fs) (hread : Readable L fmt s.length) (hsize : 0 < size)
    (hfuel : callFuel s fs ≤ fuel) :
    ∃ arg' n, 0 < n ∧ fuel = n + fs.length + 1 ∧ Limited.logFormatMessage k L fuel size fmt =
      (lay L size (fun b => goOn k L fuel size n (parse .text s).2 ⟨fmt + s.length + 1, arg', b⟩)
        (fs ++ cutOff (parse .text s).2) []).bind
        fun b => if L.buf b.length then .ok b else .error .undefined := by
  unfold callFuel at hfuel
  obtain ⟨arg', hloop⟩ := formatLoop_buf (L := L) (c := ⟨fmt, 0, []⟩) h.args_lt h.str hread rfl
    h.fields hsize (by simp only [length_nil]; omega : _ < fuel)
  refine ⟨arg', fuel - fs.length - 1, by omega, by omega, ?_⟩
  have hrun := hloop (fuel - fs.length - 1)
  rw [show fuel - fs.length - 1 + fs.length + 1 = fuel by omega] at hrun
  rw [← hrun, Limited.logFormatMessage, if_neg h.fmt_ne_null]
  cases Limited.formatLoop k L fuel size fuel ⟨fmt, 0, []⟩ with
  | error e => rfl
  | ok r => rfl

/-- A call with a complete format returns, if there is no limit to the buffer. -/
theorem Call.isOk (h : Call k fmt s fs) (hcomplete : Complete s) (hread : Readable L fmt s.length)
    (htemp : TempsFit L fs) (hbuf : ∀ i, L.buf i = true) (hsize : 0 < size)
    (hfuel : callFuel s fs ≤ fuel) :
    ∃ b, Limited.logFormatMessage k L fuel size fmt = .ok b := by
  obtain ⟨arg', j, -, -, hrun⟩ := h.run hread hsize hfuel
  rw [show (parse .text s).2 = none from hcomplete, cutOff, append_nil] at hrun
  have hnext : ∀ b, ∃ b', goOn k L fuel size j none ⟨fmt + s.length + 1, arg', b⟩ = .ok b' :=
    fun b => ⟨b, rfl⟩
  obtain ⟨b, hb⟩ := lay_isOk size [] htemp hbuf hnext
  exact ⟨b, hrun.trans (by rw [hb]; exact if_pos (hbuf b.length))⟩

/-! ### Reads -/

/-- Only the format and its terminating `0` may be read. -/
def formatOnly (fmt : ℕ) (s : List UInt8) : Limits :=
  ⟨fun a => decide (fmt ≤ a ∧ a ≤ fmt + s.length), fun _ => true, fun _ => true⟩

theorem formatLoop_beyond {n : ℕ} {c : Cursor} (h : L.fmt c.fmt = false) :
    Limited.formatLoop k L fuel size (n + 1) c = .error .undefined := by
  have hnext : Limited.nextChar k L c = .error .undefined := if_neg (by simp [h])
  rw [Limited.formatLoop, run_error hnext]

/-- Whatever the size of the buffer, the function returns and reads nothing but its format. -/
def ReadsWithin (k : Kernel) (fmt : ℕ) (s : List UInt8) : Prop :=
  ∀ size, 0 < size → ∃ n, ∀ fuel, n ≤ fuel →
    ∃ b, Limited.logFormatMessage k (formatOnly fmt s) fuel size fmt = .ok b

theorem readable_formatOnly (fmt : ℕ) (s : List UInt8) :
    Readable (formatOnly fmt s) fmt s.length := by
  intro i hi
  simp only [formatOnly, decide_eq_true_eq]
  omega

theorem readsWithin_of_complete (h : Call k fmt s fs) (hcomplete : Complete s) :
    ReadsWithin k fmt s := by
  intro size hsize
  exact ⟨callFuel s fs, fun fuel hfuel => h.isOk hcomplete (readable_formatOnly fmt s)
    (fun f _ => Or.inr rfl) (fun i => rfl) hsize hfuel⟩

theorem not_readsWithin_of_cut (h : Call k fmt s fs) (hcut : ¬ Complete s) :
    ¬ ReadsWithin k fmt s := by
  intro hwithin
  obtain ⟨w, hw⟩ := Option.ne_none_iff_exists'.1 hcut
  -- a buffer with room for everything, so that the loop comes to the end of the format
  obtain ⟨n, hn⟩ := hwithin ((laid 0 (fs ++ cutOff (parse .text s).2)).length + 1) (Nat.succ_pos _)
  obtain ⟨b, hb⟩ := hn (max n (callFuel s fs)) (le_max_left _ _)
  obtain ⟨arg', j, hj, -, hrun⟩ := h.run (readable_formatOnly fmt s) (Nat.succ_pos _)
    (le_max_right n (callFuel s fs))
  rw [hrun, lay_of_room (fun f _ => Or.inr rfl) (fun i _ => rfl) (by simp)] at hb
  obtain ⟨j, rfl⟩ := Nat.exists_eq_succ_of_ne_zero hj.ne'
  have hbeyond : (formatOnly fmt s).fmt (fmt + s.length + 1) = false := by simp [formatOnly]
  rw [hw, goOn, formatLoop_beyond hbeyond] at hb
  cases hb

/-- **The format is read up to its end and not further, exactly if it does not end inside a
directive.** -/
theorem readsWithin_iff (h : Call k fmt s fs) : ReadsWithin k fmt s ↔ Complete s :=
  ⟨fun hwithin => by
    by_contra hcut
    exact not_readsWithin_of_cut h hcut hwithin, readsWithin_of_complete h⟩

/-- A format at `0x1000`, with `0` behind it and everywhere else, and arguments. -/
def formatAt (s : List UInt8) (args : ℕ → ℕ) : Kernel :=
  ⟨writeBytes (fun _ => 0) 0x1000 (s ++ [0]), args, fun _ => ⟨none, 0⟩⟩

/-- The call `log_write(level, "%d\n", 7)`. -/
theorem call_number : Call (formatAt [0x25, 0x64, 0x0A] fun _ => 7) 0x1000 [0x25, 0x64, 0x0A]
    [⟨0, signedField 10 7 ' '.toUInt8 0, 2⟩, ⟨0, [0x0A], 0⟩] where
  fmt_ne_null := by decide
  str := stringIn_writeBytes (by decide)
  args_lt := fun _ => by norm_num [formatAt]
  fields := .cons ⟨rfl, rfl, by simp [signedField, field, numeral, formatAt, int32]⟩
    (.cons rfl (.nil _))

theorem readsWithin_iff_number :
    Call (formatAt [0x25, 0x64, 0x0A] fun _ => 7) 0x1000 [0x25, 0x64, 0x0A]
      [⟨0, signedField 10 7 ' '.toUInt8 0, 2⟩, ⟨0, [0x0A], 0⟩] ∧
    (ReadsWithin (formatAt [0x25, 0x64, 0x0A] fun _ => 7) 0x1000 [0x25, 0x64, 0x0A] ↔
      Complete [0x25, 0x64, 0x0A]) :=
  ⟨call_number, readsWithin_iff call_number⟩

/-- The format `50%`: the terminating `0` is taken for a conversion, and the next character is read
from behind it. -/
theorem percent_reads_on : StringIn (formatAt [0x35, 0x30, 0x25] fun _ => 0).mem 0x1000
    [0x35, 0x30, 0x25] ∧
    Limited.logFormatMessage (formatAt [0x35, 0x30, 0x25] fun _ => 0)
      (formatOnly 0x1000 [0x35, 0x30, 0x25]) 64 1024 0x1000 = .error .undefined ∧
    ¬ ReadsWithin (formatAt [0x35, 0x30, 0x25] fun _ => 0) 0x1000 [0x35, 0x30, 0x25] := by
  have hcall : Call (formatAt [0x35, 0x30, 0x25] fun _ => 0) 0x1000 [0x35, 0x30, 0x25]
      [⟨0, [0x35], 0⟩, ⟨0, [0x30], 0⟩] :=
    ⟨by decide, stringIn_writeBytes (by decide), fun _ => by norm_num [formatAt],
      .cons rfl (.cons rfl (.nil _))⟩
  exact ⟨hcall.str, by decide +kernel, not_readsWithin_of_cut hcall (by decide)⟩

end Tachyon.Log
