import Tachyon.Log.Buffer

/-!
# What `SysLog` prints

* `Prints s`: whatever the state of the kernel, the writers of the level get `s`;
* `formatLoop_eq`: a string without `%` is copied;
* `exists_directive`: what a directive appends need not start with `%`;
* `prints_iff`: so exactly the strings without `%` are printed.
-/

namespace Tachyon.Log

open Prog List

/-- User space asks for the string `s` to be logged, at a level that is enabled. -/
structure Interrupt.Logs (st : Interrupt) (k : Kernel) (s : List UInt8) : Prop where
  call : syscGetCall st = sysLog
  thread : st.thread = true
  str_ne_null : st.rdx ≠ 0
  str : StringIn k.mem st.rdx s
  enabled : k.writers st.level ≠ []

/-- Every writer of the level gets the string. -/
def Prints (s : List UInt8) : Prop :=
  ∀ (k : Kernel) (st : Interrupt), st.Logs k s → ∃ n, ∀ fuel, n < fuel →
    logSyscallHandler k fuel st = .ok (true, (k.writers st.level).map (·, s))

variable {k : Kernel} {α β : Type} {c : Cursor} {s bs : List UInt8} {size fuel n i len a : ℕ}
  {text : Text}

/-! ### Strings without `%` -/

theorem checkedAppend_eq {b : UInt8} (h : c.buf.length < size) :
    checkedAppend size size b c = .ok ((), { c with buf := c.buf ++ [b] }) := by
  unfold checkedAppend push
  rw [if_pos h, if_pos h]

/-- The loop copies what contains no `%`. -/
theorem formatLoop_eq (hstr : StringIn k.mem c.fmt bs) (hpercent : '%'.toUInt8 ∉ bs)
    (hsize : c.buf.length + bs.length < size) (hn : bs.length < n) :
    formatLoop k fuel size n c = .ok ((), ⟨c.fmt + bs.length + 1, c.arg, c.buf ++ bs⟩) := by
  induction bs generalizing c n with
  | nil =>
    obtain ⟨n, rfl⟩ := Nat.exists_eq_add_of_lt hn
    have hnext : nextChar k c = .ok (0, { c with fmt := c.fmt + 1 }) := by
      rw [nextChar, show k.mem c.fmt = 0 from hstr]
    rw [formatLoop, run_ok hnext, if_pos rfl, append_nil]
    rfl
  | cons b bs ih =>
    obtain ⟨n, rfl⟩ := Nat.exists_eq_add_of_lt hn
    rw [mem_cons, not_or] at hpercent
    rw [length_cons] at hsize
    have hnext : nextChar k c = .ok (b, { c with fmt := c.fmt + 1 }) := by rw [nextChar, hstr.1]
    have hroom : ¬ size ≤ (c.buf ++ [b]).length := by
      rw [length_append, length_singleton]
      omega
    have hrest := ih (c := ⟨c.fmt + 1, c.arg, c.buf ++ [b]⟩) (n := bs.length + 1 + n) hstr.2.2
      hpercent.2 (by rw [length_append, length_singleton]; omega) (by omega)
    rw [length_cons, formatLoop, run_ok hnext, if_neg hstr.2.1, if_pos (Ne.symm hpercent.1)]
    refine (run_ok (checkedAppend_eq (by simp; omega))).trans ?_
    rw [run_get_bind, if_neg hroom, hrest]
    simp only [append_assoc, singleton_append]
    congr 3
    omega

/-- What the handler of the system call does with the message. -/
theorem logSyscallHandler_eq {st : Interrupt} (h : st.Logs k s) :
    logSyscallHandler k fuel st = (logFormatMessage k fuel maxLogWriteBuffer st.rdx).map
      fun buf => (true, (k.writers st.level).map (·, buf)) := by
  unfold logSyscallHandler syscCall
  rw [if_pos h.call, if_pos h.thread]
  unfold logHandleWriteSyscall logWrite
  cases logFormatMessage k fuel maxLogWriteBuffer st.rdx with
  | error e => rfl
  | ok buf => rfl

theorem prints_of_notMem (hlen : s.length < maxLogWriteBuffer) (hpercent : '%'.toUInt8 ∉ s) :
    Prints s := by
  intro k st hst
  refine ⟨s.length, fun fuel hfuel => ?_⟩
  have hloop : formatLoop k fuel maxLogWriteBuffer fuel ⟨st.rdx, 0, []⟩ =
      .ok ((), ⟨st.rdx + s.length + 1, 0, s⟩) :=
    formatLoop_eq (c := ⟨st.rdx, 0, []⟩) hst.str hpercent (by simpa using hlen) hfuel
  have hmessage : logFormatMessage k fuel maxLogWriteBuffer st.rdx = .ok s := by
    unfold logFormatMessage
    rw [if_neg hst.str_ne_null, hloop]
    exact if_pos hlen
  rw [logSyscallHandler_eq hst, hmessage]
  rfl

/-! ### Directives -/

/-- A text that does not start with `%`. -/
def Altered (text : List UInt8) : Prop := ∃ b bs, text = b :: bs ∧ b ≠ '%'.toUInt8

theorem altered_of_notMem {text : List UInt8} (hne : text ≠ []) (hpercent : '%'.toUInt8 ∉ text) :
    Altered text := by
  obtain ⟨b, bs, rfl⟩ := exists_cons_of_ne_nil hne
  exact ⟨b, bs, rfl, fun hb => hpercent (hb ▸ mem_cons_self)⟩

theorem digit_ne_percent : ∀ rem < 16, digit rem ≠ '%'.toUInt8 := by decide

theorem altered_field {base m width : ℕ} {fill : UInt8} (hbase : 1 < base) (hlarge : base ≤ 16)
    (hzero : fill ≠ 0) (hfill : '%'.toUInt8 ≠ fill) : Altered (field base m fill width).reverse := by
  refine altered_of_notMem ?_ (notMem_field hbase hlarge hzero hfill digit_ne_percent)
  rw [field_reverse hzero]
  exact append_ne_nil_of_right_ne_nil _ (numeral_reverse hbase hlarge m).ne_nil

theorem altered_numberText {conv : UInt8} {lng : Bool} {w word : ℕ} {text : List UInt8}
    (h : numberText conv lng w word = some text) : Altered text := by
  unfold numberText at h
  generalize (if lng = true then toSigned word else int32 word) = z at h
  generalize (if lng = true then word else word % 2 ^ 32) = m at h
  split_ifs at h <;> cases h
  · unfold signedField
    split_ifs
    · exact ⟨_, _, rfl, by decide⟩
    · exact altered_field (by norm_num) (by norm_num) (by decide) (by decide)
  · exact altered_field (by norm_num) (by norm_num) (by decide) (by decide)
  · exact altered_field (by norm_num) (by norm_num) (by decide) (by decide)
  · exact ⟨_, _, rfl, by decide⟩

section

variable (hargs : ∀ i, k.args i = 65) (hstr : StringIn k.mem 65 [65])
include hargs hstr

/-- Arguments of `65`, which points to the string `A`: no directive has a text that starts with
`%`. -/
theorem exists_directive (arg w : ℕ) (lng : Bool) (conv : UInt8) :
    ∃ f, FieldOf k arg (.directive w lng conv) f ∧ Altered f.text := by
  cases hnum : numberText conv lng w (k.args arg) with
  | some text =>
    exact ⟨⟨w, text, text.length + 1⟩, ⟨rfl, by rw [hnum]; exact ⟨rfl, rfl⟩⟩,
      altered_numberText hnum⟩
  | none =>
    have hother : ∀ text, OtherText k 65 conv text → Altered text →
        ∃ f, FieldOf k arg (.directive w lng conv) f ∧ Altered f.text := fun text htext halt =>
      ⟨⟨w, text, _⟩, ⟨rfl, by rw [hnum, hargs]; exact ⟨htext, rfl⟩⟩, halt⟩
    unfold OtherText at hother
    by_cases hc : conv = 'c'.toUInt8
    · simp only [if_pos hc] at hother
      exact hother _ rfl ⟨65, [], rfl, by decide⟩
    simp only [if_neg hc] at hother
    by_cases hs : conv = 's'.toUInt8
    · simp only [if_pos hs, if_neg (by decide : ¬ 65 = 0)] at hother
      exact hother _ hstr ⟨65, [], rfl, by decide⟩
    · simp only [if_neg hs] at hother
      exact hother _ rfl ⟨_, _, rfl, by decide⟩

theorem exists_fields (arg : ℕ) (its : List Item) : ∃ fs, Fields k arg its fs := by
  induction its generalizing arg with
  | nil => exact ⟨[], .nil arg⟩
  | cons it its ih =>
    obtain ⟨fs, hfs⟩ := ih (arg + it.args)
    cases it with
    | char c => exact ⟨_, .cons rfl hfs⟩
    | directive w lng conv =>
      obtain ⟨f, hf, -⟩ := exists_directive hargs hstr arg w lng conv
      exact ⟨_, .cons hf hfs⟩

/-- The fields behind a `%`, with that of a directive in which the format ends. -/
theorem exists_fields_width (arg : ℕ) (rest : List UInt8) :
    ∃ fs, Fields k arg (parse (.width 0) rest).1 fs ∧
      ∃ f fs', fs ++ cutOff (parse (.width 0) rest).2 = f :: fs' ∧ Altered f.text := by
  rw [parse_width]
  rcases (scan 0 rest).2.2 with _ | ⟨conv, rest'⟩
  · exact ⟨[], .nil arg, _, _, rfl, _, _, rfl, by decide⟩
  · obtain ⟨f, hf, halt⟩ := exists_directive hargs hstr arg (scan 0 rest).1 (scan 0 rest).2.1 conv
    obtain ⟨fs, hfs⟩ := exists_fields hargs hstr _ (parse .text rest').1
    exact ⟨_, .cons hf hfs, f, _, rfl, halt⟩

/-- The message for a string with a `%` differs from it there. -/
theorem exists_fields_text {rest : List UInt8} (hbs : '%'.toUInt8 ∉ bs) (col : ℕ) :
    ∃ fs, Fields k 0 (parse .text (bs ++ '%'.toUInt8 :: rest)).1 fs ∧
      laid col (fs ++ cutOff (parse .text (bs ++ '%'.toUInt8 :: rest)).2) ≠
        bs ++ '%'.toUInt8 :: rest := by
  induction bs generalizing col with
  | nil =>
    obtain ⟨fs, hfs, f, fs', heq, b, bs, htext, hb⟩ := exists_fields_width hargs hstr 0 rest
    refine ⟨fs, hfs, fun hlaid => hb ?_⟩
    rw [show parse .text ([] ++ '%'.toUInt8 :: rest) = parse (.width 0) rest from rfl, heq, laid,
      Field.laid, htext] at hlaid
    exact (cons.inj hlaid).1
  | cons x bs ih =>
    rw [mem_cons, not_or] at hbs
    obtain ⟨fs, hfs, hne⟩ := ih hbs.2 (col + 1)
    rw [cons_append, show parse .text (x :: (bs ++ '%'.toUInt8 :: rest)) =
      before (.char x) (parse .text (bs ++ '%'.toUInt8 :: rest)) from if_neg (Ne.symm hbs.1)]
    refine ⟨⟨0, [x], 0⟩ :: fs, .cons rfl hfs, fun hlaid => hne ?_⟩
    rwa [cons_append, laid, show (⟨0, [x], 0⟩ : Field).laid col = [x] by simp [Field.laid, gap,
      blanks], singleton_append, cons.injEq, and_iff_right rfl] at hlaid

end

/-! ### What is printed -/

/-- A string at an address above `65`, and `A` there. -/
def stringMem (a : ℕ) (s : List UInt8) : Mem := fun x =>
  if x = 65 then 65 else if a ≤ x then s.getD (x - a) 0 else 0

theorem stringMem_add (ha : 65 < a) (i : ℕ) : stringMem a s (a + i) = s.getD i 0 := by
  rw [stringMem, if_neg (by omega), if_pos (by omega), Nat.add_sub_cancel_left]

theorem stringIn_stringMem (ha : 65 < a) (hzero : 0 ∉ s) :
    StringIn (stringMem a s) a s :=
  stringIn_of_getD hzero fun i _ => stringMem_add ha i

/-- A kernel with one writer. -/
def oneWriter (mem : Mem) (args : ℕ → ℕ) : Kernel :=
  ⟨mem, args, fun idx => ⟨if idx = 0 then some 0 else none, 0⟩⟩

theorem oneWriter_writers (mem : Mem) (args : ℕ → ℕ) : (oneWriter mem args).writers 0 = [0] := rfl

/-- Nothing is appended where the format goes on with a `0`. -/
theorem goOn_of_end {L : Limits} {cut : Option ℕ} {c : Cursor} (hread : L.fmt c.fmt = true)
    (hend : k.mem c.fmt = 0) : goOn k L fuel size (n + 1) cut c = .ok c.buf := by
  have hnext : Limited.nextChar k L c = .ok (0, { c with fmt := c.fmt + 1 }) := by
    rw [Limited.nextChar, if_pos hread, hend]
  cases cut with
  | none => rfl
  | some w =>
    rw [goOn, Limited.formatLoop, run_ok hnext, if_pos rfl]
    rfl

/-- With a `0` behind the string, the message is not the string. -/
theorem logFormatMessage_ne (hne : a ≠ 0) (hargs : ∀ i, k.args i = 65)
    (hA : StringIn k.mem 65 [65]) (hstr : StringIn k.mem a s) (hend : k.mem (a + s.length + 1) = 0)
    (hpercent : '%'.toUInt8 ∈ s) (hsize : 0 < size) :
    ∃ n, ∀ fuel, n ≤ fuel → logFormatMessage k fuel size a ≠ .ok s := by
  obtain ⟨bs, rest, rfl, hbs⟩ := eq_append_cons_of_mem hpercent
  obtain ⟨fs, hfs, hlaid⟩ := exists_fields_text hargs hA hbs 0
  have hcall : Call k a (bs ++ '%'.toUInt8 :: rest) fs :=
    ⟨hne, hstr, fun i => by rw [hargs]; norm_num, hfs⟩
  refine ⟨callFuel (bs ++ '%'.toUInt8 :: rest) fs + 1, fun fuel hfuel hmessage => hlaid ?_⟩
  obtain ⟨arg', j, hj, hrun⟩ := hcall.run_bounds hsize (by omega : _ ≤ fuel)
  rw [hmessage] at hrun
  unfold callFuel at hfuel
  obtain ⟨j, rfl⟩ := Nat.exists_eq_succ_of_ne_zero (by omega : j ≠ 0)
  split_ifs at hrun with hroom
  rw [goOn_of_end rfl hend] at hrun
  exact (Except.ok.inj (hrun.trans (terminate_of_lt hroom.2))).symm

/-- **`SysLog` prints the user's string**, whatever the state of the kernel, exactly if it contains
no `%`. -/
theorem prints_iff (hzero : 0 ∉ s) (hlen : s.length < maxLogWriteBuffer) :
    Prints s ↔ '%'.toUInt8 ∉ s := by
  refine ⟨fun h hpercent => ?_, prints_of_notMem hlen⟩
  let k := oneWriter (stringMem 4096 s) fun _ => 65
  let st : Interrupt := ⟨sysLog, 0, 4096, true⟩
  have hwriters : k.writers st.level = [0] := oneWriter_writers _ _
  have hstr : StringIn k.mem 4096 s := stringIn_stringMem (by decide) hzero
  have hend : k.mem (4096 + s.length + 1) = 0 := by
    exact (stringMem_add (by decide) _).trans (getD_eq_default _ _ (Nat.le_succ _))
  have hlogs : st.Logs k s := ⟨rfl, rfl, by decide, hstr, by rw [hwriters]; simp⟩
  obtain ⟨n, hn⟩ := h k st hlogs
  have hA : StringIn k.mem 65 [65] := ⟨rfl, by decide, rfl⟩
  obtain ⟨n', hne⟩ := logFormatMessage_ne (by decide) (fun _ => rfl) hA hstr hend hpercent
    (by decide : 0 < maxLogWriteBuffer)
  have hrun := hn (max (n + 1) n') (lt_max_of_lt_left (Nat.lt_succ_self n))
  rw [logSyscallHandler_eq hlogs, hwriters] at hrun
  cases hmessage : logFormatMessage k (max (n + 1) n') maxLogWriteBuffer st.rdx with
  | error e =>
    rw [hmessage] at hrun
    cases hrun
  | ok buf =>
    rw [hmessage] at hrun
    cases hrun
    exact hne _ (le_max_right _ _) hmessage

/-- The string "hi". -/
theorem prints_iff_hi : Prints ['h'.toUInt8, 'i'.toUInt8] ↔
    '%'.toUInt8 ∉ ['h'.toUInt8, 'i'.toUInt8] :=
  prints_iff (by decide) (by decide)

/-- The string "%x" prints what is in the registers of the kernel. -/
theorem percent_x_leaks :
    logSyscallHandler (oneWriter (stringMem 4096 ['%'.toUInt8, 'x'.toUInt8]) fun _ => 0xAB) 8
        ⟨sysLog, 0, 4096, true⟩ = .ok (true, [(0, ['a'.toUInt8, 'b'.toUInt8])]) ∧
      logSyscallHandler (oneWriter (stringMem 4096 ['%'.toUInt8, 'x'.toUInt8]) fun _ => 0xCD) 8
        ⟨sysLog, 0, 4096, true⟩ = .ok (true, [(0, ['c'.toUInt8, 'd'.toUInt8])]) :=
  ⟨rfl, rfl⟩

end Tachyon.Log
