import Tachyon.Log.Format

/-!
# The rounds of `log_format_message`

One round of the loop takes one item of the format and appends its field.

* `appendText_eq`: a text is appended as `Field.laid` says, whatever the limits are;
* `directive_eq`: a directive is read as `scan` says;
* `formatLoop_buf`: so the buffer behind the loop is that of `lay`; behind a format that ends inside
  a directive the loop goes on.
-/

namespace Tachyon.Log

open Prog List Nat

variable {k : Kernel} {L : Limits} {c : Cursor} {text : Text} {bs cs : List UInt8}
  {fuel size n i len w arg : ℕ} {f : Field}

/-! ### Appending -/

variable {b : UInt8} {a : ℕ} {m : Mem} {xs ys : List UInt8} {lng : Bool} {d : Cursor}
  {fs : List Field} {cut : Option ℕ}

theorem length_of_push {r : Unit × Cursor} (h : Limited.push L b c = .ok r) :
    r.2.buf.length = c.buf.length + 1 := by
  unfold Limited.push at h
  split_ifs at h
  cases h
  simp

/-- Characters appended one after the other. -/
def pushAll (L : Limits) : List UInt8 → Prog Cursor Unit
  | [] => pure ()
  | b :: bs => Limited.push L b >>= fun _ => pushAll L bs

theorem pushAll_eq (L : Limits) (bs : List UInt8) (c : Cursor) :
    pushAll L bs c = if ∀ i < bs.length, L.buf (c.buf.length + i) then
      .ok ((), { c with buf := c.buf ++ bs }) else .error .undefined := by
  induction bs generalizing c with
  | nil => simp [pushAll, pure]
  | cons b bs ih =>
    unfold pushAll
    by_cases hb : L.buf c.buf.length = true
    · have hpush : Limited.push L b c = .ok ((), { c with buf := c.buf ++ [b] }) := if_pos hb
      rw [run_ok hpush, ih]
      have hiff : (∀ i < bs.length, L.buf ((c.buf ++ [b]).length + i) = true) ↔
          ∀ i < (b :: bs).length, L.buf (c.buf.length + i) = true := by
        rw [length_append, length_singleton, length_cons, forall_lt_succ_left]
        simp only [add_zero, hb, true_and, add_assoc, add_comm 1]
      simp only [hiff, append_assoc, singleton_append]
    · have hpush : Limited.push L b c = .error .undefined := if_neg hb
      rw [run_error hpush, if_neg fun h => hb (h 0 (by simp))]

theorem pushAll_append (L : Limits) (xs ys : List UInt8) (c : Cursor) :
    (pushAll L xs >>= fun _ => pushAll L ys) c = pushAll L (xs ++ ys) c := by
  induction xs generalizing c with
  | nil => rfl
  | cons x xs ih =>
    cases hpush : Limited.push L x c with
    | error e =>
      have hfirst : pushAll L (x :: xs) c = .error e := run_error hpush
      have hall : pushAll L (x :: xs ++ ys) c = .error e := run_error hpush
      rw [run_error hfirst, hall]
    | ok r =>
      have hfirst : pushAll L (x :: xs) c = pushAll L xs r.2 := run_ok hpush
      have hall : pushAll L (x :: xs ++ ys) c = pushAll L (xs ++ ys) r.2 := run_ok hpush
      rw [hall, ← ih r.2, run_bind, run_bind, hfirst]

/-- The padding starts where the count has reached the length of the buffer. -/
theorem padLoop_eq (L : Limits) (n len : ℕ) (c : Cursor) :
    Limited.padLoop L n len c = pushAll L (blanks (n - (c.buf.length - len))) c := by
  induction n generalizing len c with
  | zero => simp [Limited.padLoop, blanks, pushAll]
  | succ n ih =>
    unfold Limited.padLoop
    by_cases hroom : c.buf.length < len + 1
    · have hcount : n + 1 - (c.buf.length - len) = n + 1 := by omega
      rw [hcount, blanks, replicate_succ, pushAll]
      have happend : Limited.checkedAppend L (len + 1) ' '.toUInt8 c =
          Limited.push L ' '.toUInt8 c := if_pos hroom
      cases hpush : Limited.push L ' '.toUInt8 c with
      | error e => rw [run_error (happend.trans hpush), run_error hpush]
      | ok r =>
        have hlen := length_of_push hpush
        have hmore : n - (r.2.buf.length - (len + 1)) = n := by omega
        rw [run_ok (happend.trans hpush), run_ok hpush, ih, hmore]
        rfl
    · have hskip : Limited.checkedAppend L (len + 1) ' '.toUInt8 c = .ok ((), c) := if_neg hroom
      have hcount : n - (c.buf.length - (len + 1)) = n + 1 - (c.buf.length - len) := by omega
      rw [run_ok hskip, ih, hcount]

/-- Nothing is appended as long as the count is not above the length of the buffer. -/
theorem appendLoop_idle (fuel : ℕ) {d : ℕ} (htext : text i ≠ 0)
    (hlen : len + d = c.buf.length + 1) :
    Limited.appendLoop L text (fuel + d) i len c =
      Limited.appendLoop L text fuel i (c.buf.length + 1) c := by
  induction d generalizing len with
  | zero => rw [← hlen, add_zero, add_zero]
  | succ d ih =>
    rw [← add_assoc, Limited.appendLoop, if_neg htext, run_get_bind,
      if_neg (by omega), ih (by omega)]

theorem appendLoop_eq (hstr : StringIn text i bs) (hfuel : bs.length < fuel) :
    Limited.appendLoop L text fuel i (c.buf.length + 1) c =
      (pushAll L bs >>= fun _ => pure (c.buf.length + 1 + bs.length)) c := by
  induction bs generalizing fuel i c with
  | nil =>
    rcases fuel with _ | fuel
    · omega
    have hend : text i = 0 := hstr
    rw [Limited.appendLoop, if_pos hend]
    rfl
  | cons b bs ih =>
    obtain ⟨fuel, rfl⟩ := Nat.exists_eq_add_of_lt hfuel
    rw [Limited.appendLoop, if_neg (hstr.1 ▸ hstr.2.1), run_get_bind,
      if_pos (lt_succ_self _), hstr.1]
    cases hpush : Limited.push L b c with
    | error e =>
      rw [run_error hpush]
      exact (run_error (run_error hpush)).symm
    | ok r =>
      have hlen := length_of_push hpush
      have hrest := ih (c := r.2) hstr.2.2
        (by rw [length_cons]; omega : bs.length < (b :: bs).length + fuel)
      rw [run_ok hpush, ← hlen, hrest, run_bind, run_bind, pushAll, run_ok hpush, length_cons, hlen]
      have hcount : c.buf.length + 1 + 1 + bs.length = c.buf.length + 1 + (bs.length + 1) := by
        omega
      rw [hcount]

/-- **A text is appended in its place**, and then blanks up to a column of the whole line. -/
theorem appendText_eq (hstr : StringIn text 0 f.text)
    (hfuel : c.buf.length + f.text.length + 2 < fuel) :
    Limited.appendText L fuel f.width text c = pushAll L (f.laid c.buf.length) c := by
  unfold Limited.appendText Field.laid gap
  cases htext : f.text with
  | nil =>
    rw [htext] at hstr
    obtain ⟨fuel, rfl⟩ := Nat.exists_eq_add_of_lt hfuel
    have hend : text 0 = 0 := hstr
    have hloop : Limited.appendLoop L text (c.buf.length + f.text.length + 2 + fuel + 1) 0 0 c =
        .ok (0, c) := by
      rw [Limited.appendLoop, if_pos hend]
      rfl
    rw [run_ok hloop, padLoop_eq]
    rfl
  | cons b bs =>
    rw [htext] at hstr hfuel
    have hloop : Limited.appendLoop L text fuel 0 0 c =
        (pushAll L (b :: bs) >>= fun _ => pure (c.buf.length + 1 + (b :: bs).length)) c := by
      have hidle := appendLoop_idle (L := L) (fuel - (c.buf.length + 1))
        (hstr.1 ▸ hstr.2.1) (zero_add (c.buf.length + 1))
      rw [Nat.sub_add_cancel (by omega)] at hidle
      rw [hidle, appendLoop_eq hstr (by omega)]
    rw [if_neg (by simp), ← pushAll_append, run_bind, run_bind, hloop, run_bind]
    cases hpush : pushAll L (b :: bs) c with
    | error e => rfl
    | ok r =>
      rw [pushAll_eq] at hpush
      split_ifs at hpush
      cases hpush
      have hcount : (c.buf ++ b :: bs).length - (c.buf.length + 1 + (b :: bs).length) = 0 := by
        rw [length_append]
        omega
      exact (padLoop_eq L _ _ _).trans (by rw [hcount, Nat.sub_zero])

/-! ### Reading a directive -/

/-- The format may be read from `a` to the terminating `0` behind `n` characters. -/
def Readable (L : Limits) (a n : ℕ) : Prop := ∀ i ≤ n, L.fmt (a + i) = true

theorem Readable.head (h : Readable L a n) : L.fmt a = true := h 0 (zero_le n)

theorem Readable.tail (h : Readable L a (n + 1)) : Readable L (a + 1) n := fun i hi => by
  have := h (i + 1) (by omega)
  rwa [show a + (i + 1) = a + 1 + i by omega] at this

theorem nextChar_eq (hstr : StringIn k.mem c.fmt cs) (hread : Readable L c.fmt n) :
    Limited.nextChar k L c = .ok (cs.headD 0, { c with fmt := c.fmt + 1 }) := by
  unfold Limited.nextChar
  rw [if_pos hread.head]
  cases cs with
  | nil => rw [show k.mem c.fmt = 0 from hstr]; rfl
  | cons b bs => rw [hstr.1]; rfl

theorem not_isDigit_zero : ¬ IsDigit 0 := by decide

theorem logParseNumber_eq {v : ℕ} (hstr : StringIn k.mem a cs) (hread : Readable L a cs.length)
    (hfuel : cs.length < fuel) :
    Limited.logParseNumber k L fuel a v c =
      .ok ((cs.takeWhile (IsDigit ·)).foldl addDigit v, c) := by
  induction cs generalizing fuel a v with
  | nil =>
    rcases fuel with _ | fuel
    · omega
    have hend : k.mem a = 0 := hstr
    rw [Limited.logParseNumber, if_pos hread.head, hend, if_neg not_isDigit_zero]
    rfl
  | cons b bs ih =>
    obtain ⟨fuel, rfl⟩ := Nat.exists_eq_add_of_lt hfuel
    rw [Limited.logParseNumber, if_pos hread.head, hstr.1]
    by_cases hdigit : IsDigit b
    · have hrest := ih (v := addDigit v b) hstr.2.2 hread.tail
        (by rw [length_cons]; omega : bs.length < (b :: bs).length + fuel)
      rw [if_pos hdigit]
      refine hrest.trans ?_
      simp [hdigit]
    · rw [if_neg hdigit]
      simp [hdigit, pure]

/-- The cursor behind the first character of `rest`, where `rest` is an end of what lies behind the
cursor and the character in front of it. -/
def Cursor.behind (c : Cursor) (cs rest : List UInt8) : Cursor :=
  { c with fmt := c.fmt + (cs.length - rest.length) }

theorem skipDigits_eq (hstr : StringIn k.mem c.fmt cs)
    (hread : Readable L c.fmt cs.length) (hfuel : cs.length + 1 < fuel) :
    Limited.skipDigits k L fuel b c = .ok (((b :: cs).dropWhile (IsDigit ·)).headD 0,
      c.behind (b :: cs) ((b :: cs).dropWhile (IsDigit ·))) := by
  induction cs generalizing fuel b c with
  | nil =>
    obtain ⟨fuel, rfl⟩ := Nat.exists_eq_add_of_lt hfuel
    rw [Limited.skipDigits]
    split_ifs with hdigit
    · rw [run_ok (nextChar_eq hstr hread), headD_nil,
        show [].length + 1 + fuel = fuel + 1 by simp; omega, Limited.skipDigits,
        if_neg not_isDigit_zero]
      simp [hdigit, Cursor.behind, pure]
    · simp [hdigit, Cursor.behind, pure]
  | cons b' bs ih =>
    obtain ⟨fuel, rfl⟩ := Nat.exists_eq_add_of_lt hfuel
    rw [Limited.skipDigits]
    by_cases hdigit : IsDigit b
    · have hrest := ih (b := b') (c := { c with fmt := c.fmt + 1 }) hstr.2.2 hread.tail
        (by rw [length_cons]; omega : bs.length + 1 < (b' :: bs).length + 1 + fuel)
      have hle : ((b' :: bs).dropWhile (IsDigit ·)).length ≤ (b' :: bs).length :=
        (dropWhile_sublist _).length_le
      have hdrop : (b :: b' :: bs).dropWhile (IsDigit ·) = (b' :: bs).dropWhile (IsDigit ·) :=
        dropWhile_cons_of_pos (by simpa using hdigit)
      have hfmt : c.fmt + 1 + ((b' :: bs).length - ((b' :: bs).dropWhile (IsDigit ·)).length) =
          c.fmt + ((b :: b' :: bs).length - ((b' :: bs).dropWhile (IsDigit ·)).length) := by
        rw [length_cons (a := b)]
        omega
      rw [if_pos hdigit, run_ok (nextChar_eq hstr hread), headD_cons, hrest, hdrop,
        Cursor.behind, Cursor.behind, hfmt]
    · rw [if_neg hdigit]
      simp [hdigit, Cursor.behind, pure]

theorem StringIn.append (h : StringIn m a (xs ++ ys)) :
    StringIn m (a + xs.length) ys := by
  induction xs generalizing a with
  | nil => exact h
  | cons x xs ih =>
    have := ih h.2.2
    rwa [add_assoc, add_comm 1] at this

theorem Readable.append (h : Readable L a (xs ++ ys).length) :
    Readable L (a + xs.length) ys.length := fun i hi => by
  have := h (xs.length + i) (by rw [length_append]; omega)
  rwa [← add_assoc] at this

/-- The field width; the cursor is behind the first character `b` of the directive. -/
theorem fieldWidth_eq (hstr : StringIn k.mem c.fmt (b :: cs))
    (hread : Readable L c.fmt (b :: cs).length) (hfuel : cs.length + 1 < fuel) :
    Limited.fieldWidth k L fuel b { c with fmt := c.fmt + 1 } =
      .ok ((((b :: cs).takeWhile (IsDigit ·)).foldl addDigit 0 % 2 ^ 32,
        ((b :: cs).dropWhile (IsDigit ·)).headD 0),
        { c with fmt := c.fmt + 1 }.behind (b :: cs) ((b :: cs).dropWhile (IsDigit ·))) := by
  unfold Limited.fieldWidth
  by_cases hdigit : IsDigit b
  · have hnumber := logParseNumber_eq (c := { c with fmt := c.fmt + 1 }) (v := 0) hstr hread
      (by rw [length_cons]; omega : (b :: cs).length < fuel)
    have hskip := skipDigits_eq (c := { c with fmt := c.fmt + 1 }) (b := b) hstr.2.2 hread.tail
      hfuel
    rw [if_pos hdigit, run_get_bind, Nat.add_sub_cancel, run_ok hnumber, run_ok hskip]
    rfl
  · rw [if_neg hdigit]
    simp [hdigit, Cursor.behind, pure]

/-- **A directive is read as `scan` says**; where the format ends in it, the terminating `0` is
taken for its conversion. -/
theorem directive_eq (hstr : StringIn k.mem c.fmt cs) (hread : Readable L c.fmt cs.length)
    (hfuel : cs.length < fuel) :
    Limited.directive k L fuel c =
      (Limited.conversion k L (scan 0 cs).1 (scan 0 cs).2.1 ((scan 0 cs).2.2.headD 0) >>=
        fun text => Limited.appendText L fuel (scan 0 cs).1 text)
      { c with fmt := c.fmt + (cs.length - (scan 0 cs).2.2.length) + 1 } := by
  unfold Limited.directive
  rw [run_ok (nextChar_eq hstr hread)]
  cases cs with
  | nil => rfl
  | cons b cs =>
    have hsplit : (b :: cs).takeWhile (IsDigit ·) ++ (b :: cs).dropWhile (IsDigit ·) = b :: cs :=
      takeWhile_append_dropWhile
    have hlen := congrArg length hsplit
    rw [length_append] at hlen
    have hrest := (hsplit.symm ▸ hstr : StringIn k.mem c.fmt (_ ++ _)).append
    have hreadable := (hsplit.symm ▸ hread : Readable L c.fmt (_ ++ _ : List UInt8).length).append
    rw [headD_cons, run_ok (fieldWidth_eq hstr hread (by simpa using hfuel))]
    unfold scan Limited.longSwitch Cursor.behind
    generalize (b :: cs).takeWhile (IsDigit ·) = ds at *
    generalize (b :: cs).dropWhile (IsDigit ·) = rest at *
    rcases rest with _ | ⟨x, rest⟩
    · have hfmt : c.fmt + 1 + ((b :: cs).length - 0) = c.fmt + ((b :: cs).length - 0) + 1 := by
        omega
      simp only [headD_nil, head?_nil, length_nil, hfmt]
      rfl
    · by_cases hlong : x = 'l'.toUInt8
      · subst hlong
        rw [length_cons] at hlen hreadable
        have hfmt : c.fmt + 1 + ((b :: cs).length - (rest.length + 1)) = c.fmt + ds.length + 1 := by
          omega
        have hfmt' : c.fmt + ((b :: cs).length - rest.length) + 1 = c.fmt + ds.length + 1 + 1 := by
          omega
        simp only [headD_cons, head?_cons, length_cons (a := 'l'.toUInt8), if_true,
          tail_cons, hfmt, hfmt']
        have hnext : (Limited.nextChar k L >>= fun c => pure (true, c))
            ⟨c.fmt + ds.length + 1, c.arg, c.buf⟩ =
            .ok ((true, rest.headD 0), ⟨c.fmt + ds.length + 1 + 1, c.arg, c.buf⟩) :=
          run_ok (nextChar_eq hrest.2.2 hreadable.tail)
        exact run_ok hnext
      · have hfmt : c.fmt + 1 + ((b :: cs).length - (x :: rest).length) =
            c.fmt + ((b :: cs).length - (x :: rest).length) + 1 := by omega
        simp only [headD_cons, head?_cons, Option.some.injEq, hlong, if_false, hfmt]
        rfl

/-! ### Conversions -/

/-- A string is where its characters and a `0` are. -/
theorem stringIn_of_getD (hbs : 0 ∉ bs)
    (h : ∀ i ≤ bs.length, m (a + i) = bs.getD i 0) : StringIn m a bs := by
  induction bs generalizing a with
  | nil => exact h 0 le_rfl
  | cons b bs ih =>
    rw [mem_cons, not_or] at hbs
    refine ⟨h 0 (zero_le _), Ne.symm hbs.1, ih hbs.2 fun i hi => ?_⟩
    rw [add_assoc, add_comm 1 i]
    exact (h (i + 1) (succ_le_succ hi)).trans getD_cons_succ

theorem stringIn_ofBytes (h : 0 ∉ bs) : StringIn (Text.ofBytes bs) 0 bs :=
  stringIn_of_getD h fun i _ => by rw [zero_add, Text.ofBytes]

theorem stringIn_shift (h : StringIn m (a + i) bs) :
    StringIn (fun j => m (a + j)) i bs := by
  induction bs generalizing i with
  | nil => exact h
  | cons b bs ih => exact ⟨h.1, h.2.1, ih h.2.2⟩

/-- A character that is in no formatted number. -/
theorem notMem_field {base m width : ℕ} {fill ch : UInt8} (hbase : 1 < base) (hlarge : base ≤ 16)
    (hzero : fill ≠ 0) (hfill : ch ≠ fill) (hdigit : ∀ rem < 16, digit rem ≠ ch) :
    ch ∉ (field base m fill width).reverse := by
  rw [field_reverse hzero, mem_append, not_or]
  exact ⟨fun hmem => hfill (eq_of_mem_replicate hmem),
    (numeral_reverse hbase hlarge m).notMem hlarge hdigit⟩

theorem zero_notMem_field {base m width : ℕ} {fill : UInt8} (hbase : 1 < base) (hlarge : base ≤ 16)
    (hfill : fill ≠ 0) : 0 ∉ (field base m fill width).reverse :=
  notMem_field hbase hlarge hfill hfill.symm digit_ne_zero

theorem natAbs_signed_lt {word : ℕ} (lng : Bool) (hword : word < 2 ^ 64) :
    (if lng then toSigned word else int32 word).natAbs < 2 ^ 64 := by
  unfold toSigned int32
  split_ifs <;> omega

theorem unsigned_lt {word : ℕ} (lng : Bool) (hword : word < 2 ^ 64) :
    (if lng then word else word % 2 ^ 32) < 2 ^ 64 := by
  split_ifs <;> omega

/-- A conversion that writes to `temp`. -/
theorem run_inTemp {g : ℕ → Except Halt (List UInt8)} (hg : g (k.args c.arg) = .ok bs)
    (hbs : StringIn (Text.ofBytes bs) 0 f.text) (htemp : f.temp = bs.length + 1) :
    ∃ text, StringIn text 0 f.text ∧ (vaArg k >>= fun w => Limited.inTemp L (g w)) c =
      if f.temp = 0 ∨ L.temp f.temp then .ok (text, { c with arg := c.arg + 1 })
      else .error .undefined := by
  refine ⟨_, hbs, (run_ok (rfl : vaArg k c = .ok (k.args c.arg, _))).trans ?_⟩
  rw [hg, htemp]
  simp [Limited.inTemp]

/-- **A conversion finds the text of its field**, if `temp` is large enough for it. -/
theorem conversion_eq {conv : UInt8} (hargs : ∀ i, k.args i < 2 ^ 64)
    (h : FieldOf k c.arg (.directive w lng conv) f) :
    ∃ text, StringIn text 0 f.text ∧ Limited.conversion k L w lng conv c =
      if f.temp = 0 ∨ L.temp f.temp then
        .ok (text, { c with arg := c.arg + (Item.directive w lng conv).args })
      else .error .undefined := by
  obtain ⟨-, h⟩ := h
  have harg := hargs c.arg
  have hsigned := natAbs_signed_lt lng harg
  have hunsigned := unsigned_lt lng harg
  have hspace : ' '.toUInt8 ≠ 0 := by decide
  have hzero : '0'.toUInt8 ≠ 0 := by decide
  unfold numberText at h
  unfold Limited.conversion
  -- the conversions in the order of the `switch`
  by_cases hi : conv = 'i'.toUInt8 ∨ conv = 'd'.toUInt8
  · rw [if_pos hi] at h ⊢
    have hone : (Item.directive w lng conv).args = 1 := by rcases hi with rfl | rfl <;> rfl
    rw [hone]
    refine run_inTemp (logFormatS_eq (by norm_num) hsigned) ?_ h.2
    rw [h.1]
    refine stringIn_ofBytes ?_
    unfold signedField
    rw [mem_append, not_or]
    refine ⟨?_, zero_notMem_field (by norm_num) (by norm_num) hspace⟩
    split_ifs <;> decide
  rw [if_neg hi] at h ⊢
  by_cases hu : conv = 'u'.toUInt8
  · subst hu
    refine run_inTemp (logFormatU_eq (by norm_num) hunsigned) ?_ h.2
    rw [h.1]
    exact stringIn_ofBytes (zero_notMem_field (by norm_num) (by norm_num) hspace)
  rw [if_neg hu] at h ⊢
  by_cases hx : conv = 'x'.toUInt8
  · subst hx
    refine run_inTemp (logFormatU_eq (by norm_num) hunsigned) ?_ h.2
    rw [h.1]
    exact stringIn_ofBytes (zero_notMem_field (by norm_num) (by norm_num) hzero)
  rw [if_neg hx] at h ⊢
  by_cases hp : conv = 'p'.toUInt8
  · subst hp
    refine run_inTemp (by rw [logFormatU_eq (by norm_num) harg]; rfl) ?_ h.2
    rw [h.1]
    refine stringIn_ofBytes ?_
    rw [mem_cons, mem_cons, not_or, not_or]
    exact ⟨by decide, by decide, zero_notMem_field (by norm_num) (by norm_num) hzero⟩
  rw [if_neg hp] at h ⊢
  obtain ⟨htext, htemp⟩ := h
  unfold OtherText at htext
  by_cases hc : conv = 'c'.toUInt8
  · subst hc
    refine run_inTemp rfl ?_ htemp
    rw [htext]
    split_ifs with hnul
    · rw [hnul]
      rfl
    · exact stringIn_ofBytes (by simpa using Ne.symm hnul)
  rw [if_neg hc] at htext htemp ⊢
  rw [htemp]
  by_cases hs : conv = 's'.toUInt8
  · subst hs
    refine ⟨_, ?_, run_ok (rfl : vaArg k c = .ok (k.args c.arg, _))⟩
    by_cases hnull : k.args c.arg = 0
    · rw [if_pos hnull] at htext ⊢
      rw [htext]
      exact stringIn_ofBytes (by decide)
    · rw [if_neg hnull] at htext ⊢
      exact stringIn_shift htext
  · rw [if_neg hs] at htext ⊢
    have hnone : (Item.directive w lng conv).args = 0 := by
      unfold Item.args TakesArg chars
      simp_all
    rw [hnone, htext]
    exact ⟨_, stringIn_ofBytes (by decide), rfl⟩

/-! ### Rounds -/

/-- A round appends the field `f` and leaves the cursor `d`; the loop ends when the buffer is
full. -/
def Round (k : Kernel) (L : Limits) (fuel size : ℕ) (c : Cursor) (f : Field) (d : Cursor) : Prop :=
  ∀ n, Limited.formatLoop k L fuel size (n + 1) c =
    if f.Fits L c.buf.length then
      if size ≤ d.buf.length then .ok ((), d) else Limited.formatLoop k L fuel size n d
    else .error .undefined

theorem round_of_append {c' : Cursor} (hnext : Limited.nextChar k L c = .ok (b, c')) (hb : b ≠ 0)
    (happend : (if b ≠ '%'.toUInt8 then Limited.checkedAppend L size b
      else Limited.directive k L fuel) c' =
        if f.Fits L c.buf.length then .ok ((), d) else .error .undefined) :
    Round k L fuel size c f d := by
  intro n
  rw [Limited.formatLoop, run_ok hnext, if_neg hb]
  by_cases hfits : f.Fits L c.buf.length
  · rw [if_pos hfits] at happend ⊢
    rw [run_ok happend, run_get_bind]
    split_ifs <;> rfl
  · rw [if_neg hfits] at happend ⊢
    exact run_error happend

theorem round_char (hstr : StringIn k.mem c.fmt (b :: cs))
    (hread : Readable L c.fmt (b :: cs).length) (hb : b ≠ '%'.toUInt8)
    (hsize : c.buf.length < size) (hf : FieldOf k c.arg (.char b) f) :
    Round k L fuel size c f ⟨c.fmt + 1, c.arg, c.buf ++ f.laid c.buf.length⟩ := by
  cases hf
  refine round_of_append (nextChar_eq hstr hread) hstr.2.1 ?_
  rw [headD_cons, if_pos hb]
  unfold Limited.checkedAppend
  rw [if_pos hsize]
  unfold Limited.push Field.Fits Field.laid gap blanks
  simp

theorem round_directive {rest : List UInt8} (size : ℕ)
    (hargs : ∀ i, k.args i < 2 ^ 64) (hstr : StringIn k.mem c.fmt ('%'.toUInt8 :: cs))
    (hread : Readable L c.fmt (cs.length + 1))
    (hfuel : cs.length + c.buf.length + f.text.length + 2 < fuel)
    (hscan : scan 0 cs = (w, lng, rest))
    (hf : FieldOf k c.arg (.directive w lng (rest.headD 0)) f) :
    Round k L fuel size c f ⟨c.fmt + 1 + (cs.length - rest.length) + 1,
      c.arg + (Item.directive w lng (rest.headD 0)).args, c.buf ++ f.laid c.buf.length⟩ := by
  refine round_of_append (nextChar_eq hstr hread) hstr.2.1 ?_
  rw [headD_cons, if_neg (not_not.2 rfl), directive_eq hstr.2.2 hread.tail (by omega), hscan]
  obtain ⟨text, htext, hconv⟩ := conversion_eq
    (c := { c with fmt := c.fmt + 1 + (cs.length - rest.length) + 1 }) hargs hf
  by_cases htemp : f.temp = 0 ∨ L.temp f.temp = true
  · rw [if_pos htemp] at hconv
    rw [run_ok hconv, ← hf.1, appendText_eq htext (by dsimp only; omega), pushAll_eq]
    simp [Field.Fits, htemp]
  · rw [if_neg htemp] at hconv
    rw [run_error hconv, if_neg fun hfits => htemp hfits.1]

/-! ### The loop -/

/-- The buffer that the loop leaves. -/
def bufOf (r : Except Halt (Unit × Cursor)) : Except Halt (List UInt8) := r.map fun r => r.2.buf

theorem exists_scan (w : ℕ) (cs : List UInt8) : ∃ used, cs = used ++ (scan w cs).2.2 := by
  have hsplit : cs.takeWhile (IsDigit ·) ++ cs.dropWhile (IsDigit ·) = cs :=
    takeWhile_append_dropWhile
  unfold scan
  dsimp only
  generalize cs.takeWhile (IsDigit ·) = ds at *
  generalize cs.dropWhile (IsDigit ·) = rest at *
  subst hsplit
  split_ifs with hlong
  · obtain ⟨rest, rfl⟩ : ∃ tail, rest = 'l'.toUInt8 :: tail := by
      cases rest with
      | nil => simp at hlong
      | cons x rest => exact ⟨rest, by simpa using hlong⟩
    exact ⟨ds ++ ['l'.toUInt8], by simp⟩
  · exact ⟨ds, rfl⟩

/-- What the loop does behind the fields of a format: it ends there, or it goes on if the format
ends inside a directive. -/
def goOn (k : Kernel) (L : Limits) (fuel size n : ℕ) (cut : Option ℕ) (c : Cursor) :
    Except Halt (List UInt8) :=
  match cut with
  | none => .ok c.buf
  | some _ => bufOf (Limited.formatLoop k L fuel size n c)

section

variable (h : Round k L fuel size c f d) (hbuf : d.buf = c.buf ++ f.laid c.buf.length)
include h hbuf

theorem Round.bufOf_eq {next : List UInt8 → Except Halt (List UInt8)}
    (hrest : d.buf.length < size → bufOf (Limited.formatLoop k L fuel size n d) =
      lay L size next fs d.buf) :
    bufOf (Limited.formatLoop k L fuel size (n + 1) c) = lay L size next (f :: fs) c.buf := by
  rw [h n, lay, ← hbuf]
  split_ifs with hfits hfull
  · rfl
  · exact hrest (Nat.lt_of_not_le hfull)
  · rfl

/-- One round, and the rounds behind it, up to the address `stop`. -/
theorem Round.loop {stop : ℕ}
    (hrest : d.buf.length < size → ∃ arg', ∀ n,
      bufOf (Limited.formatLoop k L fuel size (n + fs.length + 1) d) =
        lay L size (fun b => goOn k L fuel size n cut ⟨stop, arg', b⟩) (fs ++ cutOff cut) d.buf) :
    ∃ arg', ∀ n, bufOf (Limited.formatLoop k L fuel size (n + (f :: fs).length + 1) c) =
      lay L size (fun b => goOn k L fuel size n cut ⟨stop, arg', b⟩) (f :: fs ++ cutOff cut)
        c.buf := by
  by_cases hroom : d.buf.length < size
  · obtain ⟨arg', hloop⟩ := hrest hroom
    exact ⟨arg', fun n => h.bufOf_eq hbuf fun _ => hloop n⟩
  · exact ⟨0, fun n => h.bufOf_eq hbuf fun hd => absurd hd hroom⟩

end

theorem length_laid_cons (b : ℕ) (f : Field) (fs : List Field) :
    (laid b (f :: fs)).length = (f.laid b).length + (laid (b + (f.laid b).length) fs).length := by
  rw [laid, length_append]

/-- **The rounds of the loop lay out the fields of the format, one after the other.**  Behind a
format that ends inside a directive the loop goes on with what lies behind the terminating `0`. -/
theorem formatLoop_buf {its : List Item}
    (hargs : ∀ i, k.args i < 2 ^ 64) (hstr : StringIn k.mem c.fmt cs)
    (hread : Readable L c.fmt cs.length) (hparse : parse .text cs = (its, cut))
    (hfields : Fields k c.arg its fs) (hsize : c.buf.length < size)
    (hfuel : cs.length + c.buf.length + (laid c.buf.length (fs ++ cutOff cut)).length + 2 < fuel) :
    ∃ arg', ∀ n, bufOf (Limited.formatLoop k L fuel size (n + fs.length + 1) c) =
      lay L size (fun b => goOn k L fuel size n cut ⟨c.fmt + cs.length + 1, arg', b⟩)
        (fs ++ cutOff cut) c.buf := by
  -- a round takes a whole item, so the induction is on the length of the format
  induction hlen : cs.length using Nat.strong_induction_on generalizing c cs its fs with
  | _ len ih =>
  subst hlen
  rcases cs with _ | ⟨b, cs⟩
  · cases hparse
    cases hfields
    refine ⟨c.arg, fun n => ?_⟩
    rw [Limited.formatLoop, run_ok (nextChar_eq hstr hread), headD_nil, if_pos rfl]
    rfl
  rw [length_cons] at hfuel hread
  by_cases hb : b = '%'.toUInt8
  · subst hb
    obtain ⟨used, hused⟩ := exists_scan 0 cs
    rw [show parse .text ('%'.toUInt8 :: cs) = parse (.width 0) cs from rfl, parse_width] at hparse
    rcases hscan : scan 0 cs with ⟨w, lng, _ | ⟨x, rest⟩⟩
    · -- the format ends here, and the terminating `0` is the conversion
      rw [hscan] at hparse
      cases hparse
      cases hfields
      have hround := round_directive (f := ⟨w, chars "(unknown format)", 0⟩) size hargs hstr hread
        (by simp [laid, Field.laid, cutOff] at hfuel ⊢; omega : _ < fuel) hscan ⟨rfl, rfl, rfl⟩
      have hstop : c.fmt + 1 + (cs.length - ([] : List UInt8).length) + 1 =
          c.fmt + ('%'.toUInt8 :: cs).length + 1 := by
        rw [length_nil, length_cons]
        omega
      rw [hstop] at hround
      exact ⟨c.arg + 0, fun n => hround.bufOf_eq rfl fun _ => rfl⟩
    · rw [hscan] at hparse hused
      cases hparse
      obtain ⟨f, fs, rfl, hf, htail⟩ := hfields.cons_inv
      rw [cons_append, length_laid_cons] at hfuel
      have htext : f.text.length ≤ (f.laid c.buf.length).length := by simp [Field.laid]
      have hlen : cs.length = used.length + (rest.length + 1) := by rw [hused]; simp
      refine (round_directive size hargs hstr hread (by omega) hscan hf).loop rfl fun hroom => ?_
      have hstop : c.fmt + 1 + (cs.length - (x :: rest).length) + 1 =
          c.fmt + 1 + used.length + 1 := by
        rw [length_cons]
        omega
      have hsuffix : StringIn k.mem (c.fmt + 1 + used.length) (x :: rest) := by
        have := hstr.2.2
        rw [hused] at this
        exact this.append
      have hreadable : Readable L (c.fmt + 1 + used.length) (x :: rest).length := by
        have := hread.tail
        rw [hused] at this
        exact this.append
      rw [hstop] at hroom ⊢
      have hloop := ih rest.length (by rw [length_cons]; omega) hsuffix.2.2
        hreadable.tail rfl htail hroom (by rw [length_append]; omega) rfl
      have hend : c.fmt + 1 + used.length + 1 + rest.length + 1 =
          c.fmt + ('%'.toUInt8 :: cs).length + 1 := by
        rw [length_cons]
        omega
      rw [hend] at hloop
      exact hloop
  · rw [show parse .text (b :: cs) = before (.char b) (parse .text cs) from if_neg hb] at hparse
    cases hparse
    obtain ⟨f, fs, rfl, hf, htail⟩ := hfields.cons_inv
    rw [cons_append, length_laid_cons] at hfuel
    refine (round_char hstr hread hb hsize hf).loop rfl fun hroom => ?_
    have hloop := ih cs.length (lt_succ_self _)
      (c := ⟨c.fmt + 1, c.arg, c.buf ++ f.laid c.buf.length⟩) hstr.2.2 hread.tail rfl htail hroom
      (by rw [length_append]; omega) rfl
    simpa only [length_cons, add_assoc, add_comm 1] using hloop

end Tachyon.Log
