import Mathlib.Data.List.DropRight
import Mathlib.Order.Bounds.Basic
import Tachyon.Log.Rounds
import Tachyon.Log.Scratch

/-!
# Strings in memory (`string.c`, `trim.c`)

The functions are given the addresses that they may access.

* `strlen`, `strncmp`, `strstr`, `ltrim`, `rtrim`, `trim`: the source;
* `Text A m s bs`: a string all of whose bytes may be accessed;
* `strstr_first`: the search for a string;
* `strip`: a list of characters without the white space at its ends; `trim_strips`;
* `memmove_overlap`: what `memmove` leaves.
-/

namespace Tachyon.CString

open Prog List Tachyon.Log Function

/-! ### The source -/

def isspace (c : UInt8) : Bool := c ∈ (" \n\t\x0b\x0c\r".toList.map Char.toUInt8)

section Code

variable (A : ℕ → Bool)

def load (a : ℕ) : Prog Mem UInt8 := fun m => if A a then .ok (m a, m) else .error .undefined

def store (a : ℕ) (c : UInt8) : Prog Mem Unit := fun m =>
  if A a then .ok ((), Function.update m a c) else .error .undefined

/-- A call of `memmove`. -/
def move (d s n : ℕ) : Prog Mem Unit := fun m =>
  if ∀ i < n, A (d + i) ∧ A (s + i) then .ok ((), memmove m d s n) else .error .undefined

def strlenLoop (s : ℕ) : ℕ → ℕ → Prog Mem ℕ
  | 0, _ => halt .fuel
  | fuel + 1, i => load A (s + i) >>= fun b => if b ≠ 0 then strlenLoop s fuel (i + 1) else pure i

def strlen (fuel s : ℕ) : Prog Mem ℕ := strlenLoop A s fuel 0

def strncmpLoop (p q : ℕ) : ℕ → ℕ → Prog Mem ℤ
  | 0, _ => pure 0
  | k + 1, i =>
    load A (p + i) >>= fun a =>
    load A (q + i) >>= fun b =>
      if a = b then
        if a = 0 then pure 0 else strncmpLoop p q k (i + 1)
      else if a = 0 then pure (-1)
      else if b = 0 then pure 1
      else if a.toInt8 < b.toInt8 then pure (-1)
      else pure 1

def strncmp (p q n : ℕ) : Prog Mem ℤ := strncmpLoop A p q n 0

def strstrLoop (s p plen : ℕ) : ℕ → ℕ → Prog Mem (Option ℕ)
  | 0, _ => halt .fuel
  | fuel + 1, i =>
    load A (s + i) >>= fun a =>
      if a = 0 then pure none
      else
        load A p >>= fun b =>
          if a = b then
            strncmp A (s + i) p plen >>= fun r =>
              if r = 0 then pure (some (s + i)) else strstrLoop s p plen fuel (i + 1)
          else strstrLoop s p plen fuel (i + 1)

def strstr (fuel s p : ℕ) : Prog Mem (Option ℕ) :=
  strlen A fuel p >>= fun plen => strstrLoop A s p plen fuel 0

/-- The loop of `ltrim`, with `cur` and `len`. -/
def ltrimLoop : ℕ → ℕ → ℕ → Prog Mem (ℕ × ℕ)
  | 0, _, _ => halt .fuel
  | fuel + 1, cur, len =>
    load A cur >>= fun b =>
      if b ≠ 0 ∧ isspace b then ltrimLoop fuel (cur + 1) (len - 1) else pure (cur, len)

def ltrim (fuel s : ℕ) : Prog Mem ℕ :=
  if s = 0 then pure s
  else
    load A s >>= fun b =>
      if b = 0 then pure s
      else
        strlen A fuel s >>= fun len =>
        ltrimLoop A fuel s len >>= fun r =>
        (if s ≠ r.1 then move A s r.1 (r.2 + 1) else pure ()) >>= fun _ => pure s

/-- The loop of `rtrim`, with the distance of `cur` from the start of the string. -/
def rtrimLoop (s : ℕ) : ℕ → Prog Mem ℕ
  | 0 => pure 0
  | k + 1 => load A (s + (k + 1)) >>= fun b => if isspace b then rtrimLoop s k else pure (k + 1)

def rtrim (fuel s : ℕ) : Prog Mem ℕ :=
  if s = 0 then pure s
  else
    load A s >>= fun b =>
      if b = 0 then pure s
      else
        strlen A fuel s >>= fun len =>
        rtrimLoop A s (len - 1) >>= fun k =>
        load A (s + k) >>= fun b =>
        store A (s + k + if isspace b then 0 else 1) 0 >>= fun _ => pure s

def trim (fuel s : ℕ) : Prog Mem ℕ := ltrim A fuel s >>= rtrim A fuel

end Code

/-! ### Strings -/

variable {A : ℕ → Bool} {m m' : Mem} {bs ds ps : List UInt8} {b : UInt8} {fuel s p q i : ℕ}

/-- A string, with the terminating `0`, that may be accessed. -/
structure Text (A : ℕ → Bool) (m : Mem) (s : ℕ) (bs : List UInt8) : Prop where
  string : StringIn m s bs
  access : ∀ i ≤ bs.length, A (s + i)

theorem Text.tail (h : Text A m s (b :: bs)) : Text A m (s + 1) bs :=
  ⟨h.string.2.2, fun i hi => by
    have := h.access (1 + i) (by rw [length_cons]; omega)
    rwa [← add_assoc] at this⟩

/-- The bytes of a string. -/
theorem getD_of_stringIn (h : StringIn m s bs) (hi : i ≤ bs.length) : m (s + i) = bs.getD i 0 := by
  induction bs generalizing s i with
  | nil =>
    obtain rfl : i = 0 := by simpa using hi
    exact h
  | cons b bs ih =>
    cases i with
    | zero => exact h.1
    | succ i =>
      rw [add_comm i 1, ← add_assoc, ih h.2.2 (by simpa using hi), add_comm 1 i]
      rfl

theorem Text.load (h : Text A m s bs) (hi : i ≤ bs.length) :
    load A (s + i) m = .ok (bs.getD i 0, m) := by
  rw [CString.load, if_pos (h.access i hi), getD_of_stringIn h.string hi]

theorem Text.load_first (h : Text A m s bs) : CString.load A s m = .ok (bs.getD 0 0, m) :=
  h.load (Nat.zero_le _)

theorem strlenLoop_eq (h : Text A m (s + i) bs) (hfuel : bs.length < fuel) :
    strlenLoop A s fuel i m = .ok (i + bs.length, m) := by
  obtain ⟨fuel, rfl⟩ := Nat.exists_eq_add_of_lt hfuel
  induction bs generalizing fuel i with
  | nil => exact run_ok h.load_first
  | cons b bs ih =>
    have hrest := ih (i := i + 1) h.tail fuel (by omega)
    rw [strlenLoop, run_ok h.load_first, getD_cons_zero, if_pos h.string.2.1, length_cons,
      add_right_comm bs.length 1 fuel, ← add_assoc i, add_right_comm i]
    exact hrest

theorem strlen_eq (h : Text A m s bs) (hfuel : bs.length < fuel) :
    strlen A fuel s m = .ok (bs.length, m) := by
  have hloop := strlenLoop_eq (i := 0) h hfuel
  rwa [zero_add] at hloop

/-! ### Searching -/

/-- The comparison of a whole string with the start of another one. -/
theorem strncmpLoop_eq (hp : Text A m (p + i) ds) (hq : Text A m (q + i) ps) :
    ∃ r, strncmpLoop A p q ps.length i m = .ok (r, m) ∧ (r = 0 ↔ ps <+: ds) := by
  induction ps generalizing ds i with
  | nil => exact ⟨0, rfl, by simp⟩
  | cons b ps ih =>
    rw [length_cons, strncmpLoop, run_ok hp.load_first, run_ok hq.load_first, getD_cons_zero]
    cases ds with
    | nil => exact ⟨-1, by rw [getD_nil, if_neg hq.string.2.1.symm]; rfl, by simp⟩
    | cons a ds =>
      rw [getD_cons_zero, if_neg hp.string.2.1, if_neg hp.string.2.1, if_neg hq.string.2.1]
      split_ifs with hab
      · obtain ⟨r, hr, hiff⟩ := ih (i := i + 1) hp.tail hq.tail
        exact ⟨r, hr, by simp [hiff, hab]⟩
      · exact ⟨-1, rfl, by simp [Ne.symm hab]⟩
      · exact ⟨1, rfl, by simp [Ne.symm hab]⟩

/-- The first position of `ps` in `ds`. -/
def IsFirst (ps ds : List UInt8) : Option ℕ → Prop
  | some k => IsLeast {k | ps <+: ds.drop k} k
  | none => ∀ k, ¬ ps <+: ds.drop k

theorem IsFirst.cons {o : Option ℕ} (h : IsFirst ps ds o) (hmiss : ¬ ps <+: b :: ds) :
    IsFirst ps (b :: ds) (o.map (· + 1)) := by
  cases o with
  | none =>
    rintro (_ | k)
    · exact hmiss
    · exact h k
  | some k =>
    refine ⟨h.1, ?_⟩
    rintro (_ | j) hj
    · exact absurd hj hmiss
    · exact Nat.succ_le_succ (h.2 hj)

theorem strstrLoop_eq (hs : Text A m (s + i) ds) (hp : Text A m p ps) (hne : ps ≠ [])
    (hfuel : ds.length < fuel) : ∃ o,
      strstrLoop A s p ps.length fuel i m = .ok (o.map (s + i + ·), m) ∧ IsFirst ps ds o := by
  obtain ⟨fuel, rfl⟩ := Nat.exists_eq_add_of_lt hfuel
  induction ds generalizing fuel i with
  | nil => exact ⟨none, run_ok hs.load_first, fun k => by simpa using hne⟩
  | cons a ds ih =>
    -- behind a miss the search goes on
    have hmore : ¬ ps <+: a :: ds → ∃ o,
        strstrLoop A s p ps.length (ds.length + fuel + 1) (i + 1) m =
          .ok (o.map (s + i + ·), m) ∧ IsFirst ps (a :: ds) o := fun hmiss => by
      obtain ⟨o, hrun, ho⟩ := ih (i := i + 1) hs.tail fuel (by omega)
      refine ⟨_, ?_, ho.cons hmiss⟩
      rw [hrun, Option.map_map]
      congr 3
      funext k
      simp only [comp_apply]
      omega
    obtain ⟨r, hcmp, hiff⟩ : ∃ r, strncmp A (s + i) p ps.length m = .ok (r, m) ∧ _ :=
      strncmpLoop_eq (i := 0) hs hp
    rw [length_cons, add_right_comm ds.length 1 fuel, strstrLoop, run_ok hs.load_first,
      getD_cons_zero, if_neg hs.string.2.1, run_ok hp.load_first]
    split_ifs with hfirst
    · rw [run_ok hcmp]
      split_ifs with hr
      · exact ⟨some 0, rfl, hiff.1 hr, fun _ _ => Nat.zero_le _⟩
      · exact hmore fun hpre => hr (hiff.2 hpre)
    · refine hmore fun hpre => hfirst ?_
      obtain ⟨rest, hrest⟩ := hpre
      cases ps with
      | nil => exact absurd rfl hne
      | cons c ps => exact (cons.inj hrest).1.symm

/-- The bytes of a string of length `n` with its terminating `0`. -/
def inString (s n x : ℕ) : Bool := s ≤ x && x ≤ s + n

/-- **`strstr` finds the first occurrence**, and accesses nothing but the two strings. -/
theorem strstr_first (m : Mem) (s p : ℕ) (bs ps : List UInt8) (hs : StringIn m s bs)
    (hp : StringIn m p ps) (hne : ps ≠ []) (fuel : ℕ) (hbs : bs.length < fuel)
    (hps : ps.length < fuel) :
    ∃ r, strstr (fun x => inString s bs.length x || inString p ps.length x) fuel s p m =
        .ok (r, m) ∧
      (∀ k, r = some (s + k) ↔ IsLeast {k | ps <+: bs.drop k} k) ∧
      (r = none ↔ ∀ k, ¬ ps <+: bs.drop k) := by
  have hS : Text (fun x => inString s bs.length x || inString p ps.length x) m (s + 0) bs :=
    ⟨hs, fun i hi => by simp [inString, hi]⟩
  have hP : Text (fun x => inString s bs.length x || inString p ps.length x) m p ps :=
    ⟨hp, fun i hi => by simp [inString, hi]⟩
  obtain ⟨o, hrun, ho⟩ := strstrLoop_eq hS hP hne hbs
  refine ⟨_, (run_ok (strlen_eq hP hps)).trans hrun, ?_⟩
  cases o with
  | none =>
    exact ⟨fun k => ⟨fun h => by simp at h, fun h => absurd h.1 (ho k)⟩, fun _ => ho, fun _ => rfl⟩
  | some j =>
    refine ⟨fun k => ⟨fun h => ?_, fun h => ?_⟩, by simpa using ⟨j, ho.1⟩⟩
    · obtain rfl : j = k := by simpa using h
      exact ho
    · rw [ho.unique h]
      rfl

/-- The strings "aab" and "ab". -/
theorem strstr_first_ab : ∃ m r, strstr (fun x => inString 8 3 x || inString 16 2 x) 4 8 16 m =
    .ok (r, m) ∧ (r = some 9 ↔ IsLeast {k | [97, 98] <+: drop k ([97, 97, 98] : List UInt8)} 1) := by
  obtain ⟨r, hrun, hr, -⟩ := strstr_first
    (writeBytes (writeBytes (fun _ => 0) 8 [97, 97, 98]) 16 [97, 98]) 8 16 [97, 97, 98] [97, 98]
    (by simp [StringIn, writeBytes, Function.update])
    (by simp [StringIn, writeBytes, Function.update]) (by simp) 4 (by decide) (by decide)
  exact ⟨_, r, hrun, hr 1⟩

/-! ### Trimming -/

/-- The characters between the white space at both ends. -/
def strip (bs : List UInt8) : List UInt8 := (bs.dropWhile isspace).rdropWhile isspace

theorem strip_strip (bs : List UInt8) : strip (strip bs) = strip bs := by
  have hdrop : (strip bs).dropWhile isspace = strip bs := by
    obtain ⟨rest, hrest⟩ := rdropWhile_prefix isspace (bs.dropWhile isspace)
    change strip bs ++ rest = _ at hrest
    cases hstrip : strip bs with
    | nil => rfl
    | cons e es =>
      rw [hstrip] at hrest
      have hhead := head_dropWhile_not isspace (l := bs) (by rw [← hrest]; simp)
      simp only [← hrest, cons_append, head_cons] at hhead
      exact dropWhile_cons_of_neg (by simp [hhead])
  rw [strip, hdrop]
  exact rdropWhile_idempotent _ _

/-- A string that has been moved. -/
theorem stringIn_moved {s' : ℕ} (h : StringIn m s bs)
    (hm : ∀ i ≤ bs.length, m' (s' + i) = m (s + i)) : StringIn m' s' bs :=
  stringIn_of_getD h.zero_notMem fun i hi => (hm i hi).trans (getD_of_stringIn h hi)

theorem ltrimLoop_eq (h : Text A m s bs) (hfuel : bs.length < fuel) :
    ltrimLoop A fuel s bs.length m = .ok ((s + (bs.takeWhile isspace).length,
      (bs.dropWhile isspace).length), m) := by
  obtain ⟨fuel, rfl⟩ := Nat.exists_eq_add_of_lt hfuel
  induction bs generalizing fuel s with
  | nil => exact run_ok h.load_first
  | cons b bs ih =>
    rw [ltrimLoop, run_ok h.load_first, getD_cons_zero]
    by_cases hb : isspace b = true
    · have hrest := ih h.tail fuel (by omega)
      rw [if_pos ⟨h.string.2.1, hb⟩, length_cons, Nat.add_sub_cancel, dropWhile_cons_of_pos hb,
        takeWhile_cons_of_pos hb, add_right_comm bs.length 1 fuel, hrest, add_assoc s,
        length_cons, add_comm 1]
    · rw [if_neg fun hc => hb hc.2, dropWhile_cons_of_neg hb, takeWhile_cons_of_neg hb]
      rfl

theorem ltrim_spec (hs : s ≠ 0) (h : Text A m s bs) (hfuel : bs.length < fuel) :
    ∃ m', ltrim A fuel s m = .ok (s, m') ∧ StringIn m' s (bs.dropWhile isspace) ∧
      ∀ x, x < s ∨ s + bs.length < x → m' x = m x := by
  rw [ltrim, if_neg hs, run_ok h.load_first]
  split_ifs with hb
  · -- the empty string
    cases bs with
    | nil => exact ⟨m, rfl, h.string, fun _ _ => rfl⟩
    | cons b bs => exact absurd hb h.string.2.1
  · have hsplit : bs.takeWhile isspace ++ bs.dropWhile isspace = bs := takeWhile_append_dropWhile
    have hlen := congrArg length hsplit
    rw [length_append] at hlen
    have hrest : StringIn m (s + (bs.takeWhile isspace).length) (bs.dropWhile isspace) :=
      (hsplit.symm ▸ h.string : StringIn m s (_ ++ _)).append
    rw [run_ok (strlen_eq h hfuel), run_ok (ltrimLoop_eq h hfuel)]
    split_ifs with hmove
    · have hrun : move A s (s + (bs.takeWhile isspace).length)
          ((bs.dropWhile isspace).length + 1) m = .ok ((), _) :=
        if_pos fun i hi => ⟨h.access i (by omega), add_assoc s _ _ ▸ h.access _ (by omega)⟩
      exact ⟨_, run_ok hrun, stringIn_moved hrest fun i hi => memmove_of_mem (by omega),
        fun x hx => memmove_of_not_mem (by omega)⟩
    · rw [not_not] at hmove
      exact ⟨m, rfl, hmove ▸ hrest, fun _ _ => rfl⟩

theorem rtrimLoop_eq (hds : ds ≠ [])
    (h : ∀ i < ds.length, load A (s + i) m = .ok (ds.getD i 0, m)) :
    rtrimLoop A s (ds.length - 1) m = .ok ((ds.rdropWhile isspace).length - 1, m) := by
  induction ds using reverseRecOn with
  | nil => exact absurd rfl hds
  | append_singleton ds b ih =>
    rw [length_append, length_singleton, Nat.add_sub_cancel]
    rcases hlen : ds.length with _ | k
    · obtain rfl := length_eq_zero_iff.1 hlen
      by_cases hb : isspace b = true <;> simp [rtrimLoop, rdropWhile, hb, pure]
    have hlast := h ds.length (by simp)
    have hfront : ∀ i < ds.length, load A (s + i) m = .ok (ds.getD i 0, m) := fun i hi => by
      rw [h i (by simp; omega), getD_append _ _ _ _ hi]
    rw [hlen, getD_append_right _ _ _ _ hlen.le, hlen, Nat.sub_self] at hlast
    rw [rtrimLoop, run_ok hlast]
    by_cases hb : isspace b = true
    · have hloop := ih (by rintro rfl; simp at hlen) hfront
      rw [rdropWhile_concat_pos _ _ _ hb, ← hloop, hlen]
      exact congrFun (if_pos hb) m
    · rw [rdropWhile_concat_neg _ _ _ hb, length_append, hlen]
      exact congrFun (if_neg hb) m

/-- The new end of the string. -/
theorem rtrim_end (hbs : bs ≠ []) :
    (bs.rdropWhile isspace).length - 1 +
      (if isspace (bs.getD ((bs.rdropWhile isspace).length - 1) 0) then 0 else 1) =
        (bs.rdropWhile isspace).length := by
  by_cases hR : bs.rdropWhile isspace = []
  · cases bs with
    | nil => exact absurd rfl hbs
    | cons b bs => simp [hR, rdropWhile_eq_nil_iff.1 hR b mem_cons_self]
  have hlast := rdropWhile_last_not isspace bs hR
  have hpos := length_pos_iff.2 hR
  obtain ⟨rest, hrest⟩ := rdropWhile_prefix isspace bs
  have hget := getD_append (rdropWhile isspace bs) rest 0 _ (Nat.sub_one_lt hpos.ne')
  rw [hrest, getD_eq_getElem (rdropWhile isspace bs) 0 (by omega), ← getLast_eq_getElem hR] at hget
  rw [hget, if_neg hlast]
  omega

section

variable (hs : s ≠ 0) (h : Text A m s bs) (hfuel : bs.length < fuel)
include hs h hfuel

theorem rtrim_spec :
    ∃ m', rtrim A fuel s m = .ok (s, m') ∧ StringIn m' s (bs.rdropWhile isspace) ∧
      ∀ x, x < s ∨ s + bs.length < x → m' x = m x := by
  rw [rtrim, if_neg hs, run_ok h.load_first]
  split_ifs with hb
  · cases bs with
    | nil => exact ⟨m, rfl, h.string, fun _ _ => rfl⟩
    | cons b bs => exact absurd hb h.string.2.1
  have hbs : bs ≠ [] := by
    rintro rfl
    exact hb rfl
  obtain ⟨rest, hrest⟩ := rdropWhile_prefix isspace bs
  have hle := ( rdropWhile_prefix isspace bs).length_le
  have hstore : store A (s + (bs.rdropWhile isspace).length) 0 m =
      .ok ((), update m (s + (bs.rdropWhile isspace).length) 0) :=
    if_pos (h.access _ hle)
  rw [run_ok (strlen_eq h hfuel), run_ok (rtrimLoop_eq hbs fun i hi => h.load hi.le),
    run_ok (h.load (by omega)), add_assoc, rtrim_end hbs, run_ok hstore]
  refine ⟨_, rfl, stringIn_of_getD (fun h0 => ?_) fun i hi => ?_,
    fun x hx => update_of_ne (by omega) _ _⟩
  · exact h.string.zero_notMem (( rdropWhile_prefix isspace bs).subset h0)
  · rcases lt_or_eq_of_le hi with hlt | rfl
    · rw [update_of_ne (by omega), getD_of_stringIn h.string (by omega),
        ← getD_append _ rest _ _ hlt, hrest]
    · rw [update_self, getD_eq_default _ _ le_rfl]

theorem trim_spec :
    ∃ m', trim A fuel s m = .ok (s, m') ∧ StringIn m' s (strip bs) ∧
      ∀ x, x < s ∨ s + bs.length < x → m' x = m x := by
  have hle := (dropWhile_sublist (l := bs) isspace).length_le
  obtain ⟨m1, hl, hstr, hout⟩ := ltrim_spec hs h hfuel
  obtain ⟨m2, hr, hstr2, hout2⟩ := rtrim_spec hs ⟨hstr, fun i hi => h.access i (by omega)⟩
    (by omega : _ < fuel)
  refine ⟨m2, by rw [trim, run_ok hl, hr], hstr2, fun x hx => ?_⟩
  rw [hout2 x (by omega), hout x hx]

end

/-- **`trim` strips the white space at both ends** in the place of the string; a second call changes
nothing. -/
theorem trim_strips (m : Mem) (s : ℕ) (bs : List UInt8) (hs : s ≠ 0) (h : StringIn m s bs)
    (fuel : ℕ) (hfuel : bs.length < fuel) :
    ∃ m', trim (inString s bs.length) fuel s m = .ok (s, m') ∧ StringIn m' s (strip bs) ∧
      (∀ x, inString s bs.length x = false → m' x = m x) ∧
      trim (inString s bs.length) fuel s m' = .ok (s, m') := by
  have hle : (strip bs).length ≤ bs.length :=
    ( rdropWhile_prefix _ _).length_le.trans (dropWhile_sublist (l := bs) isspace).length_le
  have hacc : ∀ i ≤ bs.length, inString s bs.length (s + i) := fun i hi => by simp [inString, hi]
  obtain ⟨m', hrun, hstr, hout⟩ := trim_spec hs ⟨h, hacc⟩ hfuel
  obtain ⟨m'', hrun', hstr', hout'⟩ := trim_spec hs ⟨hstr, fun i hi => hacc i (hi.trans hle)⟩
    (hle.trans_lt hfuel)
  rw [strip_strip] at hstr'
  -- a byte of the string is determined by the string
  obtain rfl : m'' = m' := funext fun x => by
    by_cases hx : x < s ∨ s + (strip bs).length < x
    · exact hout' x hx
    · obtain ⟨i, rfl⟩ := Nat.exists_eq_add_of_le (show s ≤ x by omega)
      rw [getD_of_stringIn hstr' (by omega), getD_of_stringIn hstr (by omega)]
  refine ⟨_, hrun, hstr, fun x hx => hout x ?_, hrun'⟩
  simp only [inString, Bool.and_eq_false_iff, decide_eq_false_iff_not] at hx
  omega

/-- The string " a ". -/
theorem trim_strips_a : ∃ m', trim (inString 8 3) 4 8 (writeBytes (fun _ => 0) 8 [32, 97, 32]) =
      .ok (8, m') ∧ StringIn m' 8 [97] := by
  obtain ⟨m', hrun, hstr, -⟩ := trim_strips (writeBytes (fun _ => 0) 8 [32, 97, 32]) 8 [32, 97, 32]
    (by decide) (by simp [StringIn, writeBytes, Function.update]) 4 (by decide)
  exact ⟨m', hrun, hstr⟩

/-- **`memmove` is right for any overlap.** -/
theorem memmove_overlap (m : Mem) (dst src n : ℕ) :
    (∀ i < n, memmove m dst src n (dst + i) = m (src + i)) ∧
      ∀ x, x < dst ∨ dst + n ≤ x → memmove m dst src n x = m x :=
  ⟨fun _ => memmove_of_mem, fun _ => memmove_of_not_mem⟩

end Tachyon.CString
