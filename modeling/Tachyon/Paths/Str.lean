import Tachyon.Lib.Blocks

/-!
# String functions (`string.c`)

The loops that look for the end of a string get fuel.

* `strncmp`, `strncpy`, `strlen`, `strstr`: the source;
* `strlen_eq`, `strncpy_eq`: what they do with strings;
* `strstr_none`, `strstr_some`: the search for a string of one character.
-/

namespace Tachyon.Paths

open Prog List

/-! ### The source -/

def strncmpLoop (p q : Ptr) : ℕ → ℕ → Prog Blocks ℤ
  | 0, _ => pure 0
  | k + 1, i =>
    load (p.add i) >>= fun a =>
    load (q.add i) >>= fun b =>
      if a = b then
        if a = 0 then pure 0 else strncmpLoop p q k (i + 1)
      else if a = 0 then pure (-1)
      else if b = 0 then pure 1
      else if a.toInt8 < b.toInt8 then pure (-1)
      else pure 1

def strncmp (p q : Ptr) (n : ℕ) : Prog Blocks ℤ := strncmpLoop p q n 0

/-- The first loop of `strncpy`: the index at which it ends.  The bound is checked behind the
character. -/
def strncpyCopy (s t : Ptr) : ℕ → ℕ → Prog Blocks ℕ
  | 0, i => load (t.add i) >>= fun _ => pure i
  | k + 1, i =>
    load (t.add i) >>= fun b =>
      if b ≠ 0 then store (s.add i) b >>= fun _ => strncpyCopy s t k (i + 1) else pure i

/-- The second loop of `strncpy`. -/
def strncpyFill (s : Ptr) : ℕ → ℕ → Prog Blocks Unit
  | 0, _ => pure ()
  | k + 1, i => store (s.add i) 0 >>= fun _ => strncpyFill s k (i + 1)

def strncpy (s t : Ptr) (n : ℕ) : Prog Blocks Ptr :=
  strncpyCopy s t n 0 >>= fun i => strncpyFill s (n - i) i >>= fun _ => pure s

def strlenLoop (s : Ptr) : ℕ → ℕ → Prog Blocks ℕ
  | 0, _ => halt .fuel
  | fuel + 1, i => load (s.add i) >>= fun b => if b ≠ 0 then strlenLoop s fuel (i + 1) else pure i

def strlen (fuel : ℕ) (s : Ptr) : Prog Blocks ℕ := strlenLoop s fuel 0

def strstrLoop (s p : Ptr) (plen : ℕ) : ℕ → ℕ → Prog Blocks (Option Ptr)
  | 0, _ => halt .fuel
  | fuel + 1, i =>
    load (s.add i) >>= fun a =>
      if a = 0 then pure none
      else
        load p >>= fun b =>
          if a = b then
            strncmp (s.add i) p plen >>= fun r =>
              if r = 0 then pure (some (s.add i)) else strstrLoop s p plen fuel (i + 1)
          else strstrLoop s p plen fuel (i + 1)

def strstr (fuel : ℕ) (s p : Ptr) : Prog Blocks (Option Ptr) :=
  strlen fuel p >>= fun plen => strstrLoop s p plen fuel 0

/-! ### What they do -/

variable {m : Blocks} {s t p q : Ptr} {bs pre rest : List UInt8} {fuel i : ℕ}

theorem load_nil (h : StringAt m q []) : load q m = .ok (0, m) := by
  rw [load, show m.bytes _ = 0 from h]

theorem load_cons {b : UInt8} (h : StringAt m q (b :: bs)) : load q m = .ok (b, m) := by
  rw [load, h.1]

theorem strlenLoop_eq (h : StringAt m (s.add i) bs) (hfuel : bs.length < fuel) :
    strlenLoop s fuel i m = .ok (i + bs.length, m) := by
  induction bs generalizing fuel i with
  | nil =>
    rcases fuel with _ | fuel
    · omega
    exact run_ok (load_nil h)
  | cons b bs ih =>
    obtain ⟨fuel, rfl⟩ := Nat.exists_eq_add_of_lt hfuel
    have hrest : strlenLoop s ((b :: bs).length + fuel) (i + 1) m = _ :=
      ih (by rw [← Ptr.add_add]; exact h.2.2) (by simp; omega)
    rw [strlenLoop, run_ok (load_cons h), if_pos h.2.1, hrest, length_cons]
    congr 2
    omega

theorem strlen_eq (h : StringAt m s bs) (hfuel : bs.length < fuel) :
    strlen fuel s m = .ok (bs.length, m) := by
  have := strlenLoop_eq (i := 0) h hfuel
  rwa [Nat.zero_add] at this

theorem strncpyCopy_eq (hblock : s.block ≠ t.block) (h : StringAt m (t.add i) (bs ++ rest)) :
    strncpyCopy s t bs.length i m = .ok (i + bs.length, m.write (s.add i) bs) := by
  induction bs generalizing m i with
  | nil => rfl
  | cons b bs ih =>
    have hstr : StringAt (m.put (s.add i) b) (t.add (i + 1)) (bs ++ rest) := by
      rw [← Ptr.add_add]
      refine h.2.2.congr fun q hq => Blocks.put_of_ne ?_
      rintro rfl
      exact hblock hq
    have hstore : store (s.add i) b m = .ok ((), m.put (s.add i) b) := rfl
    rw [length_cons, strncpyCopy, run_ok (load_cons h), if_pos h.2.1,
      run_ok hstore, ih hstr, Blocks.write, Ptr.add_add]
    congr 2
    omega

/-- A copy of the start of a string to another block. -/
theorem strncpy_eq (hblock : s.block ≠ t.block)
    (h : StringAt m t (bs ++ rest)) : strncpy s t bs.length m = .ok (s, m.write s bs) := by
  have hcopy := strncpyCopy_eq (i := 0) hblock h
  rw [strncpy, run_ok hcopy, Nat.zero_add, Nat.sub_self]
  rfl

/-! ### The search for one character -/

variable {c : UInt8}

theorem strncmp_one (hs : m.bytes s = c) (hp : m.bytes p = c) (hc : c ≠ 0) :
    strncmp s p 1 m = .ok (0, m) := by
  have hloads : load (s.add 0) m = .ok (c, m) := by rw [Ptr.add_zero, load, hs]
  have hloadp : load (p.add 0) m = .ok (c, m) := by rw [Ptr.add_zero, load, hp]
  rw [strncmp, strncmpLoop, run_ok hloads, run_ok hloadp, if_pos rfl, if_neg hc]
  rfl

theorem strstrLoop_none (h : StringAt m (s.add i) bs) (hp : m.bytes p = c) (hc : c ∉ bs)
    (hfuel : bs.length < fuel) : strstrLoop s p 1 fuel i m = .ok (none, m) := by
  induction bs generalizing fuel i with
  | nil =>
    rcases fuel with _ | fuel
    · omega
    exact run_ok (load_nil h)
  | cons b bs ih =>
    obtain ⟨fuel, rfl⟩ := Nat.exists_eq_add_of_lt hfuel
    rw [mem_cons, not_or] at hc
    have hloadp : load p m = .ok (c, m) := by rw [load, hp]
    rw [strstrLoop, run_ok (load_cons h), if_neg h.2.1, run_ok hloadp, if_neg (Ne.symm hc.1)]
    exact ih (by rw [← Ptr.add_add]; exact h.2.2) hc.2 (by simp; omega)

theorem strstrLoop_some (h : StringAt m (s.add i) (pre ++ c :: rest))
    (hp : m.bytes p = c) (hc : c ∉ pre) (hfuel : pre.length < fuel) :
    strstrLoop s p 1 fuel i m = .ok (some (s.add (i + pre.length)), m) := by
  have hloadp : load p m = .ok (c, m) := by rw [load, hp]
  induction pre generalizing fuel i with
  | nil =>
    rcases fuel with _ | fuel
    · omega
    rw [strstrLoop, run_ok (load_cons h), if_neg h.2.1, run_ok hloadp, if_pos rfl,
      run_ok (strncmp_one h.1 hp h.2.1), if_pos rfl]
    rfl
  | cons b pre ih =>
    obtain ⟨fuel, rfl⟩ := Nat.exists_eq_add_of_lt hfuel
    rw [mem_cons, not_or] at hc
    have hrest : strstrLoop s p 1 ((b :: pre).length + fuel) (i + 1) m = _ :=
      ih (by rw [← Ptr.add_add]; exact h.2.2) hc.2 (by simp; omega)
    rw [strstrLoop, run_ok (load_cons h), if_neg h.2.1, run_ok hloadp,
      if_neg (Ne.symm hc.1), hrest, length_cons, Nat.add_right_comm, Nat.add_assoc]

theorem strstr_none (hp : StringAt m p [c]) (h : StringAt m s bs) (hc : c ∉ bs)
    (hone : 1 < fuel) (hfuel : bs.length < fuel) : strstr fuel s p m = .ok (none, m) := by
  rw [strstr, run_ok (strlen_eq hp hone)]
  exact strstrLoop_none (i := 0) h hp.1 hc hfuel

/-- The first occurrence of the character. -/
theorem strstr_some (hp : StringAt m p [c])
    (h : StringAt m s (pre ++ c :: rest)) (hc : c ∉ pre) (hone : 1 < fuel)
    (hfuel : pre.length < fuel) : strstr fuel s p m = .ok (some (s.add pre.length), m) := by
  rw [strstr, run_ok (strlen_eq hp hone)]
  have := strstrLoop_some (i := 0) h hp.1 hc hfuel
  rwa [Nat.zero_add] at this

end Tachyon.Paths
