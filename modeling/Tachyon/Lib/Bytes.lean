import Mathlib.Tactic

/-!
# Bytes in files

Little-endian numbers of a fixed width as lists of bytes, and open files with a position.

* `toLE`, `ofLE`: a number and its bytes (`ofLE_toLE`);
* `Stream.read`, `Stream.write`: the next bytes of a file; a write overwrites what is there and
  leaves what is behind it (`Stream.write_append`, `Stream.read_append`).
-/

namespace Tachyon

open List

/-- The low `n` bytes of a number. -/
def toLE : ℕ → ℕ → List UInt8
  | 0, _ => []
  | n + 1, v => UInt8.ofNat v :: toLE n (v / 256)

/-- The number with these bytes. -/
def ofLE : List UInt8 → ℕ
  | [] => 0
  | b :: bs => b.toNat + 256 * ofLE bs

@[simp] theorem length_toLE (n v : ℕ) : (toLE n v).length = n := by
  induction n generalizing v with
  | zero => rfl
  | succ n ih => rw [toLE, length_cons, ih]

theorem ofLE_toLE {n v : ℕ} (h : v < 256 ^ n) : ofLE (toLE n v) = v := by
  induction n generalizing v with
  | zero =>
    rw [pow_zero, Nat.lt_one_iff] at h
    rw [h]
    rfl
  | succ n ih =>
    have hdiv : v / 256 < 256 ^ n := Nat.div_lt_of_lt_mul (by rwa [Nat.pow_succ'] at h)
    rw [toLE, ofLE, ih hdiv, UInt8.toNat_ofNat']
    exact Nat.mod_add_div v 256

/-- The bytes between two positions. -/
def slice (bs : List UInt8) (start size : ℕ) : List UInt8 := (bs.drop start).take size

theorem slice_append (xs ys zs : List UInt8) : slice (xs ++ ys ++ zs) xs.length ys.length = ys := by
  rw [slice, append_assoc, drop_left, take_left]

/-- The part of a list of bytes that has a position and a length. -/
theorem slice_eq {bs ys : List UInt8} {i n : ℕ} (xs zs : List UInt8) (h : bs = xs ++ ys ++ zs)
    (hi : xs.length = i) (hn : ys.length = n) : slice bs i n = ys := by
  subst h hi hn
  exact slice_append xs ys zs

/-- An open file. -/
structure Stream where
  data : List UInt8
  pos : ℕ

/-- Write at the position; a gap in front of it is filled with `0`. -/
def Stream.write (f : Stream) (bs : List UInt8) : Stream :=
  ⟨f.data.take f.pos ++ List.replicate (f.pos - f.data.length) 0 ++ bs ++
    f.data.drop (f.pos + bs.length), f.pos + bs.length⟩

/-- Read at the position. -/
def Stream.read (f : Stream) (n : ℕ) : List UInt8 × Stream :=
  (slice f.data f.pos n, { f with pos := f.pos + (slice f.data f.pos n).length })

theorem Stream.write_append (xs ys bs : List UInt8) :
    Stream.write ⟨xs ++ ys, xs.length⟩ bs =
      ⟨xs ++ bs ++ ys.drop bs.length, (xs ++ bs).length⟩ := by
  have hgap : xs.length - (xs ++ ys).length = 0 := by
    rw [length_append]
    omega
  have htail : (xs ++ ys).drop (xs.length + bs.length) = ys.drop bs.length := by
    rw [← drop_drop, drop_left]
  rw [Stream.write]
  dsimp only
  rw [take_left, hgap, htail, replicate_zero, append_nil, length_append]

theorem Stream.read_append (xs ys zs : List UInt8) :
    Stream.read ⟨xs ++ ys ++ zs, xs.length⟩ ys.length =
      (ys, ⟨xs ++ ys ++ zs, (xs ++ ys).length⟩) := by
  rw [Stream.read]
  dsimp only
  rw [slice_append, length_append]

end Tachyon
