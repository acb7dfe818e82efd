import Tachyon.Lib.Memory
import Tachyon.Lib.Prog

/-!
# Entries of the GDT (`dyngdt.c`)

`dyngdt_set` scatters the base and the limit of a segment over the bit-fields of an entry.

* `Selector`, `Selector.bytes`: the bit-fields, and the entry that they make up;
* `dyngdtSet`: the source;
* `decode`: what the processor reads in an entry;
* `dyngdtSet_decodes`: it reads what was given to `dyngdt_set`.
-/

namespace Tachyon.Dyngdt

open Prog

/-! ### The source -/

/-- What is assigned to the bit-fields of a `selector_t`. -/
structure Selector where
  (limitLow baseLow baseMLow type segSel dpl present limitHigh large opsz granularity baseMHigh : ℕ)

/-- `selector_t` as a number: a bit-field holds the low bits of what is assigned to it. -/
def Selector.bytes (f : Selector) : ℕ :=
  f.limitLow % 2 ^ 16 + f.baseLow % 2 ^ 16 * 2 ^ 16 + f.baseMLow % 2 ^ 8 * 2 ^ 32 +
    f.type % 2 ^ 4 * 2 ^ 40 + f.segSel % 2 * 2 ^ 44 + f.dpl % 2 ^ 2 * 2 ^ 45 +
    f.present % 2 * 2 ^ 47 + f.limitHigh % 2 ^ 4 * 2 ^ 48 + f.large % 2 * 2 ^ 53 +
    f.opsz % 2 * 2 ^ 54 + f.granularity % 2 * 2 ^ 55 + f.baseMHigh % 2 ^ 8 * 2 ^ 56

def gdtVirtual : ℕ := 0xFFFFFFFF81000000 + 0x1000 + 0x1000 * 0x10 + 0x1000 + 0x110000

def gdtVsz : ℕ := 0x1000

def gdtTypeTss : ℕ := 0x8 ||| 0x1

/-- Memory, and `global_gdt_init_lock`. -/
structure State where
  mem : Mem
  locked : Bool

/-- `raw_gdt[i] = w`; what is behind the page of the GDT is not its own. -/
def setSlot (i w : ℕ) : Prog State Unit := fun s =>
  if 8 * i + 8 ≤ gdtVsz then .ok ((), { s with mem := write64 s.mem (gdtVirtual + 8 * i) w })
  else .error .undefined

/-- The variable `selector` of `dyngdt_set`. -/
def selector (base limit type dpl : ℕ) (large sys : Bool) : Selector where
  limitLow := limit &&& 0xFFFF
  baseLow := base &&& 0xFFFF
  baseMLow := base >>> 16 &&& 0xFF
  type := type
  dpl := dpl
  present := 1
  limitHigh := limit >>> 16 &&& 0xF
  large := if large then 1 else 0
  opsz := if large then 0 else 1
  baseMHigh := base >>> 24 &&& 0xFF
  segSel := if sys then 0 else 1
  granularity := if sys then 0 else 1

/-- The entry takes two slots. -/
def isLong (type : ℕ) (sys : Bool) : Bool := sys && type &&& gdtTypeTss != 0

def dyngdtSet (sel base limit type dpl : ℕ) (large sys : Bool) : Prog State Unit :=
  if 3 < dpl then halt (.fatal "dpl out of range for gdt entry: %d\n")
  else
    get >>= fun s =>
      if s.locked then
        setSlot (sel / 8) (selector base limit type dpl large sys).bytes >>= fun _ =>
          -- of `selector_ext_t` only `base_high` is not `0`
          if isLong type sys then setSlot (sel / 8 + 1) (base >>> 32 % 2 ^ 32) else pure ()
      else halt (.fatal "global gdt initialization lock not locked!\n")

/-! ### The processor -/

/-- The entry in a slot. -/
def slot (s : State) (i : ℕ) : ℕ := read64 s.mem (gdtVirtual + 8 * i)

/-- The bits of a word from `pos` on. -/
def bits (w pos width : ℕ) : ℕ := w / 2 ^ pos % 2 ^ width

/-- A segment. -/
structure Descriptor where
  (base limit type dpl p s l d g : ℕ)

/-- An entry as the processor reads it, with the second slot `ext`. -/
def decode (w ext : ℕ) : Descriptor where
  base := bits w 16 24 + bits w 56 8 * 2 ^ 24 + bits ext 0 32 * 2 ^ 32
  limit := bits w 0 16 + bits w 48 4 * 2 ^ 16
  type := bits w 40 4
  dpl := bits w 45 2
  p := bits w 47 1
  s := bits w 44 1
  l := bits w 53 1
  d := bits w 54 1
  g := bits w 55 1

/-! ### Reading back -/

theorem Selector.bytes_lt (f : Selector) : f.bytes < 2 ^ 64 := by
  unfold Selector.bytes
  omega

theorem decode_bytes (f : Selector) (ext : ℕ) : decode f.bytes ext =
    ⟨f.baseLow % 2 ^ 16 + f.baseMLow % 2 ^ 8 * 2 ^ 16 + f.baseMHigh % 2 ^ 8 * 2 ^ 24 +
      ext % 2 ^ 32 * 2 ^ 32, f.limitLow % 2 ^ 16 + f.limitHigh % 2 ^ 4 * 2 ^ 16, f.type % 2 ^ 4,
      f.dpl % 2 ^ 2, f.present % 2, f.segSel % 2, f.large % 2, f.opsz % 2, f.granularity % 2⟩ := by
  simp only [decode, Selector.bytes, bits, Descriptor.mk.injEq]
  refine ⟨?_, ?_, ?_, ?_, ?_, ?_, ?_, ?_, ?_⟩ <;> omega

theorem and_mask (x width : ℕ) : (x &&& 2 ^ width - 1) % 2 ^ width = x % 2 ^ width := by
  rw [Nat.and_two_pow_sub_one_eq_mod, Nat.mod_mod]

variable {s : State} {i j w : ℕ}

theorem setSlot_eq (hi : i < 512) : setSlot i w s =
    .ok ((), { s with mem := write64 s.mem (gdtVirtual + 8 * i) w }) :=
  if_pos (by unfold gdtVsz; omega)

theorem slot_self (hw : w < 2 ^ 64) :
    slot { s with mem := write64 s.mem (gdtVirtual + 8 * i) w } i = w :=
  read64_write64 hw

theorem slot_of_ne (h : j ≠ i) :
    slot { s with mem := write64 s.mem (gdtVirtual + 8 * i) w } j = slot s j :=
  read64_of_disjoint (by omega)

/-- What the processor reads in the entry of `dyngdt_set`, with any base in the second slot. -/
theorem decode_selector {base limit type dpl : ℕ} (ext : ℕ) (large sys : Bool)
    (hlimit : limit < 2 ^ 20) (htype : type < 2 ^ 4) (hdpl : dpl ≤ 3) :
    decode (selector base limit type dpl large sys).bytes ext =
      ⟨base % 2 ^ 32 + ext % 2 ^ 32 * 2 ^ 32, limit, type, dpl, 1, (!sys).toNat, large.toNat,
        (!large).toNat, (!sys).toNat⟩ := by
  have h16 : ∀ x, (x &&& 0xFFFF) % 2 ^ 16 = x % 2 ^ 16 := (and_mask · 16)
  have h8 : ∀ x, (x &&& 0xFF) % 2 ^ 8 = x % 2 ^ 8 := (and_mask · 8)
  have h4 : ∀ x, (x &&& 0xF) % 2 ^ 4 = x % 2 ^ 4 := (and_mask · 4)
  rw [decode_bytes, Descriptor.mk.injEq]
  simp only [selector, h16, h8, h4, Nat.shiftRight_eq_div_pow]
  refine ⟨by omega, by omega, by omega, by omega, trivial, ?_⟩
  cases large <;> cases sys <;> simp

/-- **The entries of `dyngdt_set` decode to what was encoded**, and no other slot changes. -/
theorem dyngdtSet_decodes (sel base limit type dpl : ℕ) (large sys : Bool) (s : State)
    (hlocked : s.locked = true) (hbase : base < 2 ^ 64) (hlimit : limit < 2 ^ 20)
    (htype : type < 2 ^ 4) (hdpl : dpl ≤ 3)
    (hslot : sel / 8 + (if isLong type sys then 2 else 1) ≤ 512) :
    ∃ s', dyngdtSet sel base limit type dpl large sys s = .ok ((), s') ∧
      decode (slot s' (sel / 8)) (if isLong type sys then slot s' (sel / 8 + 1) else 0) =
        ⟨if isLong type sys then base else base % 2 ^ 32, limit, type, dpl, 1, (!sys).toNat,
          large.toNat, (!large).toNat, (!sys).toNat⟩ ∧
      ∀ i, i ≠ sel / 8 → (isLong type sys → i ≠ sel / 8 + 1) → slot s' i = slot s i := by
  have hfirst : setSlot (sel / 8) (selector base limit type dpl large sys).bytes s = _ :=
    setSlot_eq (by split_ifs at hslot <;> omega)
  have hget : (get : Prog State State) s = .ok (s, s) := rfl
  rw [dyngdtSet, if_neg (by omega), run_ok hget, if_pos hlocked, run_ok hfirst]
  split_ifs at hslot ⊢ with hlong
  · refine ⟨_, setSlot_eq (by omega), ?_, fun i hi hi' => ?_⟩
    · rw [slot_of_ne (by omega), slot_self (Selector.bytes_lt _), slot_self (by omega),
        decode_selector _ _ _ hlimit htype hdpl, Nat.shiftRight_eq_div_pow]
      congr 1
      omega
    · rw [slot_of_ne (hi' hlong), slot_of_ne hi]
  · refine ⟨_, rfl, ?_, fun i hi _ => slot_of_ne hi⟩
    rw [slot_self (Selector.bytes_lt _), decode_selector _ _ _ hlimit htype hdpl]
    rfl

/-- A TSS far up, in the slots 5 and 6. -/
theorem dyngdtSet_decodes_tss : ∃ s',
    dyngdtSet 0x28 0xFFFFFF0000400008 0x67 9 3 true true ⟨fun _ => 0, true⟩ = .ok ((), s') ∧
      (decode (slot s' 5) (slot s' 6)).base = 0xFFFFFF0000400008 := by
  obtain ⟨s', hrun, hdecode, -⟩ := dyngdtSet_decodes 0x28 0xFFFFFF0000400008 0x67 9 3 true true
    ⟨fun _ => 0, true⟩ rfl (by decide) (by decide) (by decide) (by decide) (by decide)
  exact ⟨s', hrun, congrArg Descriptor.base hdecode⟩

end Tachyon.Dyngdt
