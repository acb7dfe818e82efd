import Tachyon.Mboot.Window

/-!
# The memory map

The entries of the map follow each other without a table; the first field of each says how many
bytes of the entry come behind it.

* `Entries`: a part of physical memory that is a sequence of entries;
* `initLoop_eq`: on such a part the loop of `mboot_pmem_init` calls `pmem_add` for the entries that
  are available, in their order;
* `initLoop_ne_fuel`: on any memory it takes a bounded number of rounds;
* `memory_map_walk`: both for the function itself.
-/

namespace Tachyon.Mboot

open Prog

/-- What an entry of the map says. -/
structure Entry where
  addr : ℕ
  len : ℕ
  type : ℕ
  deriving DecidableEq, Repr

def Entry.available (e : Entry) : Bool := e.type = mbootMmAvailable

def entryAt (ram : Mem) (a : ℕ) : Entry :=
  ⟨readLE ram (a + offAddr) 8, readLE ram (a + offLen) 8, readLE ram (a + offType) 4⟩

/-- The `n` bytes from `a` on are a sequence of entries: each has a size of at least 20 bytes, not
counting the size itself, and begins with the address, the length and the type. -/
inductive Entries (ram : Mem) : ℕ → ℕ → List Entry → Prop
  | nil (a : ℕ) : Entries ram a 0 []
  | cons {a n : ℕ} {es : List Entry} (size : 20 ≤ readLE ram (a + offSize) 4)
      (rest : Entries ram (a + readLE ram (a + offSize) 4 + 4) n es) :
      Entries ram a (readLE ram (a + offSize) 4 + 4 + n) (entryAt ram a :: es)

variable {ρ : Type} {tables : ℕ → Bool} {add : ℕ → ℕ → Prog ρ Unit} {s : Boot ρ}
  {mbi mm bx a k n fuel cur : ℕ} {es : List Entry}

/-- A call of `pmem_add` for each entry that is available. -/
def addAvailable (add : ℕ → ℕ → Prog ρ Unit) : List Entry → Prog ρ Unit
  | [] => pure ()
  | e :: es =>
    (if e.available then add e.addr e.len else pure ()) >>= fun _ => addAvailable add es

/-! ### A well-formed map -/

theorem callPmem_bind {α β : Type} (p : Prog ρ α) (f : α → Prog ρ β) :
    (callPmem (p >>= f) : Prog (Boot ρ) β) s = (callPmem p >>= fun x => callPmem (f x)) s := by
  cases hp : p s.pmem with
  | error e => rw [run_error (callPmem_of_error hp),
      callPmem_of_error (run_error hp)]
  | ok r =>
    rw [run_ok (callPmem_of_ok hp), callPmem, zoom, run_ok hp]
    rfl

/-- One entry that lies in the page. -/
theorem addEntry_eq (hmm : Shows s mm a) (hin : a % pageSize4K + k + 24 ≤ pageSize4K) :
    addEntry add (mm + k) s =
      callPmem (if (entryAt s.ram (a + k)).available then
        add (entryAt s.ram (a + k)).addr (entryAt s.ram (a + k)).len else pure ()) s := by
  have hload : ∀ {off n}, off + n ≤ 24 → load (mm + k + off) n s =
      .ok (readLE s.ram (a + k + off) n, s) := fun {off n} hoff => by
    rw [Nat.add_assoc, hmm.load_eq (by omega), Nat.add_assoc]
  rw [addEntry, run_ok (hload (by decide))]
  by_cases havail : (entryAt s.ram (a + k)).available = true
  · have htype : readLE s.ram (a + k + offType) 4 = mbootMmAvailable := of_decide_eq_true havail
    rw [if_pos havail, if_pos htype, run_ok (hload (by decide)), run_ok (hload (by decide))]
    rfl
  · have htype : ¬readLE s.ram (a + k + offType) 4 = mbootMmAvailable :=
      fun h => havail (decide_eq_true h)
    rw [if_neg havail, if_neg htype]
    rfl

/-- The rest of a map, from the place `k` in the page on. -/
theorem initLoop_eq (add : ℕ → ℕ → Prog ρ Unit) (hin : bx % pageSize4K + 52 ≤ pageSize4K)
    (hlt : mm < mbootVtempRegEnd + pageSize4K) {ram : Mem} {b : ℕ} (hes : Entries ram b n es) :
    ∀ {k : ℕ} (fuel : ℕ) {s : Boot ρ}, s.ram = ram → b = a + k → Shows s mbi bx → Shows s mm a →
      infoField ram bx offMmapLen = k + n → a % pageSize4K + (k + n) ≤ pageSize4K → n < fuel →
      initLoop add mbi mm fuel (mm + k) s = callPmem (addAvailable add es) s := by
  induction hes with
  | nil =>
    intro k fuel s hram hb hinfo hmm hlen hpage hfuel
    rcases fuel with _ | fuel
    · omega
    subst hram
    have hend : add64 mm (k + 0) = mm + k := add64_of_lt (by
      rw [pageSize4K, mbootVtempRegEnd] at *
      omega)
    rw [initLoop, run_ok (load_infoField hinfo (by rw [offMmapLen]; omega)), hlen, hend,
      if_neg (lt_irrefl _)]
    rfl
  | @cons b n es size _ ih =>
    intro k fuel s hram hb hinfo hmm hlen hpage hfuel
    rcases fuel with _ | fuel
    · omega
    subst hram hb
    have hsize : ∀ t : ρ, load (mm + k + offSize) 4 { s with pmem := t } =
        .ok (readLE s.ram (a + k + offSize) 4, { s with pmem := t }) := fun t => by
      rw [Nat.add_assoc, Nat.add_assoc]
      exact Shows.load_eq hmm (by rw [offSize]; omega)
    -- from here on the size is only a number
    generalize readLE s.ram (a + k + offSize) 4 = sz at *
    have hsmall : mm + (k + (sz + 4 + n)) < 2 ^ 64 := by
      rw [pageSize4K, mbootVtempRegEnd] at *
      omega
    have hend : mm + k < add64 mm (k + (sz + 4 + n)) := by
      rw [add64_of_lt hsmall]
      omega
    have hnext : add64 (add64 (mm + k) sz) 4 = mm + (k + sz + 4) := by
      rw [add64_of_lt (a := mm + k) (by omega), add64_of_lt (by omega)]
      omega
    rw [initLoop, run_ok (load_infoField hinfo (by rw [offMmapLen]; omega)), hlen,
      if_pos hend, addAvailable, callPmem_bind, run_bind, addEntry_eq hmm (by omega), run_bind]
    cases hcall : (callPmem (if (entryAt s.ram (a + k)).available = true then
        add (entryAt s.ram (a + k)).addr (entryAt s.ram (a + k)).len else pure ()) s) with
    | error e => rfl
    | ok r =>
      obtain ⟨x, s1⟩ := r
      obtain ⟨t, rfl⟩ := callPmem_state hcall
      show (load (mm + k + offSize) 4 >>= fun size =>
        initLoop add mbi mm fuel (add64 (add64 (mm + k) size) 4)) { s with pmem := t } = _
      rw [run_ok (hsize t), hnext]
      exact ih fuel rfl (by omega) hinfo hmm (by omega) (by omega) (by omega)

/-! ### Any memory -/

theorem load_ne_fuel {v : ℕ} (s : Boot ρ) : load v n s ≠ .error .fuel := by
  rcases load_cases v n s with ⟨x, -, h⟩ | ⟨w, h⟩ <;> rw [h] <;> simp

section

variable (hadd : ∀ addr len t, add addr len t ≠ .error .fuel)
include hadd

theorem addEntry_ne_fuel (s : Boot ρ) : addEntry add cur s ≠ .error .fuel := by
  refine run_bind_ne_error (load_ne_fuel s) fun type s1 _ => ?_
  split_ifs
  · refine run_bind_ne_error (load_ne_fuel s1) fun addr s2 _ => ?_
    refine run_bind_ne_error (load_ne_fuel s2) fun len s3 _ => ?_
    intro h
    cases hp : add addr len s3.pmem with
    | error e =>
      rw [callPmem_of_error hp] at h
      cases h
      exact hadd addr len s3.pmem hp
    | ok r =>
      rw [callPmem_of_ok hp] at h
      cases h
  · intro h
    cases h

/-- Each round of the loop gets ahead by four bytes or more, and the end of the map is less than
`2 ^ 32` bytes away. -/
theorem initLoop_ne_fuel (hlt : mm < mbootVtempRegEnd + pageSize4K) : ∀ {fuel cur : ℕ} (s : Boot ρ),
    mm + 2 ^ 32 - cur < fuel → initLoop add mbi mm fuel cur s ≠ .error .fuel := by
  have hmm : mm < 2 ^ 33 := by
    rw [mbootVtempRegEnd, pageSize4K] at hlt
    omega
  intro fuel
  induction fuel with
  | zero => intro cur s hfuel; omega
  | succ fuel ih =>
    intro cur s hfuel
    refine run_bind_ne_error (load_ne_fuel s) fun mmapLen s1 hlen => ?_
    have hlen' : mmapLen < 2 ^ 32 := (load_ok hlen).1
    split_ifs with hcur
    · rw [add64_of_lt (by omega)] at hcur
      refine run_bind_ne_error (addEntry_ne_fuel hadd s1) fun _ s2 _ => ?_
      refine run_bind_ne_error (load_ne_fuel s2) fun size s3 hsize => ?_
      have hsize' : size < 2 ^ 32 := (load_ok hsize).1
      refine ih s3 ?_
      rw [add64_of_lt (a := cur) (by omega), add64_of_lt (by omega)]
      omega
    · intro h
      cases h

theorem initMemmap_ne_fuel (hfuel : 2 ^ 32 < fuel) (s : Boot ρ) :
    initMemmap tables add fuel mbi s ≠ .error .fuel := by
  refine run_bind_ne_error (load_ne_fuel s) fun flags s1 _ => ?_
  split_ifs
  · simp
  · refine run_bind_ne_error (load_ne_fuel s1) fun mmapAddr s2 _ => ?_
    refine run_bind_ne_error mbootMap_ne_error fun mm s3 hmm => ?_
    refine run_bind_ne_error (initLoop_ne_fuel hadd (mbootMap_lt hmm) s3 (by omega)) fun _ s4 _ => ?_
    simp [mbootUnmap, vmemUnmap]

end

/-! ### The function -/

/-- The information structure and the memory map can be read in full, and the map is the sequence
`es` of entries. -/
structure MapReadable (tables : ℕ → Bool) (s : Boot ρ) (bx : ℕ) (es : List Entry) : Prop where
  info : bx % pageSize4K + (offMmapAddr + 4) ≤ pageSize4K
  flag : infoField s.ram bx offFlags &&& mbootFlMemmap ≠ 0
  page : infoField s.ram bx offMmapAddr % pageSize4K + infoField s.ram bx offMmapLen ≤ pageSize4K
  entries : Entries s.ram (infoField s.ram bx offMmapAddr) (infoField s.ram bx offMmapLen) es
  mapped : ∃ mbi s₁, mbootMap tables bx s = .ok (mbi, s₁) ∧ mbi ≠ 0 ∧
    ∃ mm s₂, mbootMap tables (infoField s.ram bx offMmapAddr) s₁ = .ok (mm, s₂) ∧ mm ≠ 0

/-- The calls of `pmem_add`, and then the two pages are taken out of the window. -/
theorem mbootPmemInit_eq (add : ℕ → ℕ → Prog ρ Unit) (hdvd : pageSize4K ∣ s.pgTemp) (hr : MapReadable tables s bx es)
    (hfuel : pageSize4K < fuel) : ∃ mbi mm s2, s2.pmem = s.pmem ∧
    mbootPmemInit tables add fuel mbootMagic bx s =
      ((callPmem (addAvailable add es) >>= fun _ => mbootUnmap mm) >>= fun _ => mbootUnmap mbi)
        s2 := by
  obtain ⟨mbi, s1, hmbi, hmbi0, mm, s2, hmm, hmm0⟩ := hr.mapped
  obtain ⟨hshow1, hext1⟩ := mbootMap_shows hdvd hmbi hmbi0
  obtain ⟨hshow2, hext2⟩ := mbootMap_shows hext1.aligned hmm hmm0
  have hpage := hr.page
  have hload : ∀ {off}, off + 4 ≤ offMmapAddr + 4 →
      load (mbi + off) 4 s1 = .ok (infoField s.ram bx off, s1) := fun {off} hoff => by
    have hinfo := hr.info
    rw [load_infoField hshow1 (by omega), hext1.ram]
  have hloop := initLoop_eq add hr.info (mbootMap_lt hmm) hr.entries fuel
    (hext2.ram.trans hext1.ram) (Nat.add_zero _).symm
    (hext2.shows _ _ hshow1) hshow2 (Nat.zero_add _).symm (by rw [Nat.zero_add]; exact hpage)
    (by omega)
  rw [Nat.add_zero] at hloop
  refine ⟨mbi, mm, s2, hext2.pmem.trans hext1.pmem, ?_⟩
  have hmemmap : initMemmap tables add fuel mbi s1 =
      (callPmem (addAvailable add es) >>= fun _ => mbootUnmap mm) s2 := by
    rw [initMemmap, run_ok (hload (by decide)), if_neg hr.flag,
      run_ok (hload (by decide)), run_ok hmm, run_bind, hloop]
    rfl
  rw [mbootPmemInit, if_neg (by simp), run_ok hmbi, run_bind, hmemmap]
  rfl

/-- **The walk over the memory map**: if the map is a sequence of entries inside of its page,
`pmem_add` is called once for each entry that is available, in the order of the map, and for nothing
else; the function returns if these calls do.  With any memory at all, the walk comes to an end. -/
theorem memory_map_walk (add : ℕ → ℕ → Prog ρ Unit) (hdvd : pageSize4K ∣ s.pgTemp) :
    (∀ es, MapReadable tables s bx es → ∀ fuel, pageSize4K < fuel →
      (∀ t, addAvailable add es s.pmem = .ok ((), t) →
        ∃ s', mbootPmemInit tables add fuel mbootMagic bx s = .ok ((), s') ∧ s'.pmem = t) ∧
      ∀ e, addAvailable add es s.pmem = .error e →
        mbootPmemInit tables add fuel mbootMagic bx s = .error e) ∧
    ((∀ addr len t, add addr len t ≠ .error .fuel) → ∀ ax fuel, 2 ^ 32 < fuel →
      mbootPmemInit tables add fuel ax bx s ≠ .error .fuel) := by
  refine ⟨fun es hr fuel hfuel => ?_, fun hadd ax fuel hfuel => ?_⟩
  · obtain ⟨mbi, mm, s2, hpmem, hrun⟩ := mbootPmemInit_eq add hdvd hr hfuel
    rw [← hpmem]
    refine ⟨fun t ht => ?_, fun e he => ?_⟩
    · rw [hrun, run_ok (run_ok (callPmem_of_ok ht))]
      exact ⟨_, rfl, rfl⟩
    · rw [hrun]
      exact run_error (run_error (callPmem_of_error he))
  · unfold mbootPmemInit
    split_ifs
    · simp
    · refine run_bind_ne_error mbootMap_ne_error fun mbi s1 _ => ?_
      refine run_bind_ne_error (initMemmap_ne_fuel hadd (by omega) s1) fun _ s2 _ => ?_
      simp [mbootUnmap, vmemUnmap]

/-- A map with a range of memory and a range that is not memory, at the end of the page of the
information structure. -/
def smallMap : Mem := fun a =>
  if a = 0x1000 then 0x40 else if a = 0x102C then 48
  else if a = 0x1030 then 0xD0 else if a = 0x1031 then 0x1F
  else if a = 0x1FD0 then 20 else if a = 0x1FD6 then 0x10 else if a = 0x1FDD then 0x80
  else if a = 0x1FE4 then 1
  else if a = 0x1FE8 then 20 else if a = 0x1FEE then 0xF0 else if a = 0x1FFC then 2 else 0

/-- `pmem_add` as a log of its calls. -/
def logAdd (addr len : ℕ) : Prog (List (ℕ × ℕ)) Unit := modify (· ++ [(addr, len)])

theorem memory_map_walk_small : ∃ s',
    mbootPmemInit (fun _ => true) logAdd 5000 mbootMagic 0x1000
      ⟨smallMap, fun _ => none, mbootVtempRegStart, [], []⟩ = .ok ((), s') ∧
    s'.pmem = [(0x100000, 0x8000)] := by
  have hr : MapReadable (fun _ => true)
      (⟨smallMap, fun _ => none, mbootVtempRegStart, [], []⟩ : Boot (List (ℕ × ℕ))) 0x1000
      [⟨0x100000, 0x8000, 1⟩, ⟨0xF00000, 0, 2⟩] := by
    refine ⟨by decide, by decide, by decide, ?_, _, _, eq_ok_of_value (a := 0xA0000000) (by decide),
      by decide, _, _, eq_ok_of_value (a := 0xA0001FD0) (by decide), by decide⟩
    exact .cons (by decide) (.cons (by decide) (.nil _))
  exact ((memory_map_walk logAdd (by decide)).1 _ hr 5000 (by decide)).1 _ rfl

end Tachyon.Mboot
