import Tachyon.Mboot.Model

/-!
# Reading through the window

* `Shows s v a`: the page of the physical address `a` is mapped so that `v` is the address of `a`;
* `Shows.load_eq`: a number that lies in that page is read as it stands in physical memory;
* `mbootMap_of_canMap`, `mbootMap_of_not`, `mbootMap_shows`: `mboot_map` makes its argument visible,
  or returns `NULL`; it always returns.
-/

namespace Tachyon.Mboot

open Prog Function

variable {ρ α : Type} {tables : ℕ → Bool} {s s' : Boot ρ} {t : ρ} {v w a b k n page : ℕ} {x : α}

/-- The virtual address `v` is that of the physical address `a`, as far as the page of `a` goes. -/
def Shows (s : Boot ρ) (v a : ℕ) : Prop :=
  ∃ page, pageSize4K ∣ page ∧ v = page + a % pageSize4K ∧
    s.maps page = some (alignDn a pageSize4K)

theorem alignDn_page (x : ℕ) : alignDn x pageSize4K = x - x % 4096 := alignDn_two_pow x 12

theorem alignRst_page (x : ℕ) : alignRst x pageSize4K = x % 4096 := alignRst_two_pow x 12

section

variable (hdvd : pageSize4K ∣ page)
include hdvd

theorem alignDn_add (hk : k < pageSize4K) :
    alignDn (page + k) pageSize4K = page := by
  obtain ⟨i, rfl⟩ := hdvd
  rw [alignDn_page]
  rw [pageSize4K] at hk ⊢
  omega

theorem alignRst_add (hk : k < pageSize4K) :
    alignRst (page + k) pageSize4K = k := by
  obtain ⟨i, rfl⟩ := hdvd
  rw [alignRst_page]
  rw [pageSize4K] at hk ⊢
  omega

/-! ### Loads -/

theorem load_page {phys : ℕ} (hmap : s.maps page = some phys) :
    k + n ≤ pageSize4K → load (page + k) n s = .ok (readLE s.ram (phys + k) n, s) := by
  induction n generalizing k with
  | zero => intro _; rfl
  | succ n ih =>
    intro hk
    have hbyte : loadByte (page + k) s = .ok (s.ram (phys + k), s) := by
      rw [loadByte, alignDn_add hdvd (by omega), hmap, alignRst_add hdvd (by omega)]
    have hrest : load (page + k + 1) n s = .ok (readLE s.ram (phys + k + 1) n, s) := by
      have := ih (k := k + 1) (by omega)
      rwa [← Nat.add_assoc, ← Nat.add_assoc] at this
    rw [load, run_ok hbyte, run_ok hrest]
    rfl

end

/-- A number that does not leave the page. -/
theorem Shows.load_eq (h : Shows s v a) (hk : a % pageSize4K + k + n ≤ pageSize4K) :
    load (v + k) n s = .ok (readLE s.ram (a + k) n, s) := by
  obtain ⟨page, hdvd, rfl, hmap⟩ := h
  rw [Nat.add_assoc, load_page hdvd hmap (by omega), ← Nat.add_assoc]
  have hsum : alignDn a pageSize4K + a % pageSize4K = a := by
    rw [alignDn_page, pageSize4K]
    omega
  rw [hsum]

/-- A field of the information structure. -/
def infoField (ram : Mem) (bx off : ℕ) : ℕ := readLE ram (bx + off) 4

theorem load_infoField {bx mbi off : ℕ} (h : Shows s mbi bx)
    (hin : bx % pageSize4K + (off + 4) ≤ pageSize4K) :
    load (mbi + off) 4 s = .ok (infoField s.ram bx off, s) := by
  rw [h.load_eq (by omega)]
  rfl

/-- Reading changes nothing, and halts only for a page that is not mapped. -/
theorem load_cases (v n : ℕ) (s : Boot ρ) :
    (∃ x < 256 ^ n, load v n s = .ok (x, s)) ∨ ∃ w, load v n s = .error (.pageFault w) := by
  induction n generalizing v with
  | zero => exact .inl ⟨0, by simp, rfl⟩
  | succ n ih =>
    rw [load]
    cases hmap : s.maps (alignDn v pageSize4K) with
    | none =>
      refine .inr ⟨v, run_error ?_⟩
      rw [loadByte, hmap]
    | some phys =>
      have hbyte : loadByte v s = .ok (s.ram (phys + alignRst v pageSize4K), s) := by
        rw [loadByte, hmap]
      rw [run_ok hbyte]
      rcases ih (v + 1) with ⟨x, hx, hload⟩ | ⟨w, hload⟩
      · refine .inl ⟨_, ?_, run_ok hload⟩
        have := (s.ram (phys + alignRst v pageSize4K)).toNat_lt
        omega
      · exact .inr ⟨w, run_error hload⟩

theorem load_ok {x : ℕ} (h : load v n s = .ok (x, s')) : x < 256 ^ n ∧ s' = s := by
  rcases load_cases v n s with ⟨y, hy, hload⟩ | ⟨w, hload⟩
  · cases hload.symm.trans h
    exact ⟨hy, rfl⟩
  · cases hload.symm.trans h

/-! ### Calls -/

variable {p : Prog ρ α} {e : Halt}

theorem callPmem_of_ok (h : p s.pmem = .ok (x, t)) :
    callPmem p s = .ok (x, { s with pmem := t }) := by
  rw [callPmem, zoom, h]

theorem callPmem_of_error (h : p s.pmem = .error e) :
    callPmem p s = .error e := by
  rw [callPmem, zoom, h]

theorem exists_of_callPmem (h : callPmem p s = .ok (x, s')) :
    ∃ t, p s.pmem = .ok (x, t) := by
  cases hp : p s.pmem with
  | error e =>
    rw [callPmem_of_error hp] at h
    cases h
  | ok r =>
    rw [callPmem_of_ok hp] at h
    cases h
    exact ⟨_, rfl⟩

theorem callPmem_state (h : callPmem p s = .ok (x, s')) :
    ∃ t, s' = { s with pmem := t } := by
  obtain ⟨t, hp⟩ := exists_of_callPmem h
  rw [callPmem_of_ok hp] at h
  cases h
  exact ⟨t, rfl⟩

/-! ### Mappings -/

/-- Where the search for a free page ends. -/
def freePage (maps : ℕ → Option ℕ) : ℕ → ℕ → ℕ
  | 0, p => p
  | n + 1, p =>
    if (maps (alignDn p pageSize4K)).getD 0 ≠ 0 ∧ p < mbootVtempRegEnd then
      freePage maps n (p + pageSize4K)
    else p

/-- The page that `mboot_map` takes. -/
def Boot.nextPage (s : Boot ρ) : ℕ :=
  freePage s.maps ((mbootVtempRegEnd - mbootVtempRegStart) / pageSize4K) s.pgTemp

/-- That page can be mapped. -/
def CanMap (tables : ℕ → Bool) (s : Boot ρ) : Prop :=
  s.nextPage < mbootVtempRegEnd ∧ s.nextPage ≠ 0 ∧ tables s.nextPage = true ∧
    s.maps s.nextPage = none

theorem findLoop_eq (n : ℕ) :
    findLoop n s = .ok ((), { s with pgTemp := freePage s.maps n s.pgTemp }) := by
  induction n generalizing s with
  | zero => rfl
  | succ n ih =>
    unfold findLoop freePage
    by_cases h : (s.maps (alignDn s.pgTemp pageSize4K)).getD 0 ≠ 0 ∧ s.pgTemp < mbootVtempRegEnd
    · rw [if_pos h]
      exact (if_pos h).trans ih
    · rw [if_neg h]
      exact if_neg h

theorem freePage_dvd (maps : ℕ → Option ℕ) : ∀ (n p : ℕ), pageSize4K ∣ p →
    pageSize4K ∣ freePage maps n p := by
  intro n
  induction n with
  | zero => intro p hp; exact hp
  | succ n ih =>
    intro p hp
    unfold freePage
    split_ifs
    · exact ih _ (Nat.dvd_add_self_right.2 hp)
    · exact hp

theorem mbootFindFreePage_eq : mbootFindFreePage s =
    .ok (if mbootVtempRegEnd ≤ s.nextPage then 0 else s.nextPage,
      { s with pgTemp := s.nextPage }) := by
  rw [mbootFindFreePage, run_ok (findLoop_eq _), run_get_bind]
  change (if mbootVtempRegEnd ≤ s.nextPage then pure 0 else pure s.nextPage : Prog (Boot ρ) ℕ)
    { s with pgTemp := s.nextPage } = _
  split_ifs
  · rfl
  · rfl

theorem mbootMap_of_canMap (a : ℕ) (h : CanMap tables s) : mbootMap tables a s =
    .ok (s.nextPage + a % pageSize4K, { s with
      pgTemp := s.nextPage
      maps := update s.maps s.nextPage (some (alignDn a pageSize4K)) }) := by
  obtain ⟨hend, hzero, htables, hfree⟩ := h
  have hmap : vmemMap tables (alignDn a pageSize4K) s.nextPage { s with pgTemp := s.nextPage } =
      .ok (true, { s with
        pgTemp := s.nextPage
        maps := update s.maps s.nextPage (some (alignDn a pageSize4K)) }) := by
    rw [vmemMap, if_pos]
    simp [htables, hfree]
  have hfind : mbootFindFreePage s = .ok (s.nextPage, { s with pgTemp := s.nextPage }) := by
    rw [mbootFindFreePage_eq, if_neg (by omega)]
  rw [mbootMap, run_ok hfind, if_neg hzero, run_ok hmap, if_pos rfl, alignRst_page]
  rfl

theorem mbootMap_of_not (a : ℕ) (h : ¬CanMap tables s) :
    mbootMap tables a s = .ok (0, { s with pgTemp := s.nextPage }) := by
  by_cases hend : mbootVtempRegEnd ≤ s.nextPage
  · have hfind : mbootFindFreePage s = .ok (0, { s with pgTemp := s.nextPage }) := by
      rw [mbootFindFreePage_eq, if_pos hend]
    rw [mbootMap, run_ok hfind, if_pos rfl]
    rfl
  · have hfind : mbootFindFreePage s = .ok (s.nextPage, { s with pgTemp := s.nextPage }) := by
      rw [mbootFindFreePage_eq, if_neg hend]
    rw [mbootMap, run_ok hfind]
    by_cases hzero : s.nextPage = 0
    · rw [if_pos hzero]
      rfl
    have hmap : vmemMap tables (alignDn a pageSize4K) s.nextPage { s with pgTemp := s.nextPage } =
        .ok (false, { s with pgTemp := s.nextPage }) := by
      rw [vmemMap, if_neg]
      intro hfree
      rw [Bool.and_eq_true, Option.isNone_iff_eq_none] at hfree
      exact h ⟨by omega, hzero, hfree⟩
    rw [if_neg hzero, run_ok hmap]
    rfl

/-- What is left of a state when only mappings have been added. -/
structure Extends (s s' : Boot ρ) : Prop where
  ram : s'.ram = s.ram
  pmem : s'.pmem = s.pmem
  aligned : pageSize4K ∣ s'.pgTemp
  shows : ∀ v a, Shows s v a → Shows s' v a

/-- A mapping that succeeds makes its argument visible, besides what was visible before. -/
theorem mbootMap_shows (hdvd : pageSize4K ∣ s.pgTemp) (h : mbootMap tables a s = .ok (v, s'))
    (hv : v ≠ 0) : Shows s' v a ∧ Extends s s' := by
  by_cases hcan : CanMap tables s
  · rw [mbootMap_of_canMap a hcan] at h
    cases h
    have hp : pageSize4K ∣ s.nextPage := freePage_dvd _ _ _ hdvd
    refine ⟨⟨s.nextPage, hp, rfl, update_self ..⟩, rfl, rfl, hp, ?_⟩
    rintro w b ⟨page, hpage, rfl, hmap⟩
    have hne : page ≠ s.nextPage := fun he => by
      rw [he, hcan.2.2.2] at hmap
      cases hmap
    exact ⟨page, hpage, rfl, (update_of_ne hne ..).trans hmap⟩
  · rw [mbootMap_of_not a hcan] at h
    exact absurd (Prod.mk.inj (Except.ok.inj h)).1.symm hv

theorem mbootMap_lt (h : mbootMap tables a s = .ok (v, s')) :
    v < mbootVtempRegEnd + pageSize4K := by
  by_cases hcan : CanMap tables s
  · rw [mbootMap_of_canMap a hcan] at h
    cases h
    have hmod : a % pageSize4K < pageSize4K := Nat.mod_lt _ (by decide)
    have hpage := hcan.1
    omega
  · rw [mbootMap_of_not a hcan] at h
    cases h
    decide

theorem mbootMap_ne_error : mbootMap tables a s ≠ .error e := by
  by_cases hcan : CanMap tables s
  · rw [mbootMap_of_canMap a hcan]
    simp
  · rw [mbootMap_of_not a hcan]
    simp

/-- `mboot_map` does not look at the physical memory manager. -/
theorem mbootMap_pmem (h : mbootMap tables a s = .ok (v, s')) :
    mbootMap tables a { s with pmem := t } = .ok (v, { s' with pmem := t }) := by
  by_cases hcan : CanMap tables s
  · rw [mbootMap_of_canMap a hcan] at h
    cases h
    exact mbootMap_of_canMap a hcan
  · rw [mbootMap_of_not a hcan] at h
    cases h
    exact mbootMap_of_not a hcan

end Tachyon.Mboot
