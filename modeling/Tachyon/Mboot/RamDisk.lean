import Tachyon.Mboot.Window

/-!
# The RAM disk in the kernel

`mboot_find_rd` looks for a module with the magic number and maps all of its pages, one after the
other, from `RD_VIRTUAL` on.  The room there is one page more than the largest module that is
accepted, for a start in the middle of a page.

* `MapsPages`, `mapRd_spec`, `mapRd_returns`: the loop that maps the pages;
* `ShowsModule`: the module is visible behind the address that is returned, inside of its room;
* `Arrives`, `Matches`: the search gets to a module, which has the magic number;
* `rd_window_exact`: when such a module is shown.
-/

namespace Tachyon.Mboot

open Prog Function Nat

variable {ρ : Type} {tables : ℕ → Bool} {s s' s₁ : Boot ρ} {fuel start stop rd n first virt : ℕ}

/-- The physical address behind a virtual one. -/
def translate (s : Boot ρ) (v : ℕ) : Option ℕ :=
  (s.maps (alignDn v pageSize4K)).map (· + alignRst v pageSize4K)

/-- `n` pages from `first` on have been mapped from `virt` on, and nothing else. -/
structure MapsPages (s s' : Boot ρ) (first virt n : ℕ) : Prop where
  page : ∀ i < n, s'.maps (virt + pageSize4K * i) = some (first + pageSize4K * i)
  other : ∀ v, (∀ i < n, v ≠ virt + pageSize4K * i) → s'.maps v = s.maps v

/-- One page in front of the others. -/
theorem MapsPages.cons (h : MapsPages { s with maps := update s.maps virt (some first) } s'
      (first + pageSize4K) (virt + pageSize4K) n) : MapsPages s s' first virt (n + 1) := by
  have hshift : ∀ a i, a + pageSize4K + pageSize4K * i = a + pageSize4K * (i + 1) := fun a i => by
    rw [pageSize4K]
    omega
  refine ⟨fun i hi => ?_, fun v hv => ?_⟩
  · cases i with
    | zero =>
      rw [mul_zero, add_zero, h.other virt fun i _ => by rw [pageSize4K]; omega]
      exact update_self ..
    | succ i =>
      rw [← hshift, ← hshift]
      exact h.page i (by omega)
  · rw [h.other v fun i hi => by rw [hshift]; exact hv (i + 1) (by omega)]
    exact update_of_ne (by simpa using hv 0 (Nat.succ_pos n)) ..

theorem vmemMap_cases (tables : ℕ → Bool) (first virt : ℕ) (s : Boot ρ) :
    vmemMap tables first virt s =
      .ok (true, { s with maps := update s.maps virt (some first) }) ∨
    vmemMap tables first virt s = .ok (false, s) := by
  rw [vmemMap]
  split_ifs
  · exact .inl rfl
  · exact .inr rfl

theorem add64_page {a : ℕ} (h : a + pageSize4K * (n + 1) < 2 ^ 64) :
    add64 a pageSize4K = a + pageSize4K := by
  have hlt : a + pageSize4K < 2 ^ 64 :=
    lt_of_le_of_lt (Nat.add_le_add_left (Nat.le_mul_of_pos_right _ (Nat.succ_pos n)) a) h
  exact add64_of_lt hlt

section

variable (hfirst : first + pageSize4K * n < 2 ^ 64) (hvirt : virt + pageSize4K * n < 2 ^ 64)
include hfirst hvirt

/-- If the loop comes to its end, all pages are mapped. -/
theorem mapRd_spec (h : mapRd tables (first + pageSize4K * n) fuel first virt s = .ok ((), s')) :
    MapsPages s s' first virt n := by
  induction fuel generalizing n first virt s with
  | zero => cases h
  | succ fuel ih =>
    unfold mapRd at h
    cases n with
    | zero =>
      rw [if_neg (by omega)] at h
      cases h
      exact ⟨fun i hi => absurd hi (not_lt_zero i), fun _ _ => rfl⟩
    | succ n =>
      have hsum : first + pageSize4K * (n + 1) = first + pageSize4K + pageSize4K * n := by
        rw [pageSize4K]
        omega
      rw [if_pos (by rw [pageSize4K]; omega)] at h
      rcases vmemMap_cases tables first virt s with hmap | hmap
      · rw [run_ok hmap, if_pos rfl, run_ok (run_modify _ _), hsum,
          add64_page hfirst, add64_page hvirt] at h
        have hrest := ih (by omega) (by rw [pageSize4K] at *; omega) h
        exact MapsPages.cons ⟨hrest.page, hrest.other⟩
      · rw [run_ok hmap] at h
        cases h

/-- If the pages can be mapped, the loop comes to its end. -/
theorem mapRd_returns (hfuel : n < fuel)
    (hfree : ∀ i < n, tables (virt + pageSize4K * i) = true ∧
      s.maps (virt + pageSize4K * i) = none) :
    ∃ s', mapRd tables (first + pageSize4K * n) fuel first virt s = .ok ((), s') := by
  induction n generalizing fuel first virt s with
  | zero =>
    rcases fuel with _ | fuel
    · omega
    refine ⟨s, ?_⟩
    rw [mapRd, if_neg (by omega)]
    rfl
  | succ n ih =>
    rcases fuel with _ | fuel
    · omega
    have hshift : ∀ a i, a + pageSize4K + pageSize4K * i = a + pageSize4K * (i + 1) := fun a i => by
      rw [pageSize4K]
      omega
    have hmap : vmemMap tables first virt s =
        .ok (true, { s with maps := update s.maps virt (some first) }) := by
      obtain ⟨htables, hnone⟩ := hfree 0 (Nat.succ_pos n)
      rw [mul_zero, add_zero] at htables hnone
      rw [vmemMap, if_pos]
      simp [htables, hnone]
    rw [mapRd, if_pos (by rw [pageSize4K]; omega), run_ok hmap, if_pos rfl,
      run_ok (run_modify _ _), ← hshift, add64_page hfirst, add64_page hvirt]
    refine ih (by rw [hshift]; exact hfirst) (by rw [hshift]; exact hvirt) (by omega) fun i hi => ?_
    rw [hshift]
    obtain ⟨htables, hnone⟩ := hfree (i + 1) (by omega)
    refine ⟨htables, ?_⟩
    rw [← hnone]
    exact update_of_ne (by rw [pageSize4K]; omega) ..

end

/-! ### One module -/

/-- The pages of the module are mapped between `RD_VIRTUAL` and the end of its room, and each byte of
the module is behind `rd` at its place. -/
structure ShowsModule (s s' : Boot ρ) (start stop rd : ℕ) : Prop where
  inside : ∀ v, s'.maps v ≠ s.maps v → rdVirtual ≤ v ∧ v + pageSize4K ≤ rdVirtual + Rd.rdVsz
  byte : ∀ k < stop - start, translate s' (rd + k) = some (start + k)

/-- The number of pages from the page of `start` to the one of the last byte. -/
def pagesBetween (start stop : ℕ) : ℕ := (stop + 4095) / 4096 - start / 4096

theorem alignUp32_eq (h : stop ≤ 0xFFFFF000) : alignUp32 stop = (stop + 4095) / 4096 * 4096 := by
  rw [alignUp32, alignDn_page, pageSize4K, mod_eq_of_lt (by omega)]
  omega

theorem sub32_of_le (h : start ≤ stop) (hstop : stop < 2 ^ 32) :
    sub32 stop start = stop - start := by
  rw [sub32, mod_eq_of_lt (show start < 2 ^ 32 by omega)]
  omega

/-- The end of the loop, counted in pages from its start. -/
theorem alignUp32_stop (h : start < stop) (hstop : stop ≤ 0xFFFFF000) :
    alignUp32 stop = alignDn start pageSize4K + pageSize4K * pagesBetween start stop := by
  rw [alignUp32_eq hstop, alignDn_page, pagesBetween, pageSize4K]
  omega

/-- The room is large enough for any module that is accepted. -/
theorem pagesBetween_le (hsize : stop - start ≤ Rd.rdVsz - pageSize4K) :
    pageSize4K * pagesBetween start stop ≤ Rd.rdVsz := by
  rw [Rd.rdVsz, pageSize4K] at hsize
  rw [Rd.rdVsz, pageSize4K, pagesBetween]
  omega

theorem MapsPages.showsModule (h : start < stop) (hsize : stop - start ≤ Rd.rdVsz - pageSize4K)
    (hmaps : MapsPages s s' (alignDn start pageSize4K) rdVirtual (pagesBetween start stop)) :
    ShowsModule s s' start stop (rdVirtual + alignRst start pageSize4K) := by
  have hroom := pagesBetween_le hsize
  refine ⟨fun v hv => ?_, fun k hk => ?_⟩
  · by_contra hout
    refine hv (hmaps.other v fun i hi heq => hout ?_)
    subst heq
    rw [pageSize4K] at hroom ⊢
    omega
  · have hdvd : pageSize4K ∣ rdVirtual := by decide
    have hsplit : rdVirtual + alignRst start pageSize4K + k =
        rdVirtual + pageSize4K * ((start % 4096 + k) / 4096) + (start % 4096 + k) % 4096 := by
      rw [alignRst_page, pageSize4K]
      omega
    have hdvd' : pageSize4K ∣ rdVirtual + pageSize4K * ((start % 4096 + k) / 4096) :=
      dvd_add hdvd (dvd_mul_right _ _)
    have hmod : (start % 4096 + k) % 4096 < pageSize4K := mod_lt _ (by decide)
    have hpage := hmaps.page ((start % 4096 + k) / 4096) (by rw [pagesBetween]; omega)
    rw [translate, hsplit, alignDn_add hdvd' hmod, alignRst_add hdvd' hmod, hpage, Option.map_some,
      alignDn_page, pageSize4K]
    congr 1
    omega

/-- What the branch for a module with the magic number leaves behind, if it returns. -/
theorem foundRd_spec (h : start < stop) (hstop : stop ≤ 0xFFFFF000)
    (hrun : foundRd tables fuel start stop s = .ok (rd, s')) :
    stop - start ≤ Rd.rdVsz - pageSize4K ∧ ShowsModule s s' start stop rd := by
  rw [foundRd, sub32_of_le h.le (by omega)] at hrun
  split_ifs at hrun with hsize
  · cases hrun
  obtain ⟨_, s₁, hmap, hpure⟩ := bind_eq_ok.1 hrun
  cases hpure
  have hroom := pagesBetween_le (not_lt.1 hsize)
  rw [alignUp32_stop h hstop] at hmap
  refine ⟨not_lt.1 hsize, MapsPages.showsModule h (not_lt.1 hsize) (mapRd_spec ?_ ?_ hmap)⟩
  · rw [← alignUp32_stop h hstop, alignUp32_eq hstop]
    omega
  · rw [rdVirtual]
    rw [Rd.rdVsz] at hroom
    omega

/-- It returns if the pages of the room can be mapped. -/
theorem foundRd_returns (h : start < stop) (hstop : stop ≤ 0xFFFFF000)
    (hsize : stop - start ≤ Rd.rdVsz - pageSize4K)
    (hfree : ∀ i, pageSize4K * i < Rd.rdVsz →
      tables (rdVirtual + pageSize4K * i) = true ∧ s.maps (rdVirtual + pageSize4K * i) = none)
    (hfuel : Rd.rdVsz / pageSize4K < fuel) :
    ∃ rd s', foundRd tables fuel start stop s = .ok (rd, s') := by
  have hroom := pagesBetween_le hsize
  rw [foundRd, sub32_of_le h.le (by omega), if_neg (not_lt.2 hsize), alignUp32_stop h hstop]
  have hlast : alignDn start pageSize4K + pageSize4K * pagesBetween start stop < 2 ^ 64 := by
    rw [← alignUp32_stop h hstop, alignUp32_eq hstop]
    omega
  have hvirt : rdVirtual + pageSize4K * pagesBetween start stop < 2 ^ 64 := by
    rw [rdVirtual]
    rw [Rd.rdVsz] at hroom
    omega
  have hpages : pagesBetween start stop < fuel :=
    lt_of_le_of_lt ((le_div_iff_mul_le (by decide)).2 (by rwa [mul_comm])) hfuel
  obtain ⟨s', hmap⟩ := mapRd_returns hlast hvirt hpages fun i hi =>
    hfree i (lt_of_lt_of_le (mul_lt_mul_of_pos_left hi (by decide)) hroom)
  exact ⟨_, s', run_ok hmap⟩

/-! ### The search -/

/-- A number can be read if all pages that it lies in are mapped. -/
theorem load_iff {v : ℕ} : (∃ x, load v n s = .ok (x, s)) ↔
    ∀ k < n, s.maps (alignDn (v + k) pageSize4K) ≠ none := by
  induction n generalizing v with
  | zero => exact iff_of_true ⟨0, rfl⟩ fun k hk => absurd hk (not_lt_zero k)
  | succ n ih =>
    have hstep : (∀ k < n + 1, s.maps (alignDn (v + k) pageSize4K) ≠ none) ↔
        s.maps (alignDn v pageSize4K) ≠ none ∧
          ∀ k < n, s.maps (alignDn (v + 1 + k) pageSize4K) ≠ none := by
      rw [Nat.forall_lt_succ_left', add_zero]
      simp only [add_assoc, add_comm 1]
    rw [hstep, ← ih, load]
    cases hmap : s.maps (alignDn v pageSize4K) with
    | none =>
      have hbyte : loadByte v s = .error (.pageFault v) := by rw [loadByte, hmap]
      rw [run_error hbyte]
      simp
    | some phys =>
      have hbyte : loadByte v s = .ok (s.ram (phys + alignRst v pageSize4K), s) := by
        rw [loadByte, hmap]
      rw [run_ok hbyte]
      constructor
      · rintro ⟨x, hx⟩
        obtain ⟨y, s1, hy, -⟩ := bind_eq_ok.1 hx
        obtain ⟨-, rfl⟩ := load_ok hy
        exact ⟨by simp, y, hy⟩
      · rintro ⟨-, x, hx⟩
        exact ⟨_, run_ok hx⟩

/-- The loop comes from module `i`, whose descriptor is at `mod`, to module `j`: the modules before
that do not have the magic number. -/
inductive Passes (tables : ℕ → Bool) (mbi : ℕ) : ℕ → ℕ → Boot ρ → ℕ → ℕ → Boot ρ → Prop
  | here {i mod : ℕ} {s : Boot ρ} : Passes tables mbi i mod s i mod s
  | next {i mod j mod' cnt start mapped magic : ℕ} {s s₁ s₂ s' : Boot ρ}
      (counted : load (mbi + offModsCnt) 4 s = .ok (cnt, s)) (lt : i < cnt)
      (start_eq : load (mod + offStart) 4 s = .ok (start, s))
      (window : mbootMap tables start s = .ok (mapped, s₁))
      (magic_eq : load mapped 4 s₁ = .ok (magic, s₁)) (other : magic ≠ Rd.rdMagic)
      (unmapped : mbootUnmap mapped s₁ = .ok ((), s₂))
      (rest : Passes tables mbi (i + 1) (mod + modSize) s₂ j mod' s') :
      Passes tables mbi i mod s j mod' s'

variable {mbi i j mod mod' mapped bx : ℕ}

/-- A round of the loop for each module that is passed. -/
theorem Passes.findMods_eq (h : Passes tables mbi i mod s j mod' s') (fuel : ℕ) :
    ∃ rounds, i + rounds = j ∧
      findMods tables mbi (fuel + rounds) i mod s = findMods tables mbi fuel j mod' s' := by
  induction h with
  | here => exact ⟨0, rfl, rfl⟩
  | next counted lt start_eq window magic_eq other unmapped _ ih =>
    obtain ⟨rounds, hsum, heq⟩ := ih
    refine ⟨rounds + 1, by omega, ?_⟩
    rw [← heq, ← add_assoc, findMods, run_ok counted, if_pos lt, run_ok start_eq, run_ok window,
      run_ok magic_eq, if_neg other, run_ok unmapped]

/-- The search of `mboot_find_rd` gets to module `j` of the array, whose descriptor is at `mod`. -/
structure Arrives (tables : ℕ → Bool) (bx : ℕ) (s : Boot ρ) (mbi j mod : ℕ) (s' : Boot ρ) :
    Prop where
  modules : ∃ flags cnt addr base, ∃ s₁ s₂ : Boot ρ,
    mbootMap tables bx s = .ok (mbi, s₁) ∧
    load (mbi + offFlags) 4 s₁ = .ok (flags, s₁) ∧ flags &&& mbootFlMods ≠ 0 ∧
    load (mbi + offModsCnt) 4 s₁ = .ok (cnt, s₁) ∧ cnt ≠ 0 ∧
    load (mbi + offModsAddr) 4 s₁ = .ok (addr, s₁) ∧
    mbootMap tables addr s₁ = .ok (base, s₂) ∧ Passes tables mbi 0 base s₂ j mod s'

/-- Module `j` is `[start, stop)`, its first page has been mapped into the window at `mapped`, and
the magic number read there is that of a RAM disk. -/
structure Matches (tables : ℕ → Bool) (mbi j mod : ℕ) (s : Boot ρ) (start stop mapped : ℕ)
    (s' : Boot ρ) : Prop where
  counted : ∃ cnt, load (mbi + offModsCnt) 4 s = .ok (cnt, s) ∧ j < cnt
  start_eq : load (mod + offStart) 4 s = .ok (start, s)
  window : mbootMap tables start s = .ok (mapped, s')
  magic : load mapped 4 s' = .ok (Rd.rdMagic, s')
  stop_eq : load (mod + offEnd) 4 s' = .ok (stop, s')

/-- From there on, only the rest of the branch for the RAM disk is left. -/
theorem Arrives.findRd_eq (h : Arrives tables bx s mbi j mod s₁)
    (hmod : Matches tables mbi j mod s₁ start stop mapped s') (fuel : ℕ) :
    mbootFindRd tables (fuel + 1 + j) mbootMagic bx s =
      (do let _ ← load (mapped + offNumFiles) 4
          foundRd tables fuel start stop : Prog (Boot ρ) ℕ) s' := by
  obtain ⟨flags, cnt, addr, base, t₁, t₂, hmbi, hflags, hmods, hcnt, hpos, haddr, hbase, hpass⟩ :=
    h.modules
  obtain ⟨rounds, hsum, heq⟩ := hpass.findMods_eq (fuel + 1)
  obtain rfl : rounds = j := by omega
  obtain ⟨n, hn, hlt⟩ := hmod.counted
  have hfind : findMods tables mbi (fuel + 1 + rounds) 0 base t₂ =
      (do let _ ← load (mapped + offNumFiles) 4
          let rd ← foundRd tables fuel start stop
          pure (.inl rd) : Prog (Boot ρ) (ℕ ⊕ ℕ)) s' := by
    rw [heq, findMods, run_ok hn, if_pos hlt, run_ok hmod.start_eq, run_ok hmod.window,
      run_ok hmod.magic, if_pos rfl, run_ok hmod.stop_eq]
  -- what `findModules` does with the result of the loop
  obtain ⟨rest, hmodules, hrest⟩ : ∃ rest : ℕ ⊕ ℕ → Prog (Boot ρ) (Option ℕ),
      findModules tables (fuel + 1 + rounds) mbi t₁ =
        (findMods tables mbi (fuel + 1 + rounds) 0 base >>= rest) t₂ ∧
      ∀ rd, rest (.inl rd) = pure (some rd) := by
    rw [findModules, run_ok hflags, if_neg hmods, run_ok hcnt, if_neg hpos, run_ok haddr,
      run_ok hbase]
    exact ⟨_, rfl, fun _ => rfl⟩
  rw [mbootFindRd, if_neg (not_not.2 rfl), run_ok hmbi, run_bind, hmodules, run_bind, hfind]
  simp only [run_bind]
  cases load (mapped + offNumFiles) 4 s' with
  | error e => rfl
  | ok r =>
    obtain ⟨x, t⟩ := r
    cases hrd : foundRd tables fuel start stop t with
    | error e => simp [hrd]
    | ok r => simp [hrd, hrest]

/-- `mboot_map` leaves the pointer at a page. -/
theorem mbootMap_aligned {a v : ℕ} (hdvd : pageSize4K ∣ s.pgTemp)
    (h : mbootMap tables a s = .ok (v, s')) : pageSize4K ∣ s'.pgTemp := by
  have hp : pageSize4K ∣ s.nextPage := freePage_dvd _ _ _ hdvd
  by_cases hcan : CanMap tables s
  · rw [mbootMap_of_canMap a hcan] at h
    cases h
    exact hp
  · rw [mbootMap_of_not a hcan] at h
    cases h
    exact hp

theorem Passes.aligned (h : Passes tables mbi i mod s j mod' s') (hdvd : pageSize4K ∣ s.pgTemp) :
    pageSize4K ∣ s'.pgTemp := by
  induction h with
  | here => exact hdvd
  | next _ _ _ window _ _ unmapped _ ih =>
    have hwindow := mbootMap_aligned hdvd window
    cases unmapped
    exact ih hwindow

theorem Arrives.aligned (h : Arrives tables bx s mbi j mod s') (hdvd : pageSize4K ∣ s.pgTemp) :
    pageSize4K ∣ s'.pgTemp := by
  obtain ⟨_, _, _, _, _, _, hmbi, -, -, -, -, -, hbase, hpass⟩ := h.modules
  exact hpass.aligned (mbootMap_aligned (mbootMap_aligned hdvd hmbi) hbase)

/-- What `mboot_find_rd` reads of the header, up to the number of files, is in the page that is mapped
for it, or the page behind that happens to be mapped. -/
def HeaderVisible (s : Boot ρ) (start mapped : ℕ) : Prop :=
  start % pageSize4K + 12 ≤ pageSize4K ∨ s.maps (alignDn mapped pageSize4K + pageSize4K) ≠ none

theorem numFiles_iff (hdvd : pageSize4K ∣ s₁.pgTemp)
    (hwindow : mbootMap tables start s₁ = .ok (mapped, s)) (hmapped : mapped ≠ 0) :
    (∃ x, load (mapped + offNumFiles) 4 s = .ok (x, s)) ↔ HeaderVisible s start mapped := by
  obtain ⟨⟨page, hpage, rfl, hmap⟩, -⟩ := mbootMap_shows hdvd hwindow hmapped
  have hoff : start % pageSize4K < pageSize4K := mod_lt _ (by decide)
  rw [load_iff, HeaderVisible, alignDn_add hpage hoff]
  constructor
  · intro h
    by_contra hout
    rw [not_or, not_not] at hout
    refine h 3 (by decide) ?_
    have hover : page + start % pageSize4K + offNumFiles + 3 =
        page + pageSize4K + (start % pageSize4K + 11 - pageSize4K) := by
      rw [offNumFiles]
      omega
    rw [hover, alignDn_add (Nat.dvd_add_self_right.2 hpage) (by rw [pageSize4K] at *; omega)]
    exact hout.2
  · intro h k hk
    rw [offNumFiles]
    by_cases hin : start % pageSize4K + 8 + k < pageSize4K
    · rw [add_assoc, add_assoc, ← add_assoc (start % pageSize4K), alignDn_add hpage hin, hmap]
      simp
    · have hover : page + start % pageSize4K + 8 + k =
          page + pageSize4K + (start % pageSize4K + 8 + k - pageSize4K) := by omega
      rw [hover, alignDn_add (Nat.dvd_add_self_right.2 hpage) (by rw [pageSize4K] at *; omega)]
      exact h.resolve_left (by omega)

/-- **The RAM disk window is exact** for every module that is found and fits, exactly if the header
is visible in the window of the search. -/
theorem rd_window_exact (h : Arrives tables bx s mbi j mod s₁)
    (hmod : Matches tables mbi j mod s₁ start stop mapped s') (hdvd : pageSize4K ∣ s.pgTemp)
    (hmapped : mapped ≠ 0) (hlt : start < stop) (hstop : stop ≤ 0xFFFFF000)
    (hsize : stop - start ≤ Rd.rdVsz - pageSize4K)
    (hfree : ∀ i, pageSize4K * i < Rd.rdVsz →
      tables (rdVirtual + pageSize4K * i) = true ∧ s'.maps (rdVirtual + pageSize4K * i) = none)
    (hfuel : Rd.rdVsz / pageSize4K < fuel) :
    (∃ rd s'', mbootFindRd tables (fuel + 1 + j) mbootMagic bx s = .ok (rd, s'') ∧
      ShowsModule s' s'' start stop rd) ↔ HeaderVisible s' start mapped := by
  rw [h.findRd_eq hmod, ← numFiles_iff (h.aligned hdvd) hmod.window hmapped]
  constructor
  · rintro ⟨rd, s'', hrun, -⟩
    obtain ⟨x, s2, hload, -⟩ := bind_eq_ok.1 hrun
    obtain ⟨-, rfl⟩ := load_ok hload
    exact ⟨x, hload⟩
  · rintro ⟨x, hload⟩
    obtain ⟨rd, s'', hrun⟩ := foundRd_returns hlt hstop hsize hfree hfuel
    exact ⟨rd, s'', (run_ok hload).trans hrun, (foundRd_spec hlt hstop hrun).2⟩

/-- The module array at `0x2000` has one module, `[0x3000 + low, 0x4900)`, that begins with the magic
number. -/
def oneRd (low : ℕ) : Boot Unit where
  ram a := if a = 0x1000 then 8 else if a = 0x1014 then 1 else if a = 0x1019 then 0x20
    else if a = 0x2000 then UInt8.ofNat low else if a = 0x2001 then 0x30 + UInt8.ofNat (low / 256)
    else if a = 0x2005 then 0x49
    else if a = 0x3000 + low then 0x52 else if a = 0x3001 + low then 0x44
    else if a = 0x3002 + low then 0x52 else if a = 0x3003 + low then 0x44 else 0
  maps _ := none
  pgTemp := mbootVtempRegStart
  globals := []
  pmem := ()

/-- The states behind the mapping of the info structure, of the array and of the module. -/
def oneRdInfo (low : ℕ) : Boot Unit := (mbootMap (fun _ => true) 0x1000).exec (oneRd low)

def oneRdArray (low : ℕ) : Boot Unit := (mbootMap (fun _ => true) 0x2000).exec (oneRdInfo low)

def oneRdWindow (low : ℕ) : Boot Unit :=
  (mbootMap (fun _ => true) (0x3000 + low)).exec (oneRdArray low)

theorem load_of_value {v x : ℕ} (h : (load v n).value s = some x) : load v n s = .ok (x, s) := by
  have hrun := eq_ok_of_value h
  obtain ⟨-, heq⟩ := load_ok hrun
  rwa [heq] at hrun

theorem rd_window_exact_small : ∃ rd s',
    mbootFindRd (fun _ => true) (0x8001 + 1 + 0) mbootMagic 0x1000 (oneRd 0x800) = .ok (rd, s') ∧
      ShowsModule (oneRdWindow 0x800) s' 0x3800 0x4900 rd := by
  have harrives : Arrives (fun _ => true) 0x1000 (oneRd 0x800) 0xA0000000 0 0xA0001000
      (oneRdArray 0x800) :=
    ⟨8, 1, 0x2000, 0xA0001000, oneRdInfo 0x800, oneRdArray 0x800, eq_ok_of_value (by decide),
      load_of_value (by decide), by decide, load_of_value (by decide), by decide,
      load_of_value (by decide), eq_ok_of_value (by decide), .here⟩
  have hmatches : Matches (fun _ => true) 0xA0000000 0 0xA0001000 (oneRdArray 0x800) 0x3800 0x4900
      0xA0002800 (oneRdWindow 0x800) :=
    ⟨⟨1, load_of_value (by decide), by decide⟩, load_of_value (by decide),
      eq_ok_of_value (by decide), load_of_value (by decide), load_of_value (by decide)⟩
  have hfree : ∀ i, pageSize4K * i < Rd.rdVsz →
      true = true ∧ (oneRdWindow 0x800).maps (rdVirtual + pageSize4K * i) = none := by
    intro i _
    have hmaps : (oneRdWindow 0x800).maps = update (update (update (fun _ => none) 0xA0000000
        (some 0x1000)) 0xA0001000 (some 0x2000)) 0xA0002000 (some 0x3000) := rfl
    have hne : ∀ p, p < rdVirtual → rdVirtual + pageSize4K * i ≠ p := fun p hp => by omega
    rw [hmaps, update_of_ne (hne _ (by decide)), update_of_ne (hne _ (by decide)),
      update_of_ne (hne _ (by decide))]
    exact ⟨rfl, rfl⟩
  exact (rd_window_exact harrives hmatches (by decide) (by decide) (by decide) (by decide)
    (by decide) hfree (by decide)).2 (.inl (by decide))

/-- A header that ends behind its first page: the search faults, although the magic number has been
read. -/
theorem rd_header_faults :
    Matches (fun _ => true) 0xA0000000 0 0xA0001000 (oneRdArray 0xFFA) 0x3FFA 0x4900 0xA0002FFA
      (oneRdWindow 0xFFA) ∧
    mbootFindRd (fun _ => true) (0x8001 + 1 + 0) mbootMagic 0x1000 (oneRd 0xFFA) =
      .error (.pageFault 0xA0003002) := by
  refine ⟨⟨⟨1, load_of_value (by decide), by decide⟩, load_of_value (by decide),
      eq_ok_of_value (by decide), load_of_value (by decide), load_of_value (by decide)⟩, ?_⟩
  exact eq_error_of_halted (by decide)

end Tachyon.Mboot
