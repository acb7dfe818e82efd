import Tachyon.Pmem.Ownership

/-!
# The pages that a reservation misses

After each round over the list of regions `pmem_reserve` moves on by a page.  Where a round has left
one region at the start of another one that comes earlier in the list, that page belongs to a region
and is not visited.

* `wrongOrder`, `skipped`: the pages for which this happens, told from the list of regions alone;
* `walk_mem_iff`: a pass visits exactly the other pages of the range that belong to a region;
* `pmem_reserve_iff`: when every page of the range is taken after a reservation;
* `pmem_reserve_skips`: a page inside of the range that `pmem_alloc` hands out afterwards.
-/

namespace Tachyon.Pmem

open Prog List Option Nat

variable {σ : Type} {r q : Region σ} {regs regs' regs'' : List (Region σ)} {ps : List ℕ}
  {top fuel cur addr length p : ℕ} {c : Option ℕ}

/-! ### Pages of a region -/

/-- The page `p` belongs to the region. -/
def Region.Has (r : Region σ) (p : ℕ) : Prop := ∃ i < r.bmap.bits, p = r.page i

/-- The address behind the last page. -/
def Region.stop (r : Region σ) : ℕ := r.page r.bmap.bits

theorem Region.Ok.contains_iff_has (hr : r.Ok) (hdvd : pmemPagesize ∣ p) :
    pmemRegContains r p = true ↔ r.Has p := by
  constructor
  · intro hc
    obtain ⟨hpage, hbit⟩ := hr.page_regbit hdvd hc
    exact ⟨_, hbit, hpage.symm⟩
  · rintro ⟨i, hi, rfl⟩
    exact hr.contains_page hi

/-- The first of two pages ends the region, or the second one is in it too. -/
theorem Region.Has.next (h : r.Has p) : r.stop = p + pmemPagesize ∨ r.Has (p + pmemPagesize) := by
  obtain ⟨i, hi, rfl⟩ := h
  have hpage : r.page i + pmemPagesize = r.page (i + 1) := by
    simp only [Region.page, mul_add, mul_one, add_assoc]
  rcases lt_or_ge (i + 1) r.bmap.bits with hlt | hge
  · exact .inr ⟨i + 1, hlt, hpage⟩
  · refine .inl ?_
    rw [hpage, Region.stop, show r.bmap.bits = i + 1 by omega]

/-- The second of two pages starts the region, or the first one is in it too. -/
theorem Region.Has.previous (h : r.Has (p + pmemPagesize)) :
    r.start = p + pmemPagesize ∨ r.Has p := by
  obtain ⟨i, hi, heq⟩ := h
  cases i with
  | zero => exact .inl heq.symm
  | succ i =>
    refine .inr ⟨i, by omega, ?_⟩
    simp only [Region.page, mul_add, mul_one] at heq ⊢
    omega

theorem Region.Has.start_le (h : r.Has p) : r.start ≤ p := by
  obtain ⟨i, -, rfl⟩ := h
  exact le_add_right _ _

theorem Region.has_start (h : 0 < r.bmap.bits) : r.Has r.start := ⟨0, h, rfl⟩

theorem Region.has_last (h : 0 < r.bmap.bits) (hp : r.stop = p + pmemPagesize) : r.Has p := by
  refine ⟨r.bmap.bits - 1, by omega, ?_⟩
  obtain ⟨n, hn⟩ : ∃ n, r.bmap.bits = n + 1 := ⟨r.bmap.bits - 1, by omega⟩
  rw [Region.stop, hn] at hp
  rw [hn]
  simp only [Region.page, mul_add, mul_one, Nat.add_sub_cancel] at hp ⊢
  omega

/-! ### The order of the regions -/

/-- A region starts at `c`, and a later one of the list ends there. -/
def wrongOrder : List (Region σ) → ℕ → Bool
  | [], _ => false
  | r :: regs, c =>
    decide (0 < r.bmap.bits ∧ r.start = c ∧ ∃ q ∈ regs, 0 < q.bmap.bits ∧ q.stop = c) ||
      wrongOrder regs c

/-- Page `n` of a range that starts at `addr` is left out: it is in the wrong order and behind a page
that is visited. -/
def skipped (regs : List (Region σ)) (addr : ℕ) : ℕ → Bool
  | 0 => false
  | n + 1 => wrongOrder regs (addr + pmemPagesize * (n + 1)) && !skipped regs addr n

theorem wrongOrder_cons {c : ℕ} : wrongOrder (r :: regs) c = true ↔
    (0 < r.bmap.bits ∧ r.start = c ∧ ∃ q ∈ regs, 0 < q.bmap.bits ∧ q.stop = c) ∨
      wrongOrder regs c = true := by
  rw [wrongOrder, Bool.or_eq_true, decide_eq_true_iff]

/-- The two regions. -/
theorem exists_of_wrongOrder {c : ℕ} (h : wrongOrder regs c = true) :
    (∃ r ∈ regs, 0 < r.bmap.bits ∧ r.start = c) ∧ ∃ q ∈ regs, 0 < q.bmap.bits ∧ q.stop = c := by
  induction regs with
  | nil => cases h
  | cons r regs ih =>
    rcases wrongOrder_cons.1 h with ⟨h0, hs, q, hq, hstop⟩ | h
    · exact ⟨⟨r, mem_cons_self, h0, hs⟩, q, mem_cons_of_mem _ hq, hstop⟩
    · obtain ⟨⟨r', hr', hs⟩, q, hq, hstop⟩ := ih h
      exact ⟨⟨r', mem_cons_of_mem _ hr', hs⟩, q, mem_cons_of_mem _ hq, hstop⟩

/-! ### One round -/

theorem walkRegion_has (hr : r.Ok) (hdvd : pmemPagesize ∣ cur) (hlt : cur < top)
    (h : walkRegion top fuel r cur = some (ps, c)) :
    ∃ n, (∀ p, p ∈ ps ↔ ∃ i < n, p = cur + pmemPagesize * i) ∧
      (∀ i < n, r.Has (cur + pmemPagesize * i)) ∧
      (∀ d, c = some d → d = cur + pmemPagesize * n ∧ ¬r.Has d) ∧
      (c = none → top ≤ cur + pmemPagesize * n) := by
  induction fuel generalizing cur ps c with
  | zero => cases h
  | succ fuel ih =>
    unfold walkRegion at h
    by_cases hc : pmemRegContains r cur = true
    · have hhas := (hr.contains_iff_has hdvd).1 hc
      have hnext := hr.add64_page hc
      have hdvd' : pmemPagesize ∣ cur + pmemPagesize := hnext ▸ dvd_add64_page hdvd
      rw [if_pos hc, hnext] at h
      split_ifs at h with htop
      · cases h
        refine ⟨1, fun p => by simp, fun i hi => ?_, by simp, fun _ => by simpa using htop⟩
        obtain rfl : i = 0 := by omega
        simpa using hhas
      · obtain ⟨⟨qs, d⟩, hw, heq⟩ := map_eq_some_iff.1 h
        obtain ⟨rfl, rfl⟩ := heq
        obtain ⟨n, hmem, hpage, hsome, hnone⟩ := ih hdvd' (by omega) hw
        have hshift : ∀ i, cur + pmemPagesize + pmemPagesize * i = cur + pmemPagesize * (i + 1) :=
          fun i => by rw [mul_add, mul_one]; omega
        simp only [hshift] at hmem hpage hsome hnone
        refine ⟨n + 1, fun p => ?_, ?_, hsome, hnone⟩
        · rw [mem_cons, hmem, exists_lt_succ_left, mul_zero, add_zero]
        · exact forall_lt_succ_left.2 ⟨hhas, hpage⟩
    · rw [if_neg hc] at h
      obtain ⟨rfl, rfl⟩ := h
      refine ⟨0, by simp, by simp, fun d hd => ?_, by simp⟩
      cases hd
      exact ⟨by simp, fun hhas => hc ((hr.contains_iff_has hdvd).2 hhas)⟩

/-- A round over the list of regions visits `n` pages from `cur` on.  No two of them are in the wrong
order, and if the page behind them is in a region, it is. -/
structure Round (regs : List (Region σ)) (top cur n : ℕ) (ps : List ℕ) (c : Option ℕ) : Prop where
  mem : ∀ p, p ∈ ps ↔ ∃ i < n, p = cur + pmemPagesize * i
  page : ∀ i < n, InRegions regs (cur + pmemPagesize * i)
  inner : ∀ i, i + 1 < n → wrongOrder regs (cur + pmemPagesize * (i + 1)) = false
  next : ∀ d, c = some d → d = cur + pmemPagesize * n ∧
    (InRegions regs d → 0 < n ∧ wrongOrder regs d = true)
  stop : c = none → top ≤ cur + pmemPagesize * n

theorem inRegions_cons : InRegions (r :: regs) p ↔ r.Has p ∨ InRegions regs p := by
  simp [InRegions, Region.Has]

theorem add_page_mul (a i : ℕ) :
    a + pmemPagesize * i + pmemPagesize = a + pmemPagesize * (i + 1) := by
  rw [mul_add, mul_one, add_assoc]

variable {k n d m : ℕ}

/-- The pages of a round are not skipped if the first one is not. -/
theorem Round.not_skipped (h : Round regs top (addr + pmemPagesize * k) n ps c)
    (hk : skipped regs addr k = false) : ∀ i < n, skipped regs addr (k + i) = false := by
  intro i hi
  cases i with
  | zero => exact hk
  | succ i =>
    have := h.inner i hi
    rw [add_assoc, ← mul_add] at this
    rw [← add_assoc, skipped, add_assoc, this, Bool.false_and]

/-- The page behind a round is skipped if it belongs to a region. -/
theorem Round.skipped_next
    (h : Round regs top (addr + pmemPagesize * k) n ps (some d)) (hk : skipped regs addr k = false)
    (hin : InRegions regs (addr + pmemPagesize * (k + n))) : skipped regs addr (k + n) = true := by
  obtain ⟨rfl, hnext⟩ := h.next d rfl
  rw [add_assoc, ← mul_add] at hnext
  obtain ⟨hpos, hwrong⟩ := hnext hin
  cases n with
  | zero => cases hpos
  | succ n =>
    rw [← add_assoc] at hwrong ⊢
    rw [skipped, hwrong, h.not_skipped hk n (by omega)]
    rfl

/-- No two pages in a row are skipped. -/
theorem skipped_succ (h : InRegions regs (addr + pmemPagesize * m) → skipped regs addr m = true) :
    skipped regs addr (m + 1) = false := by
  rw [skipped, Bool.and_eq_false_iff, Bool.not_eq_false']
  by_cases hw : wrongOrder regs (addr + pmemPagesize * (m + 1)) = true
  · obtain ⟨-, q, hq, h0, hstop⟩ := exists_of_wrongOrder hw
    rw [← add_page_mul] at hstop
    exact .inr (h ⟨q, hq, Region.has_last h0 hstop⟩)
  · exact .inl (Bool.eq_false_iff.2 hw)

variable [BitStore σ]

section

variable (hok : RegionsOk (r :: regs))
include hok

/-- A page is in one region only. -/
theorem RegionsOk.not_has (hr : r.Has p) : ¬InRegions regs p := by
  rintro ⟨q, hq, j, hj, heq⟩
  obtain ⟨i, hi, rfl⟩ := hr
  exact hok.head_page_ne hq hi hj heq

/-- The page behind one of the first region is in the right order. -/
theorem RegionsOk.wrongOrder_head (hr : r.Has p) :
    wrongOrder (r :: regs) (p + pmemPagesize) = false := by
  refine Bool.eq_false_iff.2 fun h => ?_
  rcases wrongOrder_cons.1 h with ⟨-, hs, -⟩ | h
  · have := hr.start_le
    rw [pmemPagesize] at hs
    omega
  · obtain ⟨-, q, hq, h0, hstop⟩ := exists_of_wrongOrder h
    exact hok.not_has hr ⟨q, hq, Region.has_last h0 hstop⟩

/-- The first region does not matter for the pages of the others. -/
theorem RegionsOk.wrongOrder_tail (hp : InRegions regs p) (h : wrongOrder regs p = false) :
    wrongOrder (r :: regs) p = false := by
  refine Bool.eq_false_iff.2 fun h' => ?_
  rcases wrongOrder_cons.1 h' with ⟨h0, rfl, -⟩ | h'
  · exact hok.not_has (Region.has_start h0) hp
  · rw [h] at h'
    cases h'

/-- The first region starts behind a page of another one. -/
theorem RegionsOk.wrongOrder_of_has (hp : InRegions regs p) (hr : r.Has (p + pmemPagesize)) :
    wrongOrder (r :: regs) (p + pmemPagesize) = true := by
  refine wrongOrder_cons.2 (.inl ⟨?_, ?_, ?_⟩)
  · obtain ⟨i, hi, -⟩ := hr
    omega
  · exact hr.previous.resolve_right fun h => hok.not_has h hp
  · obtain ⟨q, hq, hhas⟩ := hp
    refine ⟨q, hq, ?_, Region.Has.next hhas |>.resolve_right fun h => hok.not_has hr ⟨q, hq, h⟩⟩
    omega

/-- The first region of a round, then the others. -/
theorem Round.cons {qs us : List ℕ} (hmem : ∀ p, p ∈ qs ↔ ∃ i < n, p = cur + pmemPagesize * i)
    (hpage : ∀ i < n, r.Has (cur + pmemPagesize * i)) (hd : d = cur + pmemPagesize * n)
    (hnot : ¬r.Has d) (h : Round regs top d m us c) :
    Round (r :: regs) top cur (n + m) (qs ++ us) c := by
  have hshift : ∀ i, d + pmemPagesize * i = cur + pmemPagesize * (n + i) := fun i => by
    rw [hd, mul_add, add_assoc]
  refine ⟨fun p => ?_, fun i hi => ?_, fun i hi => ?_, fun e he => ?_, fun hc => ?_⟩
  · rw [mem_append, hmem, h.mem]
    constructor
    · rintro (⟨i, hi, rfl⟩ | ⟨i, hi, rfl⟩)
      · exact ⟨i, by omega, rfl⟩
      · exact ⟨n + i, by omega, hshift i⟩
    · rintro ⟨i, hi, rfl⟩
      rcases lt_or_ge i n with hlt | hge
      · exact .inl ⟨i, hlt, rfl⟩
      · exact .inr ⟨i - n, by omega, by rw [hshift, Nat.add_sub_cancel' hge]⟩
  · rw [inRegions_cons]
    rcases lt_or_ge i n with hlt | hge
    · exact .inl (hpage i hlt)
    · have := h.page (i - n) (by omega)
      rw [hshift, Nat.add_sub_cancel' hge] at this
      exact .inr this
  · rcases lt_or_ge i n with hlt | hge
    · rw [← add_page_mul]
      exact hok.wrongOrder_head (hpage i hlt)
    · obtain ⟨k, rfl⟩ : ∃ k, i = n + k := ⟨i - n, by omega⟩
      rw [add_assoc, ← hshift]
      exact hok.wrongOrder_tail (h.page (k + 1) (by omega)) (h.inner k (by omega))
  · obtain ⟨rfl, hin⟩ := h.next e he
    refine ⟨hshift m, fun he' => ?_⟩
    rcases inRegions_cons.1 he' with hr | hregs
    · -- the first region was left before
      cases m with
      | zero => exact absurd hr (by simpa using hnot)
      | succ m =>
        rw [← add_page_mul] at hr ⊢
        exact ⟨by omega, hok.wrongOrder_of_has (h.page m (by omega)) hr⟩
    · exact ⟨by have := (hin hregs).1; omega, wrongOrder_cons.2 (.inr (hin hregs).2)⟩
  · rw [← hshift]
    exact h.stop hc

end

theorem walkRegions_round (hok : RegionsOk regs) (hdvd : pmemPagesize ∣ cur) (hlt : cur < top)
    (h : walkRegions top fuel regs cur = some (ps, c)) : ∃ n, Round regs top cur n ps c := by
  induction regs generalizing cur ps c with
  | nil =>
    obtain ⟨rfl, rfl⟩ := h
    refine ⟨0, by simp, by simp, by simp, fun d hd => ?_, by simp⟩
    cases hd
    exact ⟨by simp, by simp [InRegions]⟩
  | cons r regs ih =>
    obtain ⟨⟨qs, d⟩, hw, h⟩ := bind_eq_some_iff.1 h
    obtain ⟨n, hmem, hpage, hsome, hnone⟩ := walkRegion_has hok.head_ok hdvd hlt hw
    cases d with
    | none =>
      obtain ⟨rfl, rfl⟩ := h
      refine ⟨n, hmem, fun i hi => inRegions_cons.2 (.inl (hpage i hi)), fun i hi => ?_, by simp,
        hnone⟩
      rw [← add_page_mul]
      exact hok.wrongOrder_head (hpage i (by omega))
    | some d =>
      obtain ⟨⟨us, e⟩, hu, heq⟩ := map_eq_some_iff.1 h
      obtain ⟨rfl, rfl⟩ := heq
      obtain ⟨-, hd, hdvd', -⟩ := (walkRegion_ordered hok.head_ok hdvd hlt hw).next d rfl
      obtain ⟨m, hround⟩ := ih hok.tail hdvd' hd hu
      exact ⟨n + m, .cons hok hmem hpage (hsome d rfl).1 (hsome d rfl).2 hround⟩

/-! ### A pass -/

/-- **A pass visits the pages of the range that belong to a region and are not skipped.** -/
theorem walk_mem_iff (hok : RegionsOk regs) (hdvd : pmemPagesize ∣ addr) :
    ∀ {fuel k : ℕ} {ps : List ℕ}, walk top fuel regs (addr + pmemPagesize * k) = some ps →
      skipped regs addr k = false → ∀ j, k ≤ j → addr + pmemPagesize * j < top →
      (addr + pmemPagesize * j ∈ ps ↔
        InRegions regs (addr + pmemPagesize * j) ∧ skipped regs addr j = false) := by
  intro fuel
  induction fuel with
  | zero => intro _ _ h; cases h
  | succ fuel ih =>
    intro k ps h hk j hkj hj
    have hcur : pmemPagesize ∣ addr + pmemPagesize * k := hdvd.add (dvd_mul_right _ _)
    have hpos : 0 < pmemPagesize := by decide
    have hlt : addr + pmemPagesize * k < top :=
      lt_of_le_of_lt (Nat.add_le_add_left (Nat.mul_le_mul_left _ hkj) _) hj
    have htop := walk_top hok.ok hcur hlt h
    rw [walk, if_pos hlt] at h
    obtain ⟨⟨qs, d⟩, hw, h⟩ := bind_eq_some_iff.1 h
    obtain ⟨n, hround⟩ := walkRegions_round hok hcur hlt hw
    have hshift : ∀ i, addr + pmemPagesize * k + pmemPagesize * i = addr + pmemPagesize * (k + i) :=
      fun i => by rw [mul_add, add_assoc]
    have hinj : ∀ a b, addr + pmemPagesize * a = addr + pmemPagesize * b → a = b := fun a b hab =>
      Nat.eq_of_mul_eq_mul_left hpos (Nat.add_left_cancel hab)
    -- the pages of the round
    have hqs : addr + pmemPagesize * j ∈ qs ↔ j < k + n := by
      rw [hround.mem]
      constructor
      · rintro ⟨i, hi, heq⟩
        rw [hshift] at heq
        have := hinj _ _ heq
        omega
      · intro hjn
        exact ⟨j - k, by omega, by rw [hshift, Nat.add_sub_cancel' hkj]⟩
    have hin : j < k + n →
        InRegions regs (addr + pmemPagesize * j) ∧ skipped regs addr j = false := fun hjn => by
      have hp := hround.page (j - k) (by omega)
      have hs := hround.not_skipped hk (j - k) (by omega)
      rw [hshift, Nat.add_sub_cancel' hkj] at hp
      rw [Nat.add_sub_cancel' hkj] at hs
      exact ⟨hp, hs⟩
    cases d with
    | none =>
      cases h
      have hstop := hround.stop rfl
      rw [hshift] at hstop
      have hjn : j < k + n :=
        Nat.lt_of_mul_lt_mul_left (Nat.lt_of_add_lt_add_left (lt_of_lt_of_le hj hstop))
      exact ⟨fun _ => hin hjn, fun _ => hqs.2 hjn⟩
    | some d =>
      obtain ⟨us, hu, rfl⟩ := map_eq_some_iff.1 h
      have hd := (hround.next d rfl).1
      rw [hshift] at hd
      have hdlt := ((walkRegions_ordered hok.ok hcur hlt hw).next d rfl).2.1
      have hnext : add64 d pmemPagesize = addr + pmemPagesize * (k + n + 1) := by
        rw [add64_of_lt (by omega), hd, add_page_mul]
      rw [hnext] at hu
      rw [mem_append, hqs]
      have hskip := skipped_succ (hround.skipped_next hk)
      rcases lt_trichotomy j (k + n) with hjn | rfl | hjn
      · exact ⟨fun _ => hin hjn, fun _ => .inl hjn⟩
      · -- the page between this round and the next one
        have hdvd' : pmemPagesize ∣ addr + pmemPagesize * (k + n + 1) :=
          hdvd.add (dvd_mul_right _ _)
        constructor
        · rintro (hlt' | hus)
          · exact absurd hlt' (lt_irrefl _)
          · have := ((walk_ordered hok.ok hdvd' hu).1 _ hus).1
            rw [← add_page_mul] at this
            omega
        · rintro ⟨hp, hs⟩
          rw [hround.skipped_next hk hp] at hs
          cases hs
      · rw [← ih hu hskip j (by omega) hj]
        exact or_iff_right (by omega)

/-! ### Reservations -/

/-- Every page of the range that belongs to a region is taken. -/
def Honoured (addr length : ℕ) (regs : List (Region σ)) : Prop :=
  ∀ p, InRange addr length p → InRegions regs p → p ∈ taken regs

/-- The pages of a range that `pmem_reserve` does not visit: all of them if the end of the range
wraps around. -/
def Missed (regs : List (Region σ)) (addr length p : ℕ) : Prop :=
  2 ^ 64 ≤ addr + length ∨ ∃ n, p = addr + pmemPagesize * n ∧ skipped regs addr n = true

/-- One call that releases no page of the range. -/
inductive Later (addr length : ℕ) : List (Region σ) → List (Region σ) → Prop
  | alloc {regs regs' : List (Region σ)} {fuel n a : ℕ} {align : ℤ} (ok : AlignOk align)
      (call : pmemAlloc fuel n align regs = .ok (a, regs')) : Later addr length regs regs'
  | reserve {regs regs' : List (Region σ)} {fuel start n : ℕ} {done : Bool}
      (call : pmemReserve fuel start n regs = .ok (done, regs')) : Later addr length regs regs'
  | free {regs : List (Region σ)} {a n : ℕ} (holds : Holds regs a n)
      (taken : ∀ p ∈ pagesOf a n, p ∈ taken regs)
      (outside : ∀ p ∈ pagesOf a n, ¬InRange addr length p) :
      Later addr length regs (pmemFree a n regs)

/-- No later `pmem_alloc` returns a block with a page of the range. -/
def KeptOut (addr length : ℕ) (regs : List (Region σ)) : Prop :=
  ∀ regs', Relation.ReflTransGen (Later addr length) regs regs' →
    ∀ fuel n a (align : ℤ) regs'', AlignOk align →
      pmemAlloc fuel n align regs' = .ok (a, regs'') → ∀ p ∈ pagesOf a n, ¬InRange addr length p

theorem MarkedAll.inRegions_iff {v : Bool} (hm : MarkedAll v ps regs regs') :
    InRegions regs' p ↔ InRegions regs p := by
  refine ⟨?_, fun h => h.marked hm⟩
  rintro ⟨r', hr', i, hi, rfl⟩
  obtain ⟨r, hr, hrr⟩ := hm.exists_of_mem_right hr'
  exact ⟨r, hr, i, hrr.bits ▸ hi, hrr.page i⟩

/-- A page that is taken stays taken. -/
theorem Honoured.marked (h : Honoured addr length regs) (hm : MarkedAll true ps regs regs')
    (hps : ∀ p ∈ ps, InRegions regs p) : Honoured addr length regs' := fun p hp hin =>
  (hm.taken_true hps).2 (.inr (h p hp (hm.inRegions_iff.1 hin)))

/-- The pages that a successful reservation marks. -/
theorem reserve_mem_iff (hok : RegionsOk regs) (haddr : addr < 2 ^ 64) (hlen : length < 2 ^ 64)
    (h : pmemReserve fuel addr length regs = .ok (true, regs')) (hp : InRange addr length p)
    (hin : InRegions regs p) :
    p ∈ reservePages fuel addr length regs ↔ ¬Missed regs addr length p := by
  obtain ⟨hdvd, ⟨hdone, -⟩ | ⟨-, regs1, b, hcheck, -⟩⟩ := pmemReserve_cases h
  · cases hdone
  obtain ⟨rfl, hwalk⟩ := reservePass_check hok hdvd hcheck
  obtain ⟨ps, hps, -⟩ := hwalk rfl
  have hpages : reservePages fuel addr length regs1 = ps := by
    rw [reservePages, hps]
    rfl
  rw [hpages]
  by_cases hwrap : 2 ^ 64 ≤ addr + length
  · -- the pass ends before its first page
    refine ⟨fun hmem => ?_, fun hno => absurd (.inl hwrap) hno⟩
    have := (walk_ordered hok.ok hdvd hps).1 p hmem
    have htop : add64 addr length ≤ addr := by
      rw [add64]
      omega
    omega
  · have hpd : pmemPagesize ∣ p := by
      obtain ⟨r, hr, i, hi, rfl⟩ := hin
      exact (hok.ok r hr).page_dvd i
    obtain ⟨n, rfl⟩ : ∃ n, p = addr + pmemPagesize * n := by
      obtain ⟨n, hn⟩ := dvd_sub hpd hdvd
      exact ⟨n, by have := hp.1; omega⟩
    rw [add64_of_lt (by omega)] at hps
    rw [walk_mem_iff hok hdvd hps rfl n (zero_le _) hp.2]
    have hmissed : Missed regs1 addr length (addr + pmemPagesize * n) ↔
        skipped regs1 addr n = true := by
      refine ⟨?_, fun hs => .inr ⟨n, rfl, hs⟩⟩
      rintro (hw | ⟨m, hm, hs⟩)
      · exact absurd hw hwrap
      · rwa [show n = m from Nat.eq_of_mul_eq_mul_left (by decide) (Nat.add_left_cancel hm)]
    rw [hmissed, Bool.not_eq_true]
    exact and_iff_right hin

section Exact

variable [ExactBits σ]

section

variable (hok : RegionsOk regs) (h : Honoured addr length regs)
include hok h

theorem Later.honoured (hstep : Later addr length regs regs')
    : RegionsOk regs' ∧ Honoured addr length regs' := by
  cases hstep with
  | alloc ok call =>
    obtain ⟨hh, hm, -⟩ := pmemAlloc_spec hok ok call
    exact ⟨hok.marked hm, h.marked hm fun p hp => hm.inRegions_iff.1 (hh.inRegions hp)⟩
  | reserve call =>
    rcases pmemReserve_spec hok call with ⟨-, rfl⟩ | ⟨-, hm, -, hpages⟩
    · exact ⟨hok, h⟩
    · exact ⟨hok.marked hm, h.marked hm fun p hp => (hpages p hp).2.2.1⟩
  | free holds taken outside =>
    have hm := pmemFree_spec hok holds taken
    refine ⟨hok.marked hm, fun p hp hin => hm.taken_false.2 ⟨fun hmem => outside p hmem hp, ?_⟩⟩
    exact h p hp (hm.inRegions_iff.1 hin)

theorem Honoured.run (hrun : Relation.ReflTransGen (Later addr length) regs regs') :
    RegionsOk regs' ∧ Honoured addr length regs' := by
  induction hrun with
  | refl => exact ⟨hok, h⟩
  | tail _ hstep ih => exact hstep.honoured ih.1 ih.2

/-- What is taken is not allocated. -/
theorem Honoured.keptOut :
    KeptOut addr length regs := by
  intro regs' hrun fuel n a align regs'' ha hcall p hp hrange
  obtain ⟨hok', h'⟩ := h.run hok hrun
  obtain ⟨hh, hm, hfree⟩ := pmemAlloc_spec hok' ha hcall
  exact hfree p hp (h' p hrange (hm.inRegions_iff.1 (hh.inRegions hp)))

end

/-- **A reservation is honoured** exactly if the pages that it misses were taken before: those in a
region that starts where a later one of the list ends, and all pages if the range wraps around. -/
theorem pmem_reserve_iff (hok : RegionsOk regs) (haddr : addr < 2 ^ 64) (hlen : length < 2 ^ 64)
    (h : pmemReserve fuel addr length regs = .ok (true, regs')) :
    Honoured addr length regs' ∧ KeptOut addr length regs' ↔
      ∀ p, InRange addr length p → InRegions regs p → Missed regs addr length p →
        p ∈ taken regs := by
  rcases pmemReserve_spec hok h with ⟨hdone, -⟩ | ⟨-, hm, -, hpages⟩
  · cases hdone
  have htaken : ∀ p, p ∈ taken regs' ↔ p ∈ reservePages fuel addr length regs ∨ p ∈ taken regs :=
    fun p => hm.taken_true fun q hq => (hpages q hq).2.2.1
  constructor
  · rintro ⟨hh, -⟩ p hp hin hmissed
    refine ((htaken p).1 (hh p hp (hm.inRegions_iff.2 hin))).resolve_left fun hmem => ?_
    exact (reserve_mem_iff hok haddr hlen h hp hin).1 hmem hmissed
  intro hmet
  have hh : Honoured addr length regs' := fun p hp hin => by
    rw [hm.inRegions_iff] at hin
    rw [htaken, reserve_mem_iff hok haddr hlen h hp hin]
    by_cases hmissed : Missed regs addr length p
    · exact .inr (hmet p hp hin hmissed)
    · exact .inl hmissed
  exact ⟨hh, hh.keptOut (hok.marked hm)⟩

end Exact

/-- A region of two pages, and the page in front of it. -/
def upperRegion : Region (ℕ → Bool) := ⟨⟨fun _ => false, 2, 0, 0⟩, 0x2000, 0x2000⟩

def lowerRegion : Region (ℕ → Bool) := ⟨⟨fun _ => false, 1, 0, 0⟩, 0x1000, 0x1000⟩

theorem twoRegions_apart : lowerRegion.Apart upperRegion := by
  rintro a ⟨h1, h2⟩
  simp only [pmemRegContains, Bool.and_eq_true, decide_eq_true_eq] at h1 h2
  have h3 : add64 lowerRegion.start lowerRegion.length = 0x2000 := by decide
  have h4 : upperRegion.start = 0x2000 := rfl
  omega

theorem twoRegions_ok {regs : List (Region (ℕ → Bool))}
    (h : regs = [lowerRegion, upperRegion] ∨ regs = [upperRegion, lowerRegion]) :
    RegionsOk regs := by
  have hboth : ∀ r ∈ regs, r = lowerRegion ∨ r = upperRegion := by
    rcases h with rfl | rfl <;> simp [or_comm]
  have hapart : regs.Pairwise Region.Apart := by
    rcases h with rfl | rfl
    · exact pairwise_pair.2 twoRegions_apart
    · exact pairwise_pair.2 fun a ha => twoRegions_apart a ha.symm
  have hfresh : Fresh regs := by
    refine ⟨fun r hr => ?_, hapart, fun r hr => ?_, fun r hr => ?_, fun r hr _ _ => ?_⟩ <;>
      rcases hboth r hr with rfl | rfl
    · exact ⟨by decide, by decide, by decide⟩
    · exact ⟨by decide, by decide, by decide⟩
    all_goals rfl
  exact hfresh.inv.ok

/-- The upper region comes first in the list: its first page is reserved and handed out. -/
theorem pmem_reserve_skips : ∃ regs' regs'' : List (Region (ℕ → Bool)),
    RegionsOk [upperRegion, lowerRegion] ∧
    pmemReserve 9 0x1000 0x3000 [upperRegion, lowerRegion] = .ok (true, regs') ∧
    pmemAlloc 9 4096 4096 regs' = .ok (0x2000, regs'') ∧
    ¬Honoured 0x1000 0x3000 regs' ∧ ¬KeptOut 0x1000 0x3000 regs' := by
  have hok := twoRegions_ok (.inr rfl)
  have hreserve : pmemReserve 9 0x1000 0x3000 [upperRegion, lowerRegion] = .ok (true,
      exec (pmemReserve 9 0x1000 0x3000) [upperRegion, lowerRegion]) :=
    eq_ok_of_value (by decide +kernel)
  have halloc : pmemAlloc 9 4096 4096
      (exec (pmemReserve 9 0x1000 0x3000) [upperRegion, lowerRegion]) = .ok (0x2000,
        exec (pmemAlloc 9 4096 4096)
          (exec (pmemReserve 9 0x1000 0x3000) [upperRegion, lowerRegion])) :=
    eq_ok_of_value (by decide +kernel)
  generalize exec (pmemReserve 9 0x1000 0x3000) [upperRegion, lowerRegion] = regs' at *
  have hout : ¬KeptOut 0x1000 0x3000 regs' := fun h =>
    h regs' .refl 9 4096 0x2000 4096 _ (.inl ⟨by decide, by decide⟩) halloc 0x2000 (by decide)
      ⟨by decide, by decide⟩
  refine ⟨regs', _, hok, hreserve, halloc, fun h => hout ?_, hout⟩
  exact h.keptOut ((pmemReserve_spec hok hreserve).elim (fun hd => by cases hd.1)
    fun hd => hok.marked hd.2.1)

/-- The lower region comes first: the reservation is honoured. -/
theorem pmem_reserve_iff_sorted : ∃ regs' : List (Region (ℕ → Bool)),
    pmemReserve 9 0x1000 0x3000 [lowerRegion, upperRegion] = .ok (true, regs') ∧
    Honoured 0x1000 0x3000 regs' ∧ KeptOut 0x1000 0x3000 regs' := by
  have hok := twoRegions_ok (.inl rfl)
  have hreserve : pmemReserve 9 0x1000 0x3000 [lowerRegion, upperRegion] = .ok (true,
      exec (pmemReserve 9 0x1000 0x3000) [lowerRegion, upperRegion]) :=
    eq_ok_of_value (by decide +kernel)
  refine ⟨_, hreserve, (pmem_reserve_iff hok (by decide) (by decide) hreserve).2 ?_⟩
  rintro p hp - (hwrap | ⟨n, rfl, hskip⟩)
  · exact absurd hwrap (by decide)
  · have hn : n < 3 := by
      have := hp.2
      rw [pmemPagesize] at this
      omega
    interval_cases n <;> exact absurd hskip (by decide)

end Tachyon.Pmem
