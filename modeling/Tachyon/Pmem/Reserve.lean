import Tachyon.Pmem.Regions

/-!
# Reserving physical memory

Both passes of `pmem_reserve` move over the range in the same way, which depends on the regions and
not on their bitmaps.  `walk` is the list of pages that a pass visits.

* `walk_ordered`: the pages come in increasing order, inside of the range, each in a region;
* `pmemReserve_spec`: a reservation that is refused changes nothing, and one that succeeds marks the
  pages of the walk, all of them free before.
-/

namespace Tachyon.Pmem

open Prog List Option

variable {σ : Type} {r r' : Region σ} {regs regs' : List (Region σ)} {v done : Bool}
  {ps qs : List ℕ} {top fuel cur addr length : ℕ} {c : Option ℕ}

/-! ### The walk -/

/-- The pages of one region from `cur` on, and where the walk goes on unless it is at its end. -/
def walkRegion (top : ℕ) : ℕ → Region σ → ℕ → Option (List ℕ × Option ℕ)
  | 0, _, _ => none
  | fuel + 1, reg, cur =>
    if pmemRegContains reg cur then
      if top ≤ add64 cur pmemPagesize then some ([cur], none)
      else (walkRegion top fuel reg (add64 cur pmemPagesize)).map fun w => (cur :: w.1, w.2)
    else some ([], some cur)

/-- One round over the regions. -/
def walkRegions (top fuel : ℕ) : List (Region σ) → ℕ → Option (List ℕ × Option ℕ)
  | [], cur => some ([], some cur)
  | reg :: regs, cur =>
    (walkRegion top fuel reg cur).bind fun w =>
      match w.2 with
      | none => some (w.1, none)
      | some cur => (walkRegions top fuel regs cur).map fun u => (w.1 ++ u.1, u.2)

/-- The pages that a pass up to `top` visits. -/
def walk (top : ℕ) : ℕ → List (Region σ) → ℕ → Option (List ℕ)
  | 0, _, _ => none
  | fuel + 1, regs, cur =>
    if cur < top then
      (walkRegions top fuel regs cur).bind fun w =>
        match w.2 with
        | none => some w.1
        | some cur => (walk top fuel regs (add64 cur pmemPagesize)).map (w.1 ++ ·)
    else some []

/-- The page `p` belongs to a region. -/
def InRegions (regs : List (Region σ)) (p : ℕ) : Prop := ∃ r ∈ regs, ∃ i < r.bmap.bits, p = r.page i

/-- The pages of a part of a walk: increasing from `cur` on, below `top`, and below the place where
the walk goes on. -/
structure Ordered (P : ℕ → Prop) (top cur : ℕ) (ps : List ℕ) (c : Option ℕ) : Prop where
  page : ∀ p ∈ ps, cur ≤ p ∧ p < top ∧ P p
  sorted : ps.Pairwise (· < ·)
  next : ∀ d, c = some d → cur ≤ d ∧ d < top ∧ pmemPagesize ∣ d ∧ ∀ p ∈ ps, p < d
  stop : c = none → top + pmemPagesize ≤ 2 ^ 64

variable {P Q : ℕ → Prop} {a : ℕ} {p : Pass}

theorem Ordered.nil (hdvd : pmemPagesize ∣ cur) (hlt : cur < top) :
    Ordered P top cur [] (some cur) := by
  refine ⟨by simp, .nil, fun d hd => ?_, by simp⟩
  cases hd
  exact ⟨le_rfl, hlt, hdvd, by simp⟩

/-- Below `2 ^ 64` there is room for one more page behind an aligned address that is not the last
one. -/
theorem add_page_le (ha : pmemPagesize ∣ a) (hlt : a < 2 ^ 64) :
    a + pmemPagesize ≤ 2 ^ 64 := by
  obtain ⟨k, rfl⟩ := ha
  rw [pmemPagesize] at hlt ⊢
  omega

theorem dvd_add64_page (ha : pmemPagesize ∣ a) : pmemPagesize ∣ add64 a pmemPagesize := by
  obtain ⟨k, rfl⟩ := ha
  rw [add64, pmemPagesize]
  omega

theorem walkRegion_ordered (hr : r.Ok)
    (hdvd : pmemPagesize ∣ cur) (hlt : cur < top) (h : walkRegion top fuel r cur = some (ps, c)) :
    Ordered (fun p => ∃ i < r.bmap.bits, p = r.page i) top cur ps c := by
  induction fuel generalizing cur ps c with
  | zero => cases h
  | succ fuel ih =>
    unfold walkRegion at h
    by_cases hc : pmemRegContains r cur = true
    · rw [if_pos hc] at h
      obtain ⟨hpage, hbit⟩ := hr.page_regbit hdvd hc
      have hfit := hr.fits
      have hin := hr.contains_iff.1 hc
      have hnext := hr.add64_page hc
      have hdvd' : pmemPagesize ∣ cur + pmemPagesize := hnext ▸ dvd_add64_page hdvd
      rw [hnext] at h
      split_ifs at h with htop
      · cases h
        refine ⟨?_, pairwise_singleton _ _, by simp, fun _ => ?_⟩
        · simpa using ⟨hlt, _, hbit, hpage.symm⟩
        · have := add_page_le hdvd' (by rw [pmemPagesize] at hfit ⊢; omega)
          omega
      · obtain ⟨⟨qs, d⟩, hw, heq⟩ := map_eq_some_iff.1 h
        obtain ⟨rfl, rfl⟩ := heq
        obtain ⟨hq, hsort, hnxt, hstop⟩ := ih hdvd' (by omega) hw
        rw [pmemPagesize] at hq hnxt
        refine ⟨?_, pairwise_cons.2 ⟨fun p hp => ?_, hsort⟩, fun e he => ?_, hstop⟩
        · refine forall_mem_cons.2 ⟨⟨le_rfl, hlt, _, hbit, hpage.symm⟩, fun p hp => ?_⟩
          exact ⟨by have := (hq p hp).1; omega, (hq p hp).2⟩
        · have := (hq p hp).1
          omega
        · obtain ⟨h1, h2, h3, h4⟩ := hnxt e he
          exact ⟨by omega, h2, h3, forall_mem_cons.2 ⟨by omega, h4⟩⟩
    · rw [if_neg hc] at h
      cases h
      exact .nil hdvd hlt

/-- Two parts of a walk, one after the other. -/
theorem Ordered.append {R : ℕ → Prop} {d : ℕ} (h : Ordered P top cur ps (some d))
    (h' : Ordered Q top d qs c) (hP : ∀ p, P p → R p) (hQ : ∀ p, Q p → R p) :
    Ordered R top cur (ps ++ qs) c := by
  obtain ⟨hcd, -, -, hps⟩ := h.next d rfl
  refine ⟨fun p hp => ?_, pairwise_append.2 ⟨h.sorted, h'.sorted, fun p hp q hq => ?_⟩,
    fun e he => ?_, h'.stop⟩
  · rcases mem_append.1 hp with hp | hp
    · obtain ⟨h1, h2, h3⟩ := h.page p hp
      exact ⟨h1, h2, hP p h3⟩
    · obtain ⟨h1, h2, h3⟩ := h'.page p hp
      exact ⟨by omega, h2, hQ p h3⟩
  · have := hps p hp
    have := (h'.page q hq).1
    omega
  · obtain ⟨h1, h2, h3, h4⟩ := h'.next e he
    refine ⟨by omega, h2, h3, fun p hp => ?_⟩
    rcases mem_append.1 hp with hp | hp
    · have := hps p hp
      omega
    · exact h4 p hp

theorem Ordered.mono (h : Ordered P top cur ps c) (hPQ : ∀ p, P p → Q p) :
    Ordered Q top cur ps c :=
  ⟨fun p hp => ⟨(h.page p hp).1, (h.page p hp).2.1, hPQ p (h.page p hp).2.2⟩, h.sorted, h.next,
    h.stop⟩

section

variable (hok : ∀ r ∈ regs, r.Ok) (hdvd : pmemPagesize ∣ cur)
include hok hdvd

theorem walkRegions_ordered (hlt : cur < top) (h : walkRegions top fuel regs cur = some (ps, c)) :
    Ordered (InRegions regs) top cur ps c := by
  induction regs generalizing cur ps c with
  | nil =>
    cases h
    exact .nil hdvd hlt
  | cons r regs ih =>
    obtain ⟨⟨qs, d⟩, hw, h⟩ := bind_eq_some_iff.1 h
    have ho := walkRegion_ordered (hok r mem_cons_self) hdvd hlt hw
    have hhead : ∀ p, (∃ i < r.bmap.bits, p = r.page i) → InRegions (r :: regs) p :=
      fun p hp => ⟨r, mem_cons_self, hp⟩
    cases d with
    | none =>
      obtain ⟨rfl, rfl⟩ := h
      exact ho.mono hhead
    | some d =>
      obtain ⟨⟨us, e⟩, hu, heq⟩ := map_eq_some_iff.1 h
      obtain ⟨rfl, rfl⟩ := heq
      obtain ⟨-, hd, hdvd', -⟩ := ho.next d rfl
      refine ho.append (ih (fun s hs => hok s (mem_cons_of_mem _ hs)) hdvd' hd hu) hhead ?_
      rintro p ⟨s, hs, hp⟩
      exact ⟨s, mem_cons_of_mem _ hs, hp⟩

/-- A pass ends only below the last page of the address space. -/
theorem walk_top (hlt : cur < top) (h : walk top fuel regs cur = some ps) :
    top + pmemPagesize ≤ 2 ^ 64 := by
  induction fuel generalizing cur ps with
  | zero => cases h
  | succ fuel ih =>
    unfold walk at h
    rw [if_pos hlt] at h
    obtain ⟨⟨qs, d⟩, hw, h⟩ := bind_eq_some_iff.1 h
    have ho := walkRegions_ordered hok hdvd hlt hw
    cases d with
    | none => exact ho.stop rfl
    | some d =>
      obtain ⟨us, hu, -⟩ := map_eq_some_iff.1 h
      have hdvd' := dvd_add64_page (ho.next d rfl).2.2.1
      by_cases hcur : add64 d pmemPagesize < top
      · exact ih hdvd' hcur hu
      · have := add_page_le hdvd' (add64_lt _ _)
        omega

/-- The pages of a walk come in increasing order, inside of the range. -/
theorem walk_ordered (h : walk top fuel regs cur = some ps) :
    (∀ p ∈ ps, cur ≤ p ∧ p < top ∧ InRegions regs p) ∧ ps.Pairwise (· < ·) := by
  induction fuel generalizing cur ps with
  | zero => cases h
  | succ fuel ih =>
    by_cases hlt : cur < top
    · have htop := walk_top hok hdvd hlt h
      rw [walk, if_pos hlt] at h
      obtain ⟨⟨qs, d⟩, hw, h⟩ := bind_eq_some_iff.1 h
      have ho := walkRegions_ordered hok hdvd hlt hw
      cases d with
      | none =>
        cases h
        exact ⟨ho.page, ho.sorted⟩
      | some d =>
        obtain ⟨us, hu, rfl⟩ := map_eq_some_iff.1 h
        obtain ⟨hcd, hd, hdvd', hqs⟩ := ho.next d rfl
        have hnext : add64 d pmemPagesize = d + pmemPagesize := by
          refine add64_of_lt ?_
          omega
        obtain ⟨hus, hsort⟩ := ih (dvd_add64_page hdvd') hu
        refine ⟨fun p hp => ?_, pairwise_append.2 ⟨ho.sorted, hsort, fun p hp q hq => ?_⟩⟩
        · rcases mem_append.1 hp with hp | hp
          · exact ho.page p hp
          · obtain ⟨h1, h2⟩ := hus p hp
            exact ⟨by omega, h2⟩
        · have := hqs p hp
          have := (hus q hq).1
          omega
    · rw [walk, if_neg hlt] at h
      cases h
      exact ⟨by simp, .nil⟩

end

variable [BitStore σ]

/-- A call stops after the checking pass, or makes the setting pass too. -/
theorem pmemReserve_cases
    (h : pmemReserve fuel addr length regs = .ok (done, regs')) : pmemPagesize ∣ addr ∧
      ((done = false ∧ reservePass true (add64 addr length) fuel regs addr = .ok (false, regs')) ∨
      (done = true ∧ ∃ regs1 b,
        reservePass true (add64 addr length) fuel regs addr = .ok (true, regs1) ∧
        reservePass false (add64 addr length) fuel regs1 addr = .ok (b, regs'))) := by
  unfold pmemReserve at h
  split_ifs at h with hmis
  rw [pmemPagesize, show (4096 : ℕ) = 2 ^ 12 from rfl, alignRst_two_pow, not_not] at hmis
  refine ⟨Nat.dvd_of_mod_eq_zero hmis, ?_⟩
  obtain ⟨⟨first, regs1⟩, hcheck, h⟩ := except_bind_eq_ok.1 h
  cases first with
  | false =>
    obtain ⟨rfl, rfl⟩ := h
    exact .inl ⟨rfl, hcheck⟩
  | true =>
    obtain ⟨⟨second, regs2⟩, hset, h⟩ := except_bind_eq_ok.1 h
    obtain ⟨rfl, rfl⟩ := h
    exact .inr ⟨rfl, regs1, second, hcheck, hset⟩

/-! ### The checking pass -/

/-- How a part of a pass ends when no page is taken. -/
def passOf : Option ℕ → Pass
  | none => .passOk
  | some cur => .next cur

theorem reserveRegion_check (hr : r.Ok) (hdvd : pmemPagesize ∣ cur)
    (h : reserveRegion true top fuel r cur = .ok (p, r')) :
    r' = r ∧ (p = .refused ∨ ∃ ps c, walkRegion top fuel r cur = some (ps, c) ∧ p = passOf c ∧ ∀ q ∈
      ps, ∃ i < r.bmap.bits, q = r.page i ∧ readBit r.bmap.storage i = false) := by
  induction fuel generalizing cur p with
  | zero => cases h
  | succ fuel ih =>
    unfold reserveRegion at h
    by_cases hc : pmemRegContains r cur = true
    · obtain ⟨hpage, hbit⟩ := hr.page_regbit hdvd hc
      simp only [Bool.true_and, if_true] at h
      rw [bmapGet_of_lt hbit] at h
      split_ifs at h with hget htop
      · cases h
        exact ⟨rfl, .inl rfl⟩
      · cases h
        refine ⟨rfl, .inr ⟨[cur], none, ?_, rfl, ?_⟩⟩
        · rw [walkRegion, if_pos hc, if_pos htop]
        · simpa using ⟨_, hbit, hpage.symm, by simpa using hget⟩
      · obtain ⟨rfl, hp⟩ := ih (dvd_add64_page hdvd) h
        refine ⟨rfl, hp.imp_right ?_⟩
        rintro ⟨ps, c, hw, rfl, hps⟩
        refine ⟨cur :: ps, c, ?_, rfl, forall_mem_cons.2 ⟨?_, hps⟩⟩
        · rw [walkRegion, if_pos hc, if_neg htop, hw]
          rfl
        · exact ⟨_, hbit, hpage.symm, by simpa using hget⟩
    · rw [if_neg hc] at h
      cases h
      refine ⟨rfl, .inr ⟨[], some cur, ?_, rfl, by simp⟩⟩
      rw [walkRegion, if_neg hc]

theorem reserveRegions_check (hok : RegionsOk regs) (hdvd : pmemPagesize ∣ cur) (hlt : cur < top)
    (h : reserveRegions true top fuel regs cur = .ok (p, regs')) :
    regs' = regs ∧ (p = .refused ∨ ∃ ps c, walkRegions top fuel regs cur = some (ps, c) ∧ p = passOf
      c ∧ ∀ q ∈ ps, q ∉ taken regs) := by
  induction regs generalizing regs' cur p with
  | nil =>
    cases h
    exact ⟨rfl, .inr ⟨[], some cur, rfl, rfl, by simp⟩⟩
  | cons r regs ih =>
    obtain ⟨⟨o, r'⟩, ho, h⟩ := except_bind_eq_ok.1 h
    obtain ⟨rfl, rfl | ⟨ps, c, hw, rfl, hps⟩⟩ := reserveRegion_check hok.head_ok hdvd ho
    · cases h
      exact ⟨rfl, .inl rfl⟩
    have hfree : ∀ q ∈ ps, q ∉ taken (r' :: regs) := fun q hq hmem => by
      obtain ⟨i, hi, rfl, hbit⟩ := hps q hq
      rw [(hok.page_mem_taken mem_cons_self hi).1 hmem] at hbit
      cases hbit
    cases c with
    | none =>
      cases h
      refine ⟨rfl, .inr ⟨ps, none, ?_, rfl, hfree⟩⟩
      rw [walkRegions, hw]
      rfl
    | some d =>
      obtain ⟨⟨q, regs1⟩, hq, h⟩ := except_bind_eq_ok.1 h
      obtain ⟨-, hd, hdvd', -⟩ := (walkRegion_ordered hok.head_ok hdvd hlt hw).next d rfl
      obtain ⟨rfl, rfl⟩ := h
      obtain ⟨rfl, hp⟩ := ih hok.tail hdvd' hd hq
      refine ⟨rfl, hp.imp_right ?_⟩
      rintro ⟨us, e, hu, rfl, hus⟩
      refine ⟨ps ++ us, e, ?_, rfl, fun q hq => ?_⟩
      · rw [walkRegions, hw, bind_some]
        simp [hu]
      rcases mem_append.1 hq with hq | hq
      · exact hfree q hq
      rintro ⟨s, hs, i, hi, hbit, rfl⟩
      rcases mem_cons.1 hs with rfl | hs
      · obtain ⟨-, -, t, ht, j, hj, heq⟩ :=
          (walkRegions_ordered hok.tail.ok hdvd' hd hu).page _ hq
        exact hok.head_page_ne ht hi hj heq
      · exact hus _ hq ⟨s, hs, i, hi, hbit, rfl⟩

/-- The checking pass changes nothing; it ends well when the pages of the walk are free. -/
theorem reservePass_check (hok : RegionsOk regs)
    (hdvd : pmemPagesize ∣ cur) (h : reservePass true top fuel regs cur = .ok (done, regs')) :
    regs' = regs ∧
      (done = true → ∃ ps, walk top fuel regs cur = some ps ∧ ∀ q ∈ ps, q ∉ taken regs) := by
  induction fuel generalizing cur done with
  | zero => cases h
  | succ fuel ih =>
    unfold reservePass at h
    unfold walk
    by_cases hlt : cur < top
    · rw [if_pos hlt] at h ⊢
      obtain ⟨⟨p, regs1⟩, hp, h⟩ := except_bind_eq_ok.1 h
      obtain ⟨rfl, rfl | ⟨ps, c, hw, rfl, hps⟩⟩ := reserveRegions_check hok hdvd hlt hp
      · cases h
        exact ⟨rfl, by simp⟩
      rw [hw, bind_some]
      cases c with
      | none =>
        cases h
        exact ⟨rfl, fun _ => ⟨ps, rfl, hps⟩⟩
      | some d =>
        obtain ⟨-, -, hdvd', -⟩ := (walkRegions_ordered hok.ok hdvd hlt hw).next d rfl
        obtain ⟨rfl, hrest⟩ := ih (dvd_add64_page hdvd') h
        refine ⟨rfl, fun hd => ?_⟩
        obtain ⟨us, hu, hus⟩ := hrest hd
        refine ⟨ps ++ us, by simp [hu], fun q hq => ?_⟩
        rcases mem_append.1 hq with hq | hq
        · exact hps q hq
        · exact hus q hq
    · rw [if_neg hlt] at h ⊢
      cases h
      exact ⟨rfl, fun _ => ⟨[], rfl, by simp⟩⟩

/-! ### The marking pass -/

theorem Marked.walkRegion_eq (h : Marked v qs r r') :
    walkRegion top fuel r' cur = walkRegion top fuel r cur := by
  induction fuel generalizing cur with
  | zero => rfl
  | succ fuel ih => rw [walkRegion, walkRegion, h.contains, ih]

theorem MarkedAll.walkRegions_eq (h : MarkedAll v qs regs regs') : ∀ {cur : ℕ},
    walkRegions top fuel regs' cur = walkRegions top fuel regs cur := by
  induction h with
  | nil => intro _; rfl
  | cons hr _ ih => intro cur; simp only [walkRegions, hr.walkRegion_eq, ih]

theorem MarkedAll.walk_eq (h : MarkedAll v qs regs regs') :
    walk top fuel regs' cur = walk top fuel regs cur := by
  induction fuel generalizing cur with
  | zero => rfl
  | succ fuel ih => simp only [walk, h.walkRegions_eq, ih]

section Exact

variable [ExactBits σ]

/-- One page is marked. -/
theorem markPage_spec {i : ℕ} (hr : r.Ok) (hs : r.Sound) (hi : i < r.bmap.bits)
    (hbit : readBit r.bmap.storage i = false) :
    Marked true [r.page i] r { r with bmap := bmapSet r.bmap i true } := by
  have hlt := hr.bits_lt
  refine ⟨rfl, rfl, bmapSet_bits, ⟨hs.1.bmapSet hi (by omega) hbit, ?_⟩, fun j hj => ?_⟩
  · rw [bmapSet_hint]
    exact hs.2
  · rw [readBit_bmapSet hi]
    simp [Region.page_inj]

theorem reserveRegion_mark (hr : r.Ok) (hs : r.Sound)
    (hdvd : pmemPagesize ∣ cur) (hlt : cur < top) (h : walkRegion top fuel r cur = some (ps, c))
    (hfree : ∀ i < r.bmap.bits, r.page i ∈ ps → readBit r.bmap.storage i = false) :
    ∃ r', reserveRegion false top fuel r cur = .ok (passOf c, r') ∧ Marked true ps r r' := by
  induction fuel generalizing cur r ps with
  | zero => cases h
  | succ fuel ih =>
    have ho := walkRegion_ordered hr hdvd hlt h
    unfold walkRegion at h
    unfold reserveRegion
    by_cases hc : pmemRegContains r cur = true
    · obtain ⟨hpage, hbit⟩ := hr.page_regbit hdvd hc
      simp only [Bool.false_and, Bool.false_eq_true, if_false]
      have hone : readBit r.bmap.storage (pmemToRegbit r cur) = false →
          Marked true [cur] r
            { r with bmap := bmapSet r.bmap (pmemToRegbit r cur) true } := fun hb => by
        have := markPage_spec hr hs hbit hb
        rwa [hpage] at this
      split_ifs at h ⊢ with htop
      · cases h
        exact ⟨_, rfl, hone (hfree _ hbit (by rw [hpage]; exact mem_singleton_self _))⟩
      obtain ⟨⟨qs, d⟩, hw, heq⟩ := map_eq_some_iff.1 h
      obtain ⟨rfl, rfl⟩ := heq
      have hm := hone (hfree _ hbit (by rw [hpage]; exact mem_cons_self))
      obtain ⟨r', hr', hm'⟩ := ih (hm.ok hr) hm.sound (dvd_add64_page hdvd) (by omega)
        (hm.walkRegion_eq.trans hw) (fun i hi hmem => by
          rw [hm.bits] at hi
          rw [hm.page] at hmem
          -- the later pages are other ones
          have hne : r.page i ∉ [cur] := by
            have := (pairwise_cons.1 ho.sorted).1 _ hmem
            simp only [mem_singleton]
            omega
          rw [hm.bit i hi, if_neg hne]
          exact hfree i hi (mem_cons_of_mem _ hmem))
      exact ⟨r', hr', hm.trans hm'⟩
    · rw [if_neg hc] at h ⊢
      obtain ⟨rfl, rfl⟩ := h
      exact ⟨r, rfl, .refl hs⟩

theorem reserveRegions_mark (hok : RegionsOk regs) (hdvd : pmemPagesize ∣ cur) (hlt : cur < top)
    (h : walkRegions top fuel regs cur = some (ps, c)) (hfree : ∀ q ∈ ps, q ∉ taken regs) :
    ∃ regs', reserveRegions false top fuel regs cur = .ok (passOf c, regs') ∧ MarkedAll true ps regs
      regs' := by
  induction regs generalizing cur ps c with
  | nil =>
    obtain ⟨rfl, rfl⟩ := h
    exact ⟨[], rfl, .nil⟩
  | cons r regs ih =>
    obtain ⟨⟨qs, d⟩, hw, h⟩ := bind_eq_some_iff.1 h
    have ho := walkRegion_ordered hok.head_ok hdvd hlt hw
    have hbits : ∀ us : List ℕ, (∀ q ∈ us, q ∈ ps) → ∀ i < r.bmap.bits, r.page i ∈ us →
        readBit r.bmap.storage i = false := fun us hus i hi hmem => by
      have := hfree _ (hus _ hmem)
      rw [hok.page_mem_taken mem_cons_self hi] at this
      simpa using this
    -- the pages visited in the first region are in no other one
    have hothers : ∀ s ∈ regs, ∀ i < s.bmap.bits, s.page i ∉ qs := fun s hs i hi hmem => by
      obtain ⟨-, -, j, hj, heq⟩ := ho.page _ hmem
      exact hok.head_page_ne hs hj hi heq.symm
    cases d with
    | none =>
      obtain ⟨rfl, rfl⟩ := h
      obtain ⟨r', hr', hm⟩ := reserveRegion_mark hok.head_ok hok.head_sound hdvd hlt hw
        (hbits _ fun q hq => hq)
      refine ⟨r' :: regs, ?_, .cons hm (markedAll_refl_of_notMem hok.tail.sound hothers)⟩
      rw [reserveRegions, hr']
      rfl
    | some d =>
      obtain ⟨⟨us, e⟩, hu, heq⟩ := map_eq_some_iff.1 h
      obtain ⟨rfl, rfl⟩ := heq
      obtain ⟨-, hd, hdvd', -⟩ := ho.next d rfl
      obtain ⟨r', hr', hm⟩ := reserveRegion_mark hok.head_ok hok.head_sound hdvd hlt hw
        (hbits _ fun q hq => mem_append_left _ hq)
      obtain ⟨regs', hregs', hms⟩ := ih hok.tail hdvd' hd hu fun q hq ⟨s, hs, hmem⟩ =>
        hfree q (mem_append_right _ hq) ⟨s, mem_cons_of_mem _ hs, hmem⟩
      have huo := walkRegions_ordered hok.tail.ok hdvd' hd hu
      have hhead : ∀ i < r.bmap.bits, r.page i ∉ us := fun i hi hmem => by
        obtain ⟨-, -, t, ht, j, hj, heq⟩ := huo.page _ hmem
        exact hok.head_page_ne ht hi hj heq
      refine ⟨r' :: regs', ?_, .cons ?_ ?_⟩
      · rw [reserveRegions, hr']
        simp [passOf, bind, Except.bind, hregs']
      · exact hm.trans (.refl_of_notMem hm.sound fun i hi => by
          rw [hm.page]
          exact hhead i (hm.bits ▸ hi))
      · exact (markedAll_refl_of_notMem hok.tail.sound hothers).trans hms

/-- The marking pass after a checking pass that ended well. -/
theorem reservePass_mark (hok : RegionsOk regs) (hdvd : pmemPagesize ∣ cur)
    (h : walk top fuel regs cur = some ps) (hfree : ∀ q ∈ ps, q ∉ taken regs) :
    ∃ regs', reservePass false top fuel regs cur = .ok (true, regs') ∧
      MarkedAll true ps regs regs' := by
  induction fuel generalizing cur regs ps with
  | zero => cases h
  | succ fuel ih =>
    have hall := walk_ordered hok.ok hdvd h
    unfold walk at h
    unfold reservePass
    by_cases hlt : cur < top
    · rw [if_pos hlt] at h ⊢
      obtain ⟨⟨qs, d⟩, hw, h⟩ := bind_eq_some_iff.1 h
      cases d with
      | none =>
        cases h
        obtain ⟨regs', hregs', hm⟩ := reserveRegions_mark hok hdvd hlt hw hfree
        exact ⟨regs', by rw [hregs']; rfl, hm⟩
      | some d =>
        obtain ⟨us, hu, rfl⟩ := map_eq_some_iff.1 h
        obtain ⟨regs1, hregs1, hm1⟩ := reserveRegions_mark hok hdvd hlt hw
          fun q hq => hfree q (mem_append_left _ hq)
        have ho := walkRegions_ordered hok.ok hdvd hlt hw
        obtain ⟨-, -, hdvd', -⟩ := ho.next d rfl
        obtain ⟨regs', hregs', hm'⟩ := ih (hok.marked hm1) (dvd_add64_page hdvd')
          (hm1.walk_eq.trans hu) fun q hq hmem => by
            rcases (hm1.taken_true fun p hp => (ho.page p hp).2.2).1 hmem with hmem | hmem
            · exact lt_irrefl q ((pairwise_append.1 hall.2).2.2 q hmem q hq)
            · exact hfree q (mem_append_right _ hq) hmem
        refine ⟨regs', ?_, hm1.trans hm'⟩
        rw [hregs1]
        exact hregs'
    · rw [if_neg hlt] at h ⊢
      cases h
      exact ⟨regs, rfl, markedAll_refl hok.sound⟩

/-- The pages that `pmem_reserve` marks when it succeeds. -/
def reservePages (fuel addr length : ℕ) (regs : List (Region σ)) : List ℕ :=
  (walk (add64 addr length) fuel regs addr).getD []

/-- **A reservation** that is refused changes nothing, and one that succeeds marks the pages of the
walk: pages of the range, in increasing order, all of them free before. -/
theorem pmemReserve_spec (hok : RegionsOk regs)
    (h : pmemReserve fuel addr length regs = .ok (done, regs')) :
    (done = false ∧ regs' = regs) ∨
    (done = true ∧ MarkedAll true (reservePages fuel addr length regs) regs regs' ∧
      (reservePages fuel addr length regs).Pairwise (· < ·) ∧
      ∀ p ∈ reservePages fuel addr length regs,
        addr ≤ p ∧ p < add64 addr length ∧ InRegions regs p ∧ p ∉ taken regs) := by
  obtain ⟨hdvd, ⟨rfl, hcheck⟩ | ⟨rfl, regs1, b, hcheck, hmark⟩⟩ := pmemReserve_cases h
  · exact .inl ⟨rfl, (reservePass_check hok hdvd hcheck).1⟩
  obtain ⟨rfl, hwalk⟩ := reservePass_check hok hdvd hcheck
  obtain ⟨ps, hps, hfree⟩ := hwalk rfl
  have hpages : reservePages fuel addr length regs1 = ps := by rw [reservePages, hps]; rfl
  rw [hpages]
  obtain ⟨regs', hregs', hm⟩ := reservePass_mark hok hdvd hps hfree
  rw [hregs'] at hmark
  obtain ⟨-, rfl⟩ := hmark
  obtain ⟨hin, hsort⟩ := walk_ordered hok.ok hdvd hps
  exact .inr ⟨rfl, hm, hsort, fun p hp =>
    ⟨(hin p hp).1, (hin p hp).2.1, (hin p hp).2.2, hfree p hp⟩⟩

end Exact

end Tachyon.Pmem
