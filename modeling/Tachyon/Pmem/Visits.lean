import Tachyon.Lib.Logged
import Tachyon.Pmem.Created

/-!
# The two passes of a reservation

`pmem_reserve` moves twice over the range, first to check and then to set the bits.  `logPass` is a
pass together with the bits it looks at, one `Visit` after the other, for any list of regions: they
may overlap, and their bitmaps may be too short.

* `logPass_result`: a pass with a log ends as the pass itself does;
* `logPass_follows`: the checking pass takes the visits of the setting pass, or it stops early and
  has changed nothing;
* `reserve_all_or_nothing`: a reservation changes nothing, or it sets bits that were all clear.
-/

namespace Tachyon.Pmem

open List

/-- The bit of a page in the bitmap of a region, which is given by its place in the list. -/
structure Visit where
  region : ℕ
  bit : ℕ
  page : ℕ
  deriving DecidableEq, Repr

variable {σ : Type} {r r₁ : Region σ} {regs regs₁ : List (Region σ)} {vs ws : List Visit}
  {ps qs js : List ℕ} {top fuel cur d k j : ℕ} {p : Pass}

section Passes

variable [BitStore σ]

/-! ### Passes with a log -/

/-- `reserveRegion` of the region at place `k`. -/
def logRegion (k : ℕ) (checkPass : Bool) (top : ℕ) :
    ℕ → Region σ → ℕ → Logged Visit Halt (Pass × Region σ)
  | 0, _, _ => .fail .fuel
  | fuel + 1, reg, cur =>
    if pmemRegContains reg cur then
      let idx := pmemToRegbit reg cur
      .note ⟨k, idx, cur⟩ <|
        if checkPass && bmapGet reg.bmap idx then .ok (.refused, reg)
        else
          let reg := if checkPass then reg else { reg with bmap := bmapSet reg.bmap idx true }
          if top ≤ add64 cur pmemPagesize then .ok (.passOk, reg)
          else logRegion k checkPass top fuel reg (add64 cur pmemPagesize)
    else .ok (.next cur, reg)

/-- `reserveRegions` of the regions from place `k` on. -/
def logRegions (checkPass : Bool) (top fuel : ℕ) :
    ℕ → List (Region σ) → ℕ → Logged Visit Halt (Pass × List (Region σ))
  | _, [], cur => .ok (.next cur, [])
  | k, reg :: regs, cur =>
    (logRegion k checkPass top fuel reg cur).bind fun r =>
    match r.1 with
    | .next cur =>
      (logRegions checkPass top fuel (k + 1) regs cur).bind fun q => .ok (q.1, r.2 :: q.2)
    | p => .ok (p, r.2 :: regs)

/-- `reservePass`. -/
def logPass (checkPass : Bool) (top : ℕ) :
    ℕ → List (Region σ) → ℕ → Logged Visit Halt (Bool × List (Region σ))
  | 0, _, _ => .fail .fuel
  | fuel + 1, regs, cur =>
    if cur < top then
      (logRegions checkPass top fuel 0 regs cur).bind fun r =>
      match r.1 with
      | .refused => .ok (false, r.2)
      | .passOk => .ok (true, r.2)
      | .next cur => logPass checkPass top fuel r.2 (add64 cur pmemPagesize)
    else .ok (true, regs)

variable {checkPass : Bool}

theorem logRegion_result :
    (logRegion k checkPass top fuel r cur).result = reserveRegion checkPass top fuel r cur := by
  induction fuel generalizing cur r with
  | zero => rfl
  | succ fuel ih =>
    unfold logRegion reserveRegion
    dsimp only
    split_ifs
    · rfl
    · rfl
    · rfl
    · exact ih
    · exact ih
    · rfl

theorem logRegions_result :
    (logRegions checkPass top fuel k regs cur).result =
      reserveRegions checkPass top fuel regs cur := by
  induction regs generalizing k cur with
  | nil => rfl
  | cons r regs ih =>
    unfold logRegions reserveRegions
    rw [Logged.result_bind, logRegion_result]
    congr 1
    funext q
    cases q.1 with
    | refused => rfl
    | passOk => rfl
    | next c =>
      rw [Logged.result_bind, ih]
      rfl

theorem logPass_result :
    (logPass checkPass top fuel regs cur).result = reservePass checkPass top fuel regs cur := by
  induction fuel generalizing cur regs with
  | zero => rfl
  | succ fuel ih =>
    unfold logPass reservePass
    split_ifs
    · rw [Logged.result_bind, logRegions_result]
      congr 1
      funext q
      cases q.1 with
      | refused => rfl
      | passOk => rfl
      | next c => exact ih
    · rfl

/-! ### Marking the bits of a log -/

/-- The bits `js` are set one after the other. -/
def Region.mark (r : Region σ) (js : List ℕ) : Region σ :=
  { r with bmap := js.foldl (fun b j => bmapSet b j true) r.bmap }

/-- The bits visited in the region at place `k`. -/
def bitsOf (k : ℕ) (vs : List Visit) : List ℕ := (vs.filter (·.region = k)).map (·.bit)

/-- The bits of a log are set in the regions from place `k` on. -/
def markAll (vs : List Visit) : ℕ → List (Region σ) → List (Region σ)
  | _, [] => []
  | k, r :: regs => r.mark (bitsOf k vs) :: markAll vs (k + 1) regs

@[simp] theorem mark_nil : r.mark [] = r := rfl

variable {js : List ℕ}

theorem mark_append {is : List ℕ} : r.mark (js ++ is) = (r.mark js).mark is := by
  simp [Region.mark]

theorem mark_cons :
    r.mark (j :: js) = Region.mark { r with bmap := bmapSet r.bmap j true } js := rfl

theorem bitsOf_append : bitsOf k (vs ++ ws) = bitsOf k vs ++ bitsOf k ws := by
  simp [bitsOf]

theorem bitsOf_self (h : ∀ v ∈ vs, v.region = k) : bitsOf k vs = vs.map (·.bit) := by
  rw [bitsOf, filter_eq_self.2 (by simpa using h)]

theorem bitsOf_other (h : ∀ v ∈ vs, v.region ≠ k) : bitsOf k vs = [] := by
  rw [bitsOf, filter_eq_nil_iff.2 (by simpa using h)]
  rfl

theorem markAll_append : ∀ {k : ℕ} {regs : List (Region σ)},
    markAll (vs ++ ws) k regs = markAll ws k (markAll vs k regs) := by
  intro k regs
  induction regs generalizing k with
  | nil => rfl
  | cons r regs ih => simp only [markAll, bitsOf_append, mark_append, ih]

/-- Regions from place `k` on are not touched by visits before it. -/
theorem markAll_before (h : ∀ v ∈ vs, v.region < k) :
    markAll vs k regs = regs := by
  induction regs generalizing k with
  | nil => rfl
  | cons r regs ih =>
    rw [markAll, bitsOf_other (fun v hv => (h v hv).ne), mark_nil,
      ih (fun v hv => (h v hv).trans (Nat.lt_succ_self k))]

theorem markAll_getElem? {i : ℕ} :
    (markAll vs k regs)[i]? = regs[i]?.map fun r => r.mark (bitsOf (k + i) vs) := by
  induction regs generalizing k i with
  | nil => rfl
  | cons r regs ih =>
    cases i with
    | zero => rfl
    | succ i =>
      rw [markAll, getElem?_cons_succ, getElem?_cons_succ, ih,
        show k + 1 + i = k + (i + 1) by omega]

theorem markAll_length : ∀ {k : ℕ} {regs : List (Region σ)},
    (markAll vs k regs).length = regs.length := by
  intro k regs
  induction regs generalizing k with
  | nil => rfl
  | cons r regs ih => simp only [markAll, length_cons, ih]

theorem mark_shape : SameShape r (r.mark js) := by
  induction js generalizing r with
  | nil => exact .refl r
  | cons j js ih =>
    have hone : SameShape r { r with bmap := bmapSet r.bmap j true } := ⟨rfl, rfl, bmapSet_bits⟩
    exact hone.trans ih

theorem markAll_shapes : ∀ {k : ℕ} {regs : List (Region σ)},
    SameShapes regs (markAll vs k regs) := by
  intro k regs
  induction regs generalizing k with
  | nil => exact .nil
  | cons r regs ih => exact .cons mark_shape ih

end Passes

/-! ### How a pass moves -/

/-- Where a part of a pass leads to. -/
def Pass.goesOn : Pass → Option ℕ
  | .next d => some d
  | _ => none

/-- The pages of a part of a pass from `cur` to its end `p`.  If `top` is on the last page, `cur`
wraps around, but then no pass comes to an end. -/
structure Moves (top cur : ℕ) (ps : List ℕ) (p : Pass) : Prop where
  fits : pmemPagesize ∣ cur → p = .passOk → top + pmemPagesize ≤ 2 ^ 64
  next : pmemPagesize ∣ cur → ∀ d, p = .next d → pmemPagesize ∣ d
  order : top + pmemPagesize ≤ 2 ^ 64 → pmemPagesize ∣ cur → cur < top →
    Ordered (pmemPagesize ∣ ·) top cur ps p.goesOn

theorem Moves.stay : Moves top cur [] (.next cur) := by
  refine ⟨fun _ h => (nomatch h), fun hdvd d hd => ?_, fun htop hdvd hlt => ?_⟩
  · cases hd
    exact hdvd
  · exact .nil hdvd hlt

theorem Moves.last (h : top ≤ add64 cur pmemPagesize) : Moves top cur [cur] .passOk := by
  refine ⟨fun hdvd _ => ?_, fun _ d hd => (nomatch hd), fun htop hdvd hlt => ?_⟩
  · have := add_page_le (dvd_add64_page hdvd) (add64_lt _ _)
    omega
  · exact ⟨by simpa using ⟨hlt, hdvd⟩, pairwise_singleton _ _, fun d hd => (nomatch hd),
      fun _ => htop⟩

theorem Moves.step (h : ¬top ≤ add64 cur pmemPagesize)
    (hm : Moves top (add64 cur pmemPagesize) ps p) : Moves top cur (cur :: ps) p := by
  refine ⟨fun hdvd => hm.fits (dvd_add64_page hdvd), fun hdvd => hm.next (dvd_add64_page hdvd),
    fun htop hdvd hlt => ?_⟩
  have hnext : add64 cur pmemPagesize = cur + pmemPagesize := by
    refine add64_of_lt ?_
    omega
  have ho := hm.order htop (dvd_add64_page hdvd) (by omega)
  rw [hnext] at ho
  have hone : Ordered (pmemPagesize ∣ ·) top cur [cur] (some (cur + pmemPagesize)) := by
    refine ⟨by simpa using ⟨hlt, hdvd⟩, pairwise_singleton _ _, fun d hd => ?_, fun _ => htop⟩
    cases hd
    refine ⟨Nat.le_add_right _ _, by omega, hnext ▸ dvd_add64_page hdvd, ?_⟩
    rw [pmemPagesize]
    simp
  exact hone.append ho (fun _ h => h) (fun _ h => h)

/-- One part after the other. -/
theorem Moves.append (h : Moves top cur ps (.next d)) (h' : Moves top d qs p) :
    Moves top cur (ps ++ qs) p := by
  refine ⟨fun hdvd => h'.fits (h.next hdvd d rfl), fun hdvd => h'.next (h.next hdvd d rfl),
    fun htop hdvd hlt => ?_⟩
  have ho := h.order htop hdvd hlt
  obtain ⟨-, hd, hdvd', -⟩ := ho.next d rfl
  exact ho.append (h'.order htop hdvd' hd) (fun _ h => h) (fun _ h => h)

/-- The pages of a pass that has come to its end. -/
structure Ended (top cur : ℕ) (ps : List ℕ) : Prop where
  fits : pmemPagesize ∣ cur → cur < top → top + pmemPagesize ≤ 2 ^ 64
  order : pmemPagesize ∣ cur →
    (∀ p ∈ ps, cur ≤ p ∧ pmemPagesize ∣ p) ∧ ps.Pairwise (· < ·)

theorem Ended.empty (h : ¬cur < top) : Ended top cur [] :=
  ⟨fun _ hlt => absurd hlt h, fun _ => ⟨by simp, .nil⟩⟩

theorem Moves.ended (hlt : cur < top) (h : Moves top cur ps .passOk) : Ended top cur ps := by
  refine ⟨fun hdvd _ => h.fits hdvd rfl, fun hdvd => ?_⟩
  have ho := h.order (h.fits hdvd rfl) hdvd hlt
  exact ⟨fun p hp => ⟨(ho.page p hp).1, (ho.page p hp).2.2⟩, ho.sorted⟩

/-- One round, and the rest of the pass. -/
theorem Moves.round (hlt : cur < top) (h : Moves top cur ps (.next d))
    (h' : Ended top (add64 d pmemPagesize) qs) : Ended top cur (ps ++ qs) := by
  have hfits : pmemPagesize ∣ cur → top + pmemPagesize ≤ 2 ^ 64 := fun hdvd => by
    have hdvd' := dvd_add64_page (h.next hdvd d rfl)
    by_cases hd : add64 d pmemPagesize < top
    · exact h'.fits hdvd' hd
    · have := add_page_le hdvd' (add64_lt _ _)
      omega
  refine ⟨fun hdvd _ => hfits hdvd, fun hdvd => ?_⟩
  have ho := h.order (hfits hdvd) hdvd hlt
  obtain ⟨hcd, hd, hdvd', hps⟩ := ho.next d rfl
  have hnext : add64 d pmemPagesize = d + pmemPagesize := by
    refine add64_of_lt ?_
    omega
  obtain ⟨hqs, hsort⟩ := h'.order (dvd_add64_page hdvd')
  refine ⟨fun p hp => ?_, pairwise_append.2 ⟨ho.sorted, hsort, fun p hp q hq => ?_⟩⟩
  · rcases mem_append.1 hp with hp | hp
    · exact ⟨(ho.page p hp).1, (ho.page p hp).2.2⟩
    · exact ⟨by have := (hqs p hp).1; omega, (hqs p hp).2⟩
  · have := hps p hp
    have := (hqs q hq).1
    omega

/-! ### The checking pass follows the setting pass -/

section Follows

theorem SameShape.contains_eq (h : SameShape r r₁) :
    pmemRegContains r₁ cur = pmemRegContains r cur := by
  rw [pmemRegContains, pmemRegContains, h.start, h.length]

theorem SameShape.regbit_eq (h : SameShape r r₁) : pmemToRegbit r₁ cur = pmemToRegbit r cur := by
  rw [pmemToRegbit, pmemToRegbit, h.start]

variable [BitStore σ]

/-- The bit of a visit is clear and belongs to the page. -/
structure Seen (r : Region σ) (v : Visit) : Prop where
  clear : bmapGet r.bmap v.bit = false
  inside : pmemRegContains r v.page = true
  bit : v.bit = pmemToRegbit r v.page

/-- Every visit is one to a region of the list, which begins at place `k`. -/
def AllSeen (k : ℕ) (regs : List (Region σ)) (vs : List Visit) : Prop :=
  ∀ v ∈ vs, ∃ i r, v.region = k + i ∧ regs[i]? = some r ∧ Seen r v

/-- After the visits `vs` the checking pass has kept the region `r`, and the setting pass has marked
the bits in `r₁`. -/
structure AgreeRegion (k top cur : ℕ) (r r₁ : Region σ) (vs : List Visit)
    (c s : Pass × Region σ) : Prop where
  pass : s.1 = c.1
  going : c.1 ≠ .refused
  kept : c.2 = r
  marked : s.2 = r₁.mark (vs.map (·.bit))
  place : ∀ v ∈ vs, v.region = k
  seen : ∀ v ∈ vs, Seen r v
  moves : Moves top cur (vs.map (·.page)) c.1

/-- The same of a list of regions. -/
structure AgreeRegions (k top cur : ℕ) (regs regs₁ : List (Region σ)) (vs : List Visit)
    (c s : Pass × List (Region σ)) : Prop where
  pass : s.1 = c.1
  going : c.1 ≠ .refused
  kept : c.2 = regs
  marked : s.2 = markAll vs k regs₁
  seen : AllSeen k regs vs
  moves : Moves top cur (vs.map (·.page)) c.1

/-- The same of a whole pass. -/
structure AgreePass (top cur : ℕ) (regs regs₁ : List (Region σ)) (vs : List Visit)
    (c s : Bool × List (Region σ)) : Prop where
  done : c.1 = true ∧ s.1 = true
  kept : c.2 = regs
  marked : s.2 = markAll vs 0 regs₁
  seen : AllSeen 0 regs vs
  ended : Ended top cur (vs.map (·.page))

theorem logRegion_follows (hshape : SameShape r r₁) :
    Logged.Follows (· = (.refused, r)) (AgreeRegion k top cur r r₁) (logRegion k true top fuel r
      cur) (logRegion k false top fuel r₁ cur) := by
  induction fuel generalizing cur r₁ with
  | zero => exact .failed
  | succ fuel ih =>
    unfold logRegion
    rw [hshape.contains_eq, hshape.regbit_eq]
    by_cases hc : pmemRegContains r cur = true
    · rw [if_pos hc, if_pos hc]
      simp only [Bool.true_and, Bool.false_and, Bool.false_eq_true, if_true, if_false]
      by_cases hget : bmapGet r.bmap (pmemToRegbit r cur) = true
      · rw [if_pos hget]
        exact .early rfl (prefix_append [_] _)
      have hseen : Seen r ⟨k, pmemToRegbit r cur, cur⟩ := ⟨by simpa using hget, hc, rfl⟩
      rw [if_neg hget]
      split_ifs with htop
      · refine .done ⟨rfl, by simp, rfl, rfl, ?_, ?_, .last htop⟩
        · exact forall_mem_singleton.2 rfl
        · exact forall_mem_singleton.2 hseen
      have hmark : SameShape r { r₁ with bmap := bmapSet r₁.bmap (pmemToRegbit r cur) true } :=
        ⟨hshape.start, hshape.length, bmapSet_bits.trans hshape.bits⟩
      refine ((ih hmark).imp fun l c s h => ?_).note
      exact ⟨h.pass, h.going, h.kept, h.marked, forall_mem_cons.2 ⟨rfl, h.place⟩,
        forall_mem_cons.2 ⟨hseen, h.seen⟩, h.moves.step htop⟩
    · rw [if_neg hc, if_neg hc]
      exact .done ⟨rfl, by simp, rfl, rfl, by simp, by simp, .stay⟩

variable {c s : Pass × Region σ}

/-- The visits to the first region are visits to the list. -/
theorem AgreeRegion.allSeen (h : AgreeRegion k top cur r r₁ vs c s) :
    AllSeen k (r :: regs) vs :=
  fun v hv => ⟨0, r, h.place v hv, rfl, h.seen v hv⟩

theorem AgreeRegion.markAll_cons
    (h : AgreeRegion k top cur r r₁ vs c s) : markAll vs k (r₁ :: regs₁) = s.2 :: regs₁ := by
  rw [markAll, bitsOf_self h.place, h.marked,
    markAll_before fun v hv => (h.place v hv).trans_lt (Nat.lt_succ_self k)]

theorem AllSeen.append (h : AllSeen k regs vs) (h' : AllSeen k regs ws) :
    AllSeen k regs (vs ++ ws) :=
  forall_mem_append.2 ⟨h, h'⟩

theorem AllSeen.cons (h : AllSeen (k + 1) regs vs) : AllSeen k (r :: regs) vs := by
  intro v hv
  obtain ⟨i, s, hplace, hs, hseen⟩ := h v hv
  exact ⟨i + 1, s, by omega, hs, hseen⟩

/-- The first region is not touched by visits to the others. -/
theorem AllSeen.markAll_cons (h : AllSeen (k + 1) regs vs) :
    markAll vs k (r₁ :: regs₁) = r₁ :: markAll vs (k + 1) regs₁ := by
  rw [markAll, bitsOf_other fun v hv => ?_, mark_nil]
  obtain ⟨i, s, hplace, -⟩ := h v hv
  omega

theorem logRegions_follows (h : SameShapes regs regs₁) : ∀ {k cur : ℕ},
    Logged.Follows (· = (.refused, regs)) (AgreeRegions k top cur regs regs₁)
      (logRegions true top fuel k regs cur) (logRegions false top fuel k regs₁ cur) := by
  induction h with
  | nil => intro k cur; exact .done ⟨rfl, by simp, rfl, rfl, by simp [AllSeen], .stay⟩
  | @cons r r₁ regs regs₁ hr _ ih =>
    intro k cur
    refine (logRegion_follows hr).bind ?_ ?_
    · rintro a rfl
      exact ⟨_, rfl, rfl⟩
    rintro vs ⟨p, q⟩ ⟨p', q1⟩ h
    obtain rfl : p' = p := h.pass
    obtain rfl : q = r := h.kept
    cases p' with
    | refused => exact absurd rfl h.going
    | passOk =>
      refine .done ⟨rfl, by simp, rfl, ?_, ?_, ?_⟩
      · rw [append_nil, h.markAll_cons]
      · rw [append_nil]
        exact h.allSeen
      · rw [append_nil]
        exact h.moves
    | next d =>
      refine ih.bind ?_ ?_
      · rintro a rfl
        exact ⟨_, rfl, rfl⟩
      rintro ws ⟨p, qs⟩ ⟨p', qs1⟩ h'
      obtain rfl : p' = p := h'.pass
      obtain rfl : qs = regs := h'.kept
      refine .done ⟨rfl, h'.going, rfl, ?_, ?_, ?_⟩
      · rw [append_nil, markAll_append, h.markAll_cons, h'.seen.markAll_cons, h'.marked]
      · rw [append_nil]
        exact h.allSeen.append h'.seen.cons
      · rw [append_nil, map_append]
        exact h.moves.append h'.moves

/-- **The checking pass takes the visits of the setting pass**, one after the other, until it finds
a bit that is set. -/
theorem logPass_follows (hshape : SameShapes regs regs₁) :
    Logged.Follows (· = (false, regs)) (AgreePass top cur regs regs₁) (logPass true top fuel regs
      cur) (logPass false top fuel regs₁ cur) := by
  induction fuel generalizing cur regs₁ with
  | zero => exact .failed
  | succ fuel ih =>
    unfold logPass
    split_ifs with hlt
    · refine (logRegions_follows hshape).bind ?_ ?_
      · rintro a rfl
        exact ⟨_, rfl, rfl⟩
      rintro vs ⟨p, qs⟩ ⟨p', qs1⟩ h
      obtain rfl : p' = p := h.pass
      obtain rfl : qs = regs := h.kept
      obtain rfl : qs1 = markAll vs 0 regs₁ := h.marked
      cases p' with
      | refused => exact absurd rfl h.going
      | passOk =>
        refine .done ⟨⟨rfl, rfl⟩, rfl, ?_, ?_, ?_⟩
        · rw [append_nil]
        · rw [append_nil]
          exact h.seen
        · rw [append_nil]
          exact h.moves.ended hlt
      | next d =>
        have hmark : SameShapes qs (markAll vs 0 regs₁) := hshape.trans markAll_shapes
        refine (ih hmark).imp fun ws c s h' => ⟨h'.done, h'.kept, ?_, ?_, ?_⟩
        · rw [h'.marked, markAll_append]
        · exact h.seen.append h'.seen
        · rw [map_append]
          exact h.moves.round hlt h'.ended
    · exact .done ⟨⟨rfl, rfl⟩, rfl, (markAll_before (by simp)).symm, by simp [AllSeen], .empty hlt⟩

end Follows

/-! ### All or nothing -/

/-- What a reservation that visits the bits `js` of the region `r` makes of it.  `bmap_set` does
nothing behind the end of the bitmap; there are no such visits if the bitmap has a bit for each
page. -/
structure Reserved [BitStore σ] (js : List ℕ) (r r' : Region σ) : Prop where
  shape : SameShape r r'
  hint : r'.bmap.hint = r.bmap.hint
  nodup : js.Nodup
  clear : ∀ j ∈ js, bmapGet r.bmap j = false
  bit : ∀ j, readBit r'.bmap.storage j =
    if j ∈ js ∧ j ≤ r.bmap.bits then true else readBit r.bmap.storage j
  count : r.bmap.setCnt < 2 ^ 64 →
    r'.bmap.setCnt = add64 r.bmap.setCnt (js.filter (· ≤ r.bmap.bits)).length
  inside : r.Shaped → r.length + pmemPagesize ≤ 2 ^ 64 → ∀ j ∈ js, j < r.bmap.bits

variable {a : ℕ}

/-- A region contains only addresses from its start on, and no more than its length. -/
theorem lt_of_contains (h : pmemRegContains r a = true) :
    r.start ≤ a ∧ a < 2 ^ 64 ∧ a < r.start + r.length := by
  rw [pmemRegContains, Bool.and_eq_true, decide_eq_true_eq, decide_eq_true_eq] at h
  exact ⟨h.1, h.2.trans (add64_lt _ _), h.2.trans_le (Nat.mod_le _ _)⟩

theorem regbit_of_contains (h : pmemRegContains r a = true) (hdvd : pmemPagesize ∣ a) :
    pmemToRegbit r a = (a - r.start) / 4096 := by
  obtain ⟨hle, hlt, -⟩ := lt_of_contains h
  obtain ⟨i, rfl⟩ := hdvd
  have hmod : pmemPagesize * i % 4096 = 0 := Nat.mul_mod_right 4096 i
  rw [pmemToRegbit, alignDn_pmemPagesize, hmod, Nat.sub_zero, sub64_of_le hle hlt, pmemPagesize]

/-- The pages of a region have different bits. -/
theorem regbit_lt {b : ℕ} (ha : pmemRegContains r a = true) (hb : pmemRegContains r b = true)
    (hda : pmemPagesize ∣ a) (hdb : pmemPagesize ∣ b) (hlt : a < b) :
    pmemToRegbit r a < pmemToRegbit r b := by
  rw [regbit_of_contains ha hda, regbit_of_contains hb hdb]
  obtain ⟨hle, -⟩ := lt_of_contains ha
  obtain ⟨i, rfl⟩ := hda
  obtain ⟨j, rfl⟩ := hdb
  rw [pmemPagesize] at hlt hle ⊢
  omega

/-- A bitmap with a bit for each page has one for each page that the region contains. -/
theorem Region.Shaped.regbit_lt_bits (hr : r.Shaped)
    (hlen : r.length + pmemPagesize ≤ 2 ^ 64) (ha : pmemRegContains r a = true)
    (hda : pmemPagesize ∣ a) : pmemToRegbit r a < r.bmap.bits := by
  rw [regbit_of_contains ha hda, hr.bits, pmemPages_eq hlen]
  obtain ⟨hle, -, hlt⟩ := lt_of_contains ha
  omega

section Exact

variable [BitStore σ]

@[simp] theorem mark_hint : (r.mark js).bmap.hint = r.bmap.hint := by
  induction js generalizing r with
  | nil => rfl
  | cons j js ih => rw [mark_cons, ih, bmapSet_hint]

theorem mark_setCnt (h : r.bmap.setCnt < 2 ^ 64) :
    (r.mark js).bmap.setCnt = add64 r.bmap.setCnt (js.filter (· ≤ r.bmap.bits)).length := by
  induction js generalizing r with
  | nil =>
    have hzero : add64 r.bmap.setCnt 0 = r.bmap.setCnt := add64_of_lt h
    exact hzero.symm
  | cons j js ih =>
    rw [mark_cons, filter_cons]
    by_cases hj : j ≤ r.bmap.bits
    · have hset : (bmapSet r.bmap j true).setCnt = add64 r.bmap.setCnt 1 := by
        rw [bmapSet, if_neg (by omega)]
        simp
      have hword : (bmapSet r.bmap j true).setCnt < 2 ^ 64 := hset ▸ add64_lt _ _
      have hrest := ih (r := { r with bmap := bmapSet r.bmap j true }) hword
      simp only [hset, bmapSet_bits] at hrest
      rw [hrest, if_pos (by simpa using hj), length_cons]
      simp only [add64]
      omega
    · have hset : bmapSet r.bmap j true = r.bmap := if_pos (by omega)
      rw [hset, if_neg (by simpa using hj)]
      exact ih h

/-- The visits to one region: the bits come in increasing order, are clear, and are those of pages
that the region contains. -/
theorem AgreePass.bitsOf {addr : ℕ} {regs' : List (Region σ)} {c s : Bool × List (Region σ)}
    (h : AgreePass top addr regs regs' vs c s) (haddr : pmemPagesize ∣ addr)
    (hr : regs[k]? = some r) :
    (bitsOf k vs).Pairwise (· < ·) ∧ ∀ j ∈ bitsOf k vs, bmapGet r.bmap j = false ∧
      ∃ a, pmemPagesize ∣ a ∧ pmemRegContains r a = true ∧ j = pmemToRegbit r a := by
  obtain ⟨hdvd, hsort⟩ := h.ended.order haddr
  have hseen : ∀ v ∈ vs, v.region = k → Seen r v := fun v hv hk => by
    obtain ⟨i, q, hplace, hq, hseen⟩ := h.seen v hv
    obtain rfl : i = k := by omega
    rw [hr] at hq
    cases hq
    exact hseen
  have hpage : ∀ v ∈ vs, pmemPagesize ∣ v.page := fun v hv =>
    (hdvd _ (mem_map_of_mem hv)).2
  refine ⟨?_, fun j hj => ?_⟩
  · rw [Pmem.bitsOf, pairwise_map, pairwise_filter]
    refine (pairwise_map.1 hsort).imp_of_mem fun {v w} hv hw hlt hvk hwk => ?_
    have hsv := hseen v hv (by simpa using hvk)
    have hsw := hseen w hw (by simpa using hwk)
    rw [hsv.bit, hsw.bit]
    exact regbit_lt hsv.inside hsw.inside (hpage v hv) (hpage w hw) hlt
  · obtain ⟨v, hv, rfl⟩ := mem_map.1 hj
    obtain ⟨hv, hvk⟩ := mem_filter.1 hv
    have hsv := hseen v hv (by simpa using hvk)
    exact ⟨hsv.clear, v.page, hpage v hv, hsv.inside, hsv.bit⟩

variable [ExactBits σ]

theorem mark_bit : readBit (r.mark js).bmap.storage j =
    if j ∈ js ∧ j ≤ r.bmap.bits then true else readBit r.bmap.storage j := by
  induction js generalizing r with
  | nil => simp
  | cons i js ih =>
    rw [mark_cons, ih]
    by_cases hi : i ≤ r.bmap.bits
    · have hset : readBit (bmapSet r.bmap i true).storage j =
          if j = i then true else readBit r.bmap.storage j := by
        rw [bmapSet, if_neg (by omega), readBit_writeBit]
      by_cases hji : j = i
      · subst hji
        simp [hset, hi]
      · simp [hset, hji]
    · have hset : bmapSet r.bmap i true = r.bmap := if_pos (by omega)
      rw [hset]
      by_cases hji : j = i
      · subst hji
        simp [hi]
      · simp [hji]

/-- **A reservation is all or nothing**, for any regions and any range: the checking pass looks at
the same bits as the setting pass in the same order, up to the first one that is set.  If it finds
one, nothing has changed.  If the reservation succeeds, every bit it sets was clear and is set once,
so that `set_cnt` grows by their number. -/
theorem reserve_all_or_nothing (fuel addr length : ℕ) (regs : List (Region σ)) :
    let check := logPass true (add64 addr length) fuel regs addr
    let set := logPass false (add64 addr length) fuel regs addr
    check.result = reservePass true (add64 addr length) fuel regs addr ∧
    set.result = reservePass false (add64 addr length) fuel regs addr ∧
    check.events <+: set.events ∧
    (check.result ≠ .ok (false, regs) → check.events = set.events) ∧
    (∀ regs', pmemReserve fuel addr length regs = .ok (false, regs') → regs' = regs) ∧
    ∀ regs', pmemReserve fuel addr length regs = .ok (true, regs') →
      check.result = .ok (true, regs) ∧ set.result = .ok (true, regs') ∧
      regs'.length = regs.length ∧
      ∀ k r, regs[k]? = some r → ∃ r', regs'[k]? = some r' ∧
        Reserved (bitsOf k set.events) r r' := by
  intro check set
  have hfollows : Logged.Follows (· = (false, regs)) (AgreePass (add64 addr length) addr regs regs)
      check set := logPass_follows (SameShapes.refl regs)
  have hcheck : check.result = reservePass true (add64 addr length) fuel regs addr :=
    logPass_result
  have hset : set.result = reservePass false (add64 addr length) fuel regs addr := logPass_result
  clear_value check set
  refine ⟨hcheck, hset, hfollows.events_prefix, fun hne => ?_, fun regs' h => ?_, fun regs' h => ?_⟩
  · refine hfollows.events_eq fun a ha hstop => hne ?_
    rw [ha, hstop]
  · obtain ⟨-, ⟨-, hfirst⟩ | ⟨hdone, -⟩⟩ := pmemReserve_cases h
    · rw [← hcheck] at hfirst
      cases hfollows with
      | early hstop _ => exact congrArg Prod.snd ((Except.ok.inj hfirst).symm.trans hstop)
      | failed => cases hfirst
      | done hagree =>
        have hkept := hagree.kept
        rw [Except.ok.inj hfirst] at hkept
        exact hkept
    · cases hdone
  · obtain ⟨haddr, ⟨hdone, -⟩ | ⟨-, regs₁, b, hfirst, hsecond⟩⟩ := pmemReserve_cases h
    · cases hdone
    rw [← hcheck] at hfirst
    cases hfollows with
    | early hstop _ =>
      rw [Except.ok.inj hfirst] at hstop
      cases hstop
    | failed => cases hfirst
    | @done l c s hagree =>
      obtain rfl : c = (true, regs₁) := Except.ok.inj hfirst
      obtain rfl : regs₁ = regs := hagree.kept
      rw [← hset] at hsecond
      obtain rfl : s = (b, regs') := Except.ok.inj hsecond
      obtain rfl : b = true := hagree.done.2
      obtain rfl : regs' = markAll l 0 regs₁ := hagree.marked
      refine ⟨rfl, rfl, markAll_length, fun k r hr => ⟨r.mark (bitsOf k l), ?_, ?_⟩⟩
      · rw [markAll_getElem?, hr, Nat.zero_add]
        rfl
      · obtain ⟨hsort, hbits⟩ := hagree.bitsOf haddr hr
        refine ⟨mark_shape, mark_hint, hsort.imp Nat.ne_of_lt, fun j hj => (hbits j hj).1,
          fun j => mark_bit, mark_setCnt, fun hshaped hlen j hj => ?_⟩
        obtain ⟨-, a, hdvd, hin, rfl⟩ := hbits j hj
        exact hshaped.regbit_lt_bits hlen hin hdvd

end Exact

/-- Two pages in two regions. -/
theorem reserve_all_or_nothing_pages :
    let lower : Region (ℕ → Bool) := ⟨⟨fun _ => false, 1, 0, 0⟩, 0x1000, 0x1000⟩
    let upper : Region (ℕ → Bool) := ⟨⟨fun _ => false, 2, 0, 0⟩, 0x2000, 0x2000⟩
    ∃ regs', pmemReserve 8 0x1000 0x2000 [lower, upper] = .ok (true, regs') ∧
      ∃ r', regs'[1]? = some r' ∧ Reserved [0] upper r' := by
  intro lower upper
  have hcall := Prog.eq_ok_of_value
    (show (pmemReserve 8 0x1000 0x2000).value [lower, upper] = some true by decide)
  refine ⟨_, hcall, ?_⟩
  have hevents : bitsOf 1 (logPass false (add64 0x1000 0x2000) 8 [lower, upper] 0x1000).events =
      [0] := by decide
  rw [← hevents]
  obtain ⟨-, -, -, -, -, htrue⟩ := reserve_all_or_nothing 8 0x1000 0x2000 [lower, upper]
  exact (htrue _ hcall).2.2.2 1 upper rfl

end Tachyon.Pmem
