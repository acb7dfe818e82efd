import Tachyon.Stka.Model

/-!
# The pages of stacks

What the functions of a stack allocator do to the pages of its address space.  A frame that is mapped
anywhere is in use, so every page of a stack has a frame of its own.

* `Frames`: the invariant of the mapped frames; `Changed`: a range of pages was mapped or unmapped;
* `Fills`: frames were mapped for the pages of a range, perhaps not for all of them;
* `growPages_spec`, `stkaGrow_spec`, `stkaPgflt_spec`, `stkaAlloc_spec`, `freePages_spec`,
  `stkaFree_spec`: the functions.
-/

namespace Tachyon.Stka

open Prog Function

variable {d : Desc} {s s' : State} {a stk fault i : ℕ} {lo mid hi : ℕ}

/-! ### Pages and frames -/

/-- The page `q` starts between two addresses. -/
def Within (lo hi q : ℕ) : Prop := lo ≤ q * stkPagesize ∧ q * stkPagesize < hi

/-- Frames that are mapped are in use, and one in the region is mapped only once. -/
structure Frames (d : Desc) (s : State) : Prop where
  used : ∀ {sp q f fl}, s.maps sp q = some (f, fl) → s.inUse f = true
  own : ∀ {q f fl sp q' fl'}, Within d.bottom d.top q → s.maps d.space q = some (f, fl) →
    s.maps sp q' = some (f, fl') → sp = d.space ∧ q' = q

/-- The pages between `lo` and `hi` have entries in `P`, and nothing else has changed. -/
structure Changed (d : Desc) (P : Option (ℕ × ℕ) → Prop) (lo hi : ℕ)
    (m m' : ℕ → ℕ → Option (ℕ × ℕ)) : Prop where
  inside : ∀ {q}, Within lo hi q → P (m' d.space q)
  outside : ∀ {sp q}, ¬ (sp = d.space ∧ Within lo hi q) → m' sp q = m sp q

/-- The pages were mapped. -/
abbrev Grown (d : Desc) := Changed d fun e => ∃ f, e = some (f, d.pgFl)

/-- The pages are no longer mapped. -/
abbrev Shrunk (d : Desc) := Changed d fun e => e = none

section Changed

variable {P : Option (ℕ × ℕ) → Prop} {m m' m'' : ℕ → ℕ → Option (ℕ × ℕ)}

theorem Changed.refl (m : ℕ → ℕ → Option (ℕ × ℕ)) : Changed d P lo lo m m :=
  ⟨fun h => absurd h.2 (not_lt.2 h.1), fun _ => rfl⟩

theorem Changed.trans (hlo : lo ≤ mid) (hhi : mid ≤ hi) (h : Changed d P lo mid m m')
    (h' : Changed d P mid hi m' m'') : Changed d P lo hi m m'' := by
  constructor
  · intro q hq
    by_cases hmid : Within mid hi q
    · exact h'.inside hmid
    · rw [h'.outside fun hc => hmid hc.2]
      exact h.inside ⟨hq.1, by unfold Within at *; omega⟩
  · intro sp q hq
    rw [h'.outside fun hc => hq ⟨hc.1, hlo.trans hc.2.1, hc.2.2⟩,
      h.outside fun hc => hq ⟨hc.1, hc.2.1, hc.2.2.trans_le hhi⟩]

/-- One page. -/
theorem changed_page {e : Option (ℕ × ℕ)} (hi : i % stkPagesize = 0) (he : P e) :
    Changed d P i (i + stkPagesize) m (update m d.space
      (update (m d.space) (i / stkPagesize) e)) := by
  have hq : ∀ q, Within i (i + stkPagesize) q ↔ q = i / stkPagesize := by
    unfold Within stkPagesize at *
    omega
  constructor
  · intro q hin
    rw [hq] at hin
    subst hin
    rw [update_self, update_self]
    exact he
  · intro sp q hout
    by_cases hsp : sp = d.space
    · subst hsp
      rw [update_self, update_of_ne]
      exact fun h => hout ⟨rfl, (hq q).2 h⟩
    · rw [update_of_ne hsp]

end Changed

/-- The parts of the state that mapping pages leaves alone. -/
structure Same (s s' : State) : Prop where
  allocator : s'.allocator = s.allocator
  stack : s'.stack = s.stack
  cr3 : s'.cr3 = s.cr3

theorem Same.refl (s : State) : Same s s := ⟨rfl, rfl, rfl⟩

theorem Same.trans {s1 s2 s3 : State} (h : Same s1 s2) (h' : Same s2 s3) : Same s1 s3 :=
  ⟨h'.allocator.trans h.allocator, h'.stack.trans h.stack, h'.cr3.trans h.cr3⟩

/-- Neither the mappings nor the frames in use have changed. -/
structure Quiet (s s' : State) : Prop extends Same s s' where
  maps : s'.maps = s.maps
  inUse : s'.inUse = s.inUse

theorem Frames.quiet (h : Frames d s) (hq : Quiet s s') : Frames d s' := by
  constructor
  · rw [hq.maps, hq.inUse]
    exact h.used
  · rw [hq.maps]
    exact h.own

theorem registerPage_spec (phys i : ℕ) : wlp (registerPage d phys i) (fun _ s' => Quiet s s') s := by
  refine wlp_ite (fun _ => ?_) (fun _ => wlp_pure ⟨.refl s, rfl, rfl⟩)
  rintro _ _ ⟨⟩
  exact ⟨⟨rfl, rfl, rfl⟩, rfl, rfl⟩

theorem clearPage_spec (i : ℕ) : wlp (clearPage d i) (fun _ s' => Quiet s s') s := by
  refine wlp_get_bind (wlp_ite (fun _ => ?_) (fun _ => wlp_pure ⟨.refl s, rfl, rfl⟩))
  intro _ s' h
  unfold memset at h
  split_ifs at h
  split at h
  · cases h
  · cases h
    exact ⟨⟨rfl, rfl, rfl⟩, rfl, rfl⟩

/-! ### Growing -/

variable {q : ℕ} {st : Stack} {al : Allocator}

/-- A new frame for a page that has none. -/
theorem Frames.map {f fl : ℕ} (h : Frames d s) (hnone : s.maps d.space q = none)
    (hf : s.inUse f = false)
    (hmaps : s'.maps = update s.maps d.space (update (s.maps d.space) q (some (f, fl))))
    (hused : s'.inUse = update s.inUse f true) : Frames d s' := by
  have hentry : ∀ {sp q' f' fl'}, s'.maps sp q' = some (f', fl') →
      (sp = d.space ∧ q' = q ∧ f' = f) ∨ (s.maps sp q' = some (f', fl') ∧ f' ≠ f) := by
    intro sp q' f' fl' hm
    rw [hmaps] at hm
    rcases entry_update hm with ⟨hsp, hq, hnew⟩ | ⟨-, hold⟩
    · cases hnew
      exact .inl ⟨hsp, hq, rfl⟩
    · refine .inr ⟨hold, ?_⟩
      rintro rfl
      rw [h.used hold] at hf
      cases hf
  constructor
  · intro sp q' f' fl' hm
    rw [hused]
    rcases hentry hm with ⟨-, -, rfl⟩ | ⟨hold, hne⟩
    · rw [update_self]
    · rw [update_of_ne hne]
      exact h.used hold
  · intro q1 f1 fl1 sp q2 fl2 hin h1 h2
    rcases hentry h1 with ⟨-, rfl, rfl⟩ | ⟨hold1, hne1⟩
    · rcases hentry h2 with ⟨hsp, hq, -⟩ | ⟨-, hne2⟩
      · exact ⟨hsp, hq⟩
      · exact absurd rfl hne2
    · rcases hentry h2 with ⟨-, -, rfl⟩ | ⟨hold2, -⟩
      · exact absurd rfl hne1
      · exact h.own hin hold1 hold2

/-- What growing from `hi` down to `lo` does to the pages: only those between the two are mapped, all
of them if `ok`, each with a new frame.  It fails if one of them was mapped before. -/
structure Fills (d : Desc) (lo hi : ℕ) (ok : Bool) (s s' : State) : Prop where
  outside : ∀ {sp q}, ¬ (sp = d.space ∧ Within lo hi q) → s'.maps sp q = s.maps sp q
  inside : ok = true → ∀ {q}, Within lo hi q → ∃ f, s'.maps d.space q = some (f, d.pgFl)
  frames : Frames d s → Frames d s'
  unmapped : ok = true ↔ ∀ q, Within lo hi q → s.maps d.space q = none

section Fills

variable {s1 s2 : State} {ok : Bool}

theorem Fills.grown (h : Fills d lo hi true s s') : Grown d lo hi s.maps s'.maps :=
  ⟨h.inside rfl, h.outside⟩

/-- No pages. -/
theorem Fills.refl (h : hi ≤ lo) (s : State) : Fills d lo hi true s s :=
  have hnone : ∀ q, ¬ Within lo hi q := fun _ hq => absurd (hq.1.trans_lt hq.2) (not_lt.2 h)
  ⟨fun _ => rfl, fun _ q hq => absurd hq (hnone q), id,
    iff_of_true rfl fun q hq => absurd hq (hnone q)⟩

theorem Fills.trans (hlo : lo ≤ mid) (hhi : mid ≤ hi) (h : Fills d lo mid true s s1)
    (h' : Fills d mid hi ok s1 s2) : Fills d lo hi ok s s2 := by
  refine ⟨fun {sp q} hq => ?_, fun hok q hq => ?_, h'.frames ∘ h.frames, fun hok q hq => ?_,
    fun hnone => ?_⟩
  · rw [h'.outside fun hc => hq ⟨hc.1, hlo.trans hc.2.1, hc.2.2⟩,
      h.outside fun hc => hq ⟨hc.1, hc.2.1, hc.2.2.trans_le hhi⟩]
  · by_cases hmid : Within mid hi q
    · exact h'.inside hok hmid
    · rw [h'.outside fun hc => hmid hc.2]
      exact h.inside rfl ⟨hq.1, by unfold Within at *; omega⟩
  · by_cases hmid : Within mid hi q
    · rw [← h.outside fun hc => absurd hc.2.2 (not_lt.2 hmid.1)]
      exact h'.unmapped.1 hok q hmid
    · exact h.unmapped.1 rfl q ⟨hq.1, by unfold Within at *; omega⟩
  · refine h'.unmapped.2 fun q hq => ?_
    rw [h.outside fun hc => absurd hc.2.2 (not_lt.2 hq.1)]
    exact hnone q ⟨hlo.trans hq.1, hq.2⟩

/-- A page that cannot be mapped ends the loop. -/
theorem Fills.fail (hhi : mid ≤ hi) (h : Fills d lo mid false s s') : Fills d lo hi false s s' :=
  ⟨fun hq => h.outside fun hc => hq ⟨hc.1, hc.2.1, hc.2.2.trans_le hhi⟩, nofun, h.frames,
    nofun, fun hnone => h.unmapped.2 fun q hq => hnone q ⟨hq.1, hq.2.trans_le hhi⟩⟩

/-- The parts of the state that are not about pages do not matter. -/
theorem Fills.congr (h : Fills d lo hi ok s1 s2) (hmaps : s.maps = s1.maps)
    (hused : s.inUse = s1.inUse) (hmaps' : s'.maps = s2.maps) (hused' : s'.inUse = s2.inUse) :
    Fills d lo hi ok s s' := by
  refine ⟨?_, ?_, fun hf => ?_, ?_⟩
  · rw [hmaps, hmaps']
    exact h.outside
  · rw [hmaps']
    exact h.inside
  · have hf2 := h.frames ⟨hmaps ▸ hused ▸ hf.used, hmaps ▸ hf.own⟩
    exact ⟨hmaps' ▸ hused' ▸ hf2.used, hmaps' ▸ hf2.own⟩
  · rw [hmaps]
    exact h.unmapped

end Fills

theorem growPage_spec (hi : i % stkPagesize = 0) :
    wlp (growPage d i) (fun ok s' => Same s s' ∧ Fills d i (i + stkPagesize) ok s s') s := by
  have hpage : Within i (i + stkPagesize) (i / stkPagesize) := by unfold Within stkPagesize at *; omega
  refine wlp_bind fun f s1 hf => ?_
  obtain ⟨hfree, fs, rfl⟩ := pmemAlloc_spec f s1 hf
  refine wlp_bind fun ok s2 hmap => ?_
  cases hold : s.maps d.space (i / stkPagesize) with
  | some e =>
    -- the frame is taken and not used
    simp only [vmemMap, hold, Except.ok.injEq, Prod.mk.injEq] at hmap
    obtain ⟨rfl, rfl⟩ := hmap
    refine wlp_ite (fun hc => nomatch hc) (fun _ => wlp_pure ⟨⟨rfl, rfl, rfl⟩, fun _ => rfl, nofun,
      fun h => ⟨fun hm => ?_, h.own⟩, nofun, fun hnone => ?_⟩)
    · dsimp only
      rw [update_apply]
      split_ifs
      · rfl
      · exact h.used hm
    · rw [hnone _ hpage] at hold
      cases hold
  | none =>
    simp only [vmemMap, hold, Except.ok.injEq, Prod.mk.injEq] at hmap
    obtain ⟨rfl, rfl⟩ := hmap
    refine wlp_bind fun _ s3 hreg => wlp_bind fun _ s4 hclear => wlp_pure ?_
    have h3 := registerPage_spec _ _ _ _ hreg
    have h4 := clearPage_spec _ _ _ hclear
    have hchanged : Grown d i (i + stkPagesize) s.maps s4.maps := by
      rw [h4.maps, h3.maps]
      exact changed_page hi ⟨f, rfl⟩
    refine ⟨Same.trans ⟨h3.allocator, h3.stack, h3.cr3⟩ h4.toSame, hchanged.outside,
      fun _ _ hq => hchanged.inside hq, fun h => (Frames.quiet ?_ h3).quiet h4, fun _ q hq => ?_,
      fun _ => rfl⟩
    · exact h.map hold hfree rfl rfl
    · have hq : q = i / stkPagesize := by unfold Within stkPagesize at *; omega
      rw [hq, hold]

/-- The loop of `stka_grow`. -/
theorem growPages_spec (hlt : hi < 2 ^ 64) (hhi : hi % stkPagesize = 0) (n i : ℕ) (s : State)
    (hn : hi ≤ i + n * stkPagesize) (hi0 : i % stkPagesize = 0) :
    wlp (growPages d hi n i) (fun ok s' => Same s s' ∧ Fills d i hi ok s s') s := by
  induction n generalizing i s with
  | zero => exact wlp_pure ⟨.refl s, .refl (by omega) s⟩
  | succ n ih =>
    refine wlp_ite (fun hc => ?_) (fun hc => wlp_pure ⟨.refl s, .refl (not_lt.1 hc) s⟩)
    unfold stkPagesize at hn hi0 hhi
    have hle : i + stkPagesize ≤ hi := by unfold stkPagesize; omega
    refine wlp_bind fun ok s1 hok => ?_
    obtain ⟨hsame, hfills⟩ := growPage_spec hi0 ok s1 hok
    cases ok with
    | false => exact wlp_ite (fun hc => nomatch hc) (fun _ => wlp_pure ⟨hsame, hfills.fail hle⟩)
    | true =>
      have hnext : add64 i stkPagesize = i + stkPagesize := add64_of_lt (by omega)
      rw [hnext]
      refine wlp_mono (ih (i + stkPagesize) s1 (by unfold stkPagesize; omega)
        (by unfold stkPagesize; omega)) ?_
      rintro ok s2 ⟨hsame', hfills'⟩
      exact ⟨hsame.trans hsame', hfills.trans (Nat.le_add_right _ _) hle hfills'⟩

/-- The region of an allocator. -/
structure Desc.Ok (d : Desc) : Prop where
  bottom : d.bottom % stkPagesize = 0
  top : d.top % stkPagesize = 0
  lt : d.top < 2 ^ 64

/-- `stka_grow` refuses to grow, or it fills the pages down to the new end; the descriptor follows if
there was none that could not be mapped. -/
theorem stkaGrow_spec {amount : ℕ} (hdesc : (s.allocator a).desc = d)
    (hst : s.stack stk = some st) (hmapped : st.mapped % stkPagesize = 0)
    (hlt : st.mapped < 2 ^ 64) (hamount : amount < 2 ^ 64) :
    wlp (stkaGrow a stk amount) (fun ok s' =>
      ((amount % stkPagesize ≠ 0 ∨ sub64 st.mapped amount < st.guard) ∧ ok = false ∧ s' = s) ∨
      (amount % stkPagesize = 0 ∧ st.guard ≤ sub64 st.mapped amount ∧
        s'.allocator = s.allocator ∧ s'.cr3 = s.cr3 ∧
        s'.stack = (if ok then update s.stack stk
          (some { st with mapped := sub64 st.mapped amount }) else s.stack) ∧
        Fills d (sub64 st.mapped amount) st.mapped ok s s')) s := by
  refine wlp_ite (fun hc => wlp_pure (.inl ⟨.inl hc, rfl, rfl⟩)) (fun hmod => ?_)
  rw [not_not] at hmod
  refine wlp_bind fun st' s1 hload => ?_
  obtain ⟨rfl, rfl⟩ := loadStack_of_stack hst hload
  refine wlp_ite (fun hc => wlp_pure (.inl ⟨.inr hc, rfl, rfl⟩)) (fun hguard => ?_)
  refine wlp_get_bind (wlp_bind fun ok s1 hok => ?_)
  rw [hdesc] at hok
  have hlo : sub64 st.mapped amount % stkPagesize = 0 ∧
      st.mapped ≤ sub64 st.mapped amount + amount / stkPagesize * stkPagesize := by
    unfold sub64 stkPagesize at *
    omega
  obtain ⟨hsame, hfills⟩ := growPages_spec hlt hmapped _ _ s hlo.2 hlo.1 ok s1 hok
  cases ok with
  | false =>
    exact wlp_ite (fun hc => nomatch hc) (fun _ => wlp_pure (.inr ⟨hmod, not_lt.1 hguard,
      hsame.allocator, hsame.cr3, hsame.stack, hfills⟩))
  | true =>
    refine wlp_ite (fun _ => wlp_bind ?_) (absurd rfl)
    rintro _ _ ⟨⟩
    refine wlp_pure (.inr ⟨hmod, not_lt.1 hguard, hsame.allocator, hsame.cr3, ?_,
      hfills.congr rfl rfl rfl rfl⟩)
    dsimp only
    rw [if_pos rfl, hsame.stack]

/-- The amount by which `stka_pgflt` grows a stack leads to the page of the fault, below the mapped
part and also, by two wrap-arounds, above its end. -/
theorem sub64_amount {mapped : ℕ} (hmapped : mapped % stkPagesize = 0) (hfault : fault < 2 ^ 64) :
    alignUp (sub64 mapped fault) stkPagesize < 2 ^ 64 ∧
    alignUp (sub64 mapped fault) stkPagesize % stkPagesize = 0 ∧
    sub64 mapped (alignUp (sub64 mapped fault) stkPagesize) = fault - fault % stkPagesize := by
  rw [show stkPagesize = 2 ^ 12 from rfl] at *
  rw [alignUp_two_pow]
  unfold add64 sub64
  omega

theorem stkaPgflt_spec (hdesc : (s.allocator a).desc = d)
    (hst : s.stack stk = some st) (hguard : st.guard % stkPagesize = 0)
    (hmapped : st.mapped % stkPagesize = 0) (hle : st.mapped ≤ st.top) (hlt : st.top < 2 ^ 64) :
    wlp (stkaPgflt a stk fault) (fun ok s' =>
      ((fault ≤ st.guard ∨ st.top ≤ fault) ∧ ok = false ∧ s' = s) ∨
      (st.guard < fault ∧ fault < st.top ∧ s'.allocator = s.allocator ∧ s'.cr3 = s.cr3 ∧
        s'.stack = (if ok then update s.stack stk
          (some { st with mapped := fault - fault % stkPagesize }) else s.stack) ∧
        Fills d (fault - fault % stkPagesize) st.mapped ok s s')) s := by
  refine wlp_bind fun st' s1 hload => ?_
  obtain ⟨rfl, rfl⟩ := loadStack_of_stack hst hload
  refine wlp_ite (fun hc => wlp_pure (.inl ⟨hc, rfl, rfl⟩)) (fun hin => ?_)
  rw [not_or, not_le, not_le] at hin
  obtain ⟨hamount, hmod, hlo⟩ := sub64_amount hmapped (hin.2.trans hlt)
  refine wlp_mono (stkaGrow_spec hdesc hst hmapped (hle.trans_lt hlt) hamount) ?_
  rw [hlo]
  rintro ok s' (⟨hrefused, -⟩ | ⟨-, -, hgrow⟩)
  · exact absurd hrefused (by unfold stkPagesize at *; omega)
  · exact .inr ⟨hin.1, hin.2, hgrow⟩

/-! ### Handing out -/

/-- The whole range of the next stack fits between the bottom of the region and the stacks above.
Behind a stack at the address `0` nothing fits: `next_stk` has wrapped around. -/
def Allocator.Fits (al : Allocator) : Prop :=
  al.desc.bottom + al.desc.reserve ≤ al.nextStk ∧ (al.desc.bottom = 0 → al.nextStk ≤ al.desc.top)

theorem Desc.reserve_eq (d : Desc) :
    d.reserve = 4 * stkPagesize ∨ d.reserve = 256 * stkPagesize := by
  unfold Desc.reserve
  split_ifs
  · exact .inl rfl
  · exact .inr rfl

theorem Desc.commit_spec (d : Desc) :
    d.commit % stkPagesize = 0 ∧ d.commit ≤ d.reserve ∧ d.commit < 2 ^ 64 := by
  unfold Desc.commit Desc.reserve
  split_ifs <;> decide

theorem stkInitsize_le_reserve (d : Desc) : stkInitsize ≤ d.reserve := by
  unfold Desc.reserve
  split_ifs <;> decide

theorem newStack_spec : wlp (newStack stk st) (fun _ s' => stk ≠ 0 ∧
    s.stack stk = none ∧ s' = { s with stack := update s.stack stk (some st) }) s := by
  intro _ s' h
  unfold newStack at h
  split_ifs at h with hzero hsome
  cases h
  exact ⟨hzero, by simpa using hsome, rfl⟩

/-- `stka_alloc` returns `NULL` with the lock held, or hands out the range below the stacks before,
whatever becomes of its first pages. -/
theorem stkaAlloc_spec (hal : s.allocator a = al)
    (hnext : al.nextStk % stkPagesize = 0) (hlt : al.nextStk < 2 ^ 64) :
    wlp (stkaAlloc a stk) (fun r s' =>
      (al.Full ∧ r = 0 ∧ s' = (lock a).put true s) ∨
      (¬ al.Full ∧ r = stk ∧ stk ≠ 0 ∧ s.stack stk = none ∧
        s'.allocator = update s.allocator a { al with
          nextStk := sub64 (sub64 al.nextStk al.desc.reserve) stkPagesize
          stackList := al.stackList ++ [stk]
          locked := false } ∧
        ∃ ok, s'.stack = update s.stack stk (some ⟨al.nextStk,
            if ok then sub64 al.nextStk al.desc.commit else al.nextStk,
            sub64 al.nextStk al.desc.reserve⟩) ∧
          (sub64 al.nextStk al.desc.reserve ≤ sub64 al.nextStk al.desc.commit →
            Fills al.desc (sub64 al.nextStk al.desc.commit) al.nextStk ok s s'))) s := by
  have hcommit := al.desc.commit_spec
  refine wlp_bind fun _ s1 hlock => ?_
  have hs1 : s1 = (lock a).put true s := by
    unfold Lock.acquire at hlock
    split_ifs at hlock
    cases hlock
    rfl
  subst hs1
  have hal1 : ((lock a).put true s).allocator a = { al with locked := true } := by
    simp [lock, State.setAllocator, hal]
  refine wlp_get_bind ?_
  rw [hal1]
  refine wlp_ite (fun hc => wlp_pure (.inl ⟨hc, rfl, rfl⟩)) (fun hfull => ?_)
  refine wlp_bind fun _ s2 hnew => ?_
  obtain ⟨hzero, hfresh, hs2⟩ := newStack_spec _ _ hnew
  have hdesc2 : (s2.allocator a).desc = al.desc := by
    rw [hs2]
    rw [hal1]
  have hstack2 : s2.stack = update s.stack stk
      (some ⟨al.nextStk, al.nextStk, sub64 al.nextStk al.desc.reserve⟩) := by rw [hs2]; rfl
  have hst2 := congrFun hstack2 stk
  rw [update_self] at hst2
  refine wlp_bind fun ok s3 hgrow => wlp_modify_bind (wlp_modify_bind (wlp_pure (.inr
    ⟨hfull, rfl, hzero, hfresh, ?_⟩)))
  rcases stkaGrow_spec hdesc2 hst2 hnext hlt hcommit.2.2 ok s3 hgrow with
    ⟨hrefused, rfl, rfl⟩ | ⟨-, -, halloc, -, hstack, hfills⟩
  · refine ⟨by simp [lock, State.setAllocator, hs2, hal], false, hstack2, fun hle => ?_⟩
    exact absurd hrefused (by rw [not_or, not_not]; exact ⟨hcommit.1, not_lt.2 hle⟩)
  refine ⟨by simp [lock, State.setAllocator, halloc, hs2, hal], ok, ?_, fun _ =>
    hfills.congr (by rw [hs2]; rfl) (by rw [hs2]; rfl) rfl rfl⟩
  show s3.stack = _
  rw [hstack, hstack2]
  cases ok with
  | false => rfl
  | true => exact update_idem ..

/-! ### Giving back -/

/-- A page that is given back: its own frame is free. -/
theorem Frames.unmap (h : Frames d s) (hq : Within d.bottom d.top q)
    (hmaps : s'.maps = update s.maps d.space (update (s.maps d.space) q none))
    (hused : ∀ f, s'.inUse f = s.inUse f ∨ ∃ fl, s.maps d.space q = some (f, fl)) :
    Frames d s' := by
  have hentry : ∀ {sp q' f' fl'}, s'.maps sp q' = some (f', fl') →
      s.maps sp q' = some (f', fl') ∧ ¬ (sp = d.space ∧ q' = q) := by
    intro sp q' f' fl' hm
    rw [hmaps] at hm
    rcases entry_update hm with ⟨-, -, hnew⟩ | ⟨hne, hold⟩
    · cases hnew
    · exact ⟨hold, hne⟩
  constructor
  · intro sp q' f' fl' hm
    obtain ⟨hold, hne⟩ := hentry hm
    rcases hused f' with heq | ⟨fl, hown⟩
    · rw [heq]
      exact h.used hold
    · exact absurd (h.own hq hown hold) hne
  · intro q1 f1 fl1 sp q2 fl2 hin h1 h2
    exact h.own hin (hentry h1).1 (hentry h2).1

theorem freePage_spec {m : ℕ} (hm : m % stkPagesize = 0) :
    wlp (freePage d.space m) (fun _ s' => Same s s' ∧
      Shrunk d m (m + stkPagesize) s.maps s'.maps ∧
      (Within d.bottom d.top (m / stkPagesize) → Frames d s → Frames d s')) s := by
  refine wlp_get_bind (wlp_ite (fun hne => ?_) (fun _ => ?_))
  · refine wlp_modify_bind ?_
    rintro _ _ ⟨⟩
    refine ⟨⟨rfl, rfl, rfl⟩, changed_page hm rfl, fun hin h => h.unmap hin rfl fun f => ?_⟩
    by_cases hf : f = vmemResolve d.space m s
    · refine .inr ?_
      unfold vmemResolve at hf hne
      cases hmap : s.maps d.space (m / stkPagesize) with
      | none =>
        rw [hmap] at hne
        exact absurd rfl hne
      | some e =>
        rw [hmap] at hf
        exact ⟨e.2, by rw [hf]⟩
    · exact .inl (update_of_ne hf _ _)
  · rintro _ _ ⟨⟩
    exact ⟨⟨rfl, rfl, rfl⟩, changed_page hm rfl, fun hin h => h.unmap hin rfl fun f => .inl rfl⟩

theorem freePages_spec (hlt : hi < 2 ^ 64) (hhi : hi % stkPagesize = 0) (n m : ℕ) (s : State)
    (hm : m % stkPagesize = 0) (hle : m ≤ hi) :
    wlp (freePages d.space hi n m) (fun _ s' => Same s s' ∧ Shrunk d m hi s.maps s'.maps ∧
      (d.bottom ≤ m → hi ≤ d.top → Frames d s → Frames d s')) s := by
  have hend : ¬ m < hi → m = hi := fun hc => by omega
  induction n generalizing m s with
  | zero =>
    refine wlp_ite (fun _ => wlp_halt) (fun hc => ?_)
    obtain rfl := hend hc
    exact wlp_pure ⟨.refl s, .refl _, fun _ _ h => h⟩
  | succ n ih =>
    refine wlp_ite (fun hlt' => ?_) (fun hc => ?_)
    · refine wlp_bind fun _ s1 hfree => ?_
      obtain ⟨hsame, hshrunk, hframes⟩ := freePage_spec hm _ s1 hfree
      unfold stkPagesize at hm hhi
      have hle' : m + stkPagesize ≤ hi := by
        unfold stkPagesize
        omega
      have hnext : add64 m stkPagesize = m + stkPagesize := add64_of_lt (by omega)
      rw [hnext]
      refine wlp_mono (ih (m + stkPagesize) s1 (by unfold stkPagesize; omega) hle'
        (fun hc => by omega)) ?_
      rintro _ s2 ⟨hsame', hshrunk', hframes'⟩
      refine ⟨hsame.trans hsame', hshrunk.trans (Nat.le_add_right _ _) hle' hshrunk',
        fun hbot htop h => hframes' (by omega) htop (hframes ?_ h)⟩
      unfold Within stkPagesize
      omega
    · obtain rfl := hend hc
      exact wlp_pure ⟨.refl s, .refl _, fun _ _ h => h⟩

theorem stkaFree_spec (hal : s.allocator a = al)
    (hst : s.stack stk = some st) (hmapped : st.mapped % stkPagesize = 0)
    (htop : st.top % stkPagesize = 0) (hlt : st.top < 2 ^ 64) (hle : st.mapped ≤ st.top) :
    wlp (stkaFree a stk) (fun _ s' =>
      s'.allocator = update s.allocator a { al with
        stackList := al.stackList.erase stk } ∧
      s'.stack = update s.stack stk none ∧
      Shrunk al.desc st.mapped st.top s.maps s'.maps ∧
      (al.desc.bottom ≤ st.mapped → st.top ≤ al.desc.top → Frames al.desc s →
        Frames al.desc s')) s := by
  refine wlp_bind fun st' s1 hload => ?_
  obtain ⟨rfl, rfl⟩ := loadStack_of_stack hst hload
  refine wlp_get_bind ?_
  rw [hal]
  refine wlp_bind fun _ s1 hfree => ?_
  obtain ⟨hsame, hshrunk, hframes⟩ := freePages_spec hlt htop _ st.mapped s hmapped hle _ s1 hfree
  rintro _ _ ⟨⟩
  refine ⟨?_, ?_, hshrunk, fun hbot hin h =>
    ⟨(hframes hbot hin h).used, (hframes hbot hin h).own⟩⟩
  · simp [State.setAllocator, hsame.allocator, hal]
  · simp [State.setAllocator, hsame.stack]

end Tachyon.Stka
