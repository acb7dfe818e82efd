import Tachyon.Lib.Machine
import Tachyon.Stka.Pages

/-!
# Stacks are separated

One stack allocator from `stka_new` on.  Its region is not mapped at first.

* `Config`: the state and the ranges of all stacks ever handed out, `Config.next`: the calls;
* `Inv`: the invariant, `Inv.step`;
* `stacks_separated`: ranges are apart, and the mapped part of a stack is mapped.
-/

namespace Tachyon.Stka

open Prog Machine List Function Option

variable {d : Desc} {s s' : State} {a stk : ℕ} {lo mid hi : ℕ}

/-! ### Calls -/

/-- The state, and guard and top of every stack ever handed out, in order. -/
structure Config where
  state : State
  handed : List (ℕ × ℕ)

/-- The calls, and changes of the active address space. -/
inductive Op
  | alloc (stk : ℕ)
  | free (stk : ℕ)
  | pgflt (stk fault : ℕ)
  | switch (target : ℕ)
  deriving DecidableEq, Repr

/-- Guard and top of a stack. -/
def State.range (s : State) (stk : ℕ) : ℕ × ℕ :=
  match s.stack stk with
  | some st => (st.guard, st.top)
  | none => (0, 0)

/-- The configuration behind a call; a call that does not return ends the run. -/
def Config.after {α : Type} (c : Config) (p : Prog State α) (handed : α → State → List (ℕ × ℕ)) :
    Option Config :=
  match p c.state with
  | .ok (r, s) => some ⟨s, handed r s⟩
  | .error _ => none

/-- One call on the allocator `a`. -/
def Config.next (a : ℕ) : Op → Config → Option Config
  | .alloc stk, c =>
    c.after (stkaAlloc a stk) fun r s => if r = 0 then c.handed else c.handed ++ [s.range r]
  | .free stk, c => c.after (stkaFree a stk) fun _ _ => c.handed
  | .pgflt stk fault, c => c.after (stkaPgflt a stk fault) fun _ _ => c.handed
  | .switch target, c => c.after (spcSwitch target) fun _ _ => c.handed

theorem Config.after_eq_some {α : Type} {c c' : Config} {p : Prog State α}
    {handed : α → State → List (ℕ × ℕ)} (h : c.after p handed = some c') :
    ∃ r s, p c.state = .ok (r, s) ∧ c' = ⟨s, handed r s⟩ := by
  unfold Config.after at h
  split at h
  · exact ⟨_, _, ‹_›, (some.inj h).symm⟩
  · cases h

/-- New stacks fit, only live stacks are freed, and faults are below the mapped part of a live
stack. -/
def Met (a : ℕ) : Op → Config → Prop
  | .alloc _, c => (c.state.allocator a).Fits
  | .free stk, c => stk ∈ (c.state.allocator a).stackList
  | .pgflt stk fault, c => stk ∈ (c.state.allocator a).stackList ∧
      ∀ st, c.state.stack stk = some st → fault < st.mapped
  | .switch _, _ => True

/-- A new allocator (`stka_new`), whose region is not mapped. -/
structure Start (a : ℕ) (d : Desc) (s : State) : Prop where
  new : s.allocator a = ⟨d, d.top, [], false⟩
  unmapped : ∀ q, Within d.bottom d.top q → s.maps d.space q = none
  used : ∀ {sp q f fl}, s.maps sp q = some (f, fl) → s.inUse f = true

/-! ### The invariant -/

/-- Where the next stack goes: below all others, at a distance from the top that is a multiple of
what one stack takes; or a stack at the address `0` was the last one. -/
def Next (d : Desc) (next : ℕ) (handed : List (ℕ × ℕ)) : Prop :=
  (next ≤ d.top ∧ (∃ k, next + k * (d.reserve + stkPagesize) = d.top) ∧
    ∀ r ∈ handed, next + stkPagesize ≤ r.1) ∨
  (d.top < next ∧ d.bottom = 0)

/-- A stack that is in use. -/
structure Live (d : Desc) (s : State) (st : Stack) : Prop where
  guard_le : st.guard ≤ st.mapped
  le_top : st.mapped ≤ st.top
  aligned : st.mapped % stkPagesize = 0
  pages : ∀ {q}, Within st.mapped st.top q → ∃ f, s.maps d.space q = some (f, d.pgFl)

variable {st sx sy : Stack} {q : ℕ} {op : Op}

/-- A change of pages that are not those of a stack. -/
theorem Live.changed {P : Option (ℕ × ℕ) → Prop} (h : Live d s st)
    (hch : Changed d P lo hi s.maps s'.maps)
    (hout : ∀ q, Within st.guard st.top q → ¬ Within lo hi q) : Live d s' st := by
  refine ⟨h.guard_le, h.le_top, h.aligned, fun {q} hq => ?_⟩
  rw [hch.outside fun hc => hout q ⟨h.guard_le.trans hq.1, hq.2⟩ hc.2]
  exact h.pages hq

structure Inv (a : ℕ) (d : Desc) (c : Config) : Prop where
  desc : (c.state.allocator a).desc = d
  next : Next d (c.state.allocator a).nextStk c.handed
  apart : c.handed.Pairwise fun x y => y.2 + stkPagesize ≤ x.1
  range : ∀ r ∈ c.handed, d.bottom ≤ r.1 ∧ r.1 % stkPagesize = 0 ∧ r.2 = r.1 + d.reserve ∧ r.2 ≤ d.top
  nodup : (c.state.allocator a).stackList.Nodup
  live : ∀ stk ∈ (c.state.allocator a).stackList, ∃ st, c.state.stack stk = some st ∧
    Live d c.state st
  sub : ((c.state.allocator a).stackList.map c.state.range).Sublist c.handed
  only : ∀ {q e}, Within d.bottom d.top q → c.state.maps d.space q = some e →
    ∃ stk ∈ (c.state.allocator a).stackList, ∃ st, c.state.stack stk = some st ∧
      Within st.mapped st.top q
  frames : Frames d c.state

variable {c c' c₁ c₂ : Config}

theorem Start.inv (h : Start a d s) : Inv a d ⟨s, []⟩ where
  desc := by rw [h.new]
  next := .inl ⟨by rw [h.new], ⟨0, by rw [h.new]; simp⟩, by simp⟩
  apart := .nil
  range := by simp
  nodup := by rw [h.new]; exact nodup_nil
  live := by rw [h.new]; simp
  sub := by rw [h.new]; exact List.Sublist.refl _
  only := by
    intro q e hq hm
    rw [h.unmapped q hq] at hm
    cases hm
  frames := ⟨h.used, fun hq hm => by rw [h.unmapped _ hq] at hm; cases hm⟩

theorem State.range_of_stack (h : s.stack stk = some st) :
    s.range stk = (st.guard, st.top) := by
  rw [State.range, h]

section

variable (h : Inv a d c) (hstk : stk ∈ (c.state.allocator a).stackList)
  (hst : c.state.stack stk = some st)
include h hstk hst

theorem Inv.live_stack : Live d c.state st := by
  obtain ⟨st', hst', hlive⟩ := h.live stk hstk
  rw [hst] at hst'
  cases hst'
  exact hlive

theorem Inv.range_mem : (st.guard, st.top) ∈ c.handed := by
  rw [← State.range_of_stack hst]
  exact h.sub.subset (mem_map_of_mem hstk)

end

/-- Two ranges with a page between them. -/
def Apart (x y : ℕ × ℕ) : Prop := y.2 + stkPagesize ≤ x.1 ∨ x.2 + stkPagesize ≤ y.1

section

variable {x y : ℕ} (h : Inv a d c) (hx : x ∈ (c.state.allocator a).stackList)
  (hy : y ∈ (c.state.allocator a).stackList) (hne : x ≠ y) (hsx : c.state.stack x = some sx)
  (hsy : c.state.stack y = some sy)
include h hx hy hne hsx hsy

theorem Inv.live_apart :
    Apart (sx.guard, sx.top) (sy.guard, sy.top) := by
  have hpair : (c.state.allocator a).stackList.Pairwise fun x y =>
      Apart (c.state.range x) (c.state.range y) :=
    pairwise_map.1 ((h.apart.sublist h.sub).imp .inl)
  have : Std.Symm fun x y => Apart (c.state.range x) (c.state.range y) := ⟨fun _ _ => Or.symm⟩
  have hall := hpair.forall hx hy hne
  rwa [State.range_of_stack hsx, State.range_of_stack hsy] at hall

/-- The mapped parts of two stacks have no page in common. -/
theorem Inv.not_within (hqx : Within sx.guard sx.top q) : ¬ Within sy.guard sy.top q := by
  have hapart := h.live_apart hx hy hne hsx hsy
  unfold Apart Within at *
  omega

end

section

variable (h : Inv a d c) (hstk : stk ∈ (c.state.allocator a).stackList)
  (hst : c.state.stack stk = some st)
include h hstk hst

section

variable (hdesc : (s'.allocator a).desc = d)
  (hnext : (s'.allocator a).nextStk = (c.state.allocator a).nextStk) (hframes : Frames d s')
include hdesc hnext hframes

/-- A live stack grows. -/
theorem Inv.grow (hguard : st.guard ≤ lo) (hlo : lo ≤ st.mapped) (haligned : lo % stkPagesize = 0)
    (hlist : (s'.allocator a).stackList = (c.state.allocator a).stackList)
    (hstack : s'.stack = update c.state.stack stk (some { st with mapped := lo }))
    (hgrown : Grown d lo st.mapped c.state.maps s'.maps) :
    Inv a d ⟨s', c.handed⟩ := by
  have hself : s'.stack stk = some { st with mapped := lo } := by
    rw [hstack, update_self]
  have hother : ∀ {x}, x ≠ stk → s'.stack x = c.state.stack x := fun hx => by
    rw [hstack, update_of_ne hx]
  have hrange : s'.range = c.state.range := by
    funext x
    by_cases hx : x = stk
    · subst hx
      rw [State.range_of_stack hself, State.range_of_stack hst]
    · unfold State.range
      rw [hother hx]
  have hlive := h.live_stack hstk hst
  constructor
  · exact hdesc
  · dsimp only
    rw [hnext]
    exact h.next
  · exact h.apart
  · exact h.range
  · dsimp only
    rw [hlist]
    exact h.nodup
  · dsimp only
    rw [hlist]
    intro x hx
    by_cases hxs : x = stk
    · subst hxs
      refine ⟨_, hself, hguard, hlo.trans hlive.le_top, haligned, fun {q} hq => ?_⟩
      by_cases hnew : Within lo st.mapped q
      · exact hgrown.inside hnew
      · rw [hgrown.outside fun hc => hnew hc.2]
        exact hlive.pages ⟨by unfold Within at *; dsimp only at hq; omega, hq.2⟩
    · obtain ⟨sx, hsx, hlx⟩ := h.live x hx
      refine ⟨sx, (hother hxs).trans hsx, hlx.changed hgrown fun q hq hc => ?_⟩
      exact h.not_within hx hstk hxs hsx hst hq ⟨hguard.trans hc.1, hc.2.trans_le hlive.le_top⟩
  · dsimp only
    rw [hlist, hrange]
    exact h.sub
  · intro q e hq hm
    rw [hlist]
    by_cases hnew : Within lo st.mapped q
    · exact ⟨stk, hstk, _, hself, hnew.1, hnew.2.trans_le hlive.le_top⟩
    rw [hgrown.outside fun hc => hnew hc.2] at hm
    obtain ⟨x, hx, sx, hsx, hqx⟩ := h.only hq hm
    by_cases hxs : x = stk
    · subst hxs
      obtain rfl : sx = st := some.inj (hsx.symm.trans hst)
      exact ⟨x, hx, _, hself, hlo.trans hqx.1, hqx.2⟩
    · exact ⟨x, hx, sx, (hother hxs).trans hsx, hqx⟩
  · exact hframes

/-- A live stack is given back. -/
theorem Inv.free (hlist : (s'.allocator a).stackList = (c.state.allocator a).stackList.erase stk)
    (hstack : s'.stack = update c.state.stack stk none)
    (hshrunk : Shrunk d st.mapped st.top c.state.maps s'.maps) :
    Inv a d ⟨s', c.handed⟩ := by
  have hmem : ∀ {x}, x ∈ (c.state.allocator a).stackList.erase stk →
      x ≠ stk ∧ x ∈ (c.state.allocator a).stackList := fun hx => (h.nodup.mem_erase_iff).1 hx
  have hother : ∀ {x}, x ≠ stk → s'.stack x = c.state.stack x := fun hx => by
    rw [hstack, update_of_ne hx]
  have hrange : ((c.state.allocator a).stackList.erase stk).map s'.range =
      ((c.state.allocator a).stackList.erase stk).map c.state.range := by
    refine map_congr_left fun x hx => ?_
    unfold State.range
    rw [hother (hmem hx).1]
  have hlive := h.live_stack hstk hst
  constructor
  · exact hdesc
  · dsimp only
    rw [hnext]
    exact h.next
  · exact h.apart
  · exact h.range
  · dsimp only
    rw [hlist]
    exact h.nodup.erase stk
  · dsimp only
    rw [hlist]
    intro x hx
    obtain ⟨hxs, hx⟩ := hmem hx
    obtain ⟨sx, hsx, hlx⟩ := h.live x hx
    refine ⟨sx, (hother hxs).trans hsx, hlx.changed hshrunk fun q hq hc => ?_⟩
    exact h.not_within hx hstk hxs hsx hst hq ⟨hlive.guard_le.trans hc.1, hc.2⟩
  · dsimp only
    rw [hlist, hrange]
    exact ((erase_sublist).map _).trans h.sub
  · intro q e hq hm
    rw [hlist]
    have hout : ¬ Within st.mapped st.top q := fun hc => by
      rw [hshrunk.inside hc] at hm
      cases hm
    rw [hshrunk.outside fun hc => hout hc.2] at hm
    obtain ⟨x, hx, sx, hsx, hqx⟩ := h.only hq hm
    have hxs : x ≠ stk := by
      rintro rfl
      obtain rfl : sx = st := some.inj (hsx.symm.trans hst)
      exact hout hqx
    exact ⟨x, h.nodup.mem_erase_iff.2 ⟨hxs, hx⟩, sx, (hother hxs).trans hsx, hqx⟩
  · exact hframes

end

end

/-- The range of a stack that fits. -/
theorem Next.fits {handed : List (ℕ × ℕ)} {next : ℕ} (hd : d.Ok) (h : Next d next handed)
    (hfits : d.bottom + d.reserve ≤ next ∧ (d.bottom = 0 → next ≤ d.top)) :
    next ≤ d.top ∧ next % stkPagesize = 0 ∧ (∀ r ∈ handed, next + stkPagesize ≤ r.1) ∧
      Next d (sub64 (next - d.reserve) stkPagesize) (handed ++ [(next - d.reserve, next)]) := by
  have htop := hd.top
  have hlt := hd.lt
  rcases h with ⟨hle, ⟨k, hk⟩, hbelow⟩ | ⟨hgt, hbot⟩
  · have hnext : next % stkPagesize = 0 := by
      rcases d.reserve_eq with hr | hr <;> rw [hr] at hk <;> unfold stkPagesize at * <;> omega
    refine ⟨hle, hnext, hbelow, ?_⟩
    by_cases hroom : stkPagesize ≤ next - d.reserve
    · rw [sub64_of_le hroom (by omega)]
      refine .inl ⟨by omega, ⟨k + 1, ?_⟩, fun r hr => ?_⟩
      · rw [Nat.add_mul]
        omega
      rcases mem_append.1 hr with hold | hnew
      · have := hbelow r hold
        omega
      · rw [mem_singleton] at hnew
        subst hnew
        omega
    · -- the stack starts at the address 0, and 2 ^ 64 is no multiple of what a stack takes
      have hzero : next = d.reserve := by
        rcases d.reserve_eq with hr | hr <;> rw [hr] at hk <;> unfold stkPagesize at * <;> omega
      refine .inr ⟨?_, by omega⟩
      have hwrap : sub64 (next - d.reserve) stkPagesize = 2 ^ 64 - stkPagesize := by
        rw [hzero, Nat.sub_self]
        decide
      rcases d.reserve_eq with hr | hr <;> rw [hr] at hk <;> unfold stkPagesize at * <;> omega
  · exact absurd (hfits.2 hbot) (by omega)

/-- Below the stacks handed out so far nothing of the region is mapped. -/
theorem Inv.unmapped_below {next : ℕ} (h : Inv a d c) (hbelow : ∀ r ∈ c.handed, next ≤ r.1)
    (hin : Within d.bottom d.top q) (hq : q * stkPagesize < next) :
    c.state.maps d.space q = none := by
  cases hm : c.state.maps d.space q with
  | none => rfl
  | some e =>
    obtain ⟨x, hx, sx, hsx, hqx⟩ := h.only hin hm
    have hlx := h.live_stack hx hsx
    have hguard := hbelow _ (h.range_mem hx hsx)
    have hle := hlx.guard_le.trans hqx.1
    omega

/-- Between its guard and its mapped part nothing of a stack is mapped. -/
theorem Inv.unmapped_guard (h : Inv a d c)
    (hstk : stk ∈ (c.state.allocator a).stackList) (hst : c.state.stack stk = some st)
    (hq : Within st.guard st.mapped q) : c.state.maps d.space q = none := by
  have hlive := h.live_stack hstk hst
  obtain ⟨hbot, -, -, htop⟩ := h.range _ (h.range_mem hstk hst)
  have hrange : Within st.guard st.top q := ⟨hq.1, hq.2.trans_le hlive.le_top⟩
  cases hm : c.state.maps d.space q with
  | none => rfl
  | some e =>
    obtain ⟨x, hx, sx, hsx, hqx⟩ := h.only ⟨hbot.trans hrange.1, hrange.2.trans_le htop⟩ hm
    by_cases hxs : x = stk
    · subst hxs
      obtain rfl : sx = st := some.inj (hsx.symm.trans hst)
      exact absurd hq.2 (Nat.not_lt.2 hqx.1)
    · have hlx := h.live_stack hx hsx
      exact absurd hrange (h.not_within hx hstk hxs hsx hst ⟨hlx.guard_le.trans hqx.1, hqx.2⟩)

section

variable (hd : d.Ok) (h : Inv a d c)
include hd h

/-- A new stack of which nothing is mapped yet. -/
theorem Inv.register {next : ℕ} (hnext : (c.state.allocator a).nextStk = next)
    (hfits : d.bottom + d.reserve ≤ next ∧ (d.bottom = 0 → next ≤ d.top))
    (hfresh : c.state.stack stk = none) (hdesc : (s'.allocator a).desc = d)
    (hnext' : (s'.allocator a).nextStk = sub64 (next - d.reserve) stkPagesize)
    (hlist : (s'.allocator a).stackList = (c.state.allocator a).stackList ++ [stk])
    (hstack : s'.stack = update c.state.stack stk (some ⟨next, next, next - d.reserve⟩))
    (hmaps : s'.maps = c.state.maps) (hframes : Frames d s') :
    Inv a d ⟨s', c.handed ++ [(next - d.reserve, next)]⟩ := by
  obtain ⟨htop, haligned, hbelow, hNext⟩ := (hnext ▸ h.next).fits hd hfits
  have hself : s'.stack stk = some ⟨next, next, next - d.reserve⟩ := by
    rw [hstack, update_self]
  have hne : ∀ {x}, x ∈ (c.state.allocator a).stackList → x ≠ stk := by
    rintro x hx rfl
    obtain ⟨sx, hsx, -⟩ := h.live x hx
    cases hfresh.symm.trans hsx
  have hother : ∀ {x}, x ∈ (c.state.allocator a).stackList → s'.stack x = c.state.stack x :=
    fun hx => by rw [hstack, update_of_ne (hne hx)]
  have hrange : (c.state.allocator a).stackList.map s'.range =
      (c.state.allocator a).stackList.map c.state.range := by
    refine map_congr_left fun x hx => ?_
    unfold State.range
    rw [hother hx]
  constructor
  · exact hdesc
  · dsimp only
    rw [hnext']
    exact hNext
  · refine pairwise_append.2 ⟨h.apart, pairwise_singleton _ _, fun x hx y hy => ?_⟩
    rw [mem_singleton] at hy
    subst hy
    exact hbelow x hx
  · intro r hr
    rcases mem_append.1 hr with hold | hnew
    · exact h.range r hold
    · rw [mem_singleton] at hnew
      subst hnew
      have hreserve := d.reserve_eq
      unfold stkPagesize at *
      omega
  · dsimp only
    rw [hlist]
    exact h.nodup.append (nodup_singleton _) fun x hx hx' =>
      hne hx (mem_singleton.1 hx')
  · dsimp only
    rw [hlist]
    intro x hx
    rcases mem_append.1 hx with hold | hnew
    · obtain ⟨sx, hsx, hlx⟩ := h.live x hold
      exact ⟨sx, (hother hold).trans hsx, hlx.guard_le, hlx.le_top, hlx.aligned, hmaps ▸ hlx.pages⟩
    · rw [mem_singleton] at hnew
      subst hnew
      exact ⟨_, hself, Nat.sub_le _ _, le_rfl, haligned, fun hq => absurd hq.2 (Nat.not_lt.2 hq.1)⟩
  · dsimp only
    rw [hlist, map_append, hrange, map_singleton, State.range_of_stack hself]
    exact h.sub.append (List.Sublist.refl _)
  · intro q e hq hm
    rw [hmaps] at hm
    obtain ⟨x, hx, sx, hsx, hqx⟩ := h.only hq hm
    exact ⟨x, hlist ▸ mem_append_left _ hx, sx, (hother hx).trans hsx, hqx⟩
  · exact hframes

theorem Inv.alloc (hfits : (c.state.allocator a).Fits)
    (hnext : Config.next a (.alloc stk) c = some c') : Inv a d c' := by
  obtain ⟨r, s', hcall, rfl⟩ := Config.after_eq_some hnext
  have hdesc := h.desc
  unfold Allocator.Fits at hfits
  rw [hdesc] at hfits
  obtain ⟨htop, haligned, hbelow, -⟩ := h.next.fits hd hfits
  obtain ⟨al, hal⟩ : ∃ al, c.state.allocator a = al := ⟨_, rfl⟩
  rw [hal] at hdesc hfits htop haligned hbelow
  have hlt := htop.trans_lt hd.lt
  have hcommit := d.commit_spec
  have hspec := stkaAlloc_spec hal haligned hlt _ _ hcall
  have hreserve : sub64 al.nextStk d.reserve = al.nextStk - d.reserve :=
    sub64_of_le (by omega) hlt
  have hfirst : sub64 al.nextStk d.commit = al.nextStk - d.commit := sub64_of_le (by omega) hlt
  rw [hdesc, hreserve, hfirst] at hspec
  have hfull : ¬ al.Full := by
    have hinit := stkInitsize_le_reserve d
    have hpos : 0 < stkInitsize := by decide
    unfold Allocator.Full
    rw [hdesc, sub64_of_le (by omega) hlt]
    omega
  obtain ⟨-, rfl, hne, hfresh, halloc, ok, hstack, hfills⟩ := hspec.resolve_left fun hc => hfull hc.1
  replace hfills := hfills (Nat.sub_le_sub_left hcommit.2.1 _)
  obtain rfl : ok = true := hfills.unmapped.2 fun q hq =>
    h.unmapped_below (fun r hr => (Nat.le_add_right _ _).trans (hbelow r hr))
      ⟨(by omega : d.bottom ≤ al.nextStk - d.commit).trans hq.1, hq.2.trans_le htop⟩ hq.2
  rw [if_pos rfl] at hstack
  have hself := congrFun halloc a
  rw [update_self] at hself
  have hrange : s'.range r = (al.nextStk - d.reserve, al.nextStk) :=
    State.range_of_stack (congrFun hstack r |>.trans (update_self _ _ _))
  rw [if_neg hne, hrange]
  -- first the stack without its pages, then the pages
  have hreg : Inv a d ⟨{ c.state with
      allocator := s'.allocator
      stack := update c.state.stack r
        (some ⟨al.nextStk, al.nextStk, al.nextStk - d.reserve⟩) },
      c.handed ++ [(al.nextStk - d.reserve, al.nextStk)]⟩ :=
    h.register hd (by rw [hal]) hfits hfresh (by rw [hself]) (by rw [hself])
      (by rw [hself, hal]) rfl rfl ⟨h.frames.used, h.frames.own⟩
  refine hreg.grow (by rw [hself]; simp) (update_self _ _ _) (by rw [hself]) rfl
    (hfills.frames h.frames) (Nat.sub_le_sub_left hcommit.2.1 _) (Nat.sub_le _ _)
    (by unfold stkPagesize at *; omega) rfl ?_ hfills.grown
  rw [hstack, update_idem]

theorem Inv.pgflt {fault : ℕ} (hmet : Met a (.pgflt stk fault) c)
    (hnext : Config.next a (.pgflt stk fault) c = some c') : Inv a d c' := by
  obtain ⟨ok, s', hcall, rfl⟩ := Config.after_eq_some hnext
  obtain ⟨hstk, hfault⟩ := hmet
  obtain ⟨st, hst, hlive⟩ := h.live stk hstk
  replace hfault := hfault st hst
  obtain ⟨hbot, hguard, -, htop⟩ := h.range _ (h.range_mem hstk hst)
  rcases stkaPgflt_spec h.desc hst hguard hlive.aligned hlive.le_top (htop.trans_lt hd.lt) _ _ hcall
    with ⟨-, -, rfl⟩ | ⟨habove, -, halloc, -, hstack, hfills⟩
  · exact h
  have hpage : st.guard ≤ fault - fault % stkPagesize := by
    unfold stkPagesize at *
    omega
  obtain rfl : ok = true := hfills.unmapped.2 fun q hq =>
    h.unmapped_guard hstk hst ⟨hpage.trans hq.1, hq.2⟩
  exact h.grow hstk hst (by rw [halloc]; exact h.desc) (by rw [halloc]) (hfills.frames h.frames)
    hpage (by omega) (by unfold stkPagesize; omega) (by rw [halloc]) hstack hfills.grown

theorem Inv.step (hmet : Met a op c) (hnext : Config.next a op c = some c') : Inv a d c' := by
  cases op with
  | alloc stk => exact h.alloc hd hmet hnext
  | free stk =>
    obtain ⟨_, s', hcall, rfl⟩ := Config.after_eq_some hnext
    obtain ⟨st, hst, hlive⟩ := h.live stk hmet
    obtain ⟨hbot, hguard, hsize, htop⟩ := h.range _ (h.range_mem hmet hst)
    have haligned : st.top % stkPagesize = 0 := by
      have hreserve := d.reserve_eq
      unfold stkPagesize at *
      omega
    have hdesc := h.desc
    obtain ⟨halloc, hstack, hshrunk, hframes⟩ := stkaFree_spec rfl hst hlive.aligned haligned
      (htop.trans_lt hd.lt) hlive.le_top _ _ hcall
    have hself := congrFun halloc a
    rw [update_self] at hself
    rw [hdesc] at hshrunk hframes
    exact h.free hmet hst (by rw [hself]; exact hdesc) (by rw [hself])
      (hframes (hbot.trans hlive.guard_le) htop h.frames) (by rw [hself]) hstack hshrunk
  | pgflt stk fault => exact h.pgflt hd hmet hnext
  | switch target =>
    cases hnext
    exact ⟨h.desc, h.next, h.apart, h.range, h.nodup, fun stk hstk => by
      obtain ⟨st, hst, hlive⟩ := h.live stk hstk
      exact ⟨st, hst, hlive.guard_le, hlive.le_top, hlive.aligned, hlive.pages⟩, h.sub, h.only,
      ⟨h.frames.used, h.frames.own⟩⟩

theorem Inv.runs (hrun : Runs (Config.next a) (Met a) c c') : Inv a d c' :=
  hrun.inv h fun hinv hmet hnext => hinv.step hd hmet hnext

end

/-! ### Whole runs -/

/-- Stacks handed out stay in the record. -/
theorem handed_runs {met : Op → Config → Prop} (hrun : Runs (Config.next a) met c c') :
    c.handed <+: c'.handed := by
  refine hrun.inv (P := fun c' => c.handed <+: c'.handed) (prefix_refl _) ?_
  intro op c₁ c₂ hpre _ hnext
  cases op with
  | alloc stk =>
    obtain ⟨r, s', -, rfl⟩ := Config.after_eq_some hnext
    split_ifs
    · exact hpre
    · exact hpre.trans (prefix_append _ _)
  | free stk =>
    obtain ⟨r, s', -, rfl⟩ := Config.after_eq_some hnext
    exact hpre
  | pgflt stk fault =>
    obtain ⟨r, s', -, rfl⟩ := Config.after_eq_some hnext
    exact hpre
  | switch target =>
    cases hnext
    exact hpre

/-- The page below a range is mapped at no earlier time, if another range lies below it. -/
theorem Inv.gap_unmapped {x y : ℕ × ℕ} (h1 : Inv a d c₁) (h2 : Inv a d c₂)
    (hpre : c₁.handed <+: c₂.handed) (hx : x ∈ c₂.handed) (hy : y ∈ c₂.handed)
    (hxy : y.2 + stkPagesize ≤ x.1) :
    c₁.state.maps d.space (x.1 / stkPagesize - 1) = none := by
  obtain ⟨-, halign, hsize, htop⟩ := h2.range x hx
  obtain ⟨hbot, -, hsize', -⟩ := h2.range y hy
  cases hm : c₁.state.maps d.space (x.1 / stkPagesize - 1) with
  | none => rfl
  | some e =>
    obtain ⟨stk, hstk, st, hst, hq⟩ := h1.only (by unfold Within stkPagesize at *; omega) hm
    obtain ⟨st', hst', hlive⟩ := h1.live stk hstk
    obtain rfl : st' = st := some.inj (hst'.symm.trans hst)
    have hmem := hpre.subset (h1.range_mem hstk hst)
    have hguard := hlive.guard_le
    unfold Within at hq
    have : Std.Symm Apart := ⟨fun _ _ => Or.symm⟩
    by_cases heq : x = (st'.guard, st'.top)
    · subst heq
      unfold stkPagesize at *
      omega
    · have hpair : c₂.handed.Pairwise Apart := h2.apart.imp .inl
      have hapart := hpair.forall hx hmem heq
      unfold Apart at hapart
      unfold stkPagesize at *
      omega

/-- What holds between two moments `c₁` and `c₂` of a run: the ranges of any two stacks have a page
between them that is not mapped, and the live stacks are mapped from `mapped` to `top`, each page by
a frame of its own. -/
structure Separated (a : ℕ) (d : Desc) (c₁ c₂ : Config) : Prop where
  apart : c₂.handed.Pairwise fun x y => y.2 + stkPagesize ≤ x.1 ∧
    c₁.state.maps d.space (x.1 / stkPagesize - 1) = none
  live : ∀ stk ∈ (c₂.state.allocator a).stackList, ∃ st, c₂.state.stack stk = some st ∧
    (st.guard, st.top) ∈ c₂.handed ∧ st.guard ≤ st.mapped ∧ st.mapped ≤ st.top ∧
    st.mapped % stkPagesize = 0 ∧
    ∀ q, Within st.mapped st.top q → ∃ f, c₂.state.maps d.space q = some (f, d.pgFl) ∧
      ∀ sp q' fl, c₂.state.maps sp q' = some (f, fl) → sp = d.space ∧ q' = q

/-- **Stacks are separated**, and the pages between them are never mapped. -/
theorem stacks_separated (hd : d.Ok) (h₀ : Start a d s)
    (hrun₁ : Runs (Config.next a) (Met a) ⟨s, []⟩ c₁) (hrun₂ : Runs (Config.next a) (Met a) c₁ c₂) :
    Separated a d c₁ c₂ := by
  have h₁ := h₀.inv.runs hd hrun₁
  have h₂ := h₁.runs hd hrun₂
  constructor
  · exact h₂.apart.imp_of_mem fun hx hy hxy =>
      ⟨hxy, h₁.gap_unmapped h₂ (handed_runs hrun₂) hx hy hxy⟩
  intro stk hstk
  obtain ⟨st, hst, hlive⟩ := h₂.live stk hstk
  obtain ⟨hbot, -, -, htop⟩ := h₂.range _ (h₂.range_mem hstk hst)
  refine ⟨st, hst, h₂.range_mem hstk hst, hlive.guard_le, hlive.le_top, hlive.aligned,
    fun q hq => ?_⟩
  obtain ⟨f, hf⟩ := hlive.pages hq
  exact ⟨f, hf, fun sp q' fl hm => h₂.frames.own ⟨(hbot.trans hlive.guard_le).trans hq.1,
    hq.2.trans_le htop⟩ hf hm⟩

/-- The region of the stacks of a process. -/
def processDesc (space : ℕ) : Desc := ⟨0x700000000000, 0x800000000000, space, 6, false, false⟩

/-- A new allocator in an empty memory. -/
def emptyState (d : Desc) (frames : List ℕ) : State where
  allocator _ := ⟨d, d.top, [], false⟩
  stack _ := none
  maps _ _ := none
  globals := []
  inUse _ := false
  content _ _ := 0xFF
  frames := frames
  cr3 := d.space

theorem start_emptyState (d : Desc) (frames : List ℕ) : Start 1 d (emptyState d frames) :=
  ⟨rfl, fun _ _ => rfl, fun h => by cases h⟩

/-- A call on the allocator of `emptyState`, if it returns. -/
def Config.call (c : Config) (op : Op) : Config := (Config.next 1 op c).getD c

theorem Config.next_call (h : (Config.next 1 op c).isSome = true) :
    Config.next 1 op c = some (c.call op) := by
  obtain ⟨c', hc'⟩ := isSome_iff_exists.1 h
  rw [Config.call, hc', getD_some]

/-- A process without stacks, and with its first stack. -/
def noStack : Config := ⟨emptyState (processDesc 9) [11, 12, 13, 14, 15], []⟩
def oneStack : Config := noStack.call (.alloc 3)

/-- The first stack grows, and a second one comes and goes. -/
def grownStack : Config := oneStack.call (.pgflt 3 0x7FFFFFFFD123)
def twoStacks : Config := grownStack.call (.alloc 4)

theorem stacks_separated_two : (twoStacks.call (.free 4)).handed.length = 2 ∧
    Separated 1 (processDesc 9) oneStack (twoStacks.call (.free 4)) := by
  have hd : (processDesc 9).Ok := ⟨by decide, by decide, by decide⟩
  have hone : Runs (Config.next 1) (Met 1) noStack oneStack :=
    .step .start (by unfold Met Allocator.Fits; decide)
      (Config.next_call (by decide +kernel))
  have hfault : Met 1 (.pgflt 3 0x7FFFFFFFD123) oneStack := by
    refine ⟨by decide +kernel, fun st hst => ?_⟩
    have hmapped : oneStack.state.stack 3 = some ⟨0x800000000000, 0x7FFFFFFFE000, 0x7FFFFFF00000⟩ :=
      by decide +kernel
    cases hmapped.symm.trans hst
    decide
  have hgrown : Runs (Config.next 1) (Met 1) oneStack grownStack :=
    .step .start hfault (Config.next_call (by decide +kernel))
  have htwo : Runs (Config.next 1) (Met 1) oneStack twoStacks :=
    .step hgrown (by unfold Met Allocator.Fits; decide +kernel)
      (Config.next_call (by decide +kernel))
  have hfreed : Runs (Config.next 1) (Met 1) oneStack (twoStacks.call (.free 4)) :=
    .step htwo (by unfold Met; decide +kernel) (Config.next_call (by decide +kernel))
  exact ⟨by decide +kernel, stacks_separated hd (start_emptyState _ _) hone hfreed⟩

end Tachyon.Stka
