import Tachyon.Stka.Ranges

/-!
# Stacks in their region

`stka_alloc` asks whether the two pages of a new stack fit above the bottom of the region, and
reserves four of them (a fixed stack) or 256.  So it depends on what is left of the region behind
the last stack that fits, whether there is one more that does not.

* `Desc.Divides`: nothing is left, or too little for the two pages, or just a stack;
* `Called`: runs of all calls, with any faults;
* `Bounded`, `Bounded.step`: the invariant;
* `stacks_in_region`: all stacks are in the region, and no page outside of it is touched.
-/

namespace Tachyon.Stka

open Prog Machine Function List

variable {d : Desc} {s s' : State} {a stk : ℕ} {c c' : Config}

/-- What the stacks leave of the region: nothing, one page, or room for a stack without the page
below it.  A region from the address `0` on has to be used up, for nothing can be below it. -/
def Desc.Divides (d : Desc) : Prop :=
  (d.top - d.bottom) % (d.reserve + stkPagesize) = 0 ∨
  d.bottom ≠ 0 ∧ ((d.top - d.bottom) % (d.reserve + stkPagesize) = stkPagesize ∨
    (d.top - d.bottom) % (d.reserve + stkPagesize) = d.reserve)

-- the kernel stacks divide their region
example : (⟨0xFFFFFFFF70000000, 0xFFFFFFFF80000000, 0, 2, true, true⟩ : Desc).Divides := by
  unfold Desc.Divides
  decide

/-- Only live stacks are freed or grow. -/
def Called (a : ℕ) : Op → Config → Prop
  | .alloc _, _ => True
  | .free stk, c => stk ∈ (c.state.allocator a).stackList
  | .pgflt stk _, c => stk ∈ (c.state.allocator a).stackList
  | .switch _, _ => True

/-- A stack of the region. -/
structure Placed (d : Desc) (st : Stack) : Prop where
  bottom : d.bottom ≤ st.guard
  guard_le : st.guard ≤ st.mapped
  le_top : st.mapped ≤ st.top
  top : st.top ≤ d.top
  guard_aligned : st.guard % stkPagesize = 0
  mapped_aligned : st.mapped % stkPagesize = 0
  top_aligned : st.top % stkPagesize = 0

/-- Nothing outside of the region differs. -/
def Inside (d : Desc) (m m' : ℕ → ℕ → Option (ℕ × ℕ)) : Prop :=
  ∀ sp q, ¬ (sp = d.space ∧ Within d.bottom d.top q) → m' sp q = m sp q

structure Bounded (a : ℕ) (d : Desc) (s₀ : State) (c : Config) : Prop where
  desc : (c.state.allocator a).desc = d
  next : ∃ k, (c.state.allocator a).nextStk + k * (d.reserve + stkPagesize) = d.top
  handed : ∀ r ∈ c.handed, d.bottom ≤ r.1 ∧ r.1 < r.2 ∧ r.2 ≤ d.top
  nodup : (c.state.allocator a).stackList.Nodup
  live : ∀ stk ∈ (c.state.allocator a).stackList, ∃ st, c.state.stack stk = some st ∧ Placed d st
  maps : Inside d s₀.maps c.state.maps

/-- The next stack is not refused: it fits, and there is room for a page below it. -/
theorem Desc.Divides.fits {al : Allocator} {k : ℕ} (hd : al.desc.Ok) (hdiv : al.desc.Divides)
    (hnext : al.nextStk + k * (al.desc.reserve + stkPagesize) = al.desc.top) (hroom : ¬ al.Full) :
    al.desc.bottom + al.desc.reserve ≤ al.nextStk ∧
    al.desc.reserve + stkPagesize ≤ al.nextStk := by
  unfold Allocator.Full at hroom
  rw [not_or, Nat.not_le, Nat.not_lt] at hroom
  obtain ⟨habove, hinit⟩ := hroom
  -- what is above the bottom is what is left in the end, and whole stacks
  unfold Desc.Divides at hdiv
  have htop := hd.top
  rcases al.desc.reserve_eq with hr | hr <;>
  · rw [hr] at hnext hdiv ⊢
    unfold sub64 stkInitsize stkPagesize at *
    omega

theorem Start.bounded (h : s.allocator a = ⟨d, d.top, [], false⟩) : Bounded a d s ⟨s, []⟩ where
  desc := by rw [h]
  next := ⟨0, by rw [h, Nat.zero_mul, Nat.add_zero]⟩
  handed := by simp
  nodup := by rw [h]; exact nodup_nil
  live := by rw [h]; simp
  maps := fun _ _ _ => rfl

/-- Pages of the region that have changed. -/
theorem Inside.fills {m : ℕ → ℕ → Option (ℕ × ℕ)} {lo hi : ℕ} {ok : Bool} (h : Inside d m s.maps)
    (hfills : Fills d lo hi ok s s') (hlo : d.bottom ≤ lo) (hhi : hi ≤ d.top) :
    Inside d m s'.maps := fun _ _ hout =>
  (hfills.outside fun hc => hout ⟨hc.1, hlo.trans hc.2.1, hc.2.2.trans_le hhi⟩).trans (h _ _ hout)

variable {s₀ : State}

theorem Bounded.alloc (hd : d.Ok) (hdiv : d.Divides) (h : Bounded a d s₀ c)
    (hnext : Config.next a (.alloc stk) c = some c') : Bounded a d s₀ c' := by
  obtain ⟨r, s', hcall, rfl⟩ := Config.after_eq_some hnext
  obtain ⟨al, hal⟩ : ∃ al, c.state.allocator a = al := ⟨_, rfl⟩
  obtain ⟨k, hk⟩ := h.next
  obtain rfl : al.desc = d := hal ▸ h.desc
  rw [hal] at hk
  have htop := hd.top
  have hlt : al.nextStk < 2 ^ 64 := lt_of_le_of_lt (by omega) hd.lt
  have haligned : al.nextStk % stkPagesize = 0 := by
    rcases al.desc.reserve_eq with hr | hr <;> rw [hr] at hk <;> unfold stkPagesize at * <;> omega
  rcases stkaAlloc_spec hal haligned hlt _ _ hcall with
    ⟨-, rfl, rfl⟩ | ⟨hfull, rfl, hne, hfresh, halloc, ok, hstack, hfills⟩
  · -- only the lock has changed
    have hput : ((lock a).put true c.state).allocator a = { al with locked := true } := by
      simp [lock, State.setAllocator, hal]
    refine ⟨by rw [hput], ⟨k, by rw [hput]; exact hk⟩, h.handed, ?_, ?_, h.maps⟩
    · have hnodup := h.nodup
      rw [hal] at hnodup
      rw [hput]
      exact hnodup
    · have hlive := h.live
      rw [hal] at hlive
      rw [hput]
      exact hlive
  · obtain ⟨hfit, hbelow⟩ := hdiv.fits hd hk hfull
    have hcommit := al.desc.commit_spec
    rw [sub64_of_le (show al.desc.reserve ≤ al.nextStk by omega) hlt] at halloc hstack hfills
    rw [sub64_of_le (show al.desc.commit ≤ al.nextStk by omega) hlt] at hstack hfills
    rw [sub64_of_le (show stkPagesize ≤ al.nextStk - al.desc.reserve by omega) (by omega)] at halloc
    have hself := congrFun halloc a
    rw [update_self] at hself
    have hst := congrFun hstack r
    rw [update_self] at hst
    have hnew : r ∉ al.stackList := fun hr => by
      obtain ⟨st, hold, -⟩ := h.live r (hal ▸ hr)
      cases hfresh.symm.trans hold
    rw [if_neg hne, State.range_of_stack hst]
    refine ⟨by rw [hself], ⟨k + 1, ?_⟩, fun x hx => ?_, ?_, fun x hx => ?_, ?_⟩
    · rw [hself, ← hk, Nat.add_mul, Nat.one_mul]
      dsimp only
      omega
    · rcases mem_append.1 hx with hold | hlast
      · exact h.handed x hold
      · obtain rfl := mem_singleton.1 hlast
        have hreserve := al.desc.reserve_eq
        unfold stkPagesize at hreserve
        dsimp only
        omega
    · rw [hself]
      have hnodup := h.nodup
      rw [hal] at hnodup
      exact hnodup.append (nodup_singleton r) fun x hx hx' =>
        hnew (mem_singleton.1 hx' ▸ hx)
    · rw [hself] at hx
      rw [hstack]
      rcases mem_append.1 hx with hold | hlast
      · have hxr : x ≠ r := by
          rintro rfl
          exact hnew hold
        rw [update_of_ne hxr]
        exact h.live x (hal ▸ hold)
      · obtain rfl := mem_singleton.1 hlast
        have hreserve := al.desc.reserve_eq
        have hmapped : al.nextStk - al.desc.reserve ≤
              (if ok then al.nextStk - al.desc.commit else al.nextStk) ∧
            (if ok then al.nextStk - al.desc.commit else al.nextStk) ≤ al.nextStk ∧
            (if ok then al.nextStk - al.desc.commit else al.nextStk) % stkPagesize = 0 := by
          unfold stkPagesize at *
          split_ifs <;> omega
        exact ⟨_, update_self .., by dsimp only; omega, hmapped.1, hmapped.2.1,
          by dsimp only; omega, by unfold stkPagesize at *; dsimp only; omega, hmapped.2.2, haligned⟩
    · exact h.maps.fills (hfills (by omega)) (by omega) (by omega)

section

variable (hd : d.Ok) (h : Bounded a d s₀ c) (hstk : stk ∈ (c.state.allocator a).stackList)
include hd h hstk

theorem Bounded.pgflt {fault : ℕ} (hnext : Config.next a (.pgflt stk fault) c = some c') :
    Bounded a d s₀ c' := by
  obtain ⟨ok, s', hcall, rfl⟩ := Config.after_eq_some hnext
  obtain ⟨st, hst, hp⟩ := h.live stk hstk
  rcases stkaPgflt_spec h.desc hst hp.guard_aligned hp.mapped_aligned hp.le_top
      (hp.top.trans_lt hd.lt) _ _ hcall with
    ⟨-, -, rfl⟩ | ⟨habove, hbelow, halloc, -, hstack, hfills⟩
  · exact h
  have hguard := hp.guard_aligned
  have hpage : st.guard ≤ fault - fault % stkPagesize := by
    unfold stkPagesize at *
    omega
  refine ⟨by rw [halloc]; exact h.desc, by rw [halloc]; exact h.next, h.handed,
    by rw [halloc]; exact h.nodup, ?_,
    h.maps.fills hfills (hp.bottom.trans hpage) (hp.le_top.trans hp.top)⟩
  rw [halloc, hstack]
  intro x hx
  cases ok with
  | false => exact h.live x hx
  | true =>
    rw [if_pos rfl]
    by_cases heq : x = stk
    · subst heq
      refine ⟨_, update_self .., hp.bottom, hpage, ?_, hp.top, hguard, ?_, hp.top_aligned⟩
      · dsimp only
        omega
      · unfold stkPagesize
        dsimp only
        omega
    · rw [update_of_ne heq]
      exact h.live x hx

theorem Bounded.free (hnext : Config.next a (.free stk) c = some c') : Bounded a d s₀ c' := by
  obtain ⟨_, s', hcall, rfl⟩ := Config.after_eq_some hnext
  obtain ⟨st, hst, hp⟩ := h.live stk hstk
  obtain ⟨halloc, hstack, hshrunk, -⟩ := stkaFree_spec rfl hst hp.mapped_aligned hp.top_aligned
    (hp.top.trans_lt hd.lt) hp.le_top _ _ hcall
  have hself := congrFun halloc a
  rw [update_self] at hself
  rw [h.desc] at hshrunk
  refine ⟨by rw [hself]; exact h.desc, by rw [hself]; exact h.next, h.handed, ?_, fun x hx => ?_,
    fun sp q hout => ?_⟩
  · rw [hself]
    exact h.nodup.erase stk
  · rw [hself] at hx
    obtain ⟨hne, hold⟩ := h.nodup.mem_erase_iff.1 hx
    rw [hstack, update_of_ne hne]
    exact h.live x hold
  · refine (hshrunk.outside fun hc => hout ⟨hc.1, ?_, hc.2.2.trans_le hp.top⟩).trans
      (h.maps sp q hout)
    exact (hp.bottom.trans hp.guard_le).trans hc.2.1

end

theorem Bounded.step {op : Op} (hd : d.Ok) (hdiv : d.Divides) (h : Bounded a d s₀ c)
    (hcalled : Called a op c) (hnext : Config.next a op c = some c') : Bounded a d s₀ c' := by
  cases op with
  | alloc stk => exact h.alloc hd hdiv hnext
  | free stk => exact h.free hd hcalled hnext
  | pgflt stk fault => exact h.pgflt hd hcalled hnext
  | switch target =>
    cases hnext
    exact ⟨h.desc, h.next, h.handed, h.nodup, h.live, h.maps⟩

/-- **Stacks stay in their region**, if the stacks and the pages between them divide it: so do all
stacks ever handed out, and neither their first pages nor what they grow by, at any faults, changes
a page outside of the region. -/
theorem stacks_in_region (hd : d.Ok) (hdiv : d.Divides)
    (h₀ : s.allocator a = ⟨d, d.top, [], false⟩)
    (hrun : Runs (Config.next a) (Called a) ⟨s, []⟩ c) :
    (∀ r ∈ c.handed, d.bottom ≤ r.1 ∧ r.1 < r.2 ∧ r.2 ≤ d.top) ∧
    ∀ sp q, ¬ (sp = d.space ∧ Within d.bottom d.top q) → c.state.maps sp q = s.maps sp q := by
  have h : Bounded a d s c := hrun.inv (Start.bounded h₀) fun hinv hcalled hnext =>
    hinv.step hd hdiv hcalled hnext
  exact ⟨h.handed, h.maps⟩

/-- The stacks of a process divide their region: one page is left in the end. -/
theorem stacks_in_region_process : grownStack.handed = [(0x7FFFFFF00000, 0x800000000000)] ∧
    (processDesc 9).bottom ≤ 0x7FFFFFF00000 ∧
    ∀ sp q, ¬ (sp = 9 ∧ Within (processDesc 9).bottom (processDesc 9).top q) →
      grownStack.state.maps sp q = none := by
  have hone : Runs (Config.next 1) (Called 1) noStack oneStack :=
    .step .start (e := .alloc 3) trivial (Config.next_call (by decide +kernel))
  have hgrown : Runs (Config.next 1) (Called 1) noStack grownStack :=
    .step hone (by unfold Called; decide +kernel)
      (Config.next_call (by decide +kernel))
  have hhanded : grownStack.handed = [(0x7FFFFFF00000, 0x800000000000)] := by decide +kernel
  obtain ⟨hin, hout⟩ := stacks_in_region ⟨by decide, by decide, by decide⟩
    (by unfold Desc.Divides; decide) rfl hgrown
  rw [hhanded] at hin
  exact ⟨hhanded, (hin _ (List.mem_singleton.2 rfl)).1, hout⟩

/-- A region of two pages for stacks of a fixed size. -/
def twoPages : Desc := ⟨0x100000, 0x102000, 9, 6, true, false⟩

/-- The first stack has four pages, two of them below the region. -/
theorem stack_below_region : ∃ c, Runs (Config.next 1) (Called 1)
      ⟨emptyState twoPages [11, 12, 13, 14], []⟩ c ∧
    c.handed = [(0xFE000, 0x102000)] ∧ 0xFE000 < twoPages.bottom ∧
    (c.state.maps 9 0xFE).isSome = true := by
  refine ⟨_, .step .start (e := .alloc 3) trivial (Config.next_call (by decide +kernel)), ?_⟩
  decide +kernel

end Tachyon.Stka
