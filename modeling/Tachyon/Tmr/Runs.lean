import Tachyon.Tmr.Queue

/-!
# The queue of timers along runs

`TimerQueue s`: the list `_timers` holds every pending timer once, in the order of their expiry, and
knows their number.

* `timers_sorted_run`: so it is along every run whose insertions are all of the kind counted by
  `History.met`;
* `timers_lost`: a timer that expires behind all others pushes them out of the list.
-/

namespace Tachyon.Tmr

open Prog Tachyon.Lists List Function

variable {s s' s₀ : State} {l : List (ℕ × ℕ)} {node fuel current head : ℕ}

/-- The readings, addresses, callbacks and timeouts do not matter. -/
theorem Good.congr (hg : Good s l) (hlists : s'.lists = s.lists) (htimers : s'.timers = s.timers)
    (htimer : s'.timer = s.timer) (hhist : s'.history = s.history) : Good s' l := by
  refine ⟨hg.queue.congr hlists htimers fun b _ => by rw [htimer], ?_, ?_⟩
  · rw [hhist]
    exact hg.perm
  · rw [hhist, htimer]
    exact hg.kind

/-! ### Ticks -/

/-- The loop of a tick, at the head of the list. -/
theorem tickLoop_spec {k : ℕ} (hg : Good s l) (hnode : node = 0 ∨ ∃ d rest, l = (node, d) :: rest)
    (h : tickLoop fuel current k node s = .ok ((), s')) (hmet : s'.history.met = true) :
    ∃ l', Good s' l' := by
  induction k generalizing s l node with
  | zero => cases h
  | succ k ih =>
    rw [tickLoop] at h
    by_cases h0 : node = 0
    · rw [if_pos h0] at h
      cases h
      exact ⟨l, hg⟩
    obtain ⟨d, rest, rfl⟩ := hnode.resolve_left h0
    obtain ⟨-, ⟨head, -, rfl, -, next, hmem, hseg⟩, -⟩ := id hg.queue.list
    obtain ⟨t, ht⟩ := hg.queue.live (head, d) mem_cons_self
    rw [if_neg h0, run_ok (onLists_ok (run_loadNode hmem)), run_ok (run_loadTimer ht)] at h
    by_cases hexp : t.expire ≤ current
    · rw [if_pos hexp] at h
      obtain ⟨_, s1, h1, h⟩ := bind_eq_ok.1 h
      have hmet1 := metLe_tickLoop _ _ _ _ _ _ _ h hmet
      obtain ⟨l1, hg1, -, hhead⟩ := tmrHandleExpired_spec hg h1 hmet1
      refine ih hg1 ?_ h
      -- the next node has become the head
      cases rest with
      | nil => exact .inl hseg
      | cons b rest =>
        obtain ⟨l2, rfl⟩ := hhead b rest rfl
        exact .inr ⟨b.2, l2, by rw [show next = b.1 from hseg.1]⟩
    · rw [if_neg hexp] at h
      cases h
      exact ⟨_, hg⟩

theorem run_listBegin {m : ListHeap} {list : ℕ} (h : ListAt m list l)
    (hhdr : m.list list = some ⟨head, lastAddr l, l.length⟩) :
    listBegin list m = .ok (head, m) := by
  unfold listBegin
  rw [if_neg h.nonnull, run_ok (run_loadList hhdr)]
  rfl

theorem tmrDoHandleTick_spec (hg : Good s l) (h : tmrDoHandleTick fuel s = .ok ((), s'))
    (hmet : s'.history.met = true) : ∃ l', Good s' l' := by
  obtain ⟨-, ⟨head, hhdr, hseg⟩, -⟩ := id hg.queue.list
  unfold tmrDoHandleTick at h
  rw [run_get_bind, run_ok (onLists_ok (run_listBegin hg.queue.list hhdr))] at h
  refine tickLoop_spec (s := { s with reads := s.reads + 1 }) (hg.congr rfl rfl rfl rfl) ?_ h hmet
  cases l with
  | nil => exact .inl hseg
  | cons b rest => exact .inr ⟨b.2, rest, by rw [show head = b.1 from hseg.1]⟩

theorem metLe_generatorSchedule (timeout : ℕ) : MetLe (generatorSchedule timeout) :=
  metLe_modify fun _ => id

/-- The generator is set by the timer at the head. -/
theorem tmrSetNextTick_spec (hg : Good s l) (h : tmrSetNextTick fuel s = .ok ((), s'))
    (hmet : s'.history.met = true) : ∃ l', Good s' l' := by
  have hg0 : Good { s with reads := s.reads + 1 } l := hg.congr rfl rfl rfl rfl
  obtain ⟨current, s1, h1, h⟩ := bind_eq_ok.1 h
  cases h1
  obtain ⟨_, s2, h2, h⟩ := bind_eq_ok.1 h
  have hmet2 : s2.history.met = true := by
    refine metLe_bind metLe_get (fun _ => metLe_bind (metLe_onLists _) fun _ => metLe_ite
      (metLe_bind (metLe_onLists _) fun _ => metLe_bind (metLe_loadTimer _) fun _ =>
        metLe_generatorSchedule _) (metLe_generatorSchedule _)) s2 _ _ h hmet
  obtain ⟨l', hg'⟩ := tmrDoHandleTick_spec hg0 h2 hmet2
  refine ⟨l', ?_⟩
  obtain ⟨-, ⟨head, hhdr, hseg⟩, -⟩ := id hg'.queue.list
  rw [run_get_bind, run_ok (onLists_ok (run_listBegin hg'.queue.list hhdr))] at h
  cases l' with
  | nil =>
    obtain rfl : head = 0 := hseg
    cases h
    exact hg'.congr rfl rfl rfl rfl
  | cons b rest =>
    obtain ⟨rfl, h0, next, hmem, -⟩ := hseg
    obtain ⟨t, ht⟩ := hg'.queue.live b mem_cons_self
    rw [if_pos h0, run_ok (onLists_ok (run_loadNode hmem)), run_ok (run_loadTimer ht)] at h
    cases h
    exact hg'.congr rfl rfl rfl rfl

/-! ### New timers -/

theorem allocTimer_spec {pt : ℕ} (h : allocTimer s = .ok (pt, s')) :
    s' = { s with allocs := s.allocs + 1 } ∧ s.timer pt = none := by
  obtain ⟨a, s1, h1, h⟩ := bind_eq_ok.1 h
  cases h1
  rw [run_get_bind] at h
  split_ifs at h with hfree
  · cases h
    exact ⟨rfl, hfree⟩
  · cases h

theorem tmrSchedule_spec {callback us : ℕ} {oneshot done : Bool} (hg : Good s l)
    (h : tmrSchedule fuel callback us oneshot s = .ok (done, s'))
    (hmet : s'.history.met = true) : ∃ l', Good s' l' := by
  obtain ⟨pt, s1, h1, h⟩ := bind_eq_ok.1 h
  obtain ⟨rfl, hfree⟩ := allocTimer_spec h1
  by_cases hcb : callback = 0
  · rw [if_pos hcb] at h
    cases h
    exact ⟨l, hg.congr rfl rfl rfl rfl⟩
  rw [if_neg hcb] at h
  by_cases h0 : pt = 0
  · rw [if_pos h0] at h
    cases h
  rw [if_neg h0] at h
  -- the timer is filled in before it is in the list
  set t : Timer := ⟨add64 us (s.clock s.reads), if oneshot then 0 else us, callback⟩ with ht
  set s2 : State := { s with
    allocs := s.allocs + 1
    reads := s.reads + 1
    timer := update s.timer pt (some t)
    history := ⟨pt :: s.history.pending, update s.history.oneshot pt oneshot,
      s.history.met && (oneshot || us != 0)⟩ } with hs2
  have h : (tmrReschedSorted fuel pt >>= fun _ => tmrSetNextTick fuel >>= fun _ => pure true) s2 =
    .ok (done, s') := h
  obtain ⟨_, s3, h3, h⟩ := bind_eq_ok.1 h
  obtain ⟨_, s4, h4, h⟩ := bind_eq_ok.1 h
  cases h
  have hmet3 : s3.history.met = true := metLe_tmrSetNextTick _ _ _ _ h4 hmet
  have hmet2 : s2.history.met = true := metLe_tmrReschedSorted _ _ _ _ _ h3 hmet3
  have hne : ∀ a ∈ s.history.pending, a ≠ pt := by
    rintro a ha rfl
    obtain ⟨t', ht', -⟩ := hg.kind a ha
    rw [hfree] at ht'
    cases ht'
  have hnew : pt ∉ l.map Prod.snd := fun hmem => hne pt (hg.perm.mem_iff.1 hmem) rfl
  have hq2 : Queue s2 l := hg.queue.congr rfl rfl fun b hb =>
    update_of_ne (hne _ (hg.perm.mem_iff.1 (mem_map_of_mem hb))) _ _
  obtain ⟨l', hq', hperm, hsame, -⟩ :=
    tmrReschedSorted_spec hq2 (update_self _ _ _) hnew h3 hmet3
  refine tmrSetNextTick_spec ⟨hq', ?_, ?_⟩ h4 hmet
  · rw [hsame.pending]
    exact hperm.trans (hg.perm.cons pt)
  rw [hsame.pending, hsame.timer, hsame.oneshot]
  intro a ha
  rcases mem_cons.1 ha with rfl | ha
  · refine ⟨t, update_self _ _ _, ?_⟩
    cases oneshot <;> simp_all
  · obtain ⟨t', ht', hone⟩ := hg.kind a ha
    refine ⟨t', (update_of_ne (hne a ha) _ _).trans ht', ?_⟩
    simp only [hs2, update_of_ne (hne a ha)]
    exact hone

/-! ### Runs -/

/-- `tmr_init` has made the list, and no timer was scheduled yet. -/
structure Start (s : State) : Prop where
  list : ListAt s.lists s.timers []
  pending : s.history.pending = []

/-- A call of `tmr_schedule`, or a tick. -/
inductive Step : State → State → Prop
  | schedule {s s' : State} {fuel callback us : ℕ} {oneshot done : Bool}
      (call : tmrSchedule fuel callback us oneshot s = .ok (done, s')) : Step s s'
  | tick {s s' : State} {fuel : ℕ} (call : tmrHandleTick fuel s = .ok ((), s')) : Step s s'

/-- `_timers` holds every pending timer once, in the order of their expiry, and `list_size` is their
number. -/
def TimerQueue (s : State) : Prop :=
  ∃ l, ListAt s.lists s.timers l ∧ (l.map Prod.snd).Perm s.history.pending ∧
    (l.map Prod.snd).Nodup ∧ (l.map Prod.snd).Pairwise (fun a b => expire s a ≤ expire s b) ∧
    listSize s.timers s.lists = .ok (s.history.pending.length, s.lists)

theorem metLe_tmrSchedule (fuel callback us : ℕ) (oneshot : Bool) :
    MetLe (tmrSchedule fuel callback us oneshot) := by
  refine metLe_bind (metLe_bind metLe_kheapAlloc fun _ => metLe_bind metLe_get fun _ =>
    metLe_ite (metLe_pure _) (metLe_halt _)) fun pt => metLe_ite (metLe_pure _) (metLe_ite
    (metLe_halt _) (metLe_bind metLe_systime fun _ => metLe_bind (metLe_modify fun _ => id) fun _ =>
    metLe_bind (metLe_modify fun _ => ?_) fun _ => metLe_bind (metLe_tmrReschedSorted _ _) fun _ =>
    metLe_bind (metLe_tmrSetNextTick _) fun _ => metLe_pure _))
  exact fun h => (Bool.and_eq_true_iff.1 h).1

theorem Step.metLe (h : Step s s') (hmet : s'.history.met = true) : s.history.met = true := by
  cases h with
  | schedule call => exact metLe_tmrSchedule _ _ _ _ _ _ _ call hmet
  | tick call => exact metLe_tmrSetNextTick _ _ _ _ call hmet

theorem Step.good (h : Step s s') (hg : Good s l) (hmet : s'.history.met = true) :
    ∃ l', Good s' l' := by
  cases h with
  | schedule call => exact tmrSchedule_spec hg call hmet
  | tick call => exact tmrSetNextTick_spec hg call hmet

theorem Start.good (h : Start s) : Good s [] := by
  refine ⟨⟨h.list, nodup_nil, by simp, List.Pairwise.nil⟩, ?_, ?_⟩ <;> simp [h.pending]

/-- The queue is in order after every run whose insertions all met the condition. -/
theorem good_of_run (h0 : Start s₀) (hrun : Relation.ReflTransGen Step s₀ s)
    (hmet : s.history.met = true) : ∃ l, Good s l := by
  induction hrun with
  | refl => exact ⟨[], h0.good⟩
  | tail _ hstep ih =>
    obtain ⟨l, hg⟩ := ih (hstep.metLe hmet)
    exact hstep.good hg hmet

theorem Good.timerQueue (hg : Good s l) : TimerQueue s := by
  obtain ⟨h0, ⟨head, hhdr, -⟩, -⟩ := id hg.queue.list
  refine ⟨l, hg.queue.list, hg.perm, hg.queue.nodup, pairwise_map.2 hg.queue.order, ?_⟩
  rw [← hg.perm.length_eq, length_map]
  unfold listSize
  rw [if_neg h0, run_ok (run_loadList hhdr)]
  rfl

/-- **`_timers` is the queue of the pending timers** after every run of `tmr_schedule` and ticks, if
every insertion found an empty list or a timer that expires at the same time and every periodic
timer was given a period. -/
theorem timers_sorted_run (h₀ : Start s₀) (hrun : Relation.ReflTransGen Step s₀ s)
    (hmet : s.history.met = true) : TimerQueue s :=
  (good_of_run h₀ hrun hmet).elim fun _ hg => hg.timerQueue

/-- An empty list of timers.  The clock stands for the first three readings. -/
def noTimers : State where
  timer := fun _ => none
  lists := ⟨fun a => if a = 8 then some ⟨0, 0, 0⟩ else none, fun _ => none⟩
  timers := 8
  clock := fun k => if k < 3 then 0 else 5000
  reads := 0
  alloc := fun k => 0x1000 * (k + 1)
  allocs := 0
  called := []
  timeouts := []
  history := ⟨[], fun _ => false, true⟩

theorem noTimers_start : Start noTimers := ⟨⟨by decide, ⟨0, rfl, rfl⟩, by decide⟩, rfl⟩

/-- A periodic timer of 5 ms. -/
def onePeriodic : State := (tmrSchedule 5 1 5000 false).exec noTimers

theorem onePeriodic_step : Step noTimers onePeriodic :=
  .schedule (eq_ok_of_value (a := true) (by decide +kernel))

/-- Then a one-shot after 10 ms. -/
def periodicAndOneshot : State := (tmrSchedule 5 1 10000 true).exec onePeriodic

/-- A list whose first node has no successor holds one timer. -/
theorem TimerQueue.length_of_last {tail size d : ℕ} (h : TimerQueue s)
    (hlist : s.lists.list s.timers = some ⟨head, tail, size⟩) (h0 : head ≠ 0)
    (hnode : s.lists.node head = some ⟨d, 0⟩) : s.history.pending.length = 1 := by
  obtain ⟨l, ⟨-, ⟨head', hhdr, hseg⟩, -⟩, hperm, -⟩ := h
  rw [hlist] at hhdr
  obtain ⟨rfl, -⟩ := hhdr
  have hone : Seg s.lists.node head [(head, d)] 0 := ⟨rfl, h0, 0, hnode, rfl⟩
  rw [hseg.unique hone] at hperm
  exact hperm.length_eq.symm

/-- The one-shot expires last, and is all that is left in the list. -/
theorem timers_lost : Start noTimers ∧ Relation.ReflTransGen Step noTimers periodicAndOneshot ∧
    periodicAndOneshot.history.pending = [0x3000, 0x1000] ∧
    ListHeap.list periodicAndOneshot.lists periodicAndOneshot.timers =
      some ⟨0x4000, 0x2000, 2⟩ ∧
    ListHeap.node periodicAndOneshot.lists 0x4000 = some ⟨0x3000, 0⟩ ∧
    ¬TimerQueue periodicAndOneshot := by
  have hnode : ListHeap.node periodicAndOneshot.lists 0x4000 = some ⟨0x3000, 0⟩ := by
    decide +kernel
  have hlist : ListHeap.list periodicAndOneshot.lists periodicAndOneshot.timers =
      some ⟨0x4000, 0x2000, 2⟩ := by decide +kernel
  have hpending : periodicAndOneshot.history.pending = [0x3000, 0x1000] := by decide +kernel
  have hstep : Step onePeriodic periodicAndOneshot :=
    .schedule (eq_ok_of_value (a := true) (by decide +kernel))
  refine ⟨noTimers_start, (Relation.ReflTransGen.single onePeriodic_step).tail hstep, hpending,
    hlist, hnode, fun h => ?_⟩
  have hlen := h.length_of_last hlist (by decide) hnode
  rw [hpending] at hlen
  exact absurd hlen (by decide)

/-- The periodic timer expires alone and is put back. -/
def onePeriodicTick : State := (tmrHandleTick 5).exec onePeriodic

theorem onePeriodicTick_step : Step onePeriodic onePeriodicTick :=
  .tick (eq_ok_of_value (by decide +kernel))

theorem timers_sorted_run_periodic : onePeriodicTick.called = [1] ∧ TimerQueue onePeriodicTick :=
  ⟨by decide +kernel, timers_sorted_run noTimers_start
    ((Relation.ReflTransGen.single onePeriodic_step).tail onePeriodicTick_step) (by decide +kernel)⟩

end Tachyon.Tmr
