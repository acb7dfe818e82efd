import Tachyon.Lists.Spec
import Tachyon.Tmr.Model

/-!
# The queue of timers

`Queue s l`: the list `_timers` holds the nodes `l`, each timer once, in the order of their expiry.
`tmr_resched_sorted` puts a timer *behind* the first one that does not expire before it, so it keeps
the order only if the list is empty or has a timer that expires at the same time
(`tmrReschedSorted_spec`); these are the insertions that `History.met` counts.
-/

namespace Tachyon.Tmr

open Prog Tachyon.Lists List Function

variable {s s' : State} {l xs ys : List (ℕ × ℕ)} {tmr node fuel new : ℕ}

/-! ### The history -/

/-- A program does not repair what was not met. -/
def MetLe {α : Type} (p : Prog State α) : Prop :=
  ∀ s, wlp p (fun _ s' => s'.history.met = true → s.history.met = true) s

section MetLe

variable {α β : Type} {p q : Prog State α} {f : α → Prog State β}

theorem metLe_pure (a : α) : MetLe (pure a) := fun _ => wlp_pure id

theorem metLe_halt (e : Halt) : MetLe (halt e : Prog State α) := fun _ => wlp_halt

theorem metLe_bind (hp : MetLe p) (hf : ∀ a, MetLe (f a)) : MetLe (p >>= f) := fun s =>
  wlp_seq (hp s) fun a s1 h1 => wlp_mono (hf a s1) fun _ _ h2 h => h1 (h2 h)

theorem metLe_ite {c : Prop} [Decidable c] (hp : MetLe p) (hq : MetLe q) :
    MetLe (if c then p else q) := fun s => wlp_ite (fun _ => hp s) fun _ => hq s

theorem metLe_modify {g : State → State}
    (h : ∀ s, (g s).history.met = true → s.history.met = true) : MetLe (modify g) := by
  rintro s _ _ ⟨⟩
  exact h s

theorem metLe_get : MetLe get := by
  rintro s _ _ ⟨⟩
  exact id

theorem metLe_onLists (p : Prog ListHeap α) : MetLe (onLists p) := fun _ => wlp_zoom fun _ _ _ => id

theorem metLe_systime : MetLe systime := by
  rintro s _ _ ⟨⟩
  exact id

theorem metLe_loadTimer (a : ℕ) : MetLe (loadTimer a) := by
  intro s t s' h
  unfold loadTimer at h
  split at h
  · cases h
    exact id
  · cases h

theorem metLe_kheapAlloc : MetLe kheapAlloc := by
  rintro s _ _ ⟨⟩
  exact id

theorem metLe_findPreceeding (tmr fuel preceeding : ℕ) :
    MetLe (findPreceeding tmr fuel preceeding) := by
  induction fuel generalizing preceeding with
  | zero => exact metLe_halt _
  | succ fuel ih =>
    exact metLe_ite (metLe_pure _) (metLe_bind (metLe_onLists _) fun _ =>
      metLe_bind (metLe_loadTimer _) fun _ => metLe_bind (metLe_loadTimer _) fun _ =>
        metLe_ite (metLe_pure _) (ih _))

theorem metLe_insert (list preceeding tmr : ℕ) :
    MetLe (allocNode >>= fun new => onLists (listInsert list preceeding tmr new)) :=
  metLe_bind (metLe_bind metLe_kheapAlloc fun _ => metLe_bind metLe_get fun _ =>
    metLe_ite (metLe_pure _) (metLe_halt _)) fun _ => metLe_onLists _

theorem metLe_tmrReschedSorted (fuel tmr : ℕ) : MetLe (tmrReschedSorted fuel tmr) :=
  metLe_bind metLe_get fun _ => metLe_bind (metLe_onLists _) fun _ =>
    metLe_bind (metLe_findPreceeding _ _ _) fun _ =>
      metLe_bind (metLe_modify fun s h => by simp at h; exact h.1) fun _ => metLe_insert _ _ _

theorem metLe_tmrHandleExpired (fuel tmr : ℕ) : MetLe (tmrHandleExpired fuel tmr) :=
  metLe_bind (metLe_loadTimer _) fun _ => metLe_bind (metLe_modify fun _ => id) fun _ =>
    metLe_bind (metLe_modify fun _ => id) fun _ => metLe_bind metLe_get fun _ =>
    metLe_bind (metLe_onLists _) fun _ => metLe_ite (metLe_bind metLe_systime fun _ =>
    metLe_bind (metLe_modify fun _ => id) fun _ =>
      metLe_tmrReschedSorted _ _) (metLe_modify fun _ => id)

theorem metLe_tickLoop (fuel current k node : ℕ) : MetLe (tickLoop fuel current k node) := by
  induction k generalizing node with
  | zero => exact metLe_halt _
  | succ k ih =>
    exact metLe_ite (metLe_pure _) (metLe_bind (metLe_onLists _) fun _ =>
      metLe_bind (metLe_loadTimer _) fun _ => metLe_ite
        (metLe_bind (metLe_tmrHandleExpired _ _) fun _ => ih _) (metLe_pure _))

theorem metLe_tmrSetNextTick (fuel : ℕ) : MetLe (tmrSetNextTick fuel) :=
  metLe_bind metLe_systime fun _ => metLe_bind (metLe_bind metLe_get fun _ =>
    metLe_bind (metLe_onLists _) fun _ => metLe_bind metLe_systime fun _ => metLe_tickLoop _ _ _ _)
    fun _ => metLe_bind metLe_get fun _ => metLe_bind (metLe_onLists _) fun _ =>
    metLe_ite (metLe_bind (metLe_onLists _) fun _ => metLe_bind (metLe_loadTimer _) fun _ =>
      metLe_modify fun _ => id) (metLe_modify fun _ => id)

end MetLe

/-! ### The order -/

/-- When a timer expires. -/
def expire (s : State) (a : ℕ) : ℕ := ((s.timer a).map Timer.expire).getD 0

/-- The list holds the nodes `l`, each timer once, in the order of their expiry. -/
structure Queue (s : State) (l : List (ℕ × ℕ)) : Prop where
  list : ListAt s.lists s.timers l
  nodup : (l.map Prod.snd).Nodup
  live : ∀ b ∈ l, ∃ t, s.timer b.2 = some t
  order : l.Pairwise fun b c => expire s b.2 ≤ expire s c.2

/-- The same timers, whatever list they are in. -/
structure SameTimers (s s' : State) : Prop where
  timer : s'.timer = s.timer
  timers : s'.timers = s.timers
  pending : s'.history.pending = s.history.pending
  oneshot : s'.history.oneshot = s.history.oneshot

variable {a preceeding : ℕ} {t : Timer} {m : ListHeap}

theorem expire_of_some (h : s.timer a = some t) : expire s a = t.expire := by
  unfold expire
  rw [h]
  rfl

theorem run_loadTimer (h : s.timer a = some t) :
    loadTimer a s = .ok (t, s) := by
  unfold loadTimer
  rw [h]

theorem onLists_ok {α : Type} {p : Prog ListHeap α} {a : α}
    (h : p s.lists = .ok (a, m)) : onLists p s = .ok (a, { s with lists := m }) := by
  simp [onLists, zoom, h]

theorem onLists_inv {α : Type} {p : Prog ListHeap α} {a : α} (h : onLists p s = .ok (a, s')) :
    ∃ m, p s.lists = .ok (a, m) ∧ s' = { s with lists := m } := by
  unfold onLists zoom at h
  cases hp : p s.lists with
  | error e => rw [hp] at h; cases h
  | ok r =>
    obtain ⟨b, m⟩ := r
    rw [hp] at h
    cases h
    exact ⟨m, rfl, rfl⟩

/-- What the loop of `tmr_resched_sorted` finds. -/
theorem findPreceeding_run (hlive : ∀ b ∈ ys, ∃ t, s.timer b.2 = some t)
    (ht : s.timer tmr = some t) (hseg : Seg s.lists.node node ys 0) (hfuel : ys.length < fuel) :
    ∃ preceeding, findPreceeding tmr fuel node s = .ok (preceeding, s) ∧
      (preceeding = 0 ∧ (∀ b ∈ ys, expire s b.2 < t.expire) ∨
        ∃ zs d ws, ys = zs ++ (preceeding, d) :: ws ∧ t.expire ≤ expire s d) := by
  induction ys generalizing node fuel with
  | nil =>
    rcases fuel with _ | fuel
    · omega
    obtain rfl : node = 0 := hseg
    exact ⟨0, rfl, .inl ⟨rfl, by simp⟩⟩
  | cons b ys ih =>
    rcases fuel with _ | fuel
    · omega
    obtain ⟨rfl, h0, next, hmem, hys⟩ := hseg
    rw [forall_mem_cons] at hlive
    obtain ⟨⟨other, hother⟩, hlive⟩ := hlive
    have hexp := expire_of_some hother
    rw [findPreceeding, if_neg h0, run_ok (onLists_ok (run_loadNode hmem)),
      run_ok (run_loadTimer hother), run_ok (run_loadTimer ht)]
    by_cases hle : t.expire ≤ other.expire
    · rw [if_pos hle]
      exact ⟨_, rfl, .inr ⟨[], b.2, ys, rfl, hexp ▸ hle⟩⟩
    rw [if_neg hle]
    have hlt : ys.length < fuel := by simpa using hfuel
    obtain ⟨preceeding, hrun, hpre⟩ := ih hlive hys hlt
    refine ⟨preceeding, hrun, ?_⟩
    rcases hpre with ⟨rfl, hall⟩ | ⟨zs, d, ws, rfl, hd⟩
    · exact .inl ⟨rfl, forall_mem_cons.2 ⟨by rw [hexp]; omega, hall⟩⟩
    · exact .inr ⟨b :: zs, d, ws, rfl, hd⟩

theorem findPreceeding_le (tmr fuel preceeding : ℕ) :
    Le (findPreceeding tmr fuel preceeding) (findPreceeding tmr (fuel + 1) preceeding) := by
  induction fuel generalizing preceeding with
  | zero => exact Le.halt _
  | succ fuel ih =>
    exact Le.ite (Le.refl _) (Le.bind (Le.refl _) fun _ => Le.bind (Le.refl _) fun _ =>
      Le.bind (Le.refl _) fun _ => Le.ite (Le.refl _) (ih _))

/-- Any run of the loop that returns. -/
theorem findPreceeding_of_ok
    (hlive : ∀ b ∈ ys, ∃ t, s.timer b.2 = some t) (ht : s.timer tmr = some t)
    (hseg : Seg s.lists.node node ys 0)
    (h : findPreceeding tmr fuel node s = .ok (preceeding, s')) :
    s' = s ∧ (preceeding = 0 ∧ (∀ b ∈ ys, expire s b.2 < t.expire) ∨
      ∃ zs d ws, ys = zs ++ (preceeding, d) :: ws ∧ t.expire ≤ expire s d) := by
  obtain ⟨n, hn⟩ := Returns.of_le (fun k => findPreceeding_le tmr k node) h
  have hlen : ys.length < n + ys.length + 1 := by omega
  obtain ⟨p, hrun, hpre⟩ := findPreceeding_run hlive ht hseg hlen
  have hsame : .ok (preceeding, s') = findPreceeding tmr (n + ys.length + 1) node s :=
    (hn _ (by omega)).symm
  rw [hrun] at hsame
  cases hsame
  exact ⟨rfl, hpre⟩

/-- Behind a timer that expires at the same time. -/
theorem Queue.insert {d : ℕ}
    (hq : Queue s (xs ++ (preceeding, d) :: ys)) (ht : s.timer tmr = some t)
    (hnew : tmr ∉ (xs ++ (preceeding, d) :: ys).map Prod.snd) (hd : expire s d = t.expire)
    (hl : ListAt m s.timers (xs ++ (preceeding, d) :: (new, tmr) :: ys)) :
    Queue { s with lists := m } (xs ++ (preceeding, d) :: (new, tmr) :: ys) ∧
      ((xs ++ (preceeding, d) :: (new, tmr) :: ys).map Prod.snd).Perm
        (tmr :: (xs ++ (preceeding, d) :: ys).map Prod.snd) := by
  have hperm : (xs ++ (preceeding, d) :: (new, tmr) :: ys).Perm
      ((new, tmr) :: (xs ++ (preceeding, d) :: ys)) := by
    rw [append_cons, append_cons xs (preceeding, d) ys]
    exact perm_middle
  have htmr : expire s tmr = expire s d := (expire_of_some ht).trans hd.symm
  have hord := hq.order
  rw [pairwise_append, pairwise_cons] at hord
  obtain ⟨hxs, ⟨hdys, hys⟩, hall⟩ := hord
  refine ⟨⟨hl, ?_, ?_, ?_⟩, hperm.map Prod.snd⟩
  · rw [(hperm.map Prod.snd).nodup_iff]
    exact nodup_cons.2 ⟨hnew, hq.nodup⟩
  · intro b hb
    rcases mem_cons.1 (hperm.mem_iff.1 hb) with rfl | hb
    · exact ⟨t, ht⟩
    · exact hq.live b hb
  · refine pairwise_append.2 ⟨hxs, pairwise_cons.2 ⟨fun c hc => ?_,
      pairwise_cons.2 ⟨fun c hc => ?_, hys⟩⟩, fun b hb c hc => ?_⟩
    · rcases mem_cons.1 hc with rfl | hc
      · exact htmr.ge
      · exact hdys c hc
    · exact htmr.le.trans (hdys c hc)
    · rcases mem_cons.1 hc with rfl | hc
      · exact hall b hb _ mem_cons_self
      · rcases mem_cons.1 hc with rfl | hc
        · exact (hall b hb _ mem_cons_self).trans htmr.ge
        · exact hall b hb c (mem_cons_of_mem _ hc)

/-- Into an empty list. -/
theorem Queue.insert_nil (ht : s.timer tmr = some t)
    (hl : ListAt m s.timers [(new, tmr)]) : Queue { s with lists := m } [(new, tmr)] :=
  ⟨hl, nodup_singleton _, fun b hb => by rw [mem_singleton.1 hb]; exact ⟨t, ht⟩,
    pairwise_singleton _ _⟩

theorem allocNode_spec (h : allocNode s = .ok (new, s')) :
    s' = { s with allocs := s.allocs + 1 } ∧ s.lists.node new = none ∧ new < 2 ^ 64 := by
  obtain ⟨a, s1, h1, h⟩ := bind_eq_ok.1 h
  cases h1
  obtain ⟨_, s2, h2, h⟩ := bind_eq_ok.1 h
  cases h2
  split_ifs at h with hc
  · cases h
    exact ⟨rfl, hc⟩
  · cases h

/-- What the insertions that are counted as met have found. -/
theorem Queue.met_cases {head : ℕ} (hq : Queue s l)
    (ht : s.timer tmr = some t) (hhdr : s.lists.list s.timers = some ⟨head, lastAddr l, l.length⟩)
    (hseg : Seg s.lists.node head l 0)
    (hpre : preceeding = 0 ∨ ∃ d zs ws, l = zs ++ (preceeding, d) :: ws ∧ preceeding ≠ 0)
    (hmet : insertionMet tmr preceeding s = true) :
    preceeding = 0 ∧ l = [] ∨
      ∃ d zs ws, l = zs ++ (preceeding, d) :: ws ∧ expire s d = t.expire := by
  rcases hpre with rfl | ⟨d, zs, ws, rfl, h0⟩
  · refine .inl ⟨rfl, ?_⟩
    simp only [insertionMet, if_true, hhdr, beq_iff_eq] at hmet
    subst hmet
    cases l with
    | nil => rfl
    | cons b l =>
      obtain ⟨hb, hb0, -⟩ := hseg
      exact absurd hb.symm hb0
  · obtain ⟨-, -, next, hnode, -⟩ := seg_cut.1 hseg
    obtain ⟨other, hother⟩ := hq.live (preceeding, d) (by simp)
    refine .inr ⟨d, zs, ws, rfl, ?_⟩
    simp only [insertionMet, if_neg h0, hnode, ht, hother, Option.map_some, beq_iff_eq,
      Option.some.injEq] at hmet
    rw [expire_of_some hother, hmet]

theorem run_record {f : State → History → History} :
    record f s = .ok ((), { s with history := f s s.history }) := rfl

/-- The insertion, if it is one that keeps the order. -/
theorem tmrReschedSorted_spec (hq : Queue s l) (ht : s.timer tmr = some t)
    (hnew : tmr ∉ l.map Prod.snd) (h : tmrReschedSorted fuel tmr s = .ok ((), s'))
    (hmet : s'.history.met = true) :
    ∃ l', Queue s' l' ∧ (l'.map Prod.snd).Perm (tmr :: l.map Prod.snd) ∧ SameTimers s s' ∧
      ∀ b l1, l = b :: l1 → ∃ l2, l' = b :: l2 := by
  obtain ⟨h0, ⟨head, hhdr, hseg⟩, -⟩ := id hq.list
  have hbegin : listBegin s.timers s.lists = .ok (head, s.lists) := by
    unfold listBegin
    rw [if_neg h0, run_ok (run_loadList hhdr)]
    rfl
  unfold tmrReschedSorted at h
  rw [run_get_bind, run_ok (onLists_ok hbegin)] at h
  obtain ⟨preceeding, s1, h1, h⟩ := bind_eq_ok.1 h
  obtain ⟨hs1, hpre⟩ := findPreceeding_of_ok hq.live ht hseg h1
  rw [hs1, run_ok run_record] at h
  obtain ⟨new, s2, h2, h⟩ := bind_eq_ok.1 h
  obtain ⟨rfl, hfree, hbound⟩ := allocNode_spec h2
  -- the state behind the insertion, up to its lists
  set s3 : State := { s with
    history := { s.history with met := s.history.met && insertionMet tmr preceeding s }
    allocs := s.allocs + 1 } with hs3
  obtain ⟨m, hm, rfl⟩ : ∃ m, listInsert s.timers preceeding tmr new s.lists = .ok ((), m) ∧
      s' = { s3 with lists := m } := onLists_inv h
  have hmet' : insertionMet tmr preceeding s = true := by
    simp [hs3] at hmet
    exact hmet.2
  have hn0 : new ≠ 0 := by
    rintro rfl
    rw [listInsert, if_neg h0, if_pos rfl] at hm
    cases hm
  have hf : FreshNode s.lists new := ⟨hn0, hbound, hfree⟩
  have hq3 : Queue s3 l := ⟨hq.list, hq.nodup, hq.live, hq.order⟩
  have hplace : preceeding = 0 ∨ ∃ d zs ws, l = zs ++ (preceeding, d) :: ws ∧ preceeding ≠ 0 := by
    rcases hpre with ⟨h0, -⟩ | ⟨zs, d, ws, hl, -⟩
    · exact .inl h0
    · exact .inr ⟨d, zs, ws, hl, hseg.ne_zero (preceeding, d) (by simp [hl])⟩
  rcases hq.met_cases ht hhdr hseg hplace hmet' with ⟨rfl, rfl⟩ | ⟨d, zs, ws, rfl, hd⟩
  · obtain ⟨m', hm', hl', -⟩ := listInsert_nil tmr hq.list hf
    rw [hm] at hm'
    cases hm'
    exact ⟨_, Queue.insert_nil ht hl', List.Perm.refl _, ⟨rfl, rfl, rfl, rfl⟩, by simp⟩
  · obtain ⟨m', hm', hl', -⟩ := listInsert_behind tmr hq.list hf
    rw [hm] at hm'
    cases hm'
    obtain ⟨hq', hperm⟩ := hq3.insert ht hnew hd hl'
    refine ⟨_, hq', hperm, ⟨rfl, rfl, rfl, rfl⟩, fun b l1 hl => ?_⟩
    cases zs with
    | nil =>
      cases hl
      exact ⟨_, rfl⟩
    | cons z zs =>
      cases hl
      exact ⟨_, rfl⟩

/-! ### Expiry -/

/-- The list holds the pending timers, in order, and the one-shots are those without a period. -/
structure Good (s : State) (l : List (ℕ × ℕ)) : Prop where
  queue : Queue s l
  perm : (l.map Prod.snd).Perm s.history.pending
  kind : ∀ a ∈ s.history.pending, ∃ t, s.timer a = some t ∧
    (t.period = 0 ↔ s.history.oneshot a = true)

/-- The queue depends on the list and on the timers in it. -/
theorem Queue.congr (hq : Queue s l) (hlists : s'.lists = s.lists) (htimers : s'.timers = s.timers)
    (htimer : ∀ b ∈ l, s'.timer b.2 = s.timer b.2) : Queue s' l := by
  refine ⟨?_, hq.nodup, fun b hb => ?_, ?_⟩
  · rw [hlists, htimers]
    exact hq.list
  · rw [htimer b hb]
    exact hq.live b hb
  · refine hq.order.imp_of_mem fun {b c} hb hc hle => ?_
    unfold expire at hle ⊢
    rwa [htimer b hb, htimer c hc]

/-- The list without its first timer. -/
theorem Queue.tail {rest : List (ℕ × ℕ)} (hq : Queue s ((node, tmr) :: rest))
    (hl : ListAt m s.timers rest) : Queue { s with lists := m } rest := by
  obtain ⟨-, hnd, hlive, hord⟩ := hq
  exact ⟨hl, (nodup_cons.1 hnd).2, fun b hb => hlive b (mem_cons_of_mem _ hb),
    (pairwise_cons.1 hord).2⟩

/-- A timer behind its removal from the list: a one-shot is freed, a periodic one is put back. -/
theorem tmrRenew_spec (hq : Queue s l) (ht : s.timer tmr = some t) (hnew : tmr ∉ l.map Prod.snd)
    (hperm : ((if t.period = 0 then [] else [tmr]) ++ l.map Prod.snd).Perm s.history.pending)
    (hkind : ∀ a ∈ s.history.pending, ∃ t, s.timer a = some t ∧
      (t.period = 0 ↔ s.history.oneshot a = true))
    (h : tmrRenew fuel tmr t s = .ok ((), s')) (hmet : s'.history.met = true) :
    ∃ l', Good s' l' ∧ s'.timers = s.timers ∧ ∀ b l1, l = b :: l1 → ∃ l2, l' = b :: l2 := by
  have hne : ∀ b ∈ l, b.2 ≠ tmr := fun b hb hbt => hnew (hbt ▸ mem_map_of_mem hb)
  unfold tmrRenew at h
  by_cases hp : t.period = 0
  · rw [if_neg (not_not.2 hp)] at h
    rw [if_pos hp, nil_append] at hperm
    cases h
    refine ⟨l, ⟨hq.congr rfl rfl fun b hb => update_of_ne (hne b hb) _ _, hperm,
      fun a ha => ?_⟩, rfl, fun b l1 hl => ⟨l1, hl⟩⟩
    have hat : a ≠ tmr := fun hat => hnew (hat ▸ hperm.mem_iff.2 ha)
    obtain ⟨t', ht', hone⟩ := hkind a ha
    exact ⟨t', (update_of_ne hat _ _).trans ht', hone⟩
  · rw [if_pos hp] at h
    rw [if_neg hp] at hperm
    obtain ⟨current, s1, h1, h⟩ := bind_eq_ok.1 h
    cases h1
    -- the timer is not in the list while its expiry changes
    set s2 : State := { s with
      reads := s.reads + 1
      timer := update s.timer tmr
        (some { t with expire := add64 (s.clock s.reads) t.period }) } with hs2
    have hq2 : Queue s2 l := hq.congr rfl rfl fun b hb => update_of_ne (hne b hb) _ _
    obtain ⟨l', hq', hperm', hsame, hhead⟩ :=
      tmrReschedSorted_spec hq2 (update_self _ _ _) hnew h hmet
    refine ⟨l', ⟨hq', ?_, ?_⟩, hsame.timers, hhead⟩
    · rw [hsame.pending]
      exact hperm'.trans hperm
    rw [hsame.pending, hsame.timer, hsame.oneshot]
    intro a ha
    obtain ⟨t', ht', hone⟩ := hkind a ha
    by_cases hat : a = tmr
    · subst hat
      rw [ht] at ht'
      cases ht'
      exact ⟨_, update_self _ _ _, hone⟩
    · exact ⟨t', (update_of_ne hat _ _).trans ht', hone⟩

theorem tmrHandleExpired_spec {rest : List (ℕ × ℕ)} (hg : Good s ((node, tmr) :: rest))
    (h : tmrHandleExpired fuel tmr s = .ok ((), s')) (hmet : s'.history.met = true) :
    ∃ l', Good s' l' ∧ s'.timers = s.timers ∧ ∀ b l1, rest = b :: l1 → ∃ l2, l' = b :: l2 := by
  obtain ⟨hq, hperm, hkind⟩ := hg
  have hmem : tmr ∈ s.history.pending := hperm.mem_iff.1 (by simp)
  obtain ⟨t, ht, hone⟩ := hkind tmr hmem
  have hnd := hq.nodup
  rw [map_cons, nodup_cons] at hnd
  unfold tmrHandleExpired at h
  rw [run_ok (run_loadTimer ht), run_ok (run_modify _ _), run_ok run_record, run_get_bind] at h
  obtain ⟨_, s1, h1, h⟩ := bind_eq_ok.1 h
  obtain ⟨m, hm, rfl⟩ := onLists_inv h1
  have hl := listRemove_of_ok hq.list hm
  rw [eraseP_cons_of_pos (by simp)] at hl
  set s2 : State := { s with
    lists := m
    called := t.callback :: s.called
    history := { s.history with
      pending := if s.history.oneshot tmr then s.history.pending.erase tmr
        else s.history.pending } } with hs2
  have hq2 : Queue s2 rest := (hq.tail hl).congr rfl rfl fun _ _ => rfl
  have hsub : s2.history.pending ⊆ s.history.pending := by
    simp only [hs2]
    split_ifs
    · exact erase_subset
    · exact List.Subset.refl _
  refine tmrRenew_spec (s := s2) hq2 ht hnd.1 ?_ (fun a ha => hkind a (hsub ha)) h hmet
  simp only [hs2, ← hone]
  split_ifs
  · simpa using hperm.erase tmr
  · exact hperm

end Tachyon.Tmr
