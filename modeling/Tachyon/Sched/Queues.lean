import Tachyon.Lib.Relate
import Tachyon.Lists.Spec
import Tachyon.Sched.Model

/-!
# The run queues as sequences

`ideal` are run queues that are plain sequences of threads.  `Rep s t`: the linked lists of `s` hold
the sequences of `t`.  Every call on the linked lists does what it does on the sequences
(`Call.run_rel`).
-/

namespace Tachyon.Sched

open Prog Tachyon.Lists Threads List Function

/-- The threads, the CPU and the sequence of threads in each queue. -/
@[ext]
structure Ideal where
  kernel : Kernel
  queue : Priority → List ℕ

/-- A thread that `sched_choose` takes. -/
def Eligible (k : Kernel) (x : ℕ) : Prop := x ≠ 0 ∧ (k.thread x).state = .runnable

instance (k : Kernel) (x : ℕ) : Decidable (Eligible k x) := inferInstanceAs (Decidable (_ ∧ _))

/-- The first thread that can run, in the order of the priorities `ps`, or `NULL`. -/
def Ideal.chooseFrom (t : Ideal) (ps : List Priority) : ℕ :=
  ((ps.flatMap t.queue).find? fun x => Eligible t.kernel x).getD 0

/-- The queues as sequences. -/
def ideal : Queueing Ideal where
  kernel t := t.kernel
  setKernel k t := { t with kernel := k }
  choose := fun t => .ok (t.chooseFrom priorities, t)
  remove x := modify fun t =>
    let p := (t.kernel.thread x).priority
    { t with queue := Function.update t.queue p ((t.queue p).erase x) }
  add x := modify fun t =>
    let p := (t.kernel.thread x).priority
    { t with queue := Function.update t.queue p (t.queue p ++ [x]) }

/-- The nodes `ns` of the lists hold the queues of `t`, apart from each other. -/
structure Nodes (s : State) (t : Ideal) (ns : Priority → List (ℕ × ℕ)) : Prop where
  kernel : s.kernel = t.kernel
  data : ∀ p, (ns p).map Prod.snd = t.queue p
  list : ∀ p, s.queues p = 0 ∧ ns p = [] ∨ ListAt s.lists (s.queues p) (ns p)
  lists : ∀ p p', p ≠ p' → s.queues p ≠ 0 → s.queues p ≠ s.queues p'
  apart : ∀ p p', p ≠ p' → ∀ b ∈ ns p, ∀ c ∈ ns p', b.1 ≠ c.1

/-- The linked lists of `s` hold the queues of `t`. -/
def Rep (s : State) (t : Ideal) : Prop := ∃ ns, Nodes s t ns

/-- The allocations of a call succeed, and the fuel suffices. -/
structure Ready (fuel : ℕ) (new : Fresh) (s : State) (t : Ideal) : Prop where
  rep : Rep s t
  fuel : ∀ p, (t.queue p).length < fuel
  node : FreshNode s.lists new.node
  list : new.list ≠ 0 ∧ s.lists.list new.list = none

variable {s : State} {t : Ideal} {ns : Priority → List (ℕ × ℕ)} {fuel old x : ℕ} {new : Fresh}

/-! ### The list functions on one queue -/

variable {m : ListHeap} {l : List (ℕ × ℕ)} {a now now' : ℕ}

theorem onLists_ok {α : Type} {p : Prog ListHeap α} {a : α}
    (h : p s.lists = .ok (a, m)) : onLists p s = .ok (a, { s with lists := m }) := by
  simp [onLists, zoom, h]

/-- A change of one queue, with its nodes. -/
theorem Nodes.change {p : Priority} {own : List ℕ}
    {queues : Priority → ℕ} {list : ℕ} (h : Nodes s t ns) (hq : queues p = list)
    (hother : ∀ p', p' ≠ p → queues p' = s.queues p') (hl : ListAt m list l)
    (hframe : Frame list own s.lists m)
    (hlist : ∀ p', p' ≠ p → s.queues p' ≠ list ∨ s.queues p' = 0)
    (hown : ∀ p', p' ≠ p → ∀ b ∈ ns p', b.1 ∉ own) (hmem : ∀ b ∈ l, b.1 ∈ own) :
    Nodes ⟨s.kernel, m, queues⟩ ⟨t.kernel, update t.queue p (l.map Prod.snd)⟩ (update ns p l) := by
  have hne : ∀ p', p' ≠ p → s.queues p' ≠ 0 → s.queues p' ≠ list := fun p' hp h0 =>
    (hlist p' hp).resolve_right h0
  refine ⟨h.kernel, fun p' => ?_, fun p' => ?_, fun p1 p2 hp h0 => ?_, fun p1 p2 hp b hb c hc => ?_⟩
  · by_cases hp : p' = p
    · subst hp
      simp
    · simpa [hp] using h.data p'
  · by_cases hp : p' = p
    · subst hp
      subst hq
      rw [update_self]
      exact .inr hl
    · rw [update_of_ne hp]
      dsimp only
      rw [hother p' hp]
      refine (h.list p').imp_right fun hl' => ?_
      exact hl'.congr (hframe.list _ (hne p' hp hl'.nonnull)) fun b hb =>
        hframe.node _ (hown p' hp b hb)
  · dsimp only at h0 ⊢
    by_cases hp1 : p1 = p
    · subst hp1
      rw [hq, hother p2 hp.symm]
      intro heq
      exact hne p2 hp.symm (heq ▸ hl.nonnull) heq.symm
    · rw [hother p1 hp1] at h0 ⊢
      by_cases hp2 : p2 = p
      · subst hp2
        rw [hq]
        exact hne p1 hp1 h0
      · rw [hother p2 hp2]
        exact h.lists p1 p2 hp h0
  · by_cases hp1 : p1 = p
    · subst hp1
      rw [update_self] at hb
      rw [update_of_ne hp.symm] at hc
      exact fun heq => hown p2 hp.symm c hc (heq ▸ hmem b hb)
    · rw [update_of_ne hp1] at hb
      by_cases hp2 : p2 = p
      · subst hp2
        rw [update_self] at hc
        exact fun heq => hown p1 hp1 b hb (heq ▸ hmem c hc)
      · rw [update_of_ne hp2] at hc
        exact h.apart p1 p2 hp b hb c hc

/-- The nodes of the queues are no fresh node. -/
theorem Nodes.ne_fresh (h : Nodes s t ns) (hf : FreshNode s.lists a) (p : Priority) :
    ∀ b ∈ ns p, b.1 ≠ a := by
  rcases h.list p with ⟨-, hnil⟩ | hl
  · rw [hnil]
    simp
  · exact hl.ne_fresh hf

theorem Nodes.ne_list (h : Nodes s t ns) (ha : s.lists.list a = none) (p : Priority) :
    s.queues p ≠ a ∨ s.queues p = 0 := by
  rcases h.list p with ⟨h0, -⟩ | ⟨-, ⟨head, hhdr, -⟩, -⟩
  · exact .inr h0
  · refine .inl ?_
    rintro rfl
    cases ha.symm.trans hhdr

/-- The queues without one thread. -/
def Ideal.removed (t : Ideal) (x : ℕ) : Ideal :=
  let p := (t.kernel.thread x).priority
  { t with queue := Function.update t.queue p ((t.queue p).erase x) }

/-- `sched_remove_unlocked` takes a thread out of its queue, and allocates nothing. -/
theorem schedRemove_ok (x : ℕ) (h : Rep s t) : ∃ m, (∀ fuel, (∀ p, (t.queue p).length < fuel) →
      schedRemoveUnlocked fuel x s = .ok ((), { s with lists := m })) ∧
    Rep { s with lists := m } (t.removed x) ∧ (∀ a, s.lists.node a = none → m.node a = none) ∧
    ∀ a, s.lists.list a = none → m.list a = none := by
  obtain ⟨ns, hns⟩ := h
  have hk := hns.kernel
  unfold Ideal.removed
  generalize hp : (t.kernel.thread x).priority = p
  have hcall : ∀ fuel, schedRemoveUnlocked fuel x s =
      onLists (listRemove fuel (s.queues p) x) s := fun fuel => by
    unfold schedRemoveUnlocked
    rw [run_get_bind, hk, hp]
  have hdata := hns.data p
  rcases hns.list p with ⟨h0, hnil⟩ | hl
  · -- there is no such queue
    have hremove : ∀ fuel, listRemove fuel (s.queues p) x s.lists = .ok ((), s.lists) := by
      intro fuel
      rw [h0]
      rfl
    rw [hnil, map_nil] at hdata
    refine ⟨s.lists, fun fuel _ => (hcall fuel).trans (onLists_ok (hremove fuel)), ?_,
      fun _ ha => ha, fun _ ha => ha⟩
    dsimp only
    rw [← hdata, erase_nil, hdata, update_eq_self]
    exact ⟨ns, hns⟩
  · obtain ⟨m, hm, hl', hframe, -⟩ := listRemove_spec hl x
    have hchange := hns.change rfl (fun _ _ => rfl) hl' hframe
      (fun p' hp' => or_iff_not_imp_right.2 fun h0 => hns.lists p' p hp' h0)
      (fun p' hp' b hb hmem => ?_) fun b hb => ?_
    · rw [map_snd_eraseP, hdata] at hchange
      refine ⟨m, fun fuel hfuel => (hcall fuel).trans (onLists_ok (hm fuel ?_)), ⟨_, hchange⟩,
        fun a ha => ?_, fun a ha => ?_⟩
      · have := hfuel p
        rwa [← hdata, length_map] at this
      · rw [hframe.node, ha]
        intro hmem
        obtain ⟨b, hb, rfl⟩ := mem_map.1 hmem
        obtain ⟨-, ⟨head, -, hseg⟩, -⟩ := hl
        have := hseg.isSome b hb
        rw [ha] at this
        cases this
      · rw [hframe.list, ha]
        rintro rfl
        obtain ⟨-, ⟨head, hhdr, -⟩, -⟩ := hl
        cases ha.symm.trans hhdr
    · obtain ⟨c, hc, hcb⟩ := mem_map.1 hmem
      exact hns.apart p' p hp' b hb c hc hcb.symm
    · exact mem_map_of_mem (mem_of_mem_eraseP hb)

/-- `sched_remove_unlocked`. -/
theorem schedRemove_rel (h : Ready fuel new s t) :
    Rel (schedRemoveUnlocked fuel x) (ideal.remove x) (fun _ s' _ t' => Ready fuel new s' t') s t := by
  obtain ⟨m, hm, hrep, hnode, hlist⟩ := schedRemove_ok x h.rep
  refine rel_ok (hm fuel h.fuel) (show ideal.remove x t = .ok ((), t.removed x) from rfl)
    ⟨hrep, fun p => ?_, ⟨h.node.nonnull, h.node.bound, hnode _ h.node.free⟩, h.list.1,
      hlist _ h.list.2⟩
  unfold Ideal.removed
  by_cases hp : p = (t.kernel.thread x).priority
  · subst hp
    simp only [update_self]
    exact lt_of_le_of_lt length_erase_le (h.fuel _)
  · simpa [hp] using h.fuel p

/-- `sched_add_unlocked`. -/
theorem schedAdd_rel (h : Ready fuel new s t) :
    Rel (schedAddUnlocked new x) (ideal.add x) (fun _ s' _ t' => Rep s' t') s t := by
  obtain ⟨⟨ns, hns⟩, -, hnode, hlist⟩ := h
  have hk := hns.kernel
  generalize hp : (t.kernel.thread x).priority = p
  have hcall : ∀ list s', schedQueue p new s = .ok (list, s') →
      schedAddUnlocked new x s = onLists (listAdd list x new.node) s' := by
    intro list s' hqueue
    unfold schedAddUnlocked
    rw [run_get_bind, hk, hp, run_ok hqueue]
  have hideal : ideal.add x t = .ok ((),
      { t with queue := update t.queue p (t.queue p ++ [x]) }) := by
    rw [← hp]
    rfl
  have hdata := hns.data p
  rcases hns.list p with ⟨h0, hnil⟩ | hl
  · -- the queue is made
    obtain ⟨m1, hm1, hl1, hf1⟩ := listNew_spec s.lists hlist.1
    have hnode1 : FreshNode m1 new.node :=
      ⟨hnode.nonnull, hnode.bound, by rw [hf1.node _ (by simp), hnode.free]⟩
    obtain ⟨m2, hm2, hl2, hf2⟩ := listAdd_spec x hl1 hnode1
    have hframe : Frame new.list [new.node] s.lists m2 :=
      ⟨fun a ha => by rw [hf2.list a ha, hf1.list a ha],
        fun a ha => by rw [hf2.node a ha, hf1.node a (by simp)]⟩
    have hqueue : schedQueue p new s =
        .ok (new.list, ⟨s.kernel, m1, update s.queues p new.list⟩) := by
      unfold schedQueue
      rw [run_get_bind, if_pos h0, run_ok (onLists_ok hm1)]
      rfl
    have hadd : onLists (listAdd new.list x new.node)
        ⟨s.kernel, m1, update s.queues p new.list⟩ = .ok ((), _) := onLists_ok hm2
    have hcall := (hcall new.list _ hqueue).trans hadd
    rw [hnil, map_nil] at hdata
    refine rel_ok hcall hideal ⟨update ns p [(new.node, x)], ?_⟩
    rw [← hdata]
    refine hns.change (update_self _ _ _) (fun p' hp' => update_of_ne hp' _ _) hl2
      hframe (fun p' _ => hns.ne_list hlist.2 p') (fun p' _ b hb => ?_) (by simp)
    simpa using hns.ne_fresh hnode p' b hb
  · obtain ⟨m, hm, hl', hframe⟩ := listAdd_spec x hl hnode
    have hqueue : schedQueue p new s = .ok (s.queues p, s) := by
      unfold schedQueue
      rw [run_get_bind, if_neg hl.nonnull]
      rfl
    have hcall := (hcall _ _ hqueue).trans (onLists_ok hm)
    refine rel_ok hcall hideal ⟨update ns p (ns p ++ [(new.node, x)]), ?_⟩
    have hseq : t.queue p ++ [x] = (ns p ++ [(new.node, x)]).map Prod.snd := by simp [hdata]
    rw [hseq]
    refine hns.change rfl (fun _ _ => rfl) hl' hframe
      (fun p' hp' => or_iff_not_imp_right.2 fun h0 => hns.lists p' p hp' h0)
      (fun p' hp' b hb hmem => ?_) fun b hb => ?_
    · rcases mem_cons.1 hmem with hbn | hmem
      · exact hns.ne_fresh hnode p' b hb hbn
      · obtain ⟨c, hc, hcb⟩ := mem_map.1 hmem
        exact hns.apart p' p hp' b hb c hc hcb.symm
    · rcases mem_append.1 hb with hb | hb
      · exact mem_cons_of_mem _ (mem_map_of_mem hb)
      · rw [mem_singleton] at hb
        rw [hb]
        exact mem_cons_self

/-! ### Choosing -/

/-- The loop over one queue. -/
theorem chooseNode_ok {node : ℕ} (hseg : Seg s.lists.node node l 0)
    (hfuel : l.length < fuel) : chooseNode fuel node s =
      .ok ((((l.map Prod.snd).find? fun x => Eligible s.kernel x).getD 0), s) := by
  induction l generalizing node fuel with
  | nil =>
    rcases fuel with _ | fuel
    · omega
    obtain rfl : node = 0 := hseg
    simp [chooseNode]
  | cons b l ih =>
    rcases fuel with _ | fuel
    · omega
    obtain ⟨rfl, h0, next, hmem, hl⟩ := hseg
    rw [chooseNode, if_neg h0, run_ok (onLists_ok (run_loadNode hmem)), run_get_bind, map_cons]
    show (if Eligible s.kernel b.2 then pure b.2 else chooseNode fuel next : Prog State ℕ) s = _
    split_ifs with he
    · rw [find?_cons_of_pos (by simpa using he)]
      rfl
    · rw [find?_cons_of_neg (by simpa using he)]
      exact ih hl (by simpa using hfuel)

theorem find?_eligible_eq_zero {k : Kernel} {l : List ℕ} :
    (l.find? fun x => Eligible k x).getD 0 = 0 ↔ l.find? (Eligible k) = none := by
  cases h : l.find? fun x => Eligible k x with
  | none => simp
  | some x =>
    have := find?_some h
    simp only [decide_eq_true_eq] at this
    simp [this.1]

/-- The loop over the queues. -/
theorem chooseFrom_ok (hns : Nodes s t ns) (hfuel : ∀ p, (t.queue p).length < fuel)
    (ps : List Priority) : chooseFrom fuel ps s = .ok (t.chooseFrom ps, s) := by
  have hk := hns.kernel
  induction ps with
  | nil => rfl
  | cons p ps ih =>
    have hdata := hns.data p
    have hlen : (ns p).length < fuel := by
      have := hfuel p
      rwa [← hdata, length_map] at this
    obtain ⟨node, hnode, hseg⟩ : ∃ node, listBegin (s.queues p) s.lists = .ok (node, s.lists) ∧
        Seg s.lists.node node (ns p) 0 := by
      rcases hns.list p with ⟨h0, hnil⟩ | hl
      · exact ⟨0, by rw [h0]; rfl, by rw [hnil]; rfl⟩
      · obtain ⟨h0, ⟨head, hhdr, hseg⟩, -⟩ := hl
        refine ⟨head, ?_, hseg⟩
        unfold listBegin
        rw [if_neg h0, run_ok (run_loadList hhdr)]
        rfl
    have hone := chooseNode_ok hseg hlen
    rw [hdata, hk] at hone
    rw [chooseFrom, run_get_bind, run_ok (onLists_ok hnode), run_ok hone]
    by_cases hnone : (t.queue p).find? (Eligible t.kernel) = none
    · rw [if_neg (not_not.2 (find?_eligible_eq_zero.2 hnone)), Ideal.chooseFrom, flatMap_cons,
        find?_append, hnone, Option.none_or]
      exact ih
    · rw [if_pos (fun h => hnone (find?_eligible_eq_zero.1 h)), Ideal.chooseFrom, flatMap_cons,
        find?_append]
      obtain ⟨x, hx⟩ := Option.ne_none_iff_exists'.1 hnone
      rw [hx]
      rfl

/-- `sched_choose`. -/
theorem schedChoose_rel (h : Ready fuel new s t) :
    Rel (schedChoose fuel) ideal.choose (fun a s' b t' => a = b ∧ Ready fuel new s' t') s t := by
  obtain ⟨ns, hns⟩ := id h.rep
  exact rel_ok (chooseFrom_ok hns h.fuel _) rfl ⟨rfl, h⟩

/-! ### The calls -/

theorem Ready.kernel_eq (h : Ready fuel new s t) : s.kernel = t.kernel := by
  obtain ⟨⟨ns, hns⟩, -⟩ := h
  exact hns.kernel

theorem onKernel_rel (f : Kernel → Kernel) (h : Ready fuel new s t) :
    Rel ((linked fuel new).onKernel f) (ideal.onKernel f)
      (fun _ s' _ t' => Ready fuel new s' t') s t := by
  refine rel_ok rfl rfl ?_
  obtain ⟨⟨ns, hns⟩, hfuel, hnode, hlist⟩ := h
  refine ⟨⟨ns, ?_, hns.data, hns.list, hns.lists, hns.apart⟩, hfuel, hnode, hlist⟩
  exact congrArg f hns.kernel

section

variable (h : Ready fuel new s t)
include h

theorem schedSwitch_rel {thr : ℕ} :
    Rel (schedSwitch (linked fuel new) old thr now) (schedSwitch ideal old thr now)
      (fun a s' b t' => a = b ∧ Rep s' t') s t := by
  refine rel_seq (onKernel_rel _ h) fun _ s1 _ t1 h1 => ?_
  refine rel_seq (schedRemove_rel h1) fun _ s2 _ t2 h2 => ?_
  refine rel_ite (fun _ => ?_) fun _ => rel_pure ⟨rfl, h2.rep⟩
  exact rel_seq (schedAdd_rel h2) fun _ s3 _ t3 h3 => rel_pure ⟨rfl, h3⟩

theorem schedNext_rel :
    Rel (schedNext (linked fuel new) old now) (schedNext ideal old now)
      (fun a s' b t' => a = b ∧ Rep s' t') s t := by
  refine rel_seq (schedChoose_rel h) ?_
  rintro thr s1 _ t1 ⟨rfl, h1⟩
  refine rel_ite (fun _ => schedSwitch_rel h1) fun _ => rel_ite (fun _ => rel_halt) fun _ => ?_
  refine rel_bind (rel_ok (run_get _) (run_get _) ?_)
  rw [show (linked fuel new).kernel s1 = ideal.kernel t1 from h1.kernel_eq]
  exact rel_ite (fun _ => rel_pure ⟨rfl, h1.rep⟩) fun _ => rel_halt

theorem schedSchedule_rel :
    Rel (schedSchedule (linked fuel new) now now') (schedSchedule ideal now now')
      (fun a s' b t' => a = b ∧ Rep s' t') s t := by
  refine rel_bind (rel_ok (run_get _) (run_get _) ?_)
  rw [show (linked fuel new).kernel s = ideal.kernel t from h.kernel_eq]
  refine rel_ite (fun _ => schedNext_rel h) fun _ => rel_ite (fun _ => rel_pure ⟨rfl, h.rep⟩)
    fun _ => ?_
  exact rel_seq (onKernel_rel _ h) fun _ s1 _ t1 h1 => schedNext_rel h1

theorem leave_rel {state : ThreadState} :
    Rel (leave (linked fuel new) state now now') (leave ideal state now now')
      (fun a s' b t' => a = b ∧ Rep s' t') s t := by
  refine rel_bind (rel_ok (run_get _) (run_get _) ?_)
  rw [show (linked fuel new).kernel s = ideal.kernel t from h.kernel_eq]
  refine rel_ite (fun _ => rel_halt) fun _ => ?_
  exact rel_seq (onKernel_rel _ h) fun _ s1 _ t1 h1 => schedSchedule_rel h1

end

/-- A call on the linked lists does what it does on the sequences. -/
theorem Call.run_rel (call : Call) (h : Ready fuel new s t) :
    Rel (call.run (linked fuel new)) (call.run ideal) (fun a s' b t' => a = b ∧ Rep s' t') s t := by
  cases call with
  | add x => exact rel_seq (schedAdd_rel h) fun _ s1 _ t1 h1 => rel_pure ⟨rfl, h1⟩
  | schedule now now' => exact schedSchedule_rel h
  | yield now now' => exact leave_rel h
  | exit now now' => exact leave_rel h
  | abort now now' =>
    refine rel_bind (rel_ok (run_get _) (run_get _) ?_)
    rw [show (linked fuel new).kernel s = ideal.kernel t from h.kernel_eq]
    exact rel_ite (fun _ => rel_halt) fun _ => leave_rel h

/-! ### Fuel -/

theorem schedChoose_le (fuel : ℕ) : Le (schedChoose fuel) (schedChoose (fuel + 1)) := by
  have hnode : ∀ node, Le (chooseNode fuel node) (chooseNode (fuel + 1) node) := by
    induction fuel with
    | zero => exact fun _ => Le.halt _
    | succ fuel ih =>
      intro node
      exact Le.ite (Le.refl _) (Le.bind (Le.refl _) fun n => Le.bind (Le.refl _) fun s =>
        Le.ite (Le.refl _) (ih _))
  have hps : ∀ ps, Le (chooseFrom fuel ps) (chooseFrom (fuel + 1) ps) := by
    intro ps
    induction ps with
    | nil => exact Le.refl _
    | cons p ps ih =>
      exact Le.bind (Le.refl _) fun s => Le.bind (Le.refl _) fun node =>
        Le.bind (hnode node) fun thr => Le.ite (Le.refl _) ih
  exact hps priorities

/-- More fuel for a call. -/
theorem Call.run_le (call : Call) (new : Fresh) (fuel : ℕ) :
    Le (call.run (linked fuel new)) (call.run (linked (fuel + 1) new)) := by
  have hswitch : ∀ old thr now, Le (schedSwitch (linked fuel new) old thr now)
      (schedSwitch (linked (fuel + 1) new) old thr now) := fun old thr now =>
    Le.bind (Le.refl _) fun _ => Le.bind (Le.bind (Le.refl _) fun s =>
      Le.zoom (listRemove_le fuel _ _)) fun _ => Le.refl _
  have hnext : ∀ old now, Le (schedNext (linked fuel new) old now)
      (schedNext (linked (fuel + 1) new) old now) := fun old now =>
    Le.bind (schedChoose_le fuel) fun thr => Le.ite (hswitch _ _ _) (Le.refl _)
  have hschedule : ∀ now now', Le (schedSchedule (linked fuel new) now now')
      (schedSchedule (linked (fuel + 1) new) now now') := fun now now' =>
    Le.bind (Le.refl _) fun s => Le.ite (hnext _ _) (Le.ite (Le.refl _)
      (Le.bind (Le.refl _) fun _ => hnext _ _))
  have hleave : ∀ st now now', Le (leave (linked fuel new) st now now')
      (leave (linked (fuel + 1) new) st now now') := fun st now now' =>
    Le.bind (Le.refl _) fun s => Le.ite (Le.refl _) (Le.bind (Le.refl _) fun _ => hschedule _ _)
  cases call with
  | add x => exact Le.refl _
  | schedule now now' => exact hschedule _ _
  | yield now now' => exact hleave _ _ _
  | exit now now' => exact hleave _ _ _
  | abort now now' => exact Le.bind (Le.refl _) fun s => Le.ite (Le.refl _) (hleave _ _ _)

end Tachyon.Sched
