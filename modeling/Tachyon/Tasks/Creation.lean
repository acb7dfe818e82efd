import Tachyon.Heap.Model
import Tachyon.Tasks.Model

/-!
# What a new process acquires (`process.c`)

`prc_new` step by step: the process, its list of threads, the first page of its heap, its stack
allocator and the list of that.  All steps that fail go to one label, where the process is taken
apart again.

What `kheap_alloc`, `pmem_alloc` and `vmem_map` answer is an argument.  `list_new` and `stka_new` use
what `kheap_alloc` returns without a check, so they return `NULL` only if the page at address `0` can
be written.

* `prcNew`, `prcFail`, `listNew`, `listDelete`, `stkaNew`, `stkaDelete`, `heapInit`, `heapDelete`;
* `NeutralOnFailure`: what a call leaves behind;
* `prc_new_neutral`: a failure before the change of the address space leaves nothing.
-/

namespace Tachyon.Creation

open Prog Threads Function

/-- `process_t`. -/
structure Process where
  id : ℕ
  space : ℕ
  priority : Priority
  locked : Bool
  ctid : ℕ
  threads : ℕ
  heap : Heap.HeapT
  stka : ℕ

structure Kernel where
  process : ℕ → Option Process
  /-- The list of stacks, by the address of the allocator. -/
  stackList : ℕ → ℕ
  mem : Mem
  globMap : ℕ
  /-- The objects of the kernel heap that are in use. -/
  live : ℕ → Bool
  /-- The physical pages that are in use. -/
  inUse : ℕ → Bool
  maps : ℕ → ℕ → Option (ℕ × ℕ)
  cr3 : ℕ
  /-- `current` of `process.c`, the next process id. -/
  current : ℕ

/-- What the steps of `prc_new` get: the addresses that `kheap_alloc` returns for the process, its
list of threads, its stack allocator and the list of that, the page from `pmem_alloc`, and the result
of `vmem_map`. -/
structure Answers where
  prc : ℕ
  threads : ℕ
  stka : ℕ
  stackList : ℕ
  page : ℕ
  mapped : Bool

/-! ### Objects of the kernel heap -/

/-- `kheap_alloc`, with its result. -/
def kheapAlloc (a : ℕ) : Prog Kernel ℕ := fun k =>
  if a = 0 then .ok (0, k)
  else if k.live a then .error .undefined
  else .ok (a, { k with live := Function.update k.live a true })

/-- `kheap_free`. -/
def kheapFree (a : ℕ) : Prog Kernel Unit :=
  modify fun k => { k with live := Function.update k.live a false }

section

variable (zeroPage : Bool)

/-- A write to an object; one at `NULL` needs the page at address `0`. -/
def touch (a : ℕ) : Prog Kernel Unit :=
  if a = 0 ∧ zeroPage = false then halt (.pageFault 0) else pure ()

/-- `list_new`. -/
def listNew (answer : ℕ) : Prog Kernel ℕ := do
  let list ← kheapAlloc answer
  touch zeroPage list
  pure list

/-- `list_delete` of an empty list. -/
def listDelete (list : ℕ) : Prog Kernel Unit :=
  if list = 0 then pure () else kheapFree list

/-- `stka_new`. -/
def stkaNew (ans : Answers) : Prog Kernel ℕ := do
  let allocator ← kheapAlloc ans.stka
  touch zeroPage allocator
  let list ← listNew zeroPage ans.stackList
  modify fun k => { k with stackList := Function.update k.stackList allocator list }
  pure allocator

/-- `stka_delete` of an allocator without stacks. -/
def stkaDelete (allocator : ℕ) : Prog Kernel Unit := do
  let k ← get
  listDelete (k.stackList allocator)
  kheapFree allocator

/-! ### The process -/

def loadProcess (prc : ℕ) : Prog Kernel Process := fun k =>
  match k.process prc with
  | none => .error .undefined
  | some p => .ok (p, k)

def storeProcess (prc : ℕ) (p : Process) : Prog Kernel Unit :=
  modify fun k => { k with process := Function.update k.process prc (some p) }

/-- A change of some fields. -/
def updateProcess (prc : ℕ) (f : Process → Process) : Prog Kernel Unit := do
  let p ← loadProcess prc
  storeProcess prc (f p)

/-- A process of zeros only. -/
def zeroProcess : Process := ⟨0, 0, .idle, false, 0, 0, ⟨0, 0, 0, 0, ⟨false, 0, 0, 0⟩⟩, 0⟩

def spcSwitch (space : ℕ) : Prog Kernel Unit := modify fun k => { k with cr3 := space }

/-- The memory managers, as `heap_init` uses them. -/
def pages (ans : Answers) : Heap.Pages Kernel where
  spcCurrent k := k.cr3
  pmemAlloc k :=
    if ans.page = 0 then .ok (0, k)
    else if k.inUse ans.page then .error .undefined
    else .ok (ans.page, { k with inUse := Function.update k.inUse ans.page true })
  vmemMap spc phys virt flags k :=
    if ans.mapped then
      let table := Function.update (k.maps spc) virt (some (phys, flags))
      .ok (true, { k with maps := Function.update k.maps spc table })
    else .ok (false, k)

/-- `heap_init` on the heap of a process, which is not a global one. -/
def heapInit (ans : Answers) (prc : ℕ) : Prog Kernel Bool := do
  let p ← loadProcess prc
  let k ← get
  match Heap.heapInit (pages ans) 0 ⟨p.heap, k.mem, k.globMap, k⟩ with
  | .error e => halt e
  | .ok (ok, s) => do
    set { s.pages with mem := s.mem, globMap := s.globMap }
    storeProcess prc { p with heap := s.heap }
    pure ok

/-- `heap_delete`, which does not release anything. -/
def heapDelete (prc : ℕ) : Prog Kernel Unit :=
  updateProcess prc fun p => { p with heap.state.valid := false }

/-- The label `fail` of `prc_new`. -/
def prcFail (prc : ℕ) : Prog Kernel ℕ :=
  if prc = 0 then pure 0
  else do
    let p ← loadProcess prc
    if p.stka ≠ 0 then stkaDelete p.stka else pure ()
    if p.heap.state.valid then heapDelete prc else pure ()
    if p.threads ≠ 0 then listDelete p.threads else pure ()
    kheapFree prc
    pure 0

/-- `prc_new` behind `heap_init`: the stack allocator, the process id, and back to the address space
from before. -/
def prcStacks (ans : Answers) (prc old : ℕ) (priority : Priority) : Prog Kernel ℕ := do
  let stka ← stkaNew zeroPage ans
  updateProcess prc fun p => { p with stka := stka }
  if stka = 0 then prcFail prc
  else do
    let k ← get
    updateProcess prc fun p => { p with priority := priority, id := k.current }
    modify fun k => { k with current := add64 k.current 1 }
    spcSwitch old
    updateProcess prc fun p => { p with locked := false }
    pure prc

/-- `prc_new` from the change of the address space on. -/
def prcSetup (ans : Answers) (prc space : ℕ) (priority : Priority) : Prog Kernel ℕ := do
  let k ← get
  let old := k.cr3
  spcSwitch space
  updateProcess prc fun p =>
    { p with heap := { p.heap with
        start := pheapStart, endAddr := pheapEnd, space := space, pgFl := pgWritable ||| pgUser } }
  let ok ← heapInit ans prc
  if ok then prcStacks zeroPage ans prc old priority else prcFail prc

/-- `prc_new`. -/
def prcNew (ans : Answers) (space : ℕ) (priority : Priority) : Prog Kernel ℕ := do
  let prc ← kheapAlloc ans.prc
  if prc = 0 then prcFail prc
  else do
    storeProcess prc { zeroProcess with space := space }
    if space = 0 then prcFail prc
    else do
      let threads ← listNew zeroPage ans.threads
      updateProcess prc fun p => { p with threads := threads }
      if threads = 0 then prcFail prc else prcSetup zeroPage ans prc space priority

end

/-! ### Neutrality -/

/-- The address space is the one from before the call; and if the call has failed, no process id was
consumed and nothing is in use that was not before. -/
structure NeutralOnFailure (k k' : Kernel) (r : ℕ) : Prop where
  cr3 : k'.cr3 = k.cr3
  current : r = 0 → k'.current = k.current
  live : r = 0 → k'.live = k.live
  inUse : r = 0 → k'.inUse = k.inUse

/-- The addresses are those of different objects that are not in use yet. -/
structure Fresh (k : Kernel) (ans : Answers) : Prop where
  free : ∀ a ∈ [ans.prc, ans.threads, ans.stka, ans.stackList], a ≠ 0 → k.live a = false
  distinct : [ans.prc, ans.threads, ans.stka, ans.stackList].Pairwise fun a b => a ≠ 0 → a ≠ b
  page : k.inUse ans.page = false

variable {zeroPage : Bool} {ans : Answers} {k k' : Kernel} {a prc space r : ℕ} {priority : Priority}

theorem kheapAlloc_zero (h0 : a = 0) : kheapAlloc a k = .ok (0, k) := by
  rw [kheapAlloc, if_pos h0]

theorem kheapAlloc_of_ne (h0 : a ≠ 0) (h : k.live a = false) :
    kheapAlloc a k = .ok (a, { k with live := update k.live a true }) := by
  rw [kheapAlloc, if_neg h0, h]
  rfl

theorem listNew_of_ne (h0 : a ≠ 0) (h : k.live a = false) :
    listNew zeroPage a k = .ok (a, { k with live := update k.live a true }) := by
  rw [listNew, run_ok (kheapAlloc_of_ne h0 h), touch, if_neg fun hc => h0 hc.1]
  rfl

/-- An object that was taken and given back. -/
theorem update_back {f : ℕ → Bool} (h : f a = false) :
    update (update f a true) a false = f := by
  rw [update_idem, ← h, update_eq_self]

variable {p : Process}

/-- The label for a process that has nothing yet. -/
theorem prcFail_of_empty (h0 : prc ≠ 0) (hp : k.process prc = some p)
    (hstka : p.stka = 0) (hvalid : p.heap.state.valid = false) (hthreads : p.threads = 0) :
    prcFail prc k = .ok (0, { k with live := update k.live prc false }) := by
  have hload : loadProcess prc k = .ok (p, k) := by rw [loadProcess, hp]
  rw [prcFail, if_neg h0, run_ok hload, if_neg (not_not.2 hstka), hvalid,
    if_neg (not_not.2 hthreads)]
  rfl

theorem updateProcess_of_some (f : Process → Process) (hp : k.process prc = some p) :
    updateProcess prc f k =
      .ok ((), { k with process := update k.process prc (some (f p)) }) := by
  have hload : loadProcess prc k = .ok (p, k) := by rw [loadProcess, hp]
  rw [updateProcess, run_ok hload]
  rfl

/-- The label for a process that has a list of threads only. -/
theorem prcFail_of_threads (h0 : prc ≠ 0) (hp : k.process prc = some p)
    (hstka : p.stka = 0) (hvalid : p.heap.state.valid = false) (hthreads : p.threads ≠ 0) :
    prcFail prc k =
      .ok (0, { k with live := update (update k.live p.threads false) prc false }) := by
  have hload : loadProcess prc k = .ok (p, k) := by rw [loadProcess, hp]
  rw [prcFail, if_neg h0, run_ok hload, if_neg (not_not.2 hstka), hvalid, if_pos hthreads,
    listDelete, if_neg hthreads]
  rfl

/-- The objects, pages and the process id that `heap_init` leaves as they are, and the page that it
takes. -/
structure HeapTaken (ans : Answers) (k k' : Kernel) : Prop where
  cr3 : k'.cr3 = k.cr3
  live : k'.live = k.live
  current : k'.current = k.current
  inUse : k'.inUse = if ans.page = 0 then k.inUse else update k.inUse ans.page true

/-- `heap_init` succeeds if its page can be had and mapped. -/
theorem heapInit_of_page {s : Heap.Sys Kernel} (hbounds : s.heap.start ≠ 0 ∧ s.heap.endAddr ≠ 0)
    (hspace : s.heap.space ≠ 0) (hcr3 : s.heap.space = s.pages.cr3)
    (hglobal : s.heap.pgFl &&& pgGlobal = 0) (hfree : s.pages.inUse ans.page = false) :
    ends (Heap.heapInit (pages ans) 0) (fun ok s' =>
      (ok = true ↔ ans.page ≠ 0 ∧ ans.mapped = true) ∧ HeapTaken ans s.pages s'.pages ∧
      (ok = false → s'.heap.state.valid = s.heap.state.valid)) (fun _ => False) s := by
  have hcheck : Heap.heapCheck (pages ans) s = .ok ((), s) := by
    rw [Heap.heapCheck, run_get_bind, if_neg fun hc => hc.1 hcr3]
    rfl
  refine ends_step (run_get _) (ends_ite (fun hc => ?_) fun _ => ?_)
  · omega
  refine ends_step hcheck (ends_step (run_modify _ _) ?_)
  by_cases hpage : ans.page = 0
  · have hpmem : ∀ s1 : Heap.Sys Kernel, Heap.pmemAlloc (pages ans) s1 = .ok (0, s1) := fun s1 => by
      simp [Heap.pmemAlloc, zoom, pages, hpage]
    refine ends_step (hpmem _) (ends_ite (fun _ => ends_pure ?_) fun hc => absurd rfl hc)
    exact ⟨by simp [hpage], ⟨rfl, rfl, rfl, (if_pos hpage).symm⟩, fun _ => rfl⟩
  have hpmem : ∀ s1 : Heap.Sys Kernel, s1.pages = s.pages → Heap.pmemAlloc (pages ans) s1 =
      .ok (ans.page, { s1 with pages := { s.pages with
        inUse := update s.pages.inUse ans.page true } }) := by
    rintro s1 heq
    simp only [Heap.pmemAlloc, zoom, pages, heq, if_neg hpage, hfree]
    rfl
  refine ends_step (hpmem _ rfl) (ends_ite (fun hc => absurd hc hpage) fun _ => ?_)
  cases hmapped : ans.mapped with
  | false =>
    have hvmem : ∀ (s1 : Heap.Sys Kernel) (phys : ℕ),
        Heap.vmemMap (pages ans) s.heap.space phys s.heap.start s.heap.pgFl s1 =
        .ok (false, s1) := fun s1 phys => by
      simp [Heap.vmemMap, zoom, pages, hmapped]
    refine ends_step (hvmem _ _) (ends_ite (fun hc => by cases hc) fun _ => ends_pure ?_)
    exact ⟨by simp, ⟨rfl, rfl, rfl, (if_neg hpage).symm⟩, fun _ => rfl⟩
  | true =>
    have hvmem : ∀ (s1 : Heap.Sys Kernel) (phys : ℕ),
        Heap.vmemMap (pages ans) s.heap.space phys s.heap.start s.heap.pgFl s1 =
        .ok (true, { s1 with pages := { s1.pages with
          maps := update s1.pages.maps s.heap.space (update
            (s1.pages.maps s.heap.space) s.heap.start (some (phys, s.heap.pgFl))) } }) := by
      intro s1 phys
      simp only [Heap.vmemMap, zoom, pages, hmapped]
      rfl
    refine ends_step (hvmem _ _) (ends_ite (fun _ => ?_) fun hc => absurd rfl hc)
    refine ends_step (run_modify _ _) (ends_ite (absurd hglobal) fun _ => ends_pure ?_)
    exact ⟨by simp [hpage], ⟨rfl, rfl, rfl, (if_neg hpage).symm⟩, fun hc => by cases hc⟩

/-- `heap_init` on the heap of a process. -/
theorem prcHeap_ends {E : Halt → Prop} (hp : k.process prc = some p)
    (hbounds : p.heap.start ≠ 0 ∧ p.heap.endAddr ≠ 0) (hspace : p.heap.space ≠ 0)
    (hcr3 : p.heap.space = k.cr3) (hglobal : p.heap.pgFl &&& pgGlobal = 0)
    (hfree : k.inUse ans.page = false) :
    ends (heapInit ans prc) (fun ok k' => (ok = true ↔ ans.page ≠ 0 ∧ ans.mapped = true) ∧
      HeapTaken ans k k' ∧ ∃ p', k'.process prc = some p' ∧ p'.threads = p.threads ∧
        p'.stka = p.stka ∧ (ok = false → p'.heap.state.valid = p.heap.state.valid))
      E k := by
  have hload : loadProcess prc k = .ok (p, k) := by rw [loadProcess, hp]
  obtain ⟨ok, s, hrun, hok, htaken, hvalid⟩ := wp_of_ends (heapInit_of_page
    (s := ⟨p.heap, k.mem, k.globMap, k⟩) hbounds hspace hcr3 hglobal hfree)
  refine ends_step hload (ends_step (run_get _) ?_)
  simp only [hrun]
  exact ends_step (run_set _ _) (ends_step (run_modify _ _) (ends_pure
    ⟨hok, ⟨htaken.cr3, htaken.live, htaken.current, htaken.inUse⟩, _, update_self .., rfl, rfl,
      hvalid⟩))

/-- The answers for the stack allocator and its list are new objects; without a list, the page at
address `0` is there. -/
theorem stkaNew_ends (hstka : ans.stka ≠ 0) (hlive : k.live ans.stka = false)
    (hlist : ans.stackList = 0 ∧ zeroPage = true ∨
      ans.stackList ≠ 0 ∧ ans.stackList ≠ ans.stka ∧ k.live ans.stackList = false) :
    ends (stkaNew zeroPage ans) (fun a k' => a = ans.stka ∧ k'.cr3 = k.cr3 ∧
      k'.process = k.process) (fun _ => False) k := by
  have htouch : ∀ k : Kernel, touch zeroPage ans.stka k = .ok ((), k) := fun k => by
    rw [touch, if_neg fun hc => hstka hc.1]
    rfl
  have hnew : ∃ k', listNew zeroPage ans.stackList
      { k with live := update k.live ans.stka true } = .ok (ans.stackList, k') ∧
      k'.cr3 = k.cr3 ∧ k'.process = k.process := by
    rcases hlist with ⟨hzero, rfl⟩ | ⟨hne, hother, hfree⟩
    · rw [hzero]
      exact ⟨_, rfl, rfl, rfl⟩
    · refine ⟨_, listNew_of_ne hne ?_, rfl, rfl⟩
      exact (update_of_ne hother ..).trans hfree
  obtain ⟨k', hnew, hcr3, hprocess⟩ := hnew
  refine ends_step (kheapAlloc_of_ne hstka hlive) (ends_step (htouch _) ?_)
  exact ends_step hnew (ends_step (run_modify _ _) (ends_pure ⟨rfl, hcr3, hprocess⟩))

/-- `prc_new` from the change of the address space on, up to the result of `heap_init`. -/
theorem prcSetup_ends {R : ℕ → Kernel → Prop} {E : Halt → Prop} (hp : k.process prc = some p)
    (hspace : space ≠ 0) (hfree : k.inUse ans.page = false)
    (hrest : ∀ ok k' p', (ok = true ↔ ans.page ≠ 0 ∧ ans.mapped = true) →
      HeapTaken ans { k with cr3 := space } k' → k'.process prc = some p' →
      p'.threads = p.threads → p'.stka = p.stka →
      (ok = false → p'.heap.state.valid = p.heap.state.valid) →
      ends (if ok = true then prcStacks zeroPage ans prc k.cr3 priority else prcFail prc) R E k') :
    ends (prcSetup zeroPage ans prc space priority) R E k := by
  refine ends_step (run_get _) (ends_step (run_modify _ _) ?_)
  refine ends_step (updateProcess_of_some _ hp) (ends_seq (prcHeap_ends (update_self ..)
    ⟨show pheapStart ≠ 0 by decide, show pheapEnd ≠ 0 by decide⟩ hspace rfl
    (show (pgWritable ||| pgUser) &&& pgGlobal = 0 by decide) hfree) ?_)
  rintro ok k' ⟨hok, htaken, p', hp', hthreads, hstka, hvalid⟩
  exact hrest ok k' p' hok ⟨htaken.cr3, htaken.live, htaken.current, htaken.inUse⟩ hp' hthreads hstka
    hvalid

/-- Nothing fails behind `heap_init`. -/
theorem prcStacks_ends {old : ℕ} (h0 : prc ≠ 0) (hp : k.process prc = some p) (hstka : ans.stka ≠ 0)
    (hlive : k.live ans.stka = false)
    (hlist : ans.stackList = 0 ∧ zeroPage = true ∨
      ans.stackList ≠ 0 ∧ ans.stackList ≠ ans.stka ∧ k.live ans.stackList = false) :
    ends (prcStacks zeroPage ans prc old priority) (fun r k' => r ≠ 0 ∧ k'.cr3 = old)
      (fun _ => False) k := by
  refine ends_seq (stkaNew_ends hstka hlive hlist) ?_
  rintro _ k2 ⟨rfl, hcr32, hprocess2⟩
  rw [← hprocess2] at hp
  refine ends_step (updateProcess_of_some _ hp) (ends_ite (fun hc => absurd hc hstka) fun _ => ?_)
  refine ends_step (run_get _) (ends_step
    (updateProcess_of_some _ (update_self ..)) (ends_step (run_modify _ _) ?_))
  refine ends_step (run_modify _ _) (ends_step
    (updateProcess_of_some _ (update_self ..)) (ends_pure ⟨h0, rfl⟩))

/-! ### What a failure leaves behind -/

/-- The pages in use stay so. -/
def KeepsPages (p : Prog Kernel α) : Prop := ∀ k, wlp p (fun _ k' => k'.inUse = k.inUse) k

theorem KeepsPages.bind {p : Prog Kernel α} {f : α → Prog Kernel β} (hp : KeepsPages p)
    (hf : ∀ a, KeepsPages (f a)) : KeepsPages (p >>= f) := fun k =>
  wlp_seq (hp k) fun a k' hk => wlp_mono (hf a k') fun _ _ h => h.trans hk

theorem KeepsPages.ite {c : Prop} [Decidable c] {p q : Prog Kernel α} (hp : KeepsPages p)
    (hq : KeepsPages q) : KeepsPages (if c then p else q) := fun k =>
  wlp_ite (fun _ => hp k) fun _ => hq k

theorem keepsPages_pure (a : α) : KeepsPages (pure a) := fun _ => wlp_pure rfl

theorem keepsPages_get : KeepsPages get := by
  rintro k _ _ ⟨⟩
  rfl

theorem keepsPages_modify {f : Kernel → Kernel} (h : ∀ k, (f k).inUse = k.inUse) :
    KeepsPages (modify f) := by
  rintro k _ _ ⟨⟩
  exact h k

theorem keepsPages_loadProcess (prc : ℕ) : KeepsPages (loadProcess prc) := by
  intro k p k' hk
  unfold loadProcess at hk
  split at hk <;> cases hk
  rfl

theorem keepsPages_updateProcess (prc : ℕ) (f : Process → Process) :
    KeepsPages (updateProcess prc f) :=
  .bind (keepsPages_loadProcess prc) fun _ => keepsPages_modify fun _ => rfl

theorem keepsPages_kheapAlloc (a : ℕ) : KeepsPages (kheapAlloc a) := by
  intro k r k' hk
  unfold kheapAlloc at hk
  split_ifs at hk <;> cases hk <;> rfl

theorem keepsPages_listDelete (list : ℕ) : KeepsPages (listDelete list) :=
  .ite (keepsPages_pure _) (keepsPages_modify fun _ => rfl)

theorem keepsPages_stkaDelete (allocator : ℕ) : KeepsPages (stkaDelete allocator) :=
  .bind keepsPages_get fun _ => .bind (keepsPages_listDelete _) fun _ =>
    keepsPages_modify fun _ => rfl

theorem keepsPages_touch (a : ℕ) : KeepsPages (touch zeroPage a) :=
  .ite (fun _ => wlp_halt) (keepsPages_pure _)

theorem keepsPages_stkaNew : KeepsPages (stkaNew zeroPage ans) :=
  .bind (keepsPages_kheapAlloc _) fun a => .bind (keepsPages_touch a) fun _ =>
    .bind (.bind (keepsPages_kheapAlloc _) fun l => .bind (keepsPages_touch l) fun _ =>
      keepsPages_pure l) fun _ => .bind (keepsPages_modify fun _ => rfl) fun _ => keepsPages_pure a

/-- The label returns `NULL` and does not give a page back. -/
theorem prcFail_leaks (prc : ℕ) (k : Kernel) :
    wlp (prcFail prc) (fun r k' => r = 0 ∧ k'.inUse = k.inUse) k := by
  refine wlp_ite (fun _ => wlp_pure ⟨rfl, rfl⟩) fun _ => ?_
  refine wlp_seq (keepsPages_loadProcess prc k) fun p k1 h1 => ?_
  -- each of the three parts is skipped, or releases something else
  have hlast : ∀ k2, k2.inUse = k.inUse → wlp (kheapFree prc >>= fun _ => pure 0)
      (fun r k' => r = 0 ∧ k'.inUse = k.inUse) k2 := fun k2 h2 =>
    wlp_modify_bind (wlp_pure ⟨rfl, h2⟩)
  have hlist : ∀ k2, k2.inUse = k.inUse → wlp (if p.threads ≠ 0 then listDelete p.threads >>= fun _ =>
      kheapFree prc >>= fun _ => pure 0 else kheapFree prc >>= fun _ => pure 0)
      (fun r k' => r = 0 ∧ k'.inUse = k.inUse) k2 := fun k2 h2 =>
    wlp_ite (fun _ => wlp_seq (keepsPages_listDelete _ k2) fun _ k3 h3 => hlast k3 (h3.trans h2))
      fun _ => hlast k2 h2
  have hheap : ∀ k2, k2.inUse = k.inUse → wlp (if p.heap.state.valid = true then heapDelete prc >>=
      fun _ => _ else _) (fun r k' => r = 0 ∧ k'.inUse = k.inUse) k2 := fun k2 h2 =>
    wlp_ite (fun _ => wlp_seq (keepsPages_updateProcess prc _ k2) fun _ k3 h3 =>
      hlist k3 (h3.trans h2)) fun _ => hlist k2 h2
  refine wlp_ite (fun _ => wlp_seq (keepsPages_stkaDelete _ k1) fun _ k2 h2 => ?_) fun _ => ?_
  · exact hheap k2 (h2.trans h1)
  · exact hheap k1 h1

/-- Without a stack allocator, `NULL` is returned and the page of the heap stays in use. -/
theorem prcStacks_leaks {old : ℕ} (h : ans.stka = 0) :
    wlp (prcStacks zeroPage ans prc old priority) (fun r k' => r = 0 ∧ k'.inUse = k.inUse) k := by
  have hnull : wlp (stkaNew zeroPage ans) (fun a _ => a = 0) k := by
    rw [stkaNew]
    refine wlp_bind fun a k1 hk1 => ?_
    rw [kheapAlloc_zero h] at hk1
    cases hk1
    exact wlp_bind fun _ _ _ => wlp_bind fun _ _ _ => wlp_bind fun _ _ _ => wlp_pure rfl
  intro r k' hrun
  obtain ⟨a, k1, hk1, hrun⟩ := bind_eq_ok.1 hrun
  obtain ⟨_, k2, hk2, hrun⟩ := bind_eq_ok.1 hrun
  rw [if_pos (hnull a k1 hk1)] at hrun
  refine (prcFail_leaks prc k2 r k' hrun).imp_right fun h => h.trans ?_
  exact (keepsPages_updateProcess prc _ k1 _ k2 hk2).trans (keepsPages_stkaNew k a k1 hk1)

/-- Without a list of stacks, which `stka_new` writes to nevertheless. -/
theorem stkaNew_faults (h0 : ans.stackList = 0) (hz : zeroPage = false) :
    wlp (stkaNew zeroPage ans) (fun _ _ => False) k := by
  refine wlp_bind fun a k1 hk1 => wlp_bind fun _ k2 hk2 => wlp_bind fun l k3 hl => ?_
  obtain ⟨l', k4, hl', hl⟩ := bind_eq_ok.1 hl
  rw [kheapAlloc_zero h0] at hl'
  cases hl'
  rw [touch, if_pos ⟨rfl, hz⟩] at hl
  cases hl

/-! ### Neutrality of `prc_new` -/

/-- What the answers have to be: the step that fails is one before the change of the address space;
or none fails; or `heap_init` gets no page, and the address space is the active one already.  A list
that is not there must not fault. -/
def FailsEarly (zeroPage : Bool) (ans : Answers) (space : ℕ) (k : Kernel) : Prop :=
  ans.prc = 0 ∨ space = 0 ∨ (ans.threads = 0 ∧ zeroPage = true) ∨
  (ans.threads ≠ 0 ∧ (ans.page = 0 ∧ k.cr3 = space ∨
    ans.page ≠ 0 ∧ ans.mapped = true ∧ ans.stka ≠ 0 ∧ (ans.stackList = 0 → zeroPage = true)))

/-- Without a list of threads. -/
theorem prcNew_of_no_threads (hfresh : Fresh k ans) (h0 : ans.prc ≠ 0) (hspace : space ≠ 0)
    (hthreads : ans.threads = 0) :
    (∃ r k', prcNew zeroPage ans space priority k = .ok (r, k') ∧ NeutralOnFailure k k' r) ↔
      zeroPage = true := by
  have hlive := hfresh.free _ (.head _) h0
  rw [prcNew, run_ok (kheapAlloc_of_ne h0 hlive), if_neg h0, storeProcess, run_ok (run_modify _ _),
    if_neg hspace, listNew]
  cases zeroPage with
  | false =>
    have hnull : ∀ k, (kheapAlloc ans.threads >>= fun list => touch false list >>= fun _ =>
        pure list) k = .error (.pageFault 0) := fun k => by
      rw [run_ok (kheapAlloc_zero hthreads)]
      rfl
    rw [run_error (hnull _)]
    simp
  | true =>
    have hnull : ∀ k, (kheapAlloc ans.threads >>= fun list => touch true list >>= fun _ =>
        pure list) k = .ok (0, k) := fun k => by
      rw [run_ok (kheapAlloc_zero hthreads)]
      rfl
    rw [run_ok (hnull _), run_ok (updateProcess_of_some _ (update_self ..)), if_pos rfl,
      prcFail_of_empty h0 (update_self ..) rfl rfl rfl]
    exact iff_of_true ⟨_, _, rfl, rfl, fun _ => rfl, fun _ => update_back hlive, fun _ => rfl⟩ rfl

variable (zeroPage priority) in
/-- With a list of threads: what `prc_new` does from the change of the address space on. -/
theorem prcNew_of_threads (hfresh : Fresh k ans) (h0 : ans.prc ≠ 0) (hspace : space ≠ 0)
    (hthreads : ans.threads ≠ 0) : ∃ k1 p,
    prcNew zeroPage ans space priority k = prcSetup zeroPage ans ans.prc space priority k1 ∧
    k1.live = update (update k.live ans.prc true) ans.threads true ∧
    k1.inUse = k.inUse ∧ k1.cr3 = k.cr3 ∧ k1.current = k.current ∧
    k1.process ans.prc = some p ∧ p.threads = ans.threads ∧ p.stka = 0 ∧
    p.heap.state.valid = false := by
  have hne : ans.threads ≠ ans.prc := ((List.pairwise_cons.1 hfresh.distinct).1 _ (.head _) h0).symm
  have hlive : update k.live ans.prc true ans.threads = false :=
    (update_of_ne hne ..).trans (hfresh.free _ (.tail _ (.head _)) hthreads)
  refine ⟨{ k with
      live := update (update k.live ans.prc true) ans.threads true
      process := update (update k.process ans.prc (some { zeroProcess with space := space })) ans.prc
        (some { zeroProcess with space := space, threads := ans.threads }) },
    { zeroProcess with space := space, threads := ans.threads }, ?_, rfl, rfl, rfl, rfl,
    update_self .., rfl, rfl, rfl⟩
  rw [prcNew, run_ok (kheapAlloc_of_ne h0 (hfresh.free _ (.head _) h0)), if_neg h0, storeProcess,
    run_ok (run_modify _ _), if_neg hspace, run_ok (listNew_of_ne hthreads hlive),
    run_ok (updateProcess_of_some _ (update_self ..)), if_neg hthreads]

/-- Behind the change of the address space. -/
theorem prcSetup_neutral_iff {k1 : Kernel} (hfresh : Fresh k ans) (h0 : ans.prc ≠ 0)
    (hspace : space ≠ 0) (hthreads : ans.threads ≠ 0)
    (hlive : k1.live = update (update k.live ans.prc true) ans.threads true)
    (hinUse : k1.inUse = k.inUse) (hcr3 : k1.cr3 = k.cr3) (hcurrent : k1.current = k.current)
    (hp : k1.process ans.prc = some p) (hpt : p.threads = ans.threads) (hps : p.stka = 0)
    (hpv : p.heap.state.valid = false) :
    (∃ r k', prcSetup zeroPage ans ans.prc space priority k1 = .ok (r, k') ∧
      NeutralOnFailure k k' r) ↔
    (ans.page = 0 ∧ k.cr3 = space ∨
      ans.page ≠ 0 ∧ ans.mapped = true ∧ ans.stka ≠ 0 ∧ (ans.stackList = 0 → zeroPage = true)) := by
  obtain ⟨hfree, hdistinct, hpagefree⟩ := hfresh
  simp only [List.pairwise_cons, List.mem_cons, List.not_mem_nil, or_false, forall_eq_or_imp,
    forall_eq] at hfree hdistinct
  have hpage1 : k1.inUse ans.page = false := hinUse ▸ hpagefree
  have hother : ∀ a, a ≠ ans.prc → a ≠ ans.threads → k.live a = false → k1.live a = false :=
    fun a h1 h2 h => by rw [hlive, update_of_ne h2, update_of_ne h1, h]
  by_cases hpage : ans.page = 0
  · -- no page for the heap: everything is given back, but the address space stays the new one
    have hend : ends (prcSetup zeroPage ans ans.prc space priority) (fun r k' =>
        NeutralOnFailure k k' r ↔ k.cr3 = space) (fun _ => False) k1 := by
      refine prcSetup_ends hp hspace hpage1 fun ok k2 p' hok htaken hp' hpt' hps' hpv' => ?_
      obtain rfl : ok = false := by simpa [hpage] using hok
      have hlive2 : k2.live = k1.live := htaken.live
      refine ends_ok (prcFail_of_threads h0 hp' (hps'.trans hps) ((hpv' rfl).trans hpv)
        (by rw [hpt', hpt]; exact hthreads)) ⟨fun h => h.cr3.symm.trans htaken.cr3, fun h => ?_⟩
      refine ⟨htaken.cr3.trans h.symm, fun _ => htaken.current.trans hcurrent, fun _ => ?_, fun _ => ?_⟩
      · show update (update k2.live p'.threads false) ans.prc false = k.live
        rw [hlive2, hlive, hpt', hpt, update_idem, update_comm (hdistinct.1.1 h0).symm,
          update_back (hfree.1 h0)]
        exact update_eq_self_iff.2 (hfree.2.1 hthreads).symm
      · exact (htaken.inUse.trans (if_pos hpage)).trans hinUse
    obtain ⟨r, k', hrun, hiff⟩ := wp_of_ends hend
    refine ⟨?_, fun h => ⟨r, k', hrun, hiff.2 (h.resolve_right fun hc => hc.1 hpage).2⟩⟩
    rintro ⟨r', k'', hrun', hneutral⟩
    cases hrun.symm.trans hrun'
    exact .inl ⟨hpage, hiff.1 hneutral⟩
  by_cases hgood : ans.mapped = true ∧ ans.stka ≠ 0 ∧ (ans.stackList = 0 → zeroPage = true)
  · obtain ⟨hmapped, hstka, hlist⟩ := hgood
    refine iff_of_true (wp_of_ends ?_) (.inr ⟨hpage, hmapped, hstka, hlist⟩)
    refine prcSetup_ends hp hspace hpage1 fun ok k2 p' hok htaken hp' _ _ _ => ?_
    have hlive2 : k2.live = k1.live := htaken.live
    rw [if_pos (hok.2 ⟨hpage, hmapped⟩)]
    refine ends_mono (prcStacks_ends h0 hp' hstka (hlive2 ▸ hother _ (hdistinct.1.2.1 h0).symm
      (hdistinct.2.1.1 hthreads).symm (hfree.2.2.1 hstka)) ?_) ?_
    · by_cases hstacks : ans.stackList = 0
      · exact .inl ⟨hstacks, hlist hstacks⟩
      · exact .inr ⟨hstacks, (hdistinct.2.2.1 hstka).symm, hlive2 ▸ hother _
          (hdistinct.1.2.2 h0).symm (hdistinct.2.1.2 hthreads).symm (hfree.2.2.2 hstacks)⟩
    · rintro r k' ⟨hr, hcr3'⟩
      exact ⟨hcr3'.trans hcr3, fun hc => absurd hc hr, fun hc => absurd hc hr,
        fun hc => absurd hc hr⟩
  · -- whatever fails behind `heap_init`, the page of the heap stays in use
    have hend : ends (prcSetup zeroPage ans ans.prc space priority) (fun r k' =>
        ¬ NeutralOnFailure k k' r) (fun _ => True) k1 := by
      refine prcSetup_ends hp hspace hpage1 fun ok k2 p' hok htaken hp' _ _ _ => ?_
      have hleaks : ∀ r k', r = 0 ∧ k'.inUse = k2.inUse → ¬ NeutralOnFailure k k' r := by
        rintro r k' ⟨hr, h2⟩ hneutral
        have hused : k2.inUse ans.page = true := by
          rw [htaken.inUse, if_neg hpage, update_self]
        rw [← h2, hneutral.inUse hr, hpagefree] at hused
        cases hused
      refine ⟨?_, fun _ _ => trivial⟩
      refine wlp_ite (fun hc => ?_) fun _ => wlp_mono (prcFail_leaks _ k2) hleaks
      by_cases hstka : ans.stka = 0
      · exact wlp_mono (prcStacks_leaks hstka) hleaks
      · have hstacks : ans.stackList = 0 ∧ zeroPage = false := by
          have := (hok.1 hc).2
          cases zeroPage <;> simp_all
        exact wlp_seq (stkaNew_faults hstacks.1 hstacks.2) fun _ _ hc => hc.elim
    refine iff_of_false ?_ fun h => hgood (h.resolve_left fun hc => hpage hc.1).2
    rintro ⟨r, k', hrun, hneutral⟩
    exact hend.1 r k' hrun hneutral

/-- **`prc_new` is neutral on failure** exactly if what fails fails before the address space is
changed, or without an effect. -/
theorem prc_new_neutral (hfresh : Fresh k ans) :
    (∃ r k', prcNew zeroPage ans space priority k = .ok (r, k') ∧ NeutralOnFailure k k' r) ↔
      FailsEarly zeroPage ans space k := by
  unfold FailsEarly
  by_cases h0 : ans.prc = 0
  · refine iff_of_true ⟨0, k, ?_, rfl, fun _ => rfl, fun _ => rfl, fun _ => rfl⟩ (.inl h0)
    rw [prcNew, run_ok (kheapAlloc_zero h0), if_pos rfl]
    rfl
  have hlive := hfresh.free _ (.head _) h0
  by_cases hspace : space = 0
  · refine iff_of_true ?_ (.inr (.inl hspace))
    rw [prcNew, run_ok (kheapAlloc_of_ne h0 hlive), if_neg h0, storeProcess,
      run_ok (run_modify _ _), if_pos hspace, prcFail_of_empty h0 (update_self ..) rfl rfl rfl]
    exact ⟨_, _, rfl, rfl, fun _ => rfl, fun _ => update_back hlive, fun _ => rfl⟩
  by_cases hthreads : ans.threads = 0
  · rw [prcNew_of_no_threads hfresh h0 hspace hthreads]
    simp [h0, hspace, hthreads]
  · obtain ⟨k1, p, hrun, hlive, hinUse, hcr3, hcurrent, hp, hpt, hps, hpv⟩ :=
      prcNew_of_threads zeroPage priority hfresh h0 hspace hthreads
    rw [hrun, prcSetup_neutral_iff hfresh h0 hspace hthreads hlive hinUse hcr3 hcurrent hp hpt hps
      hpv]
    simp [h0, hspace, hthreads]

/-- A kernel in which nothing is in use, with address space `5`. -/
def idleKernel : Kernel where
  process _ := none
  stackList _ := 0
  mem _ := 0
  globMap := 0
  live _ := false
  inUse _ := false
  maps _ _ := none
  cr3 := 5
  current := 7

/-- Without a list of threads. -/
theorem prc_new_neutral_no_list : ∃ r k',
    prcNew true ⟨0x10, 0, 0x30, 0x40, 0x5000, true⟩ 9 .normal idleKernel = .ok (r, k') ∧
    NeutralOnFailure idleKernel k' r :=
  (prc_new_neutral ⟨fun _ _ _ => rfl, by decide, rfl⟩).2 (.inr (.inr (.inl ⟨rfl, rfl⟩)))

/-- The page of the heap cannot be mapped: it stays in use, and the new address space active. -/
theorem prc_new_leaks : ∃ k',
    prcNew false ⟨0x10, 0x20, 0x30, 0x40, 0x5000, false⟩ 9 .normal idleKernel = .ok (0, k') ∧
    idleKernel.cr3 = 5 ∧ k'.cr3 = 9 ∧ idleKernel.inUse 0x5000 = false ∧ k'.inUse 0x5000 = true := by
  refine ⟨_, eq_ok_of_value (by decide), ?_⟩
  decide

end Tachyon.Creation
