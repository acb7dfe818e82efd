import Tachyon.Lib.Guard
import Tachyon.Lib.Word

/-!
# Stacks (`stka.c`)

A stack allocator hands out stacks from the top of its region downwards.  Of a new stack only the
first pages are mapped; the rest of its range, down to `guard`, is mapped when it is first touched.

The address spaces are maps from page numbers to frames, and the frames have contents.  The lists of
`list.c` are lists.  What `pmem_alloc` returns is in the state (`frames`), what `kheap_alloc` returns
for a `stack_t` is an argument; they return what is not in use, and other answers are `undefined`.

* `stkaNew`, `stkaGrow`, `stkaAlloc`, `stkaFree`, `stkaPgflt`, `stkaDelete`: the source;
* `pmemAlloc`, `pmemFree`, `vmemMap`, `vmemResolve`, `vmemUnmap`, `memset`: what they call.
-/

namespace Tachyon.Stka

open Prog Function

/-- `STK_PAGESIZE`. -/
def stkPagesize : ℕ := 0x1000

/-- `STK_INITSIZE`. -/
def stkInitsize : ℕ := stkPagesize * 2

/-- `STK_FIXEDSIZE`. -/
def stkFixedsize : ℕ := stkPagesize * 4

/-- `STK_GUARDSIZE`. -/
def stkGuardsize : ℕ := stkPagesize * 256

/-- `stack_allocator_desc_t`. -/
structure Desc where
  bottom : ℕ
  top : ℕ
  space : ℕ
  pgFl : ℕ
  fixed : Bool
  global : Bool
  deriving DecidableEq, Repr

/-- `stack_t`. -/
structure Stack where
  top : ℕ
  mapped : ℕ
  guard : ℕ
  deriving DecidableEq, Repr

/-- `stack_allocator_t`. -/
structure Allocator where
  desc : Desc
  nextStk : ℕ
  /-- The addresses of the stacks. -/
  stackList : List ℕ
  locked : Bool
  deriving DecidableEq, Repr

/-- A mapping that new address spaces receive as well. -/
structure GlobalMapping where
  phys : ℕ
  virt : ℕ
  flags : ℕ
  deriving DecidableEq, Repr

/-- Stack allocators and stacks by their addresses, and the memory. -/
structure State where
  allocator : ℕ → Allocator
  stack : ℕ → Option Stack
  /-- Frame and flags of a page, by address space and page number. -/
  maps : ℕ → ℕ → Option (ℕ × ℕ)
  globals : List GlobalMapping
  inUse : ℕ → Bool
  content : ℕ → ℕ → UInt8
  /-- The frames that `pmem_alloc` is going to return. -/
  frames : List ℕ
  cr3 : ℕ

/-! ### Memory -/

/-- `pmem_alloc` of one page. -/
def pmemAlloc : Prog State ℕ := fun s =>
  match s.frames with
  | [] => .error (.fatal "out of physical memory\n")
  | f :: fs =>
    if s.inUse f then .error .undefined
    else .ok (f, { s with frames := fs, inUse := Function.update s.inUse f true })

/-- The frame was free, and is in use. -/
theorem pmemAlloc_spec {s : State} : wlp pmemAlloc (fun f s' => s.inUse f = false ∧ ∃ fs,
    s' = { s with frames := fs, inUse := update s.inUse f true }) s := by
  intro f s' h
  unfold pmemAlloc at h
  split at h
  · cases h
  · split_ifs at h with hused
    cases h
    exact ⟨Bool.eq_false_of_not_eq_true hused, _, rfl⟩

/-- `pmem_free` of one page. -/
def pmemFree (f : ℕ) : Prog State Unit :=
  modify fun s => { s with inUse := Function.update s.inUse f false }

/-- Change the entry of a page. -/
def State.setPage (s : State) (space page : ℕ) (e : Option (ℕ × ℕ)) : State :=
  { s with maps := Function.update s.maps space (Function.update (s.maps space) page e) }

/-- An entry behind the change of one page: the new one, or one of another page. -/
theorem entry_update {m : ℕ → ℕ → Option (ℕ × ℕ)} {sp0 q0 sp q : ℕ} {e : Option (ℕ × ℕ)}
    {x : ℕ × ℕ} (h : update m sp0 (update (m sp0) q0 e) sp q = some x) :
    (sp = sp0 ∧ q = q0 ∧ e = some x) ∨ (¬ (sp = sp0 ∧ q = q0) ∧ m sp q = some x) := by
  by_cases hsp : sp = sp0
  · subst hsp
    rw [update_self] at h
    by_cases hq : q = q0
    · subst hq
      rw [update_self] at h
      exact Or.inl ⟨rfl, rfl, h⟩
    · rw [update_of_ne hq] at h
      exact Or.inr ⟨fun hc => hq hc.2, h⟩
  · rw [update_of_ne hsp] at h
    exact Or.inr ⟨fun hc => hsp hc.1, h⟩

/-- `vmem_map`: a page that is mapped already is an error. -/
def vmemMap (space phys virt flags : ℕ) : Prog State Bool := fun s =>
  match s.maps space (virt / stkPagesize) with
  | some _ => .ok (false, s)
  | none => .ok (true, s.setPage space (virt / stkPagesize) (some (phys, flags)))

/-- `vmem_resolve`; `0` for a page that is not mapped. -/
def vmemResolve (space virt : ℕ) (s : State) : ℕ :=
  match s.maps space (virt / stkPagesize) with
  | some (f, _) => f
  | none => 0

def vmemUnmap (space virt : ℕ) : Prog State Unit :=
  modify fun s => s.setPage space (virt / stkPagesize) none

/-- `vmem_mgmt_add_global_mapping`. -/
def vmemMgmtAddGlobalMapping (phys virt flags : ℕ) : Prog State Unit :=
  modify fun s => { s with globals := ⟨phys, virt, flags⟩ :: s.globals }

/-- `memset` of one whole page to zero, through the active address space. -/
def memset (virt : ℕ) : Prog State Unit := fun s =>
  if virt % stkPagesize ≠ 0 then .error .undefined
  else
    match s.maps s.cr3 (virt / stkPagesize) with
    | none => .error (.pageFault virt)
    | some (f, _) => .ok ((), { s with content := Function.update s.content f fun _ => 0 })

/-! ### Stacks -/

/-- The stack at an address. -/
def loadStack (stk : ℕ) : Prog State Stack := fun s =>
  match s.stack stk with
  | none => .error .undefined
  | some st => .ok (st, s)

theorem loadStack_of_stack {s s' : State} {stk : ℕ} {st st' : Stack} (hst : s.stack stk = some st)
    (h : loadStack stk s = .ok (st', s')) : st = st' ∧ s = s' := by
  simpa only [loadStack, hst, Except.ok.injEq, Prod.mk.injEq] using h

def storeStack (stk : ℕ) (st : Option Stack) : Prog State Unit :=
  modify fun s => { s with stack := Function.update s.stack stk st }

def State.setAllocator (s : State) (a : ℕ) (f : Allocator → Allocator) : State :=
  { s with allocator := Function.update s.allocator a (f (s.allocator a)) }

/-- The lock of an allocator. -/
def lock (a : ℕ) : Lock State where
  held s := (s.allocator a).locked
  put b s := s.setAllocator a fun al => { al with locked := b }
  held_put _ _ := by simp [State.setAllocator]

/-- `stka_new`; `a` is the address that `kheap_alloc` returns. -/
def stkaNew (a : ℕ) (desc : Desc) : Prog State ℕ := do
  modify fun s => s.setAllocator a fun _ => ⟨desc, desc.top, [], false⟩
  pure a

/-- A page of a global stack is registered for other address spaces. -/
def registerPage (desc : Desc) (phys i : ℕ) : Prog State Unit :=
  if desc.global then vmemMgmtAddGlobalMapping phys i desc.pgFl else pure ()

/-- A page is cleared through the active address space, if that is the one of the stack; in any
other one there is only a warning. -/
def clearPage (desc : Desc) (i : ℕ) : Prog State Unit := do
  let s ← get
  if s.cr3 = desc.space then memset i else pure ()

/-- One page of `stka_grow`. -/
def growPage (desc : Desc) (i : ℕ) : Prog State Bool := do
  let phys ← pmemAlloc
  let ok ← vmemMap desc.space phys i desc.pgFl
  if ok then do
    registerPage desc phys i
    clearPage desc i
    pure true
  else pure false

/-- The loop of `stka_grow`, with at most `n` pages to go. -/
def growPages (desc : Desc) (mapped : ℕ) : ℕ → ℕ → Prog State Bool
  | 0, _ => pure true
  | n + 1, i =>
    if i < mapped then do
      let ok ← growPage desc i
      if ok then growPages desc mapped n (add64 i stkPagesize) else pure false
    else pure true

def stkaGrow (a stk amount : ℕ) : Prog State Bool :=
  if amount % stkPagesize ≠ 0 then pure false
  else do
    let st ← loadStack stk
    if sub64 st.mapped amount < st.guard then pure false
    else do
      let s ← get
      let ok ← growPages (s.allocator a).desc st.mapped (amount / stkPagesize)
        (sub64 st.mapped amount)
      if ok then do
        storeStack stk (some { st with mapped := sub64 st.mapped amount })
        pure true
      else pure false

/-- `kheap_alloc` of a `stack_t`, and its first use. -/
def newStack (stk : ℕ) (st : Stack) : Prog State Unit := fun s =>
  if stk = 0 then .error (.pageFault 0)
  else if (s.stack stk).isSome then .error .undefined
  else storeStack stk (some st) s

/-- There is no room for a new stack. -/
def Allocator.Full (al : Allocator) : Prop :=
  al.nextStk ≤ al.desc.bottom ∨ sub64 al.nextStk stkInitsize < al.desc.bottom

instance (al : Allocator) : Decidable al.Full := inferInstanceAs (Decidable (_ ∨ _))

/-- The size of the range reserved for a stack. -/
def Desc.reserve (d : Desc) : ℕ := if d.fixed then stkFixedsize else stkGuardsize

/-- The part of a new stack that is mapped at once. -/
def Desc.commit (d : Desc) : ℕ := if d.fixed then stkFixedsize else stkInitsize

/-- `stka_alloc`; `stk` is the address that `kheap_alloc` returns. -/
def stkaAlloc (a stk : ℕ) : Prog State ℕ := do
  (lock a).acquire
  let s ← get
  let al := s.allocator a
  if al.Full then
    -- the lock is not released here
    pure 0
  else do
    let guard := sub64 al.nextStk al.desc.reserve
    newStack stk ⟨al.nextStk, al.nextStk, guard⟩
    -- whether the stack could grow is not looked at
    let _ ← stkaGrow a stk al.desc.commit
    modify fun s => s.setAllocator a fun al =>
      { al with nextStk := sub64 guard stkPagesize, stackList := al.stackList ++ [stk] }
    (lock a).release
    pure stk

/-- One page of `stka_free`. -/
def freePage (space m : ℕ) : Prog State Unit := do
  let s ← get
  let p := vmemResolve space m s
  if p ≠ 0 then do
    pmemFree p
    vmemUnmap space m
  else vmemUnmap space m

/-- The loop of `stka_free`, with at most `n` pages to go. -/
def freePages (space top : ℕ) : ℕ → ℕ → Prog State Unit
  | 0, m => if m < top then halt .fuel else pure ()
  | n + 1, m =>
    if m < top then do
      freePage space m
      freePages space top n (add64 m stkPagesize)
    else pure ()

def stkaFree (a stk : ℕ) : Prog State Unit := do
  let st ← loadStack stk
  let s ← get
  freePages (s.allocator a).desc.space st.top ((st.top - st.mapped) / stkPagesize + 1) st.mapped
  modify fun s => s.setAllocator a fun al => { al with stackList := al.stackList.erase stk }
  storeStack stk none

def stkaPgflt (a stk fault : ℕ) : Prog State Bool := do
  let st ← loadStack stk
  if fault ≤ st.guard ∨ st.top ≤ fault then pure false
  else stkaGrow a stk (alignUp (sub64 st.mapped fault) stkPagesize)

/-- The loop of `stka_delete` over the list of stacks. -/
def freeStacks (a : ℕ) : List ℕ → Prog State Unit
  | [] => pure ()
  | stk :: stks => do
    stkaFree a stk
    freeStacks a stks

/-- `stka_delete`; the memory of the allocator is given back while its lock is held. -/
def stkaDelete (a : ℕ) : Prog State Unit := do
  (lock a).acquire
  let s ← get
  freeStacks a (s.allocator a).stackList
  modify fun s => s.setAllocator a fun al => { al with stackList := [] }
  (lock a).release

/-- `spc_switch`. -/
def spcSwitch (target : ℕ) : Prog State Unit := modify fun s => { s with cr3 := target }

end Tachyon.Stka
