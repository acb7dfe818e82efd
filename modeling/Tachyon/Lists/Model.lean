import Tachyon.Lib.Linked
import Tachyon.Lib.Prog
import Tachyon.Lib.Word

/-!
# Linked lists (`list.c`)

The list headers and nodes that are allocated, by their addresses, and the functions of `list.c` on
them.  What `kheap_alloc` returns is an argument (`new`) of the functions that call it; `kheap_free`
takes the node away.  An access to an address that holds no object faults.

The loops of `list_remove` and `list_clear` run on fuel.
-/

namespace Tachyon.Lists

open Prog

/-- `list_t`. -/
structure ListHdr where
  head : ℕ
  tail : ℕ
  size : ℕ
  deriving DecidableEq, Repr

/-- The lists and the nodes in memory. -/
structure ListHeap where
  list : ℕ → Option ListHdr
  node : ℕ → Option (Cell ℕ)

/-! ### Memory accesses -/

def loadList (a : ℕ) : Prog ListHeap ListHdr := fun m =>
  match m.list a with
  | some h => .ok (h, m)
  | none => .error (.pageFault a)

def storeList (a : ℕ) (h : ListHdr) : Prog ListHeap Unit :=
  modify fun m => { m with list := Function.update m.list a (some h) }

def loadNode (a : ℕ) : Prog ListHeap (Cell ℕ) := fun m =>
  match m.node a with
  | some c => .ok (c, m)
  | none => .error (.pageFault a)

def storeNode (a : ℕ) (c : Cell ℕ) : Prog ListHeap Unit :=
  modify fun m => { m with node := Function.update m.node a (some c) }

/-- `kheap_free` of a node. -/
def freeNode (a : ℕ) : Prog ListHeap Unit :=
  modify fun m => { m with node := Function.update m.node a none }

/-! ### The functions -/

/-- `list_new`, with the header at `new`. -/
def listNew (new : ℕ) : Prog ListHeap ℕ :=
  -- the result of `kheap_alloc` is cleared without a check
  if new = 0 then halt (.pageFault 0)
  else storeList new ⟨0, 0, 0⟩ >>= fun _ => pure new

/-- The branch of `list_insert` that links the node `new` behind `node`. -/
def linkNode (list node new : ℕ) : Prog ListHeap Unit :=
  loadList list >>= fun h =>
    if node = 0 then
      storeList list { h with head := new, tail := if h.tail = 0 then new else h.tail }
    else
      loadNode node >>= fun n =>
        (if h.tail = node then storeList list { h with tail := new }
          else loadNode new >>= fun c => storeNode new { c with next := n.next }) >>= fun _ =>
        storeNode node { n with next := new }

/-- `list_insert`, with the new node at `new`. -/
def listInsert (list node data new : ℕ) : Prog ListHeap Unit :=
  if list = 0 then pure ()
  else if new = 0 then halt (.pageFault 0)
  else
    storeNode new ⟨data, 0⟩ >>= fun _ =>
    linkNode list node new >>= fun _ =>
    loadList list >>= fun h => storeList list { h with size := add64 h.size 1 }

/-- `list_add`, with the new node at `new`. -/
def listAdd (list data new : ℕ) : Prog ListHeap Unit :=
  loadList list >>= fun h => listInsert list h.tail data new

/-- The branch of `list_remove` that takes `node` out, `prev` being the node before it. -/
def unlinkNode (list prev node : ℕ) : Prog ListHeap Unit :=
  loadNode node >>= fun n =>
  (if prev ≠ 0 then loadNode prev >>= fun p => storeNode prev { p with next := n.next }
    else loadList list >>= fun h => storeList list { h with head := n.next }) >>= fun _ =>
  loadList list >>= fun h =>
  storeList list
    { h with tail := if h.tail = node then (if prev ≠ 0 then prev else h.head) else h.tail } >>=
  fun _ => freeNode node >>= fun _ =>
  loadList list >>= fun h => storeList list { h with size := sub64 h.size 1 }

/-- The loop of `list_remove`. -/
def removeLoop (list item : ℕ) : ℕ → ℕ → ℕ → Prog ListHeap Unit
  | 0, _, _ => halt .fuel
  | fuel + 1, prev, node =>
    if node = 0 then pure ()
    else loadNode node >>= fun n =>
      if n.data = item then unlinkNode list prev node
      else removeLoop list item fuel node n.next

/-- `list_remove`. -/
def listRemove (fuel list item : ℕ) : Prog ListHeap Unit :=
  if list = 0 then pure ()
  else loadList list >>= fun h => removeLoop list item fuel 0 h.head

/-- `list_begin`. -/
def listBegin (list : ℕ) : Prog ListHeap ℕ :=
  if list = 0 then pure 0 else loadList list >>= fun h => pure h.head

/-- `list_size`. -/
def listSize (list : ℕ) : Prog ListHeap ℕ :=
  if list = 0 then pure 0 else loadList list >>= fun h => pure h.size

/-- `list_clear`, `fuel` also for each `list_remove`. -/
def clearLoop (fuel list : ℕ) : ℕ → Prog ListHeap Unit
  | 0 => halt .fuel
  | k + 1 =>
    if list = 0 then pure ()
    else loadList list >>= fun h =>
      if 0 < h.size then
        loadNode h.head >>= fun n => listRemove fuel list n.data >>= fun _ => clearLoop fuel list k
      else pure ()

def listClear (fuel list : ℕ) : Prog ListHeap Unit := clearLoop fuel list fuel

/-! ### What a list holds -/

variable {m m' : ListHeap} {list node new data item : ℕ} {l xs ys : List (ℕ × ℕ)}

/-- The list at `list` holds the nodes and data `l`. -/
structure ListAt (m : ListHeap) (list : ℕ) (l : List (ℕ × ℕ)) : Prop where
  nonnull : list ≠ 0
  chain : ∃ head, m.list list = some ⟨head, lastAddr l, l.length⟩ ∧ Seg m.node head l 0
  bound : ∀ b ∈ l, b.1 < 2 ^ 64

/-- Only the list at `list` and the nodes `own` have changed. -/
structure Frame (list : ℕ) (own : List ℕ) (m m' : ListHeap) : Prop where
  list : ∀ a ≠ list, m'.list a = m.list a
  node : ∀ a ∉ own, m'.node a = m.node a

/-- An address that `kheap_alloc` may return for a node. -/
structure FreshNode (m : ListHeap) (new : ℕ) : Prop where
  nonnull : new ≠ 0
  bound : new < 2 ^ 64
  free : m.node new = none

theorem run_loadList {h : ListHdr} (hl : m.list list = some h) :
    loadList list m = .ok (h, m) := by
  unfold loadList
  rw [hl]

theorem run_loadNode {c : Cell ℕ} (hn : m.node node = some c) :
    loadNode node m = .ok (c, m) := by
  unfold loadNode
  rw [hn]

theorem ListAt.length_lt (h : ListAt m list l) : l.length < 2 ^ 64 := by
  obtain ⟨-, ⟨head, -, hseg⟩, hb⟩ := h
  exact hseg.length_lt (by norm_num) hb

theorem ListAt.nodup (h : ListAt m list l) : (l.map Prod.fst).Nodup := by
  obtain ⟨-, ⟨head, -, hseg⟩, -⟩ := h
  exact hseg.nodup

theorem FreshNode.ne_of_isSome (hf : FreshNode m new) (h : (m.node node).isSome) : node ≠ new := by
  rintro rfl
  rw [hf.free] at h
  cases h

theorem ListAt.ne_fresh (h : ListAt m list l) (hf : FreshNode m new) : ∀ c ∈ l, c.1 ≠ new := by
  obtain ⟨-, ⟨head, -, hseg⟩, -⟩ := h
  exact fun c hc => hf.ne_of_isSome (hseg.isSome c hc)

theorem Frame.mono {own own' : List ℕ} (h : Frame list own m m') (hsub : own ⊆ own') :
    Frame list own' m m' :=
  ⟨h.list, fun a ha => h.node a fun hmem => ha (hsub hmem)⟩

/-- A list depends on its header and its nodes only. -/
theorem ListAt.congr (h : ListAt m list l) (hl : m'.list list = m.list list)
    (hn : ∀ b ∈ l, m'.node b.1 = m.node b.1) : ListAt m' list l := by
  obtain ⟨h0, ⟨head, hhdr, hseg⟩, hb⟩ := h
  exact ⟨h0, ⟨head, hl.trans hhdr, hseg.congr hn⟩, hb⟩

end Tachyon.Lists
