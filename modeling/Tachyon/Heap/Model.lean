import Tachyon.Lib.Memory
import Tachyon.Lib.Prog
import Tachyon.Paging

/-!
# The heap of `heap.c`

A heap is a contiguous window of virtual memory tiled by blocks.  Each block carries its size and
two flag bits in a header word in front of the data and in a footer word behind it; `heap_alloc`
walks the headers, splits the first free block that is large enough, and enlarges the last block by
mapping further pages when there is none.

The functions follow the source; a macro that evaluates its argument twice (`HEAP_BL_SET`) takes
it as a function of the memory.  Two loops of `heap_alloc` can run forever, so it takes fuel.

* `Pages σ` is what the heap uses of physical and virtual memory management, over their state `σ`;
* `Sys σ` is the state: the heap descriptor, the memory, `vmem_glob_map` and the managers' state;
* a heap with `PG_GLOBAL` is the kernel heap, so `kheap_alloc` inside
  `vmem_mgmt_add_global_mapping` and `list_insert` is `heap_alloc` on the same heap.
-/

namespace Tachyon.Heap

def heapPresent : ℕ := 0x1
def heapFooter : ℕ := 0x2
def heapFlmask : ℕ := 0x3

/-- `sizeof(heap_block_t)`. -/
def blockT : ℕ := 8

/-- `heap_state_t`. -/
structure HeapState where
  valid : Bool
  vmemMark : ℕ
  usedBytes : ℕ
  blockCount : ℕ

/-- `heap_t`; `endAddr` is the field `end`. -/
structure HeapT where
  start : ℕ
  endAddr : ℕ
  pgFl : ℕ
  space : ℕ
  state : HeapState

/-- What the heap uses of the memory managers: the active address space, a page frame from
`pmem_alloc`, and the outcome of `vmem_map`. -/
structure Pages (σ : Type) where
  spcCurrent : σ → ℕ
  pmemAlloc : Prog σ ℕ
  vmemMap : (spc phys virt flags : ℕ) → Prog σ Bool

/-- The state the heap operates on. -/
structure Sys (σ : Type) where
  heap : HeapT
  mem : Mem
  globMap : ℕ
  pages : σ

/-! ### Block headers and footers -/

def blB2DataSz (b : ℕ) : ℕ := andNot b heapFlmask
def blSz2DataSz (b : ℕ) : ℕ := sub64 b (blockT * 2)
def blDataSz2Sz (b : ℕ) : ℕ := add64 b (blockT * 2)
def blM2H (m : ℕ) : ℕ := sub64 m blockT
def blH2F (mem : Mem) (h : ℕ) : ℕ := add64 (add64 h blockT) (blB2DataSz (read64 mem h))
def blF2H (mem : Mem) (f : ℕ) : ℕ := sub64 (sub64 f blockT) (blB2DataSz (read64 mem f))
def blH2M (h : ℕ) : ℕ := add64 h blockT
def blNext (mem : Mem) (h : ℕ) : ℕ := add64 (blH2F mem h) blockT
def blPrev (mem : Mem) (h : ℕ) : ℕ := blF2H mem (sub64 h blockT)
def blHasNext (heap : HeapT) (mem : Mem) (h : ℕ) : Bool := !decide (blNext mem h ≥ heap.state.vmemMark)
def blHasPrev (heap : HeapT) (h : ℕ) : Bool := decide (h > heap.start)
def blPresent (b : ℕ) : Bool := decide (b &&& heapPresent ≠ 0)

/-- `HEAP_BL_SET`: the header argument is evaluated for the header write and again for the
footer. -/
def blSet (h : Mem → ℕ) (s f : ℕ) (mem : Mem) : Mem :=
  let mem' := write64 mem (h mem) (s ||| f)
  write64 mem' (blH2F mem' (h mem')) (s ||| f ||| heapFooter)

/-- `heap_validate`. -/
def heapValidate (heap : HeapT) (mem : Mem) (m : ℕ) : Bool :=
  if m % blockT ≠ 0 then false
  else
    let hdr := blM2H m
    if ¬ (hdr ≥ heap.start ∧ hdr < heap.endAddr) ∨ read64 mem hdr &&& heapFooter ≠ 0 then false
    else
      let ftr := blH2F mem hdr
      if ¬ (ftr > heap.start ∧ ftr ≤ heap.endAddr) ∨ ¬ (read64 mem ftr &&& heapFooter ≠ 0) then false
      else if blB2DataSz (read64 mem hdr) ≠ blB2DataSz (read64 mem ftr) then false
      else true

/-- The word at `a` reaches into the part of the window behind `vmem_mark`, which is not mapped. -/
def unmappedWord (heap : HeapT) (a : ℕ) : Bool :=
  decide (max a heap.state.vmemMark < min (a + blockT) heap.endAddr)

/-- The word at which `heap_validate` faults, if it reads one that is not mapped. -/
def validateFault (heap : HeapT) (mem : Mem) (m : ℕ) : Option ℕ :=
  if m % blockT ≠ 0 then none
  else
    let hdr := blM2H m
    if ¬ (hdr ≥ heap.start ∧ hdr < heap.endAddr) then none
    else if unmappedWord heap hdr then some hdr
    else if read64 mem hdr &&& heapFooter ≠ 0 then none
    else
      let ftr := blH2F mem hdr
      if ftr > heap.start ∧ ftr ≤ heap.endAddr ∧ unmappedWord heap ftr then some ftr else none

variable {σ : Type}

/-- The reads of `heap_validate`. -/
def validateReads (m : ℕ) : Prog (Sys σ) Unit := fun s =>
  match validateFault s.heap s.mem m with
  | some a => .error (.pageFault a)
  | none => .ok ((), s)

/-- Write to memory at `a`.  The page at address 0 is mapped in no address space. -/
def store (a : ℕ) (f : Mem → Mem) : Prog (Sys σ) Unit :=
  if a < pageSize4K then .halt (.pageFault a) else .modify fun s => { s with mem := f s.mem }

/-- `HEAP_CHECK`. -/
def heapCheck (P : Pages σ) : Prog (Sys σ) Unit := do
  let s ← .get
  if s.heap.space ≠ P.spcCurrent s.pages ∧ ¬ (s.heap.pgFl &&& pgGlobal ≠ 0) then
    .halt (.fatal "the heap can only operate if the heaps address space is active!\n")
  else pure ()

/-! ### The list of global mappings -/

def sizeofList : ℕ := 24
def sizeofListNode : ℕ := 16
def sizeofGlobMapping : ℕ := 24

section List

variable (alloc : ℕ → Prog (Sys σ) ℕ)

/-- `list_new`. -/
def listNew : Prog (Sys σ) ℕ := do
  let list ← alloc sizeofList
  store list fun m => memset m list 0 sizeofList
  pure list

/-- The pointer updates of `list_insert`, after the new node was allocated. -/
def listLink (list node newNode data : ℕ) (m : Mem) : Mem :=
  let m := memset m newNode 0 sizeofListNode
  let m := write64 m newNode data
  let m :=
    if node = 0 then
      let m := write64 m list newNode
      if read64 m (list + 8) = 0 then write64 m (list + 8) newNode else m
    else
      let m :=
        if read64 m (list + 8) = node then write64 m (list + 8) newNode
        else write64 m (newNode + 8) (read64 m (node + 8))
      write64 m (node + 8) newNode
  write64 m (list + 16) (add64 (read64 m (list + 16)) 1)

/-- `list_insert`. -/
def listInsert (list node data : ℕ) : Prog (Sys σ) Unit := do
  if list = 0 then pure ()
  else
    let newNode ← alloc sizeofListNode
    store newNode (listLink list node newNode data)

/-- `list_add`; reading the tail of a `NULL` list faults. -/
def listAdd (list data : ℕ) : Prog (Sys σ) Unit := do
  if list = 0 then .halt (.pageFault 8)
  else
    let s ← .get
    listInsert alloc list (read64 s.mem (list + 8)) data

/-- The first use of `vmem_glob_map` creates the list. -/
def globMapReady : Prog (Sys σ) Unit := do
  let s ← .get
  if s.globMap = 0 then
    let list ← listNew alloc
    .modify fun s => { s with globMap := list }
  else pure ()

/-- The fields of a mapping record; `flags` is a `uint32_t`. -/
def recordFields (map phys virt flags : ℕ) (m : Mem) : Mem :=
  writeLE (write64 (write64 m map phys) (map + 8) virt) (map + 16) 4 flags

/-- `vmem_mgmt_add_global_mapping`. -/
def vmemMgmtAddGlobalMapping (phys virt flags : ℕ) : Prog (Sys σ) Unit := do
  globMapReady alloc
  let map ← alloc sizeofGlobMapping
  store map (recordFields map phys virt flags)
  let s ← .get
  listAdd alloc s.globMap map

end List

/-! ### Allocation -/

section Alloc

variable (P : Pages σ)

/-- `pmem_alloc(PAGE_SIZE_4K, PAGE_SIZE_4K)`, from the heap. -/
def pmemAlloc : Prog (Sys σ) ℕ := .zoom Sys.pages (fun g s => { s with pages := g }) P.pmemAlloc

/-- `vmem_map`, from the heap. -/
def vmemMap (spc phys virt flags : ℕ) : Prog (Sys σ) Bool :=
  .zoom Sys.pages (fun g s => { s with pages := g }) (P.vmemMap spc phys virt flags)

/-- The pages `i, …, i + k - 1` of the growth loop of `heap_alloc`: `block` is the last block and
`sz` its size before the loop.  The result tells whether every page was mapped. -/
def heapGrow (alloc : ℕ → Prog (Sys σ) ℕ) (block sz i : ℕ) : ℕ → Prog (Sys σ) Bool
  | 0 => pure true
  | k + 1 => do
    let phys ← pmemAlloc P
    let s ← .get
    let target := s.heap.state.vmemMark
    let ok ← vmemMap P s.heap.space phys target s.heap.pgFl
    if ok then
      .modify fun s =>
        { s with
          heap.state.vmemMark := add64 s.heap.state.vmemMark pageSize4K
          mem := blSet (fun _ => block) (add64 sz (mul64 pageSize4K (i + 1))) 0 s.mem }
      if s.heap.pgFl &&& pgGlobal ≠ 0 then
        vmemMgmtAddGlobalMapping alloc phys target s.heap.pgFl
        heapGrow alloc block sz (i + 1) k
      else heapGrow alloc block sz (i + 1) k
    else pure false

/-- The block is free and large enough for `bytes` and a further header and footer. -/
def fits (mem : Mem) (block bytes : ℕ) : Bool :=
  !blPresent (read64 mem block) && decide (blB2DataSz (read64 mem block) ≥ blDataSz2Sz bytes)

/-- Split the free block: `bytes` for the caller, the rest a free block behind it. -/
def splitBlock (block bytes : ℕ) (mem : Mem) : Mem :=
  let freesz := sub64 (blB2DataSz (read64 mem block)) (blDataSz2Sz bytes)
  let mem := blSet (fun _ => block) bytes heapPresent mem
  blSet (fun m => blNext m block) freesz 0 mem

/-- The number of pages one pass of the growth loop maps. -/
def growPages (bytes : ℕ) : ℕ := alignUp bytes pageSize4K / pageSize4K

/-- What one iteration of the search loop decides: return a pointer, or go on at a block. -/
inductive Iter
  | done (p : ℕ)
  | next (block : ℕ)

/-- The body of the search loop of `heap_alloc`, at `block`. -/
def allocIter (alloc : ℕ → Prog (Sys σ) ℕ) (bytes block : ℕ) : Prog (Sys σ) Iter := do
  let s ← .get
  if fits s.mem block bytes then
    .set { s with
      mem := splitBlock block bytes s.mem
      heap.state.usedBytes := add64 s.heap.state.usedBytes bytes
      heap.state.blockCount := add64 s.heap.state.blockCount 1 }
    pure (.done (blH2M block))
  else if ¬ blHasNext s.heap s.mem block then
    let ok ← heapGrow P alloc block (blB2DataSz (read64 s.mem block)) 0 (growPages bytes)
    if ok then pure (.next block) else pure (.done 0)
  else pure (.next (blNext s.mem block))

/-- The search loop of `heap_alloc`; `bytes` is already rounded up.  The growth branch allocates
recursively from the same heap. -/
def allocLoop : ℕ → ℕ → ℕ → Prog (Sys σ) ℕ
  | 0, _, _ => .halt .fuel
  | n + 1, bytes, block => do
    let s ← .get
    if block ≥ s.heap.start ∧ block < s.heap.state.vmemMark then
      let r ← allocIter P (fun b => do
        heapCheck P
        let s ← .get
        allocLoop n (alignUp b blockT) s.heap.start) bytes block
      match r with
      | .done p => pure p
      | .next block => allocLoop n bytes block
    else pure 0

/-- `heap_alloc`; `0` is `NULL`. -/
def heapAlloc (fuel bytes : ℕ) : Prog (Sys σ) ℕ := do
  heapCheck P
  let s ← .get
  allocLoop P fuel (alignUp bytes blockT) s.heap.start

/-- `heap_init`. -/
def heapInit (fuel : ℕ) : Prog (Sys σ) Bool := do
  let s ← .get
  if s.heap.start = 0 ∨ s.heap.endAddr = 0 ∨ s.heap.space = 0 then pure false
  else
    heapCheck P
    .modify fun s =>
      { s with
        heap.state.vmemMark := add64 s.heap.start pageSize4K
        heap.state.usedBytes := 0
        heap.state.blockCount := 0 }
    let phys ← pmemAlloc P
    if phys = 0 then pure false
    else
      let ok ← vmemMap P s.heap.space phys s.heap.start s.heap.pgFl
      if ok then
        .modify fun s =>
          { s with
            mem := blSet (fun _ => s.heap.start) (blSz2DataSz pageSize4K) 0 s.mem
            heap.state.valid := true }
        if s.heap.pgFl &&& pgGlobal ≠ 0 then
          vmemMgmtAddGlobalMapping (heapAlloc P fuel) phys s.heap.start s.heap.pgFl
          pure true
        else pure true
      else pure false

/-- `kheap_init`. -/
def kheapInit (fuel : ℕ) : Prog (Sys σ) Unit := do
  .modify fun s =>
    { s with heap := ⟨kheapStart, kheapEnd, pgGlobal ||| pgWritable, P.spcCurrent s.pages,
        ⟨false, 0, 0, 0⟩⟩ }
  let ok ← heapInit P fuel
  if ok then pure () else .halt (.fatal "cannot initialize kernel heap!\n")

/-! ### Release and resizing -/

/-- The size of a released block after merging with a free block behind it. -/
def mergeNext (heap : HeapT) (mem : Mem) (block actualSz : ℕ) : ℕ :=
  if blHasNext heap mem block && !blPresent (read64 mem (blNext mem block)) then
    add64 actualSz (blDataSz2Sz (blB2DataSz (read64 mem (blNext mem block))))
  else actualSz

/-- The place and size of a released block after merging with a free block in front of it. -/
def mergePrev (heap : HeapT) (mem : Mem) (block actualSz : ℕ) : ℕ × ℕ :=
  if blHasPrev heap block && !blPresent (read64 mem (blPrev mem block)) then
    (blPrev mem block, add64 actualSz (blDataSz2Sz (blB2DataSz (read64 mem (blPrev mem block)))))
  else (block, actualSz)

/-- `heap_free`. -/
def heapFree (mem : ℕ) : Prog (Sys σ) Unit := do
  heapCheck P
  validateReads mem
  let s ← .get
  if heapValidate s.heap s.mem mem then
    let block := blM2H mem
    let actualSz := blB2DataSz (read64 s.mem block)
    let r := mergePrev s.heap s.mem block (mergeNext s.heap s.mem block actualSz)
    .set { s with
      mem := blSet (fun _ => r.1) r.2 0 s.mem
      heap.state.usedBytes := sub64 s.heap.state.usedBytes actualSz
      heap.state.blockCount := sub64 s.heap.state.blockCount 1 }
  else pure ()

/-- The condition under which `heap_realloc` resizes in place. -/
def canExtend (heap : HeapT) (mem : Mem) (block bytes : ℕ) : Bool :=
  blHasNext heap mem block &&
    !blPresent (read64 mem (blNext mem block)) &&
      decide (add64 (blDataSz2Sz (blB2DataSz (read64 mem (blNext mem block))))
        (blB2DataSz (read64 mem block)) ≥ bytes)

/-- The condition under which it then merges the whole of the next block. -/
def mergesAll (mem : Mem) (block bytes : ℕ) : Bool :=
  decide (toSigned (sub64 (blB2DataSz (read64 mem (blNext mem block)))
    (sub64 bytes (blB2DataSz (read64 mem block)))) ≤ 0)

/-- `memmove(new, mem, n)`: a move of at least one byte to `NULL` faults. -/
def moveData (new mem n : ℕ) : Prog (Sys σ) Unit :=
  if n = 0 then pure () else store new fun m => memmove m new mem n

/-- `heap_realloc`. -/
def heapRealloc (fuel mem bytes : ℕ) : Prog (Sys σ) ℕ := do
  if mem = 0 then heapAlloc P fuel bytes
  else
    heapCheck P
    validateReads mem
    let s ← .get
    if ¬ heapValidate s.heap s.mem mem then pure 0
    else
      let block := blM2H mem
      let origSz := blB2DataSz (read64 s.mem block)
      if origSz ≥ bytes then pure mem
      else if canExtend s.heap s.mem block bytes then
        let nextSz := blB2DataSz (read64 s.mem (blNext s.mem block))
        if mergesAll s.mem block bytes then
          let nsz := add64 origSz (blDataSz2Sz nextSz)
          .set { s with
            mem := blSet (fun _ => block) nsz heapPresent s.mem
            heap.state.usedBytes := add64 s.heap.state.usedBytes (sub64 nsz origSz) }
          pure mem
        else
          let nsz := sub64 nextSz (sub64 bytes origSz)
          let m := blSet (fun _ => block) bytes heapPresent s.mem
          let next := blNext m block
          .set { s with
            mem := blSet (fun _ => next) nsz 0 m
            heap.state.usedBytes := add64 s.heap.state.usedBytes (sub64 bytes origSz) }
          pure mem
      else
        let new ← heapAlloc P fuel bytes
        let s ← .get
        moveData new mem (blB2DataSz (read64 s.mem block))
        heapFree P mem
        pure new

end Alloc

end Tachyon.Heap
