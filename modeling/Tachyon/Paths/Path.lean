import Tachyon.Paths.Str

/-!
# Paths (`path.c`)

A path is split into its components by two scans, one that counts and one that copies, and joined
again.  Allocations succeed and are taken as large enough; the one of `path_string` is not, it leaves
out the separators and the terminating `0` (`pathString_inside_iff`).

* `pathCreate`, `pathString`: the source;
* `components`, `joined`: what they compute, on lists of characters;
* `Path.Holds m path cs`: a path with the components `cs`;
* `pathCreate_spec`, `pathString_spec`: the functions against `components` and `joined`;
* `path_round_trip`: the two are inverse to each other.
-/

namespace Tachyon.Paths

open Prog List Function

/-- The character in `PATH_SEPERATOR`. -/
def slash : UInt8 := 47

/-- The literal `PATH_SEPERATOR`. -/
def pathSeperator : Ptr := ⟨0, 0⟩

/-- `path_t`; an entry of the array is `none` before it is written. -/
structure Path where
  count : ℕ
  components : Option (ℕ → Option Ptr)

/-- `heap_alloc`, taken as large enough. -/
def heapAlloc (_size : ℕ) : Prog Blocks Ptr := alloc

/-! ### The source -/

/-- The first loop of `path_create`. -/
def countLoop (n sepLen : ℕ) : ℕ → Ptr → ℕ → Prog Blocks ℕ
  | 0, _, _ => halt .fuel
  | k + 1, comp, count =>
    strstr n comp pathSeperator >>= fun found =>
      match found with
      | none => pure count
      | some comp => countLoop n sepLen k (comp.add sepLen) (count + 1)

/-- The length of the component at `comp`. -/
def compLen (n : ℕ) (comp : Ptr) : Prog Blocks ℕ :=
  strstr n comp pathSeperator >>= fun next =>
    match next with
    | some next => pure (next.off - comp.off)
    | none => strlen n comp

/-- The copy of the component at `comp`. -/
def copyComp (n : ℕ) (comp : Ptr) : Prog Blocks Ptr :=
  compLen n comp >>= fun len =>
  heapAlloc (len + 1) >>= fun buf =>
  strncpy buf comp len >>= fun _ =>
  store (buf.add len) 0 >>= fun _ =>
  pure buf

/-- The second loop of `path_create`. -/
def fillLoop (n sepLen : ℕ) : ℕ → Ptr → ℕ → (ℕ → Option Ptr) → Prog Blocks (ℕ → Option Ptr)
  | 0, _, _, _ => halt .fuel
  | k + 1, comp, count, comps =>
    strstr n comp pathSeperator >>= fun found =>
      match found with
      | none => pure comps
      | some comp =>
        copyComp n (comp.add sepLen) >>= fun buf =>
        fillLoop n sepLen k (comp.add sepLen) (count + 1) (Function.update comps count (some buf))

/-- `path_create`. -/
def pathCreate (n : ℕ) (p : Option Ptr) : Prog Blocks (Option Path) :=
  strlen n pathSeperator >>= fun sepLen =>
    match p with
    | none => pure none
    | some p =>
      strncmp p pathSeperator sepLen >>= fun r =>
        if r ≠ 0 then pure none
        else
          countLoop n sepLen n p 0 >>= fun count =>
          fillLoop n sepLen n p 0 (fun _ => none) >>= fun comps =>
          pure (some ⟨count, some comps⟩)

/-- `path->components[i]`. -/
def Path.component (path : Path) (i : ℕ) : Prog Blocks Ptr :=
  match path.components.bind (· i) with
  | some p => pure p
  | none => halt .undefined

/-- The first loop of `path_string`. -/
def lenLoop (n : ℕ) (path : Path) : ℕ → ℕ → ℕ → Prog Blocks ℕ
  | 0, _, len => pure len
  | k + 1, i, len =>
    path.component i >>= fun comp =>
    strlen n comp >>= fun compLen =>
    lenLoop n path k (i + 1) (len + compLen)

/-- The second loop of `path_string`. -/
def joinLoop (n sepLen : ℕ) (path : Path) (result : Ptr) : ℕ → ℕ → ℕ → Prog Blocks ℕ
  | 0, _, pos => pure pos
  | k + 1, i, pos =>
    strncpy (result.add pos) pathSeperator sepLen >>= fun _ =>
    path.component i >>= fun comp =>
    strlen n comp >>= fun compLen =>
    strncpy (result.add (pos + sepLen)) comp compLen >>= fun _ =>
    joinLoop n sepLen path result k (i + 1) (pos + sepLen + compLen)

/-- `path_string`. -/
def pathString (n : ℕ) (path : Option Path) : Prog Blocks (Option Ptr) :=
  strlen n pathSeperator >>= fun sepLen =>
    match path with
    | none => pure none
    | some path =>
      if 0 < path.count ∧ path.components.isNone then pure none
      else
        lenLoop n path path.count 0 0 >>= fun len =>
        heapAlloc len >>= fun result =>
        joinLoop n sepLen path result path.count 0 0 >>= fun pos =>
        store (result.add pos) 0 >>= fun _ =>
        pure (some result)

/-! ### Components -/

variable {bs c rest : List UInt8} {cs : List (List UInt8)} {r : Ptr}

/-- What stands behind the separators. -/
def components (bs : List UInt8) : List (List UInt8) := (bs.splitOn slash).tail

/-- Every component with a separator in front. -/
def joined (cs : List (List UInt8)) : List UInt8 := cs.flatMap (slash :: ·)

theorem components_of_notMem (h : slash ∉ bs) : components bs = [] := by
  rw [components, splitOn_eq_singleton h, tail_cons]

theorem components_append_slash (h : slash ∉ c) (rest : List UInt8) :
    components (c ++ slash :: rest) = rest.splitOn slash := by
  rw [components, splitOn_append_cons_self_of_not_mem h, tail_cons]

/-- A string starts with a component, which ends with the string or in front of a separator. -/
theorem exists_component (bs : List UInt8) : ∃ c rest, bs = c ++ rest ∧ slash ∉ c ∧
    (rest = [] ∨ ∃ t, rest = slash :: t) ∧ bs.splitOn slash = c :: components bs := by
  by_cases h : slash ∈ bs
  · obtain ⟨c, rest, rfl, hc⟩ := eq_append_cons_of_mem h
    refine ⟨c, slash :: rest, rfl, hc, .inr ⟨rest, rfl⟩, ?_⟩
    rw [components_append_slash hc, splitOn_append_cons_self_of_not_mem hc]
  · refine ⟨bs, [], (append_nil _).symm, h, .inl rfl, ?_⟩
    rw [components_of_notMem h, splitOn_eq_singleton h]

theorem joined_eq (h : cs ≠ []) : joined cs = slash :: [slash].intercalate cs := by
  induction cs with
  | nil => exact absurd rfl h
  | cons c cs ih =>
    cases cs with
    | nil => simp [joined, intercalate]
    | cons d cs =>
      have := ih (cons_ne_nil _ _)
      rw [joined, flatMap_cons, ← joined, this]
      simp [intercalate]

/-- Joining the components of a path leads back to it. -/
theorem joined_components (bs : List UInt8) : joined (components (slash :: bs)) = slash :: bs := by
  have hsplit : components (slash :: bs) = bs.splitOn slash :=
    components_append_slash not_mem_nil bs
  rw [hsplit, joined_eq (splitOn_ne_nil _ _), intercalate_splitOn]

/-- The components of joined components are those again. -/
theorem components_joined (hne : cs ≠ []) (h : ∀ c ∈ cs, slash ∉ c) :
    components (joined cs) = cs := by
  rw [joined_eq hne]
  exact (components_append_slash not_mem_nil _).trans (splitOn_intercalate _ h hne)

theorem length_lt_of_mem (h : c ∈ cs) : c.length < (joined cs).length := by
  induction cs with
  | nil => cases h
  | cons d cs ih =>
    rw [joined, flatMap_cons, length_append, ← joined, length_cons]
    rcases mem_cons.1 h with rfl | h
    · omega
    · have := ih h
      omega

/-! ### Splitting -/

variable {m m' : Blocks} {comp p : Ptr} {n k i : ℕ} {comps : ℕ → Option Ptr}

/-- The entries of the array from `i` on point to the components `cs`. -/
def Filled (m : Blocks) (comps : ℕ → Option Ptr) : ℕ → List (List UInt8) → Prop
  | _, [] => True
  | i, c :: cs => (∃ p, comps i = some p ∧ p.block < m.next ∧ StringAt m p c) ∧
      Filled m comps (i + 1) cs

/-- A path with the components `cs`. -/
def Path.Holds (m : Blocks) (path : Path) (cs : List (List UInt8)) : Prop :=
  path.count = cs.length ∧ ∃ comps, path.components = some comps ∧ Filled m comps 0 cs

/-- The separator is in memory. -/
structure HasSeperator (m : Blocks) : Prop where
  old : pathSeperator.block < m.next
  str : StringAt m pathSeperator [slash]

theorem HasSeperator.grows (h : HasSeperator m) (hg : Grows m m') : HasSeperator m' :=
  ⟨h.old.trans_le hg.next_le, h.str.grows h.old hg⟩

theorem Filled.isSome (h : Filled m comps i cs) {j : ℕ} (hi : i ≤ j) (hj : j < i + cs.length) :
    (comps j).isSome := by
  induction cs generalizing i with
  | nil =>
    rw [length_nil] at hj
    omega
  | cons c cs ih =>
    obtain ⟨⟨p, hp, -⟩, hrest⟩ := h
    rcases eq_or_lt_of_le hi with rfl | hlt
    · rw [hp]
      rfl
    · exact ih hrest hlt (by rw [length_cons] at hj; omega)

theorem Filled.zero_notMem (h : Filled m comps i cs) : 0 ∉ joined cs := by
  induction cs generalizing i with
  | nil => exact not_mem_nil
  | cons c cs ih =>
    obtain ⟨⟨p, -, -, hstr⟩, hrest⟩ := h
    rw [joined, flatMap_cons, ← joined, mem_append, mem_cons, not_or, not_or]
    exact ⟨⟨by decide, hstr.zero_notMem⟩, ih hrest⟩

theorem countLoop_eq (hsep : HasSeperator m) (hstr : StringAt m comp bs) (hk : bs.length < k)
    (hn : bs.length < n) (hone : 1 < n) :
    countLoop n 1 k comp i m = .ok (i + (components bs).length, m) := by
  induction k generalizing bs comp i with
  | zero => omega
  | succ k ih =>
    by_cases h : slash ∈ bs
    · obtain ⟨pre, rest, rfl, hpre⟩ := eq_append_cons_of_mem h
      rw [length_append, length_cons] at hk hn
      obtain ⟨c, _, -, -, -, hsplit⟩ := exists_component rest
      have hfound := strstr_some hsep.str hstr hpre hone (by omega)
      rw [countLoop, run_ok hfound]
      refine (ih hstr.drop.2.2 (by omega) (by omega)).trans ?_
      rw [components_append_slash hpre, hsplit, length_cons, add_right_comm, add_assoc]
    · have hnone := strstr_none hsep.str hstr h hone hn
      rw [countLoop, run_ok hnone, components_of_notMem h]
      rfl

theorem compLen_eq (hsep : HasSeperator m) (hstr : StringAt m comp (c ++ rest))
    (hc : slash ∉ c) (hrest : rest = [] ∨ ∃ t, rest = slash :: t) (hn : c.length < n)
    (hone : 1 < n) : compLen n comp m = .ok (c.length, m) := by
  rcases hrest with rfl | ⟨t, rfl⟩
  · rw [append_nil] at hstr
    rw [compLen, run_ok (strstr_none hsep.str hstr hc hone hn)]
    exact strlen_eq hstr hn
  · rw [compLen, run_ok (strstr_some hsep.str hstr hc hone hn)]
    show Except.ok (comp.off + c.length - comp.off, m) = _
    rw [Nat.add_sub_cancel_left]

/-- The memory behind the copy of a component to a new block. -/
def copied (m : Blocks) (c : List UInt8) : Blocks :=
  { m with next := m.next + 1 }.write ⟨m.next, 0⟩ (c ++ [0])

theorem copyComp_eq (hsep : HasSeperator m) (hold : comp.block < m.next)
    (hstr : StringAt m comp (c ++ rest)) (hc : slash ∉ c)
    (hrest : rest = [] ∨ ∃ t, rest = slash :: t) (hn : c.length < n) (hone : 1 < n) :
    copyComp n comp m = .ok (⟨m.next, 0⟩, copied m c) := by
  have hblock : (⟨m.next, 0⟩ : Ptr).block ≠ comp.block := hold.ne'
  have hnew : StringAt { m with next := m.next + 1 } comp (c ++ rest) := hstr.congr fun _ _ => rfl
  have halloc : heapAlloc (c.length + 1) m = .ok (⟨m.next, 0⟩, { m with next := m.next + 1 }) := rfl
  rw [copyComp, run_ok (compLen_eq hsep hstr hc hrest hn hone),
    run_ok halloc, run_ok (strncpy_eq hblock hnew), copied, ← Blocks.write_append]
  rfl

/-- The second scan fills an entry for each component. -/
theorem fillLoop_spec (i : ℕ) (comps : ℕ → Option Ptr) (hsep : HasSeperator m)
    (hold : comp.block < m.next) (hstr : StringAt m comp bs) (hk : bs.length < k)
    (hn : bs.length < n) (hone : 1 < n) :
    ∃ comps' m', fillLoop n 1 k comp i comps m = .ok (comps', m') ∧ Grows m m' ∧
      (∀ j, j < i ∨ i + (components bs).length ≤ j → comps' j = comps j) ∧
      Filled m' comps' i (components bs) := by
  induction k generalizing bs comp i comps m with
  | zero => omega
  | succ k ih =>
    by_cases h : slash ∈ bs
    · obtain ⟨pre, rest, rfl, hpre⟩ := eq_append_cons_of_mem h
      rw [length_append, length_cons] at hk hn
      have hrest : StringAt m ((comp.add pre.length).add 1) rest := hstr.drop.2.2
      obtain ⟨c, tail, htail, hc, hend, hsplit⟩ := exists_component rest
      have hlen : c.length + tail.length = rest.length := by rw [htail, length_append]
      have hcopy : copyComp n ((comp.add pre.length).add 1) m = _ :=
        copyComp_eq hsep hold (htail ▸ hrest) hc hend (by omega) hone
      have hg : Grows m (copied m c) := grows_write m 0 (c ++ [0])
      have hold' : ((comp.add pre.length).add 1).block < (copied m c).next :=
        lt_of_lt_of_le hold hg.next_le
      obtain ⟨comps', m', hfill, hg', hsame, hfilled⟩ := ih (i + 1)
        (update comps i (some ⟨m.next, 0⟩)) (hsep.grows hg) hold'
        (hrest.grows hold hg) (by omega) (by omega)
      have hzero : 0 ∉ c := fun hmem =>
        hrest.zero_notMem (htail ▸ mem_append_left _ hmem)
      rw [components_append_slash hpre, hsplit]
      refine ⟨comps', m', ?_, hg.trans hg', fun j hj => ?_, ⟨⟨m.next, 0⟩, ?_, ?_, ?_⟩, hfilled⟩
      · rw [fillLoop, run_ok (strstr_some hsep.str hstr hpre hone (by omega))]
        exact (run_ok hcopy).trans hfill
      · rw [length_cons] at hj
        rw [hsame j (by omega), update_of_ne (by omega)]
      · rw [hsame i (.inl (Nat.lt_succ_self _)), update_self]
      · refine lt_of_lt_of_le ?_ hg'.next_le
        rw [copied, Blocks.write_next]
        exact Nat.lt_succ_self _
      · refine StringAt.grows (m := copied m c) (stringAt_write hzero) ?_ hg'
        rw [copied, Blocks.write_next]
        exact Nat.lt_succ_self _
    · refine ⟨comps, m, ?_, Grows.refl m, fun _ _ => rfl, ?_⟩
      · rw [fillLoop, run_ok (strstr_none hsep.str hstr h hone hn)]
        rfl
      · rw [components_of_notMem h]
        trivial

/-- The path that `path_create` returns has the components of the string, and no other entries. -/
theorem pathCreate_spec (hsep : HasSeperator m) (hold : p.block < m.next)
    (hstr : StringAt m p (slash :: bs)) (hn : bs.length + 1 < n) :
    ∃ path m', pathCreate n (some p) m = .ok (some path, m') ∧ Grows m m' ∧
      path.Holds m' (components (slash :: bs)) ∧
      ∃ comps, path.components = some comps ∧ ∀ j, (comps j).isSome ↔ j < path.count := by
  have hone : 1 < n := by omega
  have hlen : (slash :: bs).length < n := hn
  have hcount := countLoop_eq (i := 0) hsep hstr hlen hlen hone
  obtain ⟨comps, m', hfill, hg, hsame, hfilled⟩ :=
    fillLoop_spec 0 (fun _ => none) hsep hold hstr hlen hlen hone
  rw [zero_add] at hcount hsame
  refine ⟨⟨(components (slash :: bs)).length, some comps⟩, m', ?_, hg, ⟨rfl, comps, rfl, hfilled⟩,
    comps, rfl, fun j => ⟨fun h => ?_, fun h => hfilled.isSome (Nat.zero_le j) ?_⟩⟩
  · rw [pathCreate, run_ok (strlen_eq hsep.str hone)]
    refine (run_ok (strncmp_one hstr.1 hsep.str.1 hstr.2.1)).trans ?_
    refine (run_ok hcount).trans ?_
    exact run_ok hfill
  · by_contra hge
    rw [hsame j (.inr (not_lt.1 hge))] at h
    cases h
  · rwa [zero_add]

/-! ### Joining -/

variable {path : Path}

theorem component_eq (hcomps : path.components = some comps) (h : comps i = some p) :
    path.component i m = .ok (p, m) := by
  unfold Path.component
  rw [hcomps, Option.bind_some, h]
  rfl

theorem lenLoop_eq {l : ℕ} (hcomps : path.components = some comps) (h : Filled m comps i cs)
    (hn : ∀ c ∈ cs, c.length < n) :
    lenLoop n path cs.length i l m = .ok (l + (cs.map length).sum, m) := by
  induction cs generalizing i l with
  | nil => rfl
  | cons c cs ih =>
    obtain ⟨⟨p, hp, -, hstr⟩, hrest⟩ := h
    have htail := ih (l := l + c.length) hrest fun d hd => hn d (mem_cons_of_mem _ hd)
    rw [length_cons, lenLoop, run_ok (component_eq hcomps hp),
      run_ok (strlen_eq hstr (hn c mem_cons_self)), htail, map_cons,
      sum_cons, add_assoc]

theorem length_joined (cs : List (List UInt8)) :
    (joined cs).length = (cs.map length).sum + cs.length := by
  induction cs with
  | nil => rfl
  | cons c cs ih =>
    rw [joined, flatMap_cons, length_append, ← joined, ih, map_cons, sum_cons,
      length_cons, length_cons]
    omega

/-- What is below the result is not written to. -/
theorem stringAt_below {front : List UInt8} (hg : Grows m m') (hstr : StringAt m p bs)
    (hold : p.block < m.next) (hnew : m.next ≤ r.block) : StringAt (m'.write r front) p bs :=
  (hstr.grows hold hg).congr fun _ hq => Blocks.write_of_not_mem (.inl (by omega))

/-- A copy of a string behind what is in the result already. -/
theorem strncpy_behind (front : List UInt8) (hg : Grows m m') (hstr : StringAt m p bs)
    (hold : p.block < m.next) (hnew : m.next ≤ r.block) :
    strncpy (r.add front.length) p bs.length (m'.write r front) =
      .ok (r.add front.length, m'.write r (front ++ bs)) := by
  have hblock : (r.add front.length).block ≠ p.block := (hold.trans_le hnew).ne'
  have hbelow : StringAt (m'.write r front) p (bs ++ []) := by
    rw [append_nil]
    exact stringAt_below hg hstr hold hnew
  rw [strncpy_eq hblock hbelow, Blocks.write_append]

/-- The loop writes the components behind what is in the result already. -/
theorem joinLoop_eq (front : List UInt8) (hsep : HasSeperator m) (hg : Grows m m')
    (hcomps : path.components = some comps) (h : Filled m comps i cs) (hnew : m.next ≤ r.block)
    (hn : ∀ c ∈ cs, c.length < n) :
    joinLoop n 1 path r cs.length i front.length (m'.write r front) =
      .ok ((front ++ joined cs).length, m'.write r (front ++ joined cs)) := by
  induction cs generalizing i front with
  | nil =>
    rw [joined, flatMap_nil, append_nil]
    rfl
  | cons c cs ih =>
    obtain ⟨⟨p, hp, hold, hstr⟩, hrest⟩ := h
    have hcopySep := strncpy_behind front hg hsep.str hsep.old hnew
    have hcopy := strncpy_behind (front ++ [slash]) hg hstr hold hnew
    have htail := ih (front ++ [slash] ++ c) hrest fun d hd => hn d (mem_cons_of_mem _ hd)
    have hjoined : front ++ joined (c :: cs) = front ++ [slash] ++ c ++ joined cs := by
      simp [joined]
    rw [hjoined, ← htail, length_append, length_append]
    rw [length_append] at hcopy
    refine (run_ok hcopySep).trans ?_
    rw [run_ok (component_eq hcomps hp), run_ok
      (strlen_eq (stringAt_below hg hstr hold hnew) (hn c mem_cons_self))]
    exact run_ok hcopy

/-- `path_string` writes the components and the terminating `0` to a new block.  A path without
components needs no array. -/
theorem pathString_eq (hsep : HasSeperator m) (h : path.Holds m cs ∨ path.count = 0 ∧ cs = [])
    (hn : (joined cs).length + 1 < n) :
    pathString n (some path) m = .ok (some ⟨m.next, 0⟩, copied m (joined cs)) := by
  rw [pathString, run_ok (strlen_eq hsep.str (lt_of_le_of_lt (Nat.le_add_left 1 _) hn))]
  rcases h with ⟨hcount, comps, hcomps, hfilled⟩ | ⟨hcount, rfl⟩
  · have hshort : ∀ c ∈ cs, c.length < n := fun c hc => (length_lt_of_mem hc).trans (by omega)
    have hlen := lenLoop_eq (l := 0) hcomps hfilled hshort
    have hg : Grows m { m with next := m.next + 1 } := grows_write m 0 []
    have hjoin := joinLoop_eq (r := ⟨m.next, 0⟩) [] hsep hg hcomps hfilled le_rfl hshort
    have hend : copied m (joined cs) =
        ({ m with next := m.next + 1 }.write ⟨m.next, 0⟩ (joined cs)).put
          (Ptr.add ⟨m.next, 0⟩ (joined cs).length) 0 := (Blocks.write_append _ _ _ [0]).symm
    have hsome : ¬ (0 < path.count ∧ path.components.isNone) := by simp [hcomps]
    refine (congrFun (if_neg hsome) m).trans ?_
    rw [hcount]
    refine (run_ok hlen).trans ?_
    refine (run_ok hjoin).trans ?_
    rw [hend]
    rfl
  · obtain ⟨count, comps⟩ := path
    obtain rfl : count = 0 := hcount
    rfl

/-- The string that `path_string` returns consists of the components. -/
theorem pathString_spec (hsep : HasSeperator m) (h : path.Holds m cs)
    (hn : (joined cs).length + 1 < n) :
    ∃ r m', pathString n (some path) m = .ok (some r, m') ∧ Grows m m' ∧ r.block < m'.next ∧
      StringAt m' r (joined cs) := by
  refine ⟨⟨m.next, 0⟩, copied m (joined cs), pathString_eq hsep (.inl h) hn, grows_write m 0 _, ?_,
    stringAt_write h.2.choose_spec.2.zero_notMem⟩
  rw [copied, Blocks.write_next]
  exact Nat.lt_succ_self _

/-! ### There and back -/

/-- **Splitting and joining paths are inverse to each other**, and the two scans of `path_create`
agree on the number of components. -/
theorem path_round_trip (hsep : HasSeperator m) :
    (∀ {p bs n}, p.block < m.next → StringAt m p (slash :: bs) → bs.length + 2 < n →
      ∃ path m₁ comps, pathCreate n (some p) m = .ok (some path, m₁) ∧
        path.components = some comps ∧ (∀ j, (comps j).isSome ↔ j < path.count) ∧
        ∃ r m₂, pathString n (some path) m₁ = .ok (some r, m₂) ∧ StringAt m₂ r (slash :: bs)) ∧
    ∀ {path cs n}, cs ≠ [] → (∀ c ∈ cs, slash ∉ c) → path.Holds m cs →
      (joined cs).length + 1 < n →
      ∃ r m₁, pathString n (some path) m = .ok (some r, m₁) ∧
        ∃ path' m₂, pathCreate n (some r) m₁ = .ok (some path', m₂) ∧ path'.Holds m₂ cs := by
  refine ⟨fun {p bs n} hold hstr hn => ?_, fun {path cs n} hne hcs hpath hn => ?_⟩
  · obtain ⟨path, m₁, hcreate, hg, hholds, comps, hcomps, hfilled⟩ :=
      pathCreate_spec hsep hold hstr (by omega : bs.length + 1 < n)
    obtain ⟨r, m₂, hstring, -, -, hr⟩ := pathString_spec (hsep.grows hg) hholds
      (by rw [joined_components]; exact hn)
    rw [joined_components] at hr
    exact ⟨path, m₁, comps, hcreate, hcomps, hfilled, r, m₂, hstring, hr⟩
  · obtain ⟨r, m₁, hstring, hg, hold, hr⟩ := pathString_spec hsep hpath hn
    obtain ⟨bs, hbs⟩ : ∃ bs, joined cs = slash :: bs := ⟨_, joined_eq hne⟩
    rw [hbs] at hr hn
    have hlen : bs.length + 1 < n := by
      rw [length_cons] at hn
      omega
    obtain ⟨path', m₂, hcreate, -, hholds, -⟩ := pathCreate_spec (hsep.grows hg) hold hr hlen
    rw [← hbs, components_joined hne hcs] at hholds
    exact ⟨r, m₁, hstring, path', m₂, hcreate, hholds⟩

/-- The path "/a" in memory. -/
def pathA : Blocks :=
  (Blocks.mk (fun _ => 0) 2).write pathSeperator [slash] |>.write ⟨1, 0⟩ [slash, 97]

theorem path_round_trip_pathA :
    (∃ path m₁ r m₂, pathCreate 8 (some ⟨1, 0⟩) pathA = .ok (some path, m₁) ∧
      pathString 8 (some path) m₁ = .ok (some r, m₂) ∧ StringAt m₂ r [slash, 97]) ∧
    ∃ r m₁ path m₂, pathString 8 (some ⟨1, some fun _ => some ⟨1, 1⟩⟩) pathA = .ok (some r, m₁) ∧
      pathCreate 8 (some r) m₁ = .ok (some path, m₂) ∧ path.Holds m₂ [[97]] := by
  have hsep : HasSeperator pathA := ⟨by decide, by decide⟩
  have hholds : Path.Holds pathA ⟨1, some fun _ => some ⟨1, 1⟩⟩ [[97]] :=
    ⟨rfl, _, rfl, ⟨⟨1, 1⟩, rfl, by decide, by decide⟩, trivial⟩
  have hstr : StringAt pathA ⟨1, 0⟩ [slash, 97] := by decide
  constructor
  · obtain ⟨path, m₁, -, hcreate, -, -, r, m₂, hstring, hr⟩ :=
      (path_round_trip hsep).1 (n := 8) (by decide) hstr (by decide)
    exact ⟨path, m₁, r, m₂, hcreate, hstring, hr⟩
  · obtain ⟨r, m₁, hstring, path, m₂, hcreate, hpath⟩ :=
      (path_round_trip hsep).2 (n := 8) (by decide) (by decide) hholds (by decide)
    exact ⟨r, m₁, path, m₂, hstring, hcreate, hpath⟩

/-! ### The block of the string -/

/-- The size of the data area that `heap_alloc` returns. -/
def dataSize (bytes : ℕ) : ℕ := (bytes + 7) / 8 * 8

/-- The next block holds the bytes `old`. -/
def Blocks.used (m : Blocks) (old : ℕ → UInt8) : Blocks :=
  { m with bytes := fun q => if q.block = m.next then old q.off else m.bytes q }

theorem grows_used (m : Blocks) (old : ℕ → UInt8) : Grows m (Blocks.used m old) :=
  ⟨le_rfl, fun _ hq => if_neg hq.ne⟩

theorem Filled.grows (h : Filled m comps i cs) (hg : Grows m m') : Filled m' comps i cs := by
  induction cs generalizing i with
  | nil => trivial
  | cons c cs ih =>
    obtain ⟨⟨p, hp, hold, hstr⟩, hrest⟩ := h
    exact ⟨⟨p, hp, hold.trans_le hg.next_le, hstr.grows hold hg⟩, ih hrest⟩

/-- **`path_string` stays inside its block**, which may hold anything, exactly if the rounding of the
size leaves room for the separators and the terminating `0`. -/
theorem pathString_inside_iff (hsep : HasSeperator m)
    (h : path.Holds m cs ∨ path.count = 0 ∧ cs = []) (hn : (joined cs).length + 1 < n) :
    lenLoop n path path.count 0 0 m = .ok ((cs.map List.length).sum, m) ∧
      ((∀ old, ∃ m', pathString n (some path) (Blocks.used m old) = .ok (some ⟨m.next, 0⟩, m') ∧
        ∀ o, dataSize (cs.map List.length).sum ≤ o → m'.bytes ⟨m.next, o⟩ = old o) ↔
      (cs.map List.length).sum + cs.length + 1 ≤ dataSize (cs.map List.length).sum) := by
  have hrun : ∀ old, pathString n (some path) (Blocks.used m old) =
      .ok (some ⟨m.next, 0⟩, copied (Blocks.used m old) (joined cs)) := fun old =>
    pathString_eq (hsep.grows (grows_used m old)) (h.imp (And.imp_right fun ⟨comps, hc, hf⟩ =>
      ⟨comps, hc, hf.grows (grows_used m old)⟩) id) hn
  have hlen := length_joined cs
  refine ⟨?_, fun hin => ?_, fun hroom old => ⟨_, hrun old, fun o ho => ?_⟩⟩
  · rcases h with ⟨hcount, comps, hcomps, hfilled⟩ | ⟨hcount, rfl⟩
    · rw [hcount, lenLoop_eq hcomps hfilled fun c hc => (length_lt_of_mem hc).trans (by omega),
        zero_add]
    · rw [hcount]
      rfl
  · -- the terminating `0` is in the data area: elsewhere there was a `1`
    obtain ⟨m', hcall, hold⟩ := hin fun _ => 1
    rw [hrun] at hcall
    cases hcall
    by_contra hroom
    have hbyte := hold (joined cs).length (by omega)
    have hzero : (copied (Blocks.used m fun _ => 1) (joined cs)).bytes
        ⟨m.next, (joined cs).length⟩ = 0 := by
      rw [copied, ← Blocks.write_append]
      simp [Blocks.write, Blocks.put, Ptr.add, Blocks.used]
    exact absurd (hzero.symm.trans hbyte) (by decide)
  · refine (Blocks.write_of_not_mem (.inr (.inr ?_))).trans (if_pos rfl)
    rw [length_append, hlen, length_singleton, zero_add]
    exact hroom.trans ho

/-- The path "/a": three bytes in a data area of eight. -/
theorem pathString_inside_iff_pathA : ∃ m', pathString 8 (some ⟨1, some fun _ => some ⟨1, 1⟩⟩)
      (Blocks.used pathA fun _ => 1) = .ok (some ⟨2, 0⟩, m') ∧
    ∀ o, dataSize 1 ≤ o → m'.bytes ⟨2, o⟩ = 1 := by
  have h : Path.Holds pathA ⟨1, some fun _ => some ⟨1, 1⟩⟩ [[97]] :=
    ⟨rfl, _, rfl, ⟨⟨1, 1⟩, rfl, by decide, by decide⟩, trivial⟩
  exact (pathString_inside_iff ⟨by decide, by decide⟩ (.inl h) (by decide)).2.2 (by decide) fun _ => 1

/-- The path "/", whose only component is empty: the data area has no bytes. -/
theorem pathString_outside : ∃ m', pathString 8 (some ⟨1, some fun _ => some ⟨1, 2⟩⟩) pathA =
    .ok (some ⟨2, 0⟩, m') ∧ dataSize 0 = 0 ∧ pathA.bytes ⟨2, 0⟩ = 0 ∧ m'.bytes ⟨2, 0⟩ = slash := by
  have h : Path.Holds pathA ⟨1, some fun _ => some ⟨1, 2⟩⟩ [[]] :=
    ⟨rfl, _, rfl, ⟨⟨1, 2⟩, rfl, by decide, by decide⟩, trivial⟩
  exact ⟨_, pathString_eq ⟨by decide, by decide⟩ (.inl h) (by decide), by decide⟩

end Tachyon.Paths
