import Tachyon.Vmem.Pages

/-!
# An address space is a partial map

What an address space is for: it maps pages to frames.  `PageMap` says for every page whether it is
mapped, as a page of its own or as a part of a large page, and to which frame.  `PageMap.Step` says
what the three functions do to such a map.

* `runCalls`: sequences of calls of `vmem_map`, `vmem_unmap` and `vmem_resolve`;
* `runCalls_ok`: what every single call does with direct access to the tables, a sequence of calls
  does through the slots;
* `vmem_partial_map`: the functions implement the partial map.
-/

namespace Tachyon.Vmem

open Prog List

variable {σ α : Type} {P : Policy} {B : Boot} {t t' : Tables} {m : ℕ → ℕ} {r v virt phys flags : ℕ}
  {l : Locals}

/-! ### Sequences of calls -/

/-- Calls one after the other, each with its own uninitialised variables. -/
def runCalls (A : Access σ) (r : ℕ) : List (Locals × Call) → Prog σ (List ℕ)
  | [] => pure []
  | (l, c) :: calls => do
    let res ← c.run A l r
    let results ← runCalls A r calls
    pure (res :: results)

/-- A sequence of calls with their results, as steps of an abstract machine. -/
inductive Steps (S : α → Call → ℕ → α → Prop) : α → List Call → List ℕ → α → Prop
  | nil (a : α) : Steps S a [] [] a
  | cons {a a' a'' : α} {c : Call} {res : ℕ} {calls : List Call} {results : List ℕ} :
      S a c res a' → Steps S a' calls results a'' → Steps S a (c :: calls) (res :: results) a''

/-- A call with direct access that returns, returns through the slots. -/
theorem call_slots {Q : ℕ → Tables → Prop} {c : Call} (h : Ready 4 m) (hpd : Spare m l.pd)
    (hpt : Spare m l.pt) (hdirect : ends (c.run (direct B) l r) Q (fun _ => False) t) :
    ∃ res t', c.run (slots B) l r ⟨t, m⟩ = .ok (res, ⟨t', m⟩) ∧ Q res t' := by
  obtain ⟨res, t', hrun, hQ⟩ := wp_of_ends hdirect
  obtain ⟨a, s', hslots, rfl, rfl⟩ := (call_rel c h hpd hpt).1 res t' hrun
  exact ⟨a, t', hslots, hQ⟩

/-- What one call does with direct access, given three frames, a sequence of calls does through the
slots. -/
theorem runCalls_ok {S : α → Call → ℕ → α → Prop} {R : α → Tables → Prop} {D : Call → Prop}
    (hstep : ∀ c l a t, D c → R a t → 3 ≤ t.pmem.length → ends (c.run (direct B) l r)
      (fun res t' => t.pmem.length ≤ t'.pmem.length + 3 ∧ ∃ a', S a c res a' ∧ R a' t')
      (fun _ => False) t)
    (h : Ready 4 m) (calls : List (Locals × Call))
    (hcalls : ∀ c ∈ calls, Unused m c.1.pd ∧ Unused m c.1.pt ∧ D c.2) :
    ∀ (a : α) (t : Tables), R a t → 3 * calls.length ≤ t.pmem.length →
      ∃ results t' a', runCalls (slots B) r calls ⟨t, m⟩ = .ok (results, ⟨t', m⟩) ∧
        Steps S a (calls.map Prod.snd) results a' ∧ R a' t' := by
  induction calls with
  | nil => exact fun a t hR _ => ⟨[], t, a, rfl, .nil a, hR⟩
  | cons call calls ih =>
    obtain ⟨l, c⟩ := call
    intro a t hR hframes
    rw [length_cons] at hframes
    obtain ⟨hpd, hpt, hok⟩ := hcalls (l, c) mem_cons_self
    obtain ⟨res, t1, hrun, hpmem, a1, hS, hR1⟩ := call_slots h (hpd.spare h.emptied)
      (hpt.spare h.emptied) (hstep c l a t hok hR (by omega))
    obtain ⟨results, t', a', hruns, hsteps, hR'⟩ := ih
      (fun c hc => hcalls c (mem_cons_of_mem _ hc)) a1 t1 hR1 (by omega)
    refine ⟨res :: results, t', a', ?_, .cons hS hsteps, hR'⟩
    rw [runCalls, run_ok hrun, run_ok hruns]
    rfl

/-! ### Partial maps -/

/-- For every small page: whether it is a part of a large page, and the frame of the page. -/
def PageMap : Type := ℕ → Option (Bool × ℕ)

namespace PageMap

/-- The small pages of a page. -/
def InPage (large : Bool) (n k : ℕ) : Prop := if large = true then n / 512 = k / 512 else n = k

instance (large : Bool) (n k : ℕ) : Decidable (InPage large n k) :=
  inferInstanceAs (Decidable (ite _ _ _))

/-- The frame of an address, or `0`. -/
def resolve (M : PageMap) (virt : ℕ) : ℕ := ((M (pageNo virt)).map Prod.snd).getD 0

/-- The page of an address is mapped to a frame. -/
def mapPage (M : PageMap) (large : Bool) (virt phys : ℕ) : PageMap := fun n =>
  if InPage large n (pageNo virt) then some (large, phys) else M n

/-- The page of an address is not mapped any more. -/
def unmapPage (M : PageMap) (virt : ℕ) : PageMap := fun n =>
  if InPage (((M (pageNo virt)).map Prod.fst).getD false) n (pageNo virt) then none else M n

/-- The steps of an address space, with the values that the calls return.  A large page cannot be
mapped where any part of it is mapped, and where an empty page table is in the way. -/
inductive Step (M : PageMap) : Call → ℕ → PageMap → Prop
  | mapSmall {phys virt flags : ℕ} : isLarge flags = false → M (pageNo virt) = none →
      Step M (.map phys virt flags) 1 (M.mapPage false virt phys)
  | mapCovered {phys virt flags : ℕ} : isLarge flags = false → M (pageNo virt) ≠ none →
      Step M (.map phys virt flags) 0 M
  | mapLarge {phys virt flags : ℕ} : isLarge flags = true →
      (∀ n, InPage true n (pageNo virt) → M n = none) →
      Step M (.map phys virt flags) 1 (M.mapPage true virt phys)
  | mapLargeFails {phys virt flags : ℕ} : isLarge flags = true → Step M (.map phys virt flags) 0 M
  | unmap {virt : ℕ} : Step M (.unmap virt) (M.resolve virt) (M.unmapPage virt)
  | resolve {virt : ℕ} : Step M (.resolve virt) (M.resolve virt) M

end PageMap

open PageMap

/-- The page that an entry maps. -/
def toPage (x : Bool × ℕ) : Bool × ℕ := (x.1, entryAddr x.2)

/-- The tables implement the partial map. -/
def Implements (t : Tables) (r : ℕ) (M : PageMap) : Prop :=
  ∀ v, (leafAt t r v).map toPage = M (pageNo v)

/-- The partial map of an address space. -/
def pageMap (t : Tables) (r : ℕ) : PageMap := fun n => (leafAt t r (n * 2 ^ 12)).map toPage

variable {M : PageMap}

theorem implements_pageMap (t : Tables) (r : ℕ) : Implements t r (pageMap t r) := fun v => by
  have hpage : pageNo (pageNo v * 2 ^ 12) = pageNo v := by
    unfold pageNo
    omega
  rw [pageMap, leafAt_of_pageNo hpage]

theorem inPage_iff (large : Bool) (v virt : ℕ) :
    InPage large (pageNo v) (pageNo virt) ↔ SamePage large v virt := by
  unfold InPage SamePage largeNo pageNo
  split_ifs
  · omega
  · rfl

/-- The page number of some address. -/
theorem exists_pageNo {n : ℕ} (h : InPage true n (pageNo virt)) : ∃ v, pageNo v = n := by
  refine ⟨n * 2 ^ 12, ?_⟩
  simp only [InPage, if_true, pageNo] at h ⊢
  omega

theorem Implements.resolve (h : Implements t r M) (virt : ℕ) :
    resolved (leafAt t r virt) = M.resolve virt := by
  rw [PageMap.resolve, ← h virt, Option.map_map]
  rfl

theorem Implements.foundLarge (h : Implements t r M) (virt : ℕ) :
    foundLarge (leafAt t r virt) = ((M (pageNo virt)).map Prod.fst).getD false := by
  rw [← h virt, Option.map_map]
  rfl

/-- Frames of pages are not zero. -/
def plain : Policy where
  Frame _ := True
  Upper _ := True
  Leaf e := entryAddr e ≠ 0
  Below _ _ := True

theorem plain_allows (u : ℕ) : plain.Allows u where
  upper_or _ _ := trivial
  upper_new _ _ := trivial
  below_above _ _ _ := trivial
  below_or _ _ _ _ := trivial
  below_new _ _ _ _ := trivial

/-- The flags that `vmem_map` allows. -/
def vmemFlags : ℕ :=
  pgWritable ||| pgUser ||| pgWritethrough ||| pgNoncachable ||| pgLarge ||| pgGlobal |||
    pgExecuteDisable

/-- Calls as they are documented; pages are mapped to frames other than the first. -/
def Call.Documented : Call → Prop
  | .map phys _ flags => pageSize4K ∣ phys ∧ phys ≠ 0 ∧ flags ||| vmemFlags = vmemFlags
  | _ => True

theorem flags_lt (h : flags ||| vmemFlags = vmemFlags) : flags < 2 ^ 12 :=
  lt_of_le_of_lt (h ▸ Nat.left_le_or : flags ≤ vmemFlags) (by decide)

theorem entryAddr_leaf (hphys : pageSize4K ∣ phys) (hflags : flags < 2 ^ 12) :
    entryAddr (phys ||| pgPresent ||| flags) = phys := by
  rw [entryAddr_or _ hflags, entryAddr_or _ (by decide), entryAddr_of_dvd hphys]

/-! ### Refinement -/

/-- A page that has been mapped. -/
theorem Implements.mapPage {large : Bool} {e : ℕ} (h : Implements t r M) (he : entryAddr e = phys)
    (hleaf : ∀ v, leafAt t' r v = if SamePage large v virt then some (large, e) else leafAt t r v) :
    Implements t' r (M.mapPage large virt phys) := by
  intro v
  rw [hleaf, PageMap.mapPage]
  simp only [inPage_iff]
  split_ifs
  · rw [← he]
    rfl
  · exact h v

/-- One call is one step of the partial map. -/
theorem call_step (c : Call) (l : Locals) (M : PageMap) (t : Tables) (hdoc : c.Documented)
    (hR : Tree plain B r t ∧ Implements t r M) (hpmem : 3 ≤ t.pmem.length) :
    ends (c.run (direct B) l r) (fun res t' => t.pmem.length ≤ t'.pmem.length + 3 ∧
      ∃ M', PageMap.Step M c res M' ∧ Tree plain B r t' ∧ Implements t' r M') (fun _ => False) t := by
  obtain ⟨htree, himp⟩ := hR
  cases c with
  | map phys virt flags =>
    obtain ⟨hphys, h0, hflags⟩ := hdoc
    have hlt := flags_lt hflags
    have haddr := entryAddr_leaf hphys hlt
    have hleaf : plain.Leaf (phys ||| pgPresent ||| flags) := fun h => h0 (haddr.symm.trans h)
    refine ends_bind ?_
    cases hl : isLarge flags with
    | false =>
      refine ends_mono (htree.map_small (plain_allows flags) hleaf (fun _ _ => trivial) hlt hl hpmem)
        ?_
      rintro ok t' ⟨hkept, rfl, hpages⟩
      refine ends_pure ⟨hkept.pmem, ?_⟩
      cases hvirt : leafAt t r virt with
      | none =>
        have hnone : M (pageNo virt) = none := by rw [← himp virt, hvirt]; rfl
        refine ⟨_, .mapSmall hl hnone, hkept.tree, himp.mapPage haddr fun v => ?_⟩
        rw [hpages v, hvirt]
        simp [SamePage]
      | some x =>
        have hsome : M (pageNo virt) ≠ none := by
          rw [← himp virt, hvirt]
          simp
        refine ⟨_, .mapCovered hl hsome, hkept.tree, fun v => ?_⟩
        rw [hpages v, hvirt, if_neg (by simp)]
        exact himp v
    | true =>
      refine ends_mono (htree.map_large (plain_allows flags) hleaf (fun _ _ => trivial) hlt hl hpmem)
        ?_
      rintro ok t' ⟨hkept, hfree, hpages⟩
      refine ends_pure ⟨hkept.pmem, ?_⟩
      cases ok with
      | true =>
        refine ⟨_, .mapLarge hl fun n hn => ?_, hkept.tree, himp.mapPage haddr fun v => ?_⟩
        · obtain ⟨v, rfl⟩ := exists_pageNo hn
          rw [← himp v, hfree rfl v ((inPage_iff true v virt).1 hn)]
          rfl
        · rw [hpages v]
          simp [SamePage]
      | false =>
        refine ⟨_, .mapLargeFails hl, hkept.tree, fun v => ?_⟩
        rw [hpages v, if_neg (by simp)]
        exact himp v
  | unmap virt =>
    refine ends_mono (htree.find_unmap virt) ?_
    rintro res t' ⟨htree', hpmem', rfl, hpages⟩
    refine ⟨by rw [hpmem']; omega, M.unmapPage virt, ?_, htree', fun v => ?_⟩
    · rw [himp.resolve]
      exact .unmap
    · rw [hpages v, PageMap.unmapPage, ← himp.foundLarge]
      simp only [true_and, inPage_iff]
      split_ifs
      · rfl
      · exact himp v
  | resolve virt =>
    refine ends_mono (htree.find_unmap virt) ?_
    rintro res t' ⟨htree', hpmem', rfl, hpages⟩
    refine ⟨by rw [hpmem']; omega, M, ?_, htree', fun v => ?_⟩
    · rw [himp.resolve]
      exact .resolve
    · rw [hpages v, if_neg (by simp)]
      exact himp v

/-- A page is mapped to a frame other than the first. -/
theorem Implements.resolve_eq_zero (h : Implements t r M) (htree : Tree plain B r t) (v : ℕ) :
    M.resolve v = 0 ↔ M (pageNo v) = none := by
  rw [PageMap.resolve, ← h v]
  rcases hv : leafAt t r v with _ | ⟨large, e⟩
  · simp
  · have hne : entryAddr e ≠ 0 := by
      cases large with
      | true => exact htree.leaf _ _ e (leafAt_large.1 hv)
      | false => exact htree.leaf _ _ e (leafAt_small.1 hv)
    simp [toPage, hne]

/-- **Page tables implement a partial map.**  Every sequence of documented calls returns, with the
results of the partial map of the address space; and then `vmem_resolve` returns for every address
what the partial map says, `0` for the addresses that are not mapped and for no other. -/
theorem vmem_partial_map (B : Boot) (r : ℕ) (s : Vm) (calls : List (Locals × Call))
    (htree : Tree plain B r s.tables) (hm : Emptied s.mapspace)
    (hfree : 4 ≤ (freeSlots s.mapspace).card)
    (hcalls : ∀ c ∈ calls, Unused s.mapspace c.1.pd ∧ Unused s.mapspace c.1.pt ∧ c.2.Documented)
    (hframes : 3 * calls.length ≤ s.tables.pmem.length) :
    ∃ results s' M, runCalls (slots B) r calls s = .ok (results, s') ∧
      Steps PageMap.Step (pageMap s.tables r) (calls.map Prod.snd) results M ∧
      (∀ v, M.resolve v = 0 ↔ M (pageNo v) = none) ∧
      ∀ l v, Unused s.mapspace l.pd → Unused s.mapspace l.pt →
        (vmemResolve (slots B) l r v).value s' = some (M.resolve v) := by
  obtain ⟨results, t', M, hrun, hsteps, htree', himp⟩ := runCalls_ok (B := B) (r := r)
    (fun c l M t hdoc hR hpmem => call_step c l M t hdoc hR hpmem) ⟨hm, hfree⟩ calls hcalls
    (pageMap s.tables r) s.tables ⟨htree, implements_pageMap s.tables r⟩ hframes
  refine ⟨results, ⟨t', s.mapspace⟩, M, hrun, hsteps, himp.resolve_eq_zero htree', ?_⟩
  intro l v hpd hpt
  obtain ⟨res, t'', hres, -, -, rfl, -⟩ := call_slots (c := .resolve v) ⟨hm, hfree⟩ (hpd.spare hm)
    (hpt.spare hm) (htree'.find_unmap v)
  have hrun' : vmemResolve (slots B) l r v ⟨t', s.mapspace⟩ = _ := hres
  rw [value, hrun', himp.resolve]

/-- An empty PML4 in the frame `0x1000`, and frames for twelve tables. -/
def emptyVm : Vm where
  tables := ⟨fun _ _ => 0, (List.range 12).map fun i => (i + 2) * 0x1000, []⟩
  mapspace := fun _ => 0

/-- A small page, a second one next to it, the large page behind, and the first one again. -/
def someCalls : List (Locals × Call) :=
  [(nullLocals, .map 0x800000 0x400000 pgWritable), (nullLocals, .map 0x801000 0x401000 pgUser),
    (nullLocals, .map 0xA00000 0x600000 pgLarge), (nullLocals, .unmap 0x400000)]

theorem someCalls_documented : ∀ c ∈ someCalls, Unused emptyVm.mapspace c.1.pd ∧
    Unused emptyVm.mapspace c.1.pt ∧ c.2.Documented := by
  intro c hc
  simp only [someCalls, mem_cons, not_mem_nil, or_false] at hc
  rcases hc with rfl | rfl | rfl | rfl
  · exact ⟨unused_empty, unused_empty, by decide, by decide, by decide⟩
  · exact ⟨unused_empty, unused_empty, by decide, by decide, by decide⟩
  · exact ⟨unused_empty, unused_empty, by decide, by decide, by decide⟩
  · exact ⟨unused_empty, unused_empty, trivial⟩

theorem vmem_partial_map_empty :
    ∃ results s' M, runCalls (slots (bootFrames 0x101000)) 0x1000 someCalls emptyVm =
        .ok (results, s') ∧
      Steps PageMap.Step (pageMap emptyVm.tables 0x1000) (someCalls.map Prod.snd) results M ∧
      (∀ v, M.resolve v = 0 ↔ M (pageNo v) = none) ∧
      ∀ l v, Unused emptyVm.mapspace l.pd → Unused emptyVm.mapspace l.pt →
        (vmemResolve (slots (bootFrames 0x101000)) l 0x1000 v).value s' = some (M.resolve v) :=
  have hfresh : ∀ g ∈ emptyVm.tables.pmem, g ≠ 0 ∧ pageSize4K ∣ g ∧
      g ≠ (bootFrames 0x101000).ptTemp ∧ g ≠ 0x1000 := by decide
  vmem_partial_map (bootFrames 0x101000) 0x1000 emptyVm someCalls
    (Tree.of_empty (by decide) (by decide) (fun _ _ => rfl)
      (fun g hg => ⟨(hfresh g hg).1, (hfresh g hg).2.1, (hfresh g hg).2.2.1, trivial,
        (hfresh g hg).2.2.2⟩) (by decide))
    (fun _ _ _ => rfl) (by decide) someCalls_documented (by decide)

end Tachyon.Vmem
