import Tachyon.Vmem.NewSpace

/-!
# Deleted address spaces

`spc_delete` walks through the tables of an address space and frees what it finds.  The walk knows
two tables that are not to be freed, the PDPT of the kernel and the page table of low memory;
everything else it takes for the address space's own.

* `clobberSpc`, `spcDelete`: the source;
* `Clobbered`: what is freed below a path has a label below that path, and nothing is freed twice;
* `Owned`: the tables and pages that the walk finds belong to the address space;
* `Owned.ends_spcDelete`: then `spc_delete` returns, and frees what belongs to the address space.
-/

namespace Tachyon.Vmem

open Prog Option

/-! ### The source -/

section Code

variable {σ : Type} (A : Access σ) (B : Boot) {next : Ptr → Prog Vm Unit}

/-- `vmem_mgmt_clobber_helper` and `vmem_mgmt_clobber_helper_end`, for `n` entries from `i` on.  What
stands between the two is `inner`; it gives `false` for `continue`. -/
def clobberEntries (level : Ptr) (inner : ℕ → ℕ → Prog σ Bool) : ℕ → ℕ → Prog σ Unit
  | 0, _ => pure ()
  | n + 1, i => do
    let e ← A.load level i
    if isPresent e then
      let addr := entryAddr e
      let go ← inner i addr
      if go then
        A.pmemFree addr pageSize4K
        let e ← A.load level i
        A.store level i (andNot e pgPresent)
        clobberEntries level inner n (i + 1)
      else clobberEntries level inner n (i + 1)
    else clobberEntries level inner n (i + 1)

/-- `vmem_mgmt_clobber_helper_chain`. -/
def clobberChain (next : Ptr → Prog σ Unit) (addr : ℕ) : Prog σ Bool := do
  let entry ← A.map addr
  if addr ≠ 0 then
    next entry
    A.unmap entry
    pure true
  else pure true

/-- `vmem_mgmt_clobber_pt`. -/
def clobberPt (pt : Ptr) : Prog σ Unit := clobberEntries A pt (fun _ _ => pure true) 512 0

/-- The low memory of all address spaces is taken out of a page directory. -/
def dropLow (pd : Ptr) : Prog σ Unit := do
  let e ← A.load pd 0
  if entryAddr e = B.ptLow then
    A.store pd 0 0
    A.store pd 1 0
  else pure ()

/-- `vmem_mgmt_clobber_pd`. -/
def clobberPd (pd : Ptr) : Prog σ Unit := do
  dropLow A B pd
  clobberEntries A pd (fun i addr => do
    let e ← A.load pd i
    if isLarge e then
      A.pmemFree (entryAddr e) pageSize2M
      pure true
    else clobberChain A (clobberPt A) addr) 512 0

/-- `vmem_mgmt_clobber_pdpt`. -/
def clobberPdpt (pdpt : Ptr) : Prog σ Unit :=
  clobberEntries A pdpt (fun _ addr => clobberChain A (clobberPd A B) addr) 512 0

/-- `vmem_mgmt_clobber_spc`. -/
def clobberSpc (space : ℕ) : Prog σ Unit := do
  let pml4 ← A.map space
  clobberEntries A pml4 (fun _ addr =>
    if addr = B.kernelPdpt then pure false else clobberChain A (clobberPdpt A B) addr) 512 0
  A.unmap pml4

/-- `spc_delete`. -/
def spcDelete (target : ℕ) : Prog σ Unit := do
  clobberSpc A B target
  A.pmemFree target pageSize4K

end Code

variable {B : Boot} {t t' t₀ t1 t2 : Tables} {m : ℕ → ℕ} {lab : ℕ → Option Label} {E : Halt → Prop}
  {S f i k n x v : ℕ} {p q : List ℕ} {ptr : Ptr}

/-! ### Single accesses through the slots -/

theorem ends_slots_load {Q : ℕ → Vm → Prop} (hp : Maps m ptr) (hslot : ¬ B.isSlot ptr.frame i)
    (h : Q (t.table ptr.frame i) ⟨t, m⟩) : ends ((slots B).load ptr i) Q E ⟨t, m⟩ := by
  refine ends_ok ?_ h
  unfold slots
  simp [hp.isMapped t, hslot]

variable {Q : Unit → Vm → Prop} {e : ℕ}

theorem ends_slots_store (hp : Maps m ptr)
    (hslot : ¬ B.isSlot ptr.frame i) (h : Q () ⟨t.set ptr.frame i e, m⟩) :
    ends ((slots B).store ptr i e) Q E ⟨t, m⟩ := by
  refine ends_ok ?_ h
  unfold slots
  simp [hp.isMapped t, hslot]

theorem ends_slots_map {Q : Ptr → Vm → Prop} (hm : Ready (k + 1) m) (hf : pageSize4K ∣ f)
    (h : ∀ ptr : Ptr, ptr.frame = f → Spare m ptr → Maps (openSlot m ptr) ptr →
      Ready k (openSlot m ptr) → Q ptr ⟨t, openSlot m ptr⟩) :
    ends ((slots B).map f) Q (fun _ => False) ⟨t, m⟩ := by
  have hdirect : ends ((direct B).map f) (fun _ _ => True) (fun _ => False) t :=
    ends_map (fun hn => hn hf) fun _ => trivial
  refine ends_mono (ends_of_rel (map_rel hm) hdirect id) ?_
  rintro ptr _ ⟨_, _, ⟨hframe, -, -, -, -, hspare, hmaps, hready, rfl, -⟩, -⟩
  exact h ptr hframe hspare hmaps hready

theorem ends_slots_unmap (h : Q () ⟨t, closeSlot m ptr⟩) :
    ends ((slots B).unmap ptr) Q (fun _ => False) ⟨t, m⟩ := by
  have hdirect : ends ((direct B).unmap ptr) (fun _ t' => t' = t) (fun _ => False) t :=
    ends_ok rfl rfl
  refine ends_mono (ends_of_rel unmap_rel hdirect id) ?_
  rintro ⟨⟩ _ ⟨_, _, ⟨-, rfl⟩, rfl⟩
  exact h

theorem ends_slots_free {a len : ℕ} (h : Q () ⟨{ t with freed := t.freed ++ [(a, len)] }, m⟩) :
    ends ((slots B).pmemFree a len) Q E ⟨t, m⟩ := ends_ok rfl h

/-! ### What is freed -/

/-- The entries below `n` of the tables at the path `p` of the address space `S` are done: what was
freed has a label behind one of these entries, and no other table has changed. -/
structure Clobbered (lab : ℕ → Option Label) (S : ℕ) (p : List ℕ) (n : ℕ) (t t' : Tables) : Prop where
  freed : ∃ xs : List ℕ, t'.freed = t.freed ++ xs.map (·, pageSize4K) ∧ xs.Nodup ∧
    ∀ x ∈ xs, ∃ q i, i < n ∧ lab x = some (some S, q ++ i :: p)
  other : ∀ {f}, (∀ q i, i < n → lab f ≠ some (some S, q ++ i :: p)) → lab f ≠ some (some S, p) →
    t'.table f = t.table f
  rest : ∀ {f i}, lab f = some (some S, p) → n ≤ i → t'.table f i = t.table f i
  pmem : t'.pmem = t.pmem

theorem path_inj {q' : List ℕ} {j : ℕ} (h : q ++ i :: p = q' ++ j :: p) : i = j := by
  have := (List.append_inj' h rfl).2
  simp only [List.cons.injEq, and_true] at this
  exact this

theorem path_ne (q : List ℕ) (i : ℕ) (p : List ℕ) : p ≠ q ++ i :: p := fun h => by
  have := congrArg List.length h
  simp at this
  omega

theorem Clobbered.start : Clobbered lab S p 0 t t :=
  ⟨⟨[], by simp⟩, fun _ _ => rfl, fun _ _ => rfl, rfl⟩

theorem Clobbered.mono (h : Clobbered lab S p n t t') (hk : n ≤ k) : Clobbered lab S p k t t' := by
  obtain ⟨xs, hfreed, hnodup, hxs⟩ := h.freed
  refine ⟨⟨xs, hfreed, hnodup, fun x hx => ?_⟩, fun hf => h.other fun q i hi => hf q i (by omega),
    fun hf hi => h.rest hf (by omega), h.pmem⟩
  obtain ⟨q, i, hi, hlab⟩ := hxs x hx
  exact ⟨q, i, by omega, hlab⟩

/-- What is behind the next entry is as before. -/
theorem Clobbered.below (h : Clobbered lab S p n t t') (hf : lab f = some (some S, q ++ n :: p)) :
    t'.table f = t.table f := by
  refine h.other (fun q' i hi heq => ?_) fun heq => ?_
  · rw [hf] at heq
    simp only [some.injEq, Prod.mk.injEq, true_and] at heq
    have := path_inj heq
    omega
  · rw [hf] at heq
    simp only [some.injEq, Prod.mk.injEq, true_and] at heq
    exact path_ne q n p heq.symm

/-- The next entry is done when what is behind it is done, and the frame in it is freed. -/
theorem Clobbered.step (h : Clobbered lab S p n t t1) (hf : lab f = some (some S, p))
    (hx : lab x = some (some S, n :: p)) (hinner : Clobbered lab S (n :: p) k t1 t2) :
    Clobbered lab S p (n + 1) t ({ t2 with freed := t2.freed ++ [(x, pageSize4K)] }.set f n e) := by
  obtain ⟨xs, hfreed, hnodup, hxs⟩ := h.freed
  obtain ⟨ys, hfreed', hnodup', hys⟩ := hinner.freed
  refine ⟨⟨xs ++ (ys ++ [x]), ?_, ?_, ?_⟩, fun {g} hg hgp => ?_, fun {g i} hg hi => ?_, ?_⟩
  · show t2.freed ++ [(x, pageSize4K)] = _
    rw [hfreed', hfreed]
    simp
  · -- the labels tell the frames apart
    have hxn : x ∉ ys := fun hmem => by
      obtain ⟨q, i, -, hlab⟩ := hys x hmem
      rw [hx] at hlab
      simp only [some.injEq, Prod.mk.injEq, true_and] at hlab
      exact path_ne q i (n :: p) hlab
    refine List.nodup_append.2 ⟨hnodup, List.nodup_append.2 ⟨hnodup', by simp, ?_⟩, ?_⟩
    · rintro y hy z hz rfl
      rw [List.mem_singleton] at hz
      exact hxn (hz ▸ hy)
    rintro y hy z hz rfl
    obtain ⟨q, i, hi, hlab⟩ := hxs y hy
    have hbehind : ∃ q', lab y = some (some S, q' ++ n :: p) := by
      rcases List.mem_append.1 hz with hz | hz
      · obtain ⟨q', j, -, hlab'⟩ := hys y hz
        exact ⟨q' ++ [j], by simp [hlab']⟩
      · rw [List.mem_singleton.1 hz]
        exact ⟨[], hx⟩
    obtain ⟨q', hlab'⟩ := hbehind
    rw [hlab] at hlab'
    simp only [some.injEq, Prod.mk.injEq, true_and] at hlab'
    have := path_inj hlab'
    omega
  · intro y hy
    simp only [List.mem_append, List.mem_singleton] at hy
    rcases hy with hy | hy | rfl
    · obtain ⟨q, i, hi, hlab⟩ := hxs y hy
      exact ⟨q, i, by omega, hlab⟩
    · obtain ⟨q, i, -, hlab⟩ := hys y hy
      exact ⟨q ++ [i], n, by omega, by simp [hlab]⟩
    · exact ⟨[], n, by omega, hx⟩
  · have hgf : g ≠ f := by
      rintro rfl
      exact hgp hf
    have hsame : t2.table g = t1.table g := by
      refine hinner.other (fun q i _ heq => hg (q ++ [i]) n (by omega) ?_) (hg [] n (by omega))
      rw [heq]
      simp
    funext j
    rw [Tables.table_set, if_neg fun heq => hgf heq.1]
    rw [hsame, h.other (fun q i hi => hg q i (by omega)) hgp]
  · rw [Tables.table_set, if_neg fun heq => by omega]
    rw [hinner.other, h.rest hg (by omega)]
    · intro q j _ heq
      rw [hg] at heq
      exact path_ne (q ++ [j]) n p (by simpa using heq)
    · intro heq
      rw [hg] at heq
      simp only [some.injEq, Prod.mk.injEq, true_and] at heq
      exact path_ne [] n p heq
  · exact hinner.pmem.trans h.pmem

/-! ### The loop over a table -/

/-- **The loop over the entries of a table.** -/
theorem ends_clobberEntries {inner : ℕ → ℕ → Prog Vm Bool} (hmaps : Maps m ptr)
    (hf : lab ptr.frame = some (some S, p)) (hslot : ∀ i, ¬ B.isSlot ptr.frame i)
    (hinner : ∀ i t1, i < 512 → Clobbered lab S p i t t1 →
      isPresent (t.table ptr.frame i) = true →
      ends (inner i (entryAddr (t.table ptr.frame i))) (fun go s' => ∃ t2, s' = ⟨t2, m⟩ ∧
        (go = false ∧ t2 = t1 ∨ go = true ∧
          lab (entryAddr (t.table ptr.frame i)) = some (some S, i :: p) ∧
          Clobbered lab S (i :: p) 512 t1 t2)) E ⟨t1, m⟩) (n i : ℕ) (t1 : Tables)
    (hn : i + n = 512) (h : Clobbered lab S p i t t1) :
    ends (clobberEntries (slots B) ptr inner n i) (fun _ s' => ∃ t', s' = ⟨t', m⟩ ∧
      Clobbered lab S p 512 t t') E ⟨t1, m⟩ := by
  induction n generalizing i t1 with
  | zero =>
    obtain rfl : i = 512 := by omega
    exact ends_pure ⟨t1, rfl, h⟩
  | succ n ih =>
    have hskip : Clobbered lab S p (i + 1) t t1 := h.mono (by omega)
    refine ends_bind (ends_slots_load hmaps (hslot i) ?_)
    rw [h.rest hf le_rfl]
    refine ends_ite (fun hpres => ?_) fun _ => ih (i + 1) t1 (by omega) hskip
    refine ends_seq (hinner i t1 (by omega) h hpres) ?_
    rintro go _ ⟨t2, rfl, ⟨rfl, rfl⟩ | ⟨rfl, hx, hdone⟩⟩
    · exact ih (i + 1) t2 (by omega) hskip
    · refine ends_bind (ends_slots_free (ends_bind (ends_slots_load hmaps (hslot i)
        (ends_bind (ends_slots_store hmaps (hslot i) ?_)))))
      exact ih (i + 1) _ (by omega) (h.step hf hx hdone)

theorem ends_clobberChain {C : Tables → Prop} {addr : ℕ}
    (hm : Ready (k + 1) m) (h0 : addr ≠ 0) (hdvd : pageSize4K ∣ addr)
    (hnext : ∀ (ptr : Ptr) m', ptr.frame = addr → Maps m' ptr → Ready k m' →
      ends (next ptr) (fun _ s' => ∃ t', s' = ⟨t', m'⟩ ∧ C t') (fun _ => False) ⟨t, m'⟩) :
    ends (clobberChain (slots B) next addr) (fun go s' => go = true ∧ ∃ t', s' = ⟨t', m⟩ ∧ C t')
      (fun _ => False) ⟨t, m⟩ := by
  refine ends_bind (ends_slots_map hm hdvd fun ptr hframe hspare hmaps hready => ?_)
  refine ends_ite (fun _ => ?_) fun hn => absurd h0 hn
  refine ends_seq (hnext ptr _ hframe hmaps hready) ?_
  rintro _ _ ⟨t', rfl, hC⟩
  refine ends_bind (ends_slots_unmap (ends_pure ⟨rfl, t', ?_, hC⟩))
  rw [closeSlot_openSlot hspare]

/-! ### The walk -/

/-- The tables that the walk reaches, with their path. -/
inductive Reach (t : Tables) (S : ℕ) : List ℕ → ℕ → Prop
  | root : Reach t S [] S
  | step {p : List ℕ} {f i g : ℕ} (h : Reach t S p f) (hi : i < 512)
      (hchild : child p.length (t.table f i) = some g) : Reach t S (i :: p) g

/-- The address space `S` has the shared tables where they are expected, and all pages in its own
tables are its own. -/
structure Owned (B : Boot) (lab : ℕ → Option Label) (S : ℕ) (t : Tables) : Prop extends
    Rooted B lab t where
  root : lab S = some (some S, [])
  aligned : pageSize4K ∣ S
  kernel : child 0 (t.table S 511) = some B.kernelPdpt
  lowPd : ∀ {f}, Reach t S [0, 0] f → child 2 (t.table f 0) = some B.ptLow
  page : ∀ {p f i}, Reach t S p f → lab f = some (some S, p) → i < 512 →
    Page p.length (t.table f i) →
    (p = [0, 0] ∧ i = 1) ∨ p.length = 3 ∧ lab (entryAddr (t.table f i)) = some (some S, i :: p)
  nonzero : ∀ {f p}, lab f = some (some S, p) → f ≠ 0

/-- The tables at the path `p` and below are those of `t₀`. -/
def Same (lab : ℕ → Option Label) (S : ℕ) (p : List ℕ) (t t₀ : Tables) : Prop :=
  ∀ f q, lab f = some (some S, q ++ p) → t.table f = t₀.table f

section

variable (h : Owned B lab S t₀) (hf : lab f = some (some S, p))
include h hf

/-- A table of the address space behind an entry. -/
theorem Owned.own_child (hx : child p.length (t₀.table f i) = some x)
    (hp : i :: p ≠ [511] ∧ i :: p ≠ [0, 0, 0]) :
    lab x = some (some S, i :: p) := by
  rw [h.toLabelled.next hf hx, Label.next, if_neg (not_or.2 hp)]

theorem Owned.not_isSlot :
    ¬ B.isSlot f i := by
  rintro ⟨rfl, -⟩
  rw [h.slots] at hf
  cases hf

end

theorem Same.cons (h : Same lab S p t t₀) : Same lab S (i :: p) t t₀ := by
  intro f q hf
  refine h f (q ++ [i]) ?_
  rw [hf]
  simp

theorem Same.step (h : Same lab S (i :: p) t t₀) (hc : Clobbered lab S p i t t1) :
    Same lab S (i :: p) t1 t₀ := by
  intro f q hf
  rw [hc.below hf]
  exact h f q hf

/-- `vmem_mgmt_clobber_pt`. -/
theorem Owned.ends_clobberPt (h : Owned B lab S t₀) (hreach : Reach t₀ S p ptr.frame)
    (hp : p.length = 3) (hf : lab ptr.frame = some (some S, p)) (hmaps : Maps m ptr)
    (hsame : Same lab S p t t₀) :
    ends (clobberPt (slots B) ptr) (fun _ s' => ∃ t', s' = ⟨t', m⟩ ∧ Clobbered lab S p 512 t t')
      (fun _ => False) ⟨t, m⟩ := by
  refine ends_clobberEntries hmaps hf (fun _ => h.not_isSlot hf) (fun i t1 hi _ hpres => ?_) 512 0 t
    rfl .start
  refine ends_pure ⟨t1, rfl, .inr ⟨rfl, ?_, Clobbered.start.mono (by omega)⟩⟩
  rw [hsame _ [] hf] at hpres ⊢
  have hpage : Page p.length (t₀.table ptr.frame i) := ⟨hp.le, hpres, by rw [hp, child_three]⟩
  rcases h.page hreach hf hi hpage with ⟨rfl, -⟩ | ⟨-, hlab⟩
  · simp at hp
  · exact hlab

/-- The page table behind an entry of a page directory, or the page directory behind an entry of a
PDPT, and so on. -/
theorem Owned.ends_chain (h : Owned B lab S t₀)
    (hreach : Reach t₀ S p f) (hf : lab f = some (some S, p)) (hi : i < 512)
    (hx : child p.length (t₀.table f i) = some x) (hp : i :: p ≠ [511] ∧ i :: p ≠ [0, 0, 0])
    (hm : Ready (k + 1) m)
    (hnext : ∀ (ptr : Ptr) m', Reach t₀ S (i :: p) ptr.frame →
      lab ptr.frame = some (some S, i :: p) → Maps m' ptr → Ready k m' →
      ends (next ptr) (fun _ s' => ∃ t', s' = ⟨t', m'⟩ ∧ Clobbered lab S (i :: p) 512 t t')
        (fun _ => False) ⟨t, m'⟩) :
    ends (clobberChain (slots B) next x) (fun go s' => ∃ t', s' = ⟨t', m⟩ ∧
      (go = false ∧ t' = t ∨ go = true ∧ lab x = some (some S, i :: p) ∧
        Clobbered lab S (i :: p) 512 t t')) (fun _ => False) ⟨t, m⟩ := by
  have hlab := h.own_child hf hx hp
  have hdvd : pageSize4K ∣ x := by
    obtain ⟨-, rfl⟩ := child_eq_some.1 hx
    exact dvd_entryAddr _
  refine ends_mono (ends_clobberChain hm (h.nonzero hlab) hdvd
    fun ptr m' hframe hmaps hready => hnext ptr m' ?_ ?_ hmaps hready) ?_
  · rw [hframe]
    exact hreach.step hi hx
  · rw [hframe]
    exact hlab
  · rintro go _ ⟨rfl, t', rfl, hC⟩
    exact ⟨t', rfl, .inr ⟨rfl, hlab, hC⟩⟩

/-- Only entries of the table `f` are changed. -/
structure Touched (f : ℕ) (t t' : Tables) : Prop where
  other : ∀ {g}, g ≠ f → t'.table g = t.table g
  rest : ∀ {i}, 512 ≤ i → t'.table f i = t.table f i
  freed : t'.freed = t.freed
  pmem : t'.pmem = t.pmem

section

variable (h : Touched f t t1) (hf : lab f = some (some S, p))
include h hf

theorem Touched.clobbered (hc : Clobbered lab S p 512 t1 t') : Clobbered lab S p 512 t t' := by
  obtain ⟨xs, hfreed, hxs⟩ := hc.freed
  refine ⟨⟨xs, by rw [hfreed, h.freed], hxs⟩, fun {g} hg hgp => ?_, fun {g i} hg hi => ?_, ?_⟩
  · have hgf : g ≠ f := by
      rintro rfl
      exact hgp hf
    rw [hc.other hg hgp, h.other hgf]
  · rw [hc.rest hg hi]
    by_cases hgf : g = f
    · rw [hgf, h.rest hi]
    · rw [h.other hgf]
  · exact hc.pmem.trans h.pmem

theorem Touched.same (hs : Same lab S (i :: p) t t₀) : Same lab S (i :: p) t1 t₀ := by
  intro g q hg
  rw [h.other, hs g q hg]
  rintro rfl
  rw [hf] at hg
  simp only [some.injEq, Prod.mk.injEq, true_and] at hg
  exact path_ne q i p hg

end

section

variable (h : Owned B lab S t₀) (hreach : Reach t₀ S p ptr.frame)
include h hreach

section

variable (hf : lab ptr.frame = some (some S, p)) (hmaps : Maps m ptr)
include hf hmaps

/-- Low memory is not freed. -/
theorem Owned.ends_dropLow (hself : t.table ptr.frame = t₀.table ptr.frame) :
    ends (dropLow (slots B) B ptr) (fun _ s' => ∃ t', s' = ⟨t', m⟩ ∧ Touched ptr.frame t t' ∧
      ∀ i, isPresent (t'.table ptr.frame i) = true →
        t'.table ptr.frame i = t₀.table ptr.frame i ∧ (p = [0, 0] → 1 < i)) E ⟨t, m⟩ := by
  have hslot : ∀ i, ¬ B.isSlot ptr.frame i := fun _ => h.not_isSlot hf
  refine ends_bind (ends_slots_load hmaps (hslot 0) (ends_ite (fun hlow => ?_) fun hlow => ?_))
  · refine ends_bind (ends_slots_store hmaps (hslot 0) (ends_slots_store hmaps (hslot 1) ?_))
    have hrow : ∀ i, (((t.set ptr.frame 0 0).set ptr.frame 1 0).table ptr.frame i) =
        if i ≤ 1 then 0 else t₀.table ptr.frame i := by
      intro i
      rw [Tables.table_set, Tables.table_set, hself]
      split_ifs <;> first | rfl | omega
    refine ⟨_, rfl, ⟨fun {g} hg => ?_, fun {i} hi => ?_, rfl, rfl⟩, fun i hpres => ?_⟩
    · funext j
      rw [Tables.table_set, if_neg fun heq => hg heq.1, Tables.table_set,
        if_neg fun heq => hg heq.1]
    · rw [hrow, if_neg (by omega), hself]
    · rw [hrow] at hpres ⊢
      split_ifs at hpres ⊢ with hi
      · exact absurd hpres (by decide)
      · exact ⟨rfl, fun _ => by omega⟩
  · refine ends_pure ⟨t, rfl, ⟨fun _ => rfl, fun _ => rfl, rfl, rfl⟩, fun i _ => ?_⟩
    refine ⟨by rw [hself], ?_⟩
    rintro rfl
    rw [hself, (child_eq_some.1 (h.lowPd hreach)).2] at hlow
    exact absurd rfl hlow

/-- `vmem_mgmt_clobber_pd`. -/
theorem Owned.ends_clobberPd (hp : p.length = 2) (hm : Ready 1 m) (hsame : Same lab S p t t₀) :
    ends (clobberPd (slots B) B ptr) (fun _ s' => ∃ t', s' = ⟨t', m⟩ ∧
      Clobbered lab S p 512 t t') (fun _ => False) ⟨t, m⟩ := by
  refine ends_seq (h.ends_dropLow hreach hf hmaps (hsame _ [] hf)) ?_
  rintro _ _ ⟨t1, rfl, htouched, hrow⟩
  refine ends_mono (ends_clobberEntries hmaps hf (fun _ => h.not_isSlot hf)
    (fun i t2 hi hc hpres => ?_) 512 0 t1 rfl .start) ?_
  · obtain ⟨hentry, hlow⟩ := hrow i hpres
    refine ends_bind (ends_slots_load hmaps (h.not_isSlot hf) ?_)
    rw [hc.rest hf le_rfl, hentry]
    rw [hentry] at hpres
    refine ends_ite (fun hlarge => ?_) fun hlarge => ?_
    · -- the only large page is that of low memory
      have hpage : Page p.length (t₀.table ptr.frame i) := by
        refine ⟨by omega, hpres, ?_⟩
        rw [hp]
        exact (child_two_eq_none.2 ⟨hpres, hlarge⟩).2
      rcases h.page hreach hf hi hpage with ⟨hnil, rfl⟩ | ⟨hlen, -⟩
      · exact absurd (hlow hnil) (by omega)
      · omega
    · have hchild : child p.length (t₀.table ptr.frame i) = some _ :=
        child_of_present hpres (by omega) fun _ => by simpa using hlarge
      refine h.ends_chain hreach hf hi hchild ⟨?_, ?_⟩ hm
        fun ptr' m' hreach' hf' hmaps' _ => h.ends_clobberPt hreach' (by simp [hp]) hf' hmaps' ?_
      · rintro ⟨⟩
        simp at hp
      · rintro ⟨⟩
        exact absurd (hlow rfl) (by omega)
      · exact (htouched.same hf hsame.cons).step hc
  · rintro _ _ ⟨t', rfl, hc⟩
    exact ⟨t', rfl, htouched.clobbered hf hc⟩

/-- `vmem_mgmt_clobber_pdpt`. -/
theorem Owned.ends_clobberPdpt (hp : p.length = 1) (hm : Ready 2 m) (hsame : Same lab S p t t₀) :
    ends (clobberPdpt (slots B) B ptr) (fun _ s' => ∃ t', s' = ⟨t', m⟩ ∧
      Clobbered lab S p 512 t t') (fun _ => False) ⟨t, m⟩ := by
  refine ends_clobberEntries hmaps hf (fun _ => h.not_isSlot hf) (fun i t1 hi hc hpres => ?_) 512 0
    t rfl .start
  rw [hsame _ [] hf] at hpres ⊢
  have hchild : child p.length (t₀.table ptr.frame i) = some _ := child_upper hpres (by omega)
  refine h.ends_chain hreach hf hi hchild ⟨?_, ?_⟩ hm
    fun ptr' m' hreach' hf' hmaps' hm' => h.ends_clobberPd hreach' hf' hmaps' (by simp [hp]) hm'
      (hsame.cons.step hc)
  · rintro ⟨⟩
    simp at hp
  · rintro ⟨⟩
    simp at hp

end

end

/-- `vmem_mgmt_clobber_spc`. -/
theorem Owned.ends_clobberSpc (h : Owned B lab S t) (hm : Ready 4 m) :
    ends (clobberSpc (slots B) B S) (fun _ s' => ∃ t', s' = ⟨t', m⟩ ∧ Clobbered lab S [] 512 t t')
      (fun _ => False) ⟨t, m⟩ := by
  refine ends_bind (ends_slots_map hm h.aligned fun ptr hframe hspare hmaps hm' => ?_)
  have hf : lab ptr.frame = some (some S, []) := hframe ▸ h.root
  have hreach : Reach t S [] ptr.frame := hframe ▸ .root
  have hsame : Same lab S [] t t := fun _ _ _ => rfl
  refine ends_seq (ends_clobberEntries hmaps hf (fun _ => h.not_isSlot hf)
    (fun i t1 hi hc hpres => ?_) 512 0 t rfl .start) ?_
  · have hchild : child 0 (t.table ptr.frame i) = some _ := child_upper hpres (by omega)
    refine ends_ite (fun _ => ends_pure ⟨t1, rfl, .inl ⟨rfl, rfl⟩⟩) fun hne => ?_
    refine h.ends_chain hreach hf hi hchild ⟨?_, by simp⟩ hm' fun ptr' m' hreach' hf' hmaps' hm'' =>
      h.ends_clobberPdpt hreach' hf' hmaps' rfl hm'' (hsame.cons.step hc)
    rintro ⟨⟩
    rw [hframe] at hne
    exact hne (child_eq_some.1 h.kernel).2
  · rintro _ _ ⟨t', rfl, hc⟩
    refine ends_slots_unmap ⟨t', ?_, hc⟩
    rw [closeSlot_openSlot hspare]

/-- The address space is gone: everything that is freed has its label, nothing is freed twice, and the
tables of the others are as before. -/
structure Deleted (lab : ℕ → Option Label) (S : ℕ) (t t' : Tables) : Prop where
  freed : ∃ xs : List ℕ, t'.freed = t.freed ++ xs.map (·, pageSize4K) ∧ xs.Nodup ∧
    ∀ x ∈ xs, ∃ q, lab x = some (some S, q)
  other : ∀ {f}, (∀ q, lab f ≠ some (some S, q)) → t'.table f = t.table f
  pmem : t'.pmem = t.pmem

/-- **`spc_delete`** returns, and frees what the address space owns. -/
theorem Owned.ends_spcDelete (h : Owned B lab S t) (hm : Ready 4 m) :
    ends (spcDelete (slots B) B S) (fun _ s' => ∃ t', s' = ⟨t', m⟩ ∧ Deleted lab S t t')
      (fun _ => False) ⟨t, m⟩ := by
  refine ends_seq (h.ends_clobberSpc hm) ?_
  rintro _ _ ⟨t', rfl, hc⟩
  obtain ⟨xs, hfreed, hnodup, hxs⟩ := hc.freed
  refine ends_slots_free ⟨_, rfl, ⟨xs ++ [S], ?_, ?_, ?_⟩, fun hf => ?_, hc.pmem⟩
  · show t'.freed ++ _ = _
    rw [hfreed]
    simp
  · refine List.nodup_append.2 ⟨hnodup, by simp, ?_⟩
    rintro y hy z hz rfl
    obtain ⟨q, i, -, hlab⟩ := hxs y hy
    rw [List.mem_singleton.1 hz, h.root] at hlab
    simp at hlab
  · intro y hy
    rcases List.mem_append.1 hy with hy | hy
    · obtain ⟨q, i, -, hlab⟩ := hxs y hy
      exact ⟨_, hlab⟩
    · exact ⟨[], List.mem_singleton.1 hy ▸ h.root⟩
  · exact hc.other (fun q i _ => hf _) (hf _)

end Tachyon.Vmem
