import Tachyon.Lib.Relate
import Tachyon.Stka.Model

/-!
# What is in the pages of a stack

A frame that `stka_grow` maps is cleared if the address space of the stack is active.  Otherwise the
page shows what its frame has held before.

* `Exposes`, `Grows`: what growing does to the mappings and to the contents of the frames;
* `stkaAlloc_grows`, `stkaPgflt_grows`;
* `SameBut`: states that differ in the contents of frames only; no function tells them apart
  (`respects_stkaAlloc`, `respects_stkaPgflt`).
-/

namespace Tachyon.Stka

open Prog Function

variable {d : Desc} {s s' s'' : State} {a stk : ℕ}

/-! ### Growing -/

/-- New pages are those of the stack, with frames that were free.  A frame that becomes mapped is
cleared in the own address space, and keeps its contents in any other. -/
structure Exposes (d : Desc) (s s' : State) : Prop where
  maps : ∀ {sp q e}, s.maps sp q = some e → s'.maps sp q = some e
  used : ∀ {f}, s.inUse f = true → s'.inUse f = true ∧ s'.content f = s.content f
  free : ∀ {f}, s'.inUse f = false → s'.content f = s.content f
  new : ∀ {sp q f fl}, s.maps sp q = none → s'.maps sp q = some (f, fl) →
    sp = d.space ∧ fl = d.pgFl ∧ s.inUse f = false ∧ s'.inUse f = true ∧
      s'.content f = if s.cr3 = d.space then fun _ => 0 else s.content f

/-- And the active address space stays the same. -/
structure Grows (d : Desc) (s s' : State) : Prop extends Exposes d s s' where
  cr3 : s'.cr3 = s.cr3
  desc : ∀ a, (s'.allocator a).desc = (s.allocator a).desc

/-- Frames do not become free. -/
theorem Exposes.free_before {f : ℕ} (h : Exposes d s s') (hf : s'.inUse f = false) :
    s.inUse f = false := by
  cases hu : s.inUse f with
  | false => rfl
  | true => exact absurd (h.used hu).1 (by rw [hf]; decide)

section

variable (hmaps : s'.maps = s.maps) (hused : s'.inUse = s.inUse) (hcontent : s'.content = s.content)
include hmaps hused hcontent

/-- Mappings and frames are left alone. -/
theorem Exposes.of_same : Exposes d s s' := by
  refine ⟨fun h => by rwa [hmaps], fun h => ⟨by rwa [hused], by rw [hcontent]⟩,
    fun _ => by rw [hcontent], fun h h' => ?_⟩
  rw [hmaps, h] at h'
  cases h'

theorem Grows.of_same (hcr3 : s'.cr3 = s.cr3)
    (hdesc : ∀ a, (s'.allocator a).desc = (s.allocator a).desc) : Grows d s s' :=
  ⟨.of_same hmaps hused hcontent, hcr3, hdesc⟩

end

theorem Grows.refl (s : State) : Grows d s s := .of_same rfl rfl rfl rfl fun _ => rfl

theorem Grows.trans (h : Grows d s s') (h' : Grows d s' s'') : Grows d s s'' where
  cr3 := h'.cr3.trans h.cr3
  desc a := (h'.desc a).trans (h.desc a)
  maps hm := h'.maps (h.maps hm)
  used hu := ⟨(h'.used (h.used hu).1).1, ((h'.used (h.used hu).1).2).trans (h.used hu).2⟩
  free hf := (h'.free hf).trans (h.free (h'.free_before hf))
  new {sp q f fl} hnone hsome := by
    cases hmid : s'.maps sp q with
    | none =>
      -- the page was mapped by the second part, so the first one left its frame alone
      obtain ⟨hsp, hfl, hfree, hused, hcontent⟩ := h'.new hmid hsome
      refine ⟨hsp, hfl, h.free_before hfree, hused, ?_⟩
      rw [hcontent, h.cr3, h.free hfree]
    | some e =>
      obtain rfl : e = (f, fl) := Option.some.inj ((h'.maps hmid).symm.trans hsome)
      obtain ⟨hsp, hfl, hfree, hused, hcontent⟩ := h.new hnone hmid
      exact ⟨hsp, hfl, hfree, (h'.used hused).1, (h'.used hused).2.trans hcontent⟩

theorem registerPage_same (phys i : ℕ) :
    wlp (registerPage d phys i) (fun _ s' => s' = { s with globals := s'.globals }) s := by
  refine wlp_ite (fun _ => ?_) fun _ => wlp_pure rfl
  rintro _ _ ⟨⟩
  rfl

/-- The frame of a page of the stack is cleared in the own address space. -/
theorem clearPage_content {i f fl : ℕ} (hpage : s.maps d.space (i / stkPagesize) = some (f, fl)) :
    wlp (clearPage d i) (fun _ s' => s' = { s with
      content := if s.cr3 = d.space then update s.content f fun _ => 0 else s.content })
      s := by
  refine wlp_get_bind (wlp_ite (fun hcr3 => ?_) fun hcr3 => wlp_pure ?_)
  · intro _ s' h
    have hactive : s.maps s.cr3 (i / stkPagesize) = some (f, fl) := by rw [hcr3, hpage]
    unfold memset at h
    rw [hactive] at h
    split_ifs at h
    cases h
    rw [if_pos hcr3]
  · rw [if_neg hcr3]

/-- A frame that is taken and not mapped. -/
theorem grows_taken {f : ℕ} {fs : List ℕ} :
    Grows d s { s with frames := fs, inUse := update s.inUse f true } := by
  refine ⟨⟨id, fun {g} hg => ⟨?_, rfl⟩, fun _ => rfl, fun h h' => ?_⟩, rfl, fun _ => rfl⟩
  · by_cases hgf : g = f
    · subst hgf
      exact update_self _ _ _
    · exact (update_of_ne hgf _ _).trans hg
  · rw [h] at h'
    cases h'

/-- A page with a frame that was in use by nobody. -/
theorem grows_mapped {q f : ℕ} (hpage : s.maps d.space q = none) (hfree : s.inUse f = false)
    (hmaps : s'.maps = update s.maps d.space
      (update (s.maps d.space) q (some (f, d.pgFl))))
    (hused : s'.inUse = update s.inUse f true)
    (hcontent : s'.content = if s.cr3 = d.space then update s.content f fun _ => 0
      else s.content)
    (hcr3 : s'.cr3 = s.cr3) (hdesc : ∀ a, (s'.allocator a).desc = (s.allocator a).desc) :
    Grows d s s' := by
  have hother : ∀ {g}, g ≠ f → s'.content g = s.content g := by
    intro g hg
    rw [hcontent]
    split_ifs
    · exact update_of_ne hg _ _
    · rfl
  refine ⟨⟨?_, ?_, ?_, ?_⟩, hcr3, hdesc⟩
  · intro sp q' e hm
    rw [hmaps]
    by_cases hsp : sp = d.space
    · subst hsp
      rw [update_self, update_of_ne]
      · exact hm
      · rintro rfl
        cases hpage.symm.trans hm
    · rw [update_of_ne hsp]
      exact hm
  · intro g hg
    have hne : g ≠ f := by
      rintro rfl
      cases hg.symm.trans hfree
    rw [hused, update_of_ne hne]
    exact ⟨hg, hother hne⟩
  · intro g hg
    refine hother ?_
    rintro rfl
    rw [hused, update_self] at hg
    cases hg
  · intro sp q' g fl hnone hsome
    rw [hmaps] at hsome
    rcases entry_update hsome with ⟨hsp, -, hnew⟩ | ⟨-, hold⟩
    · cases hnew
      refine ⟨hsp, rfl, hfree, by rw [hused, update_self], ?_⟩
      rw [hcontent]
      split_ifs
      · exact update_self _ _ _
      · rfl
    · cases hnone.symm.trans hold

theorem growPage_grows (i : ℕ) : wlp (growPage d i) (fun _ s' => Grows d s s') s := by
  refine wlp_bind fun f s1 hf => ?_
  obtain ⟨hfree, fs, rfl⟩ := pmemAlloc_spec f s1 hf
  refine wlp_bind fun ok s2 hmap => ?_
  unfold vmemMap at hmap
  cases hpage : s.maps d.space (i / stkPagesize) with
  | some e =>
    rw [hpage] at hmap
    cases hmap
    exact wlp_ite (fun h => by cases h) fun _ => wlp_pure grows_taken
  | none =>
    rw [hpage] at hmap
    cases hmap
    refine wlp_bind fun _ s3 hreg => wlp_bind fun _ s4 hclear => wlp_pure ?_
    have hs3 := registerPage_same _ _ _ _ hreg
    have hentry : s3.maps d.space (i / stkPagesize) = some (f, d.pgFl) := by
      rw [hs3]
      simp [State.setPage]
    have hs4 := clearPage_content hentry _ _ hclear
    have hcr3 : s3.cr3 = s.cr3 := by rw [hs3]; rfl
    have hcontent : s3.content = s.content := by rw [hs3]; rfl
    refine grows_mapped hpage hfree ?_ ?_ ?_ ?_ fun a => ?_
    · rw [hs4, hs3]
      rfl
    · rw [hs4, hs3]
      rfl
    · rw [hs4, ← hcr3, ← hcontent]
    · rw [hs4]
      exact hcr3
    · rw [hs4, hs3]
      rfl

theorem growPages_grows (mapped n i : ℕ) (s : State) :
    wlp (growPages d mapped n i) (fun _ s' => Grows d s s') s := by
  induction n generalizing i s with
  | zero => exact wlp_pure (.refl s)
  | succ n ih =>
    refine wlp_ite (fun _ => ?_) fun _ => wlp_pure (.refl s)
    refine wlp_bind fun ok s1 hpage => ?_
    have hgrows := growPage_grows i ok s1 hpage
    exact wlp_ite (fun _ => wlp_mono (ih _ s1) fun _ _ h => hgrows.trans h) fun _ => wlp_pure hgrows

theorem loadStack_spec : wlp (loadStack stk) (fun st s' => s.stack stk = some st ∧ s' = s) s := by
  intro st s' h
  unfold loadStack at h
  split at h
  · cases h
  · cases h
    exact ⟨‹_›, rfl⟩

theorem stkaGrow_grows (amount : ℕ) (hd : (s.allocator a).desc = d) :
    wlp (stkaGrow a stk amount) (fun _ s' => Grows d s s') s := by
  refine wlp_ite (fun _ => wlp_pure (.refl s)) fun _ => wlp_bind fun st s1 hload => ?_
  obtain ⟨-, rfl⟩ := loadStack_spec st s1 hload
  refine wlp_ite (fun _ => wlp_pure (.refl s1)) fun _ => wlp_get_bind (wlp_bind fun ok s2 hgrow => ?_)
  rw [hd] at hgrow
  have hgrows := growPages_grows _ _ _ s1 ok s2 hgrow
  refine wlp_ite (fun _ => wlp_modify_bind (wlp_pure ?_)) fun _ => wlp_pure hgrows
  exact hgrows.trans (.of_same rfl rfl rfl rfl fun _ => rfl)

theorem desc_setAllocator (s : State) (a : ℕ) {f : Allocator → Allocator}
    (hf : ∀ al, (f al).desc = al.desc) (b : ℕ) :
    ((s.setAllocator a f).allocator b).desc = (s.allocator b).desc := by
  unfold State.setAllocator
  by_cases hb : b = a
  · subst hb
    simp [hf]
  · simp [hb]

/-- A change of an allocator, but not of its description. -/
theorem grows_setAllocator {f : Allocator → Allocator} (hf : ∀ al, (f al).desc = al.desc) :
    Grows d s (s.setAllocator a f) :=
  .of_same rfl rfl rfl rfl (desc_setAllocator s a hf)

theorem grows_lock (b : Bool) : Grows d s ((lock a).put b s) :=
  grows_setAllocator (f := fun al => { al with locked := b }) fun _ => rfl

theorem stkaAlloc_grows (hd : (s.allocator a).desc = d) :
    wlp (stkaAlloc a stk) (fun _ s' => Grows d s s') s := by
  refine wlp_bind fun _ s1 hlock => ?_
  have hs1 : Grows d s s1 := by
    unfold Lock.acquire at hlock
    split_ifs at hlock
    cases hlock
    exact grows_lock true
  refine wlp_get_bind (wlp_ite (fun _ => wlp_pure hs1) fun _ => wlp_bind fun _ s2 hnew => ?_)
  have hs2 : Grows d s1 s2 := by
    unfold newStack at hnew
    split_ifs at hnew
    cases hnew
    exact .of_same rfl rfl rfl rfl fun _ => rfl
  refine wlp_bind fun ok s3 hgrow => ?_
  have hs3 := stkaGrow_grows _ (((hs1.trans hs2).desc a).trans hd) ok s3 hgrow
  refine wlp_modify_bind (wlp_modify_bind (wlp_pure ?_))
  refine ((hs1.trans hs2).trans hs3).trans (.trans (grows_setAllocator ?_) (grows_lock false))
  exact fun _ => rfl

theorem stkaPgflt_grows (fault : ℕ) (hd : (s.allocator a).desc = d) :
    wlp (stkaPgflt a stk fault) (fun _ s' => Grows d s s') s := by
  refine wlp_bind fun st s1 hload => ?_
  obtain ⟨-, rfl⟩ := loadStack_spec st s1 hload
  exact wlp_ite (fun _ => wlp_pure (.refl s1)) fun _ => stkaGrow_grows _ hd

/-! ### Contents do not matter -/

/-- The states differ at most in the contents of the frames. -/
def SameBut (s t : State) : Prop := s = { t with content := s.content }

/-- A change of the state that neither reads nor writes contents. -/
theorem respects_modify {f : State → State}
    (h : ∀ t κ, f { t with content := κ } = { f t with content := κ }) :
    Respects SameBut (modify f) := by
  refine .modify fun s t hst => ?_
  rw [hst, h]
  rfl

theorem respects_pmemAlloc : Respects SameBut pmemAlloc := by
  intro s t hst f t' h
  rw [hst]
  unfold pmemAlloc at h ⊢
  split at h
  · cases h
  · split_ifs at h with hused
    cases h
    simp only [*]
    exact ⟨_, rfl, rfl⟩

theorem respects_vmemMap (space phys virt flags : ℕ) :
    Respects SameBut (vmemMap space phys virt flags) := by
  intro s t hst f t' h
  rw [hst]
  unfold vmemMap at h ⊢
  cases hpage : t.maps space (virt / stkPagesize) with
  | none =>
    rw [hpage] at h
    cases h
    exact ⟨_, rfl, rfl⟩
  | some e =>
    rw [hpage] at h
    cases h
    exact ⟨_, rfl, rfl⟩

theorem respects_memset (virt : ℕ) : Respects SameBut (memset virt) := by
  intro s t hst f t' h
  rw [hst]
  unfold memset at h ⊢
  split_ifs at h ⊢ with haligned
  cases hpage : t.maps t.cr3 (virt / stkPagesize) with
  | none =>
    rw [hpage] at h
    cases h
  | some e =>
    rw [hpage] at h
    cases h
    exact ⟨_, rfl, rfl⟩

theorem respects_loadStack (stk : ℕ) : Respects SameBut (loadStack stk) := by
  intro s t hst st t' h
  obtain ⟨hstack, rfl⟩ := loadStack_spec st t' h
  refine ⟨s, ?_, hst⟩
  have hstack' : s.stack stk = some st := by rw [hst]; exact hstack
  rw [loadStack, hstack']

theorem respects_growPage (i : ℕ) : Respects SameBut (growPage d i) := by
  refine .bind respects_pmemAlloc fun f => .bind (respects_vmemMap _ _ _ _) fun ok => ?_
  refine .ite (.bind (.ite (respects_modify fun _ _ => rfl) (.pure ())) fun _ => ?_) (.pure false)
  refine .bind (.get_bind (fun s t hst => ?_) fun s => ?_) fun _ => .pure true
  · rw [hst]
  · exact .ite (respects_memset i) (.pure ())

theorem respects_growPages (mapped n i : ℕ) : Respects SameBut (growPages d mapped n i) := by
  induction n generalizing i with
  | zero => exact .pure true
  | succ n ih =>
    exact .ite (.bind (respects_growPage i) fun ok => .ite (ih _) (.pure false)) (.pure true)

theorem respects_stkaGrow (a stk amount : ℕ) : Respects SameBut (stkaGrow a stk amount) := by
  refine .ite (.pure false) (.bind (respects_loadStack stk) fun st => .ite (.pure false) ?_)
  refine .get_bind (fun s t hst => ?_) fun s => .bind (respects_growPages _ _ _) fun ok => ?_
  · rw [hst]
  · exact .ite (.bind (respects_modify fun _ _ => rfl) fun _ => .pure true) (.pure false)

theorem respects_newStack (stk : ℕ) (st : Stack) : Respects SameBut (newStack stk st) := by
  intro s t hst u t' h
  rw [hst]
  unfold newStack at h ⊢
  split_ifs at h ⊢
  cases h
  exact ⟨_, rfl, rfl⟩

theorem respects_acquire (a : ℕ) : Respects SameBut (lock a).acquire := by
  intro s t hst u t' h
  rw [hst]
  change (if (lock a).held t then _ else _) = _ at h
  change ∃ s', (if (lock a).held t then _ else _) = _ ∧ _
  split_ifs at h ⊢
  cases h
  exact ⟨_, rfl, rfl⟩

theorem respects_stkaAlloc (a stk : ℕ) : Respects SameBut (stkaAlloc a stk) := by
  refine .bind (respects_acquire a) fun _ => .get_bind (fun s t hst => ?_) fun s => ?_
  · rw [hst]
  · refine .ite (.pure 0) (.bind (respects_newStack _ _) fun _ => ?_)
    refine .bind (respects_stkaGrow _ _ _) fun _ => .bind (respects_modify fun _ _ => rfl) fun _ => ?_
    exact .bind (respects_modify fun _ _ => rfl) fun _ => .pure stk

theorem respects_stkaPgflt (a stk fault : ℕ) : Respects SameBut (stkaPgflt a stk fault) :=
  .bind (respects_loadStack stk) fun _ => .ite (.pure false) (respects_stkaGrow _ _ _)

end Tachyon.Stka
