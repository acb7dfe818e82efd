import Tachyon.Vmem.Survive

/-!
# Isolation of address spaces

Along the runs of `Config.live` only the owner of a frame has it in a page.

* `Private`: the page that a frame belongs to;
* `Life.page`: the label of a page says where it is mapped;
* `spaces_isolated`: what is mapped outside of the shared tables is registered or private.
-/

namespace Tachyon.Vmem

open Prog Machine List Option

variable {B : Boot} {t : Tables} {lab : ℕ → Option Label} {image : Set ℕ} {S f x v kernel : ℕ}
  {p : List ℕ} {c : Config}

/-- The frame `x` belongs to the page of `v` in `S`: no other page outside of the shared tables has
it, it is no table of any address space, and it is not free. -/
structure Private (kernel : ℕ) (c : Config) (S v x : ℕ) : Prop where
  page : ∀ S' ∈ kernel :: c.spaces, ∀ v', MapsTo c.vm.tables S' v' x →
    Shared v' ∨ S' = S ∧ pageNo v' = pageNo v
  table : ∀ S' ∈ kernel :: c.spaces, ∀ p, ¬ Reach c.vm.tables S' p x
  free : x ∉ c.vm.tables.pmem
  unfreed : Unfreed c.vm.tables x

theorem tableLabel_of_not_shared (h : ¬ Shared v) :
    tableLabel (some S) v = (some S, [idxPd v, idxPdpt v, idxPml4 v]) := by
  simp only [Shared, not_or, List.cons.injEq, and_true] at h
  simp [tableLabel, Label.next, h]

/-- The path to a table is in its label. -/
theorem Labelled.reach (h : Labelled B lab t) (hS : lab S = some (some S, []))
    (hreach : Reach t S p f) : p.length ≤ 3 ∧ ∃ o, lab f = some (o, p) := by
  induction hreach with
  | root => exact ⟨Nat.zero_le 3, _, hS⟩
  | step _ _ hchild ih =>
    obtain ⟨-, o, hf⟩ := ih
    exact ⟨(child_eq_some.1 hchild).1.2.1, _, h.next hf hchild⟩

/-- A page outside of the shared tables has the label of its address, or it is registered. -/
theorem Life.page (h : Life B kernel image lab c) (hS : S ∈ kernel :: c.spaces)
    (hmaps : MapsTo c.vm.tables S v x) (hv : ¬ Shared v) :
    lab x = some (some S, [idxPt v, idxPd v, idxPdpt v, idxPml4 v]) ∨
      ∃ g ∈ c.pending ++ c.globals, g.phys = x := by
  obtain ⟨f1, f2, f3, hway, hpresent, rfl⟩ := hmaps
  have hlabel := h.rooted.way_pt (h.spaces S hS).own hway
  rw [tableLabel_of_not_shared hv] at hlabel
  have hleaf : Page 3 (c.vm.tables.table f3 (idxPt v)) := ⟨le_rfl, hpresent, by simp [child]⟩
  rcases h.pages _ _ _ _ hlabel hleaf with ⟨hlow, -⟩ | ⟨-, hpage⟩
  · simp at hlow
  · exact hpage

/-- **Address spaces are isolated.**  At every point of every run that `LifeMet` allows, a page
outside of the shared tables is registered, or no other page has its frame. -/
theorem spaces_isolated (base : ℕ) (pmem : List ℕ) (image : Set ℕ) (hboot : BootFree base pmem)
    (himage : ImageFree base pmem image) (c : Config)
    (hrun : Runs (Config.live (bootFrames base) (x8664PgPml4 base)) (LifeMet image)
      (bootConfig base pmem) c) :
    ∀ S ∈ x8664PgPml4 base :: c.spaces, ∀ v x, MapsTo c.vm.tables S v x →
      Shared v ∨ (∃ g ∈ c.pending ++ c.globals, g.phys = x) ∨
        Private (x8664PgPml4 base) c S v x := by
  obtain ⟨lab, h⟩ : ∃ lab, Life (bootFrames base) (x8664PgPml4 base) image lab c := by
    refine hrun.inv (P := fun c => ∃ lab, Life _ _ image lab c) ⟨_, hboot.life himage⟩ ?_
    rintro e c c' ⟨lab, h⟩ hmet hnext
    exact h.next hmet hnext
  intro S hS v x hmaps
  refine or_iff_not_imp_left.2 fun hv => or_iff_not_imp_left.2 fun hreg => ?_
  have hx := (h.page hS hmaps hv).resolve_right hreg
  refine ⟨fun S' hS' v' hmaps' => or_iff_not_imp_left.2 fun hv' => ?_, fun S' hS' p hreach => ?_,
    fun hmem => ?_, fun hmem => ?_⟩
  · have hx' := (h.page hS' hmaps' hv').resolve_right hreg
    simp only [hx, some.injEq, Prod.mk.injEq, cons.injEq] at hx'
    obtain ⟨hSS, h1, h2, h3, h4, -⟩ := hx'
    exact ⟨hSS.symm, pageNo_of_idx h4.symm h3.symm h2.symm h1.symm⟩
  · -- the path of a table is shorter than that of a page
    obtain ⟨hp, o, ho⟩ := h.rooted.reach (h.spaces S' hS').own hreach
    rw [hx] at ho
    cases ho
    simp at hp
  · rw [(h.rooted.fresh x hmem).1] at hx
    cases hx
  · obtain ⟨r, hr, rfl⟩ := mem_map.1 hmem
    rw [(h.freed r hr).2.2.2.label] at hx
    cases hx

/-- A new address space, and its first page. -/
theorem spaces_isolated_page :
    let live := Config.live (bootFrames 0x101000) (x8664PgPml4 0x101000)
    ∃ c, Runs live (LifeMet ∅) (bootConfig 0x101000 someFrames) c ∧
      MapsTo c.vm.tables 0x800000 pheapStart 0x803000 ∧
      Private (x8664PgPml4 0x101000) c 0x800000 pheapStart 0x803000 := by
  intro live
  have heval : (exec live (comeAndGo.take 2) (bootConfig 0x101000 someFrames)).any (fun c =>
      let t := c.vm.tables
      0x800000 ∈ c.spaces ∧ child 0 (t.table 0x800000 (idxPml4 pheapStart)) = some 0x801000 ∧
      child 1 (t.table 0x801000 (idxPdpt pheapStart)) = some 0x802000 ∧
      child 2 (t.table 0x802000 (idxPd pheapStart)) = some 0x804000 ∧
      isPresent (t.table 0x804000 (idxPt pheapStart)) = true ∧
      entryAddr (t.table 0x804000 (idxPt pheapStart)) = 0x803000) = true := by
    decide +kernel
  obtain ⟨c, hc, hval⟩ := (any_eq_true _ _).1 heval
  obtain ⟨c1, h1, hc⟩ := bind_eq_some_iff.1 hc
  obtain ⟨c2, h2, hc⟩ := bind_eq_some_iff.1 hc
  obtain rfl : c2 = c := some.inj hc
  obtain ⟨hS, hpdpt, hpd, hpt, hleaf⟩ := of_decide_eq_true hval
  have hwindow : OffWindow pheapStart := by
    unfold OffWindow
    decide
  have hrun : Runs live (LifeMet ∅) (bootConfig 0x101000 someFrames) c2 := by
    refine (Runs.start.step ?_ h1).step ?_ h2
    · exact fun _ => ⟨rfl, rfl⟩
    · exact ⟨rfl, hwindow, by decide, by decide⟩
  have hmaps : MapsTo c2.vm.tables 0x800000 pheapStart 0x803000 :=
    ⟨_, _, _, ⟨hpdpt, hpd, hpt⟩, hleaf⟩
  refine ⟨c2, hrun, hmaps, ?_⟩
  have hshared : ¬ Shared pheapStart := by
    unfold Shared
    decide
  refine ((spaces_isolated 0x101000 someFrames ∅ bootFree_someFrames (by simp [ImageFree]) c2 hrun _
    (mem_cons_of_mem _ hS) _ _ hmaps).resolve_left hshared).resolve_left ?_
  rintro ⟨g, hg, -⟩
  rw [(Config.live_map h2).1, (Config.live_map h2).2, (Config.live_spcNew h1).1,
    (Config.live_spcNew h1).2] at hg
  cases hg

end Tachyon.Vmem
