import Mathlib.Data.List.Forall2

/-!
# Lists related element by element

What `List.Forall₂ R` says about the members of two lists, and how two such relations compose.
-/

namespace List.Forall₂

variable {α β γ : Type*} {R : α → β → Prop} {S : β → γ → Prop} {T : α → γ → Prop}
  {l1 : List α} {l2 : List β} {l3 : List γ} {a : α} {b : β}

theorem exists_of_mem_left (h : Forall₂ R l1 l2) (ha : a ∈ l1) : ∃ b ∈ l2, R a b := by
  induction h with
  | nil => cases ha
  | @cons c d _ _ hcd _ ih =>
    rcases mem_cons.1 ha with rfl | ha
    · exact ⟨d, mem_cons_self, hcd⟩
    · obtain ⟨b, hb, hab⟩ := ih ha
      exact ⟨b, mem_cons_of_mem _ hb, hab⟩

theorem exists_of_mem_right (h : Forall₂ R l1 l2) (hb : b ∈ l2) : ∃ a ∈ l1, R a b := by
  have hflip : Forall₂ (fun b a => R a b) l2 l1 := h.flip
  exact hflip.exists_of_mem_left hb

theorem comp (h : Forall₂ R l1 l2) (h' : Forall₂ S l2 l3) (hT : ∀ a b c, R a b → S b c → T a c) :
    Forall₂ T l1 l3 := by
  induction h generalizing l3 with
  | nil =>
    cases h'
    exact .nil
  | cons hab _ ih =>
    cases h' with
    | cons hbc h' => exact .cons (hT _ _ _ hab hbc) (ih h')

end List.Forall₂
