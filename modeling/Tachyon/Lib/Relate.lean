import Tachyon.Lib.Prog

/-!
# Relating two programs

`Rel p q Φ s t`: the program `p` from `s` does what the program `q` does from `t`.  If `q` returns,
so does `p`, with a result related by `Φ`; if `q` halts, `p` halts in the same way.  Where `q` is
`undefined` nothing is asked of `p`.

The rules follow the shape of the two programs, which is the same on both sides.

`Respects R p`: the program `p` does not look at what tells states related by `R` apart.
-/

namespace Tachyon.Prog

variable {σ τ α β γ δ : Type} {f : α → Prog σ γ}

/-- The program `p` does from `s` what `q` does from `t`. -/
def Rel (p : Prog σ α) (q : Prog τ β) (Φ : α → σ → β → τ → Prop) (s : σ) (t : τ) : Prop :=
  (∀ b t', q t = .ok (b, t') → ∃ a s', p s = .ok (a, s') ∧ Φ a s' b t') ∧
    ∀ e, q t = .error e → e ≠ .undefined → p s = .error e

variable {p : Prog σ α} {q : Prog τ β} {Φ Ψ : α → σ → β → τ → Prop} {s : σ} {t : τ}

variable {a : α} {b : β} {Q : β → τ → Prop} {E : Halt → Prop} {c : Prop}

theorem rel_pure (h : Φ a s b t) : Rel (pure a) (pure b) Φ s t := by
  refine ⟨?_, fun e he => (by cases he)⟩
  rintro b t' ⟨⟩
  exact ⟨a, s, rfl, h⟩

theorem rel_halt {e : Halt} : Rel (halt e : Prog σ α) (halt e : Prog τ β) Φ s t := by
  refine ⟨fun b t' h => (by cases h), ?_⟩
  rintro e' ⟨⟩ -
  rfl

theorem rel_undefined (h : q t = .error .undefined) : Rel p q Φ s t := by
  refine ⟨fun b t' hq => ?_, fun e he hne => ?_⟩
  · rw [h] at hq
    cases hq
  · rw [h] at he
    cases he
    exact absurd rfl hne

/-- Single steps that return. -/
theorem rel_ok {u : σ} {v : τ} (hp : p s = .ok (a, u)) (hq : q t = .ok (b, v))
    (h : Φ a u b v) : Rel p q Φ s t := by
  refine ⟨fun b1 t1 h1 => ?_, fun e he => by rw [hq] at he; cases he⟩
  rw [hq] at h1
  cases h1
  exact ⟨a, u, hp, h⟩

section

variable (h : Rel p q Φ s t)
include h

theorem rel_mono (hΦ : ∀ a s' b t', Φ a s' b t' → Ψ a s' b t') : Rel p q Ψ s t := by
  refine ⟨fun b t' hq => ?_, h.2⟩
  obtain ⟨a, s', hp, hr⟩ := h.1 b t' hq
  exact ⟨a, s', hp, hΦ _ _ _ _ hr⟩

/-- What is known about `q` holds for `p`, unless `q` is undefined. -/
theorem ends_of_rel (hq : ends q Q E t) (hE : ¬ E .undefined) :
    ends p (fun a s' => ∃ b t', Φ a s' b t' ∧ Q b t') E s := by
  cases hrun : q t with
  | ok r =>
    obtain ⟨a, s', hp, hΦ⟩ := h.1 r.1 r.2 hrun
    exact ends_ok hp ⟨r.1, r.2, hΦ, hq.1 r.1 r.2 hrun⟩
  | error e =>
    have he := hq.2 e hrun
    exact ends_error (h.2 e hrun fun heq => hE (heq ▸ he)) he

theorem wlp_of_rel (hq : ends q Q E t) (hE : ¬ E .undefined) :
    wlp p (fun a s' => ∃ b t', Φ a s' b t' ∧ Q b t') s :=
  (ends_of_rel h hq hE).1

/-- What is known about the results of `q`. -/
theorem rel_wlp {Θ : β → τ → Prop} (hq : wlp q Θ t) :
    Rel p q (fun a s' b t' => Φ a s' b t' ∧ Θ b t') s t := by
  refine ⟨fun b t' hb => ?_, h.2⟩
  obtain ⟨a, s', hp, hΦ⟩ := h.1 b t' hb
  exact ⟨a, s', hp, hΦ, hq b t' hb⟩

end

theorem rel_bind {g : β → Prog τ δ} {Φ : γ → σ → δ → τ → Prop}
    (h : Rel p q (fun a s' b t' => Rel (f a) (g b) Φ s' t') s t) :
    Rel (p >>= f) (q >>= g) Φ s t := by
  refine ⟨fun d t' hd => ?_, fun e he hne => ?_⟩
  · obtain ⟨b, t1, hq, hg⟩ := bind_eq_ok.1 hd
    obtain ⟨a, s1, hp, hr⟩ := h.1 b t1 hq
    obtain ⟨c, s', hf, hΦ⟩ := hr.1 d t' hg
    exact ⟨c, s', by rw [run_ok hp, hf], hΦ⟩
  · cases hq : q t with
    | error e' =>
      rw [run_error hq] at he
      cases he
      exact run_error (h.2 _ hq hne)
    | ok r =>
      obtain ⟨b, t1⟩ := r
      obtain ⟨a, s1, hp, hr⟩ := h.1 b t1 hq
      rw [run_ok hq] at he
      rw [run_ok hp]
      exact hr.2 e he hne

theorem rel_seq {g : β → Prog τ δ} {Ψ : γ → σ → δ → τ → Prop}
    (h : Rel p q Φ s t) (hf : ∀ a s' b t', Φ a s' b t' → Rel (f a) (g b) Ψ s' t') :
    Rel (p >>= f) (q >>= g) Ψ s t :=
  rel_bind (rel_mono h hf)

/-- A step with one value, behind which the one state is a function of the other. -/
theorem rel_step {q : Prog τ α} {g : α → Prog τ δ} {F : τ → σ}
    {Ψ : γ → σ → δ → τ → Prop} (h : Rel p q (fun a s' b t' => a = b ∧ s' = F t') s t)
    (hf : ∀ a t', Rel (f a) (g a) Ψ (F t') t') : Rel (p >>= f) (q >>= g) Ψ s t := by
  refine rel_seq h ?_
  rintro a _ _ t' ⟨rfl, rfl⟩
  exact hf a t'

theorem rel_ite [Decidable c] {p' : Prog σ α} {q' : Prog τ β}
    (ht : c → Rel p q Φ s t) (hf : ¬ c → Rel p' q' Φ s t) :
    Rel (if c then p else p') (if c then q else q') Φ s t := by
  split_ifs with h
  · exact ht h
  · exact hf h

/-! ### Programs that do not look at a part of the state -/

section Respects

variable {R : σ → σ → Prop}

/-- From related states the program returns the same value, and leaves related states. -/
def Respects (R : σ → σ → Prop) (p : Prog σ α) : Prop :=
  ∀ ⦃s t : σ⦄, R s t → ∀ ⦃a : α⦄ ⦃t' : σ⦄, p t = .ok (a, t') → ∃ s', p s = .ok (a, s') ∧ R s' t'

theorem Respects.pure (a : α) : Respects R (pure a) := by
  rintro s t hR _ _ ⟨⟩
  exact ⟨s, rfl, hR⟩

theorem Respects.halt (e : Halt) : Respects R (halt e : Prog σ α) := by
  rintro s t hR _ _ ⟨⟩

theorem Respects.bind {f : α → Prog σ β} (hp : Respects R p)
    (hf : ∀ a, Respects R (f a)) : Respects R (p >>= f) := by
  intro s t hR b t' hb
  obtain ⟨a, t1, ha, hb⟩ := bind_eq_ok.1 hb
  obtain ⟨s1, hs1, hR1⟩ := hp hR ha
  obtain ⟨s', hs', hR'⟩ := hf a hR1 hb
  exact ⟨s', by rw [run_ok hs1, hs'], hR'⟩

theorem Respects.ite [Decidable c] {q : Prog σ α} (hp : Respects R p)
    (hq : Respects R q) : Respects R (if c then p else q) := by
  split_ifs
  · exact hp
  · exact hq

theorem Respects.modify {f : σ → σ} (h : ∀ s t, R s t → R (f s) (f t)) :
    Respects R (modify f) := by
  rintro s t hR _ _ ⟨⟩
  exact ⟨f s, rfl, h s t hR⟩

/-- A reading of the state that is the same in related states. -/
theorem Respects.get_bind {k : σ → Prog σ β} (heq : ∀ s t, R s t → k s = k t)
    (hk : ∀ s, Respects R (k s)) : Respects R (get >>= k) := by
  intro s t hR b t' hb
  obtain ⟨s', hs', hR'⟩ := hk t hR hb
  refine ⟨s', ?_, hR'⟩
  rw [run_get_bind, heq s t hR]
  exact hs'

theorem Respects.zoom {Q : τ → τ → Prop} {part : σ → τ} {put : τ → σ → σ} {p : Prog τ α}
    (hp : Respects Q p) (hpart : ∀ s t, R s t → Q (part s) (part t))
    (hput : ∀ s t x y, R s t → Q x y → R (put x s) (put y t)) : Respects R (zoom part put p) := by
  intro s t hR a t' h
  unfold Prog.zoom at h
  cases hrun : p (part t) with
  | error e =>
    rw [hrun] at h
    cases h
  | ok r =>
    rw [hrun] at h
    cases h
    obtain ⟨x, hx, hQ⟩ := hp (hpart s t hR) hrun
    exact ⟨put x s, by rw [Prog.zoom, hx], hput s t _ _ hR hQ⟩

end Respects

end Tachyon.Prog
