import Mathlib.Tactic

/-!
# Trees of tables

A heap of tables `h : F → I → E`: the table in the frame `f` has an entry `h f i` for every index
`i`.  `child d e` is the frame of the table behind the entry `e` of a table at depth `d`, if there is
one.  From a root, a path of indices leads to a table (`node`); the last index of a path is its head.

* `Distinct`: different paths lead to different frames, the tables form a tree;
* `node_keep`: the tree does not change if the tables behind the entries of the tree do not change;
* `node_grow`: a new, empty table behind an entry that had none extends the tree by one path.
-/

namespace Tachyon.Radix

variable {F I E : Type} (child : ℕ → E → Option F) (h : F → I → E) (root : F)

/-- The frame to which a path leads. -/
def node : List I → Option F
  | [] => some root
  | i :: p => (node p).bind fun f => child p.length (h f i)

/-- Different paths lead to different frames. -/
def Distinct : Prop := ∀ p q f, node child h root p = some f → node child h root q = some f → p = q

variable {child h root} {h' : F → I → E} {p q : List I} {i j : I} {f g : F}

theorem node_cons (hf : node child h root p = some f) :
    node child h root (i :: p) = child p.length (h f i) := by
  rw [node, hf]
  rfl

theorem node_cons_eq_some : node child h root (i :: p) = some g ↔
    ∃ f, node child h root p = some f ∧ child p.length (h f i) = some g := by
  rw [node, Option.bind_eq_some_iff]

/-- A path along a table has the table on it. -/
theorem node_eq_none_of_cons (hp : node child h root p = none) :
    node child h root (i :: p) = none := by
  rw [node, hp]
  rfl

theorem node_keep (hkeep : ∀ p f i, node child h root p = some f →
    child p.length (h' f i) = child p.length (h f i)) (p : List I) :
    node child h' root p = node child h root p := by
  induction p with
  | nil => rfl
  | cons i p ih =>
    rw [node, node, ih]
    cases hp : node child h root p with
    | none => rfl
    | some f => exact hkeep p f i hp

/-- The tree with a table in the frame `g` behind the entry `i` of the table in the frame `f`. -/
theorem node_grow [DecidableEq I] (hf : node child h root p = some f)
    (hold : child p.length (h f i) = none) (hnew : child p.length (h' f i) = some g)
    (hempty : ∀ d j, child d (h' g j) = none)
    (hrest : ∀ q x j, node child h root q = some x → (q = p → j ≠ i) →
      child q.length (h' x j) = child q.length (h x j)) (q : List I) :
    node child h' root q = if q = i :: p then some g else node child h root q := by
  induction q with
  | nil => rfl
  | cons j q ih =>
    rw [node, ih]
    by_cases hq : q = i :: p
    · -- the new table is empty, and there was nothing behind its entry before
      subst hq
      have hne : j :: i :: p ≠ i :: p := fun h => by simpa using congrArg List.length h
      rw [if_pos rfl, if_neg hne, node_eq_none_of_cons ((node_cons hf).trans hold)]
      exact hempty _ j
    · rw [if_neg hq]
      by_cases hjq : j :: q = i :: p
      · obtain ⟨rfl, rfl⟩ := List.cons.inj hjq
        rw [if_pos rfl, hf]
        exact hnew
      · rw [if_neg hjq, node]
        cases hx : node child h root q with
        | none => rfl
        | some x => exact hrest q x j hx fun hqp hji => hjq (by rw [hqp, hji])

/-- The larger tree is a tree again if the frame is new. -/
theorem Distinct.grow [DecidableEq I] (hd : Distinct child h root)
    (hfresh : ∀ q, node child h root q ≠ some g)
    (hnode : ∀ q, node child h' root q = if q = i :: p then some g else node child h root q) :
    Distinct child h' root := by
  intro q1 q2 x h1 h2
  rw [hnode] at h1 h2
  split_ifs at h1 h2 with e1 e2 e2
  · rw [e1, e2]
  · cases h1
    exact absurd h2 (hfresh q2)
  · cases h2
    exact absurd h1 (hfresh q1)
  · exact hd q1 q2 x h1 h2

end Tachyon.Radix
