import Mathlib.Logic.Relation
import Mathlib.Tactic.Common

/-!
# Ancestry along parent pointers

Nodes of an arbitrary type with a partial parent map.

* `Anc parent a b` — `a` is `b` or an ancestor of `b`.
* `Anc.total` — two ancestors of one node are comparable.
* `up parent k b` — `k` parent steps from `b`, stopping at a root.
* `Path parent b l` — `l` is the chain of parents from `b` to a root; `Path.unique`,
  `Path.anc_iff`.
* `Graded` — a set of nodes closed under parents on which a height grows by one along each edge
  and vanishes at the roots; `Graded.antisymm`, `Graded.eq_of_height`, `Graded.height_up`,
  `Graded.height_unique`.
* `Graded.exists_path`, `Graded.height_path` — every node has such a chain, and its height is the
  number of steps along it.
* `Graded.anc_of_height_le` — of two ancestors of one node the lower one is an ancestor of the
  other.
-/

set_option autoImplicit false

namespace AccountabilityGadget.Ancestry

variable {α : Type*} {parent parent' : α → Option α} {a b c p : α}

/-- `a` is `b` or an ancestor of `b`. -/
inductive Anc (parent : α → Option α) (a : α) : α → Prop where
  | refl : Anc parent a a
  | step {b p : α} : parent b = some p → Anc parent a p → Anc parent a b

theorem Anc.trans (hab : Anc parent a b) (hbc : Anc parent b c) : Anc parent a c := by
  induction hbc with
  | refl => exact hab
  | step hp _ ih => exact .step hp ih

theorem Anc.eq_or_parent (h : Anc parent a b) : a = b ∨ ∃ p, parent b = some p ∧ Anc parent a p := by
  cases h with
  | refl => exact .inl rfl
  | step hp h => exact .inr ⟨_, hp, h⟩

/-- The other ancestors of a node are those of its parent. -/
theorem Anc.parent_iff (hne : b ≠ a) (hp : parent b = some p) : Anc parent a p ↔ Anc parent a b := by
  constructor
  · exact .step hp
  · intro h
    rcases h.eq_or_parent with rfl | ⟨q, hq, h⟩
    · exact absurd rfl hne
    · rw [hp, Option.some.injEq] at hq
      exact hq ▸ h

theorem Anc.eq_of_root (hp : parent b = none) (h : Anc parent a b) : b = a := by
  rcases h.eq_or_parent with rfl | ⟨p, hpb, -⟩
  · rfl
  · rw [hp] at hpb
    cases hpb

/-- **Ancestors of one node are comparable.** -/
theorem Anc.total (ha : Anc parent a c) (hb : Anc parent b c) :
    Anc parent a b ∨ Anc parent b a := by
  induction ha with
  | refl => exact .inr hb
  | @step c p hp ha ih =>
    rcases hb.eq_or_parent with rfl | ⟨q, hq, hb⟩
    · exact .inl (.step hp ha)
    · rw [hp, Option.some.injEq] at hq
      exact ih (hq ▸ hb)

/-- Ancestry survives when parents are only added. -/
theorem Anc.mono (hsub : ∀ x y, parent x = some y → parent' x = some y) (h : Anc parent a b) :
    Anc parent' a b := by
  induction h with
  | refl => exact .refl
  | step hp _ ih => exact .step (hsub _ _ hp) ih

/-- `k` parent steps, stopping at a root. -/
def up (parent : α → Option α) : ℕ → α → α
  | 0, b => b
  | k + 1, b =>
    match parent b with
    | none => b
    | some p => up parent k p

theorem up_anc : ∀ (k : ℕ) (b : α), Anc parent (up parent k b) b
  | 0, _ => .refl
  | k + 1, b => by
    rw [up]
    cases h : parent b with
    | none => exact .refl
    | some p => exact .step h (up_anc k p)

/-- `l` lists `b`, its parent, and so on up to a root. -/
inductive Path (parent : α → Option α) : α → List α → Prop where
  | root {b : α} : parent b = none → Path parent b [b]
  | step {b p : α} {l : List α} : parent b = some p → Path parent p l → Path parent b (b :: l)

/-- The nodes of the path are the ancestors. -/
theorem Path.anc_iff {l : List α} (h : Path parent b l) : a ∈ l ↔ Anc parent a b := by
  induction h with
  | root hp =>
    rw [List.mem_singleton]
    constructor
    · rintro rfl
      exact .refl
    · intro ha
      exact (ha.eq_of_root hp).symm
  | @step b p l hp h ih =>
    rw [List.mem_cons, ih]
    constructor
    · rintro (rfl | ha)
      · exact .refl
      · exact .step hp ha
    · intro ha
      rcases ha.eq_or_parent with rfl | ⟨q, hq, ha⟩
      · exact .inl rfl
      · rw [hp, Option.some.injEq] at hq
        exact .inr (hq ▸ ha)

/-- The path ends at a root. -/
theorem Path.getLast {l : List α} (h : Path parent b l) :
    ∃ r, l.getLast? = some r ∧ parent r = none := by
  induction h with
  | root hp => exact ⟨_, rfl, hp⟩
  | step hp h ih =>
    obtain ⟨r, hr, hroot⟩ := ih
    refine ⟨r, ?_, hroot⟩
    rw [List.getLast?_cons, hr, Option.getD_some]

/-- Heights along a set of nodes that is closed under parents. -/
structure Graded (parent : α → Option α) (height : α → ℕ) (S : α → Prop) : Prop where
  closed : ∀ b p, S b → parent b = some p → S p
  height_parent : ∀ b p, S b → parent b = some p → height b = height p + 1
  height_root : ∀ b, S b → parent b = none → height b = 0

namespace Graded

variable {height : α → ℕ} {S : α → Prop} (G : Graded parent height S)

include G

theorem mem_anc (hb : S b) (h : Anc parent a b) : S a := by
  induction h with
  | refl => exact hb
  | step hp _ ih => exact ih (G.closed _ _ hb hp)

theorem height_le (hb : S b) (h : Anc parent a b) : height a ≤ height b := by
  induction h with
  | refl => exact Nat.le_refl _
  | step hp _ ih =>
    have := ih (G.closed _ _ hb hp)
    rw [G.height_parent _ _ hb hp]
    omega

/-- The parent map determines the heights. -/
theorem height_unique {height' : α → ℕ} (G' : Graded parent height' S) {b : α} (hb : S b) :
    height b = height' b := by
  induction hn : height b generalizing b with
  | zero =>
    cases hp : parent b with
    | none => rw [G'.height_root b hb hp]
    | some p =>
      have := G.height_parent b p hb hp
      omega
  | succ n ih =>
    cases hp : parent b with
    | none =>
      have := G.height_root b hb hp
      omega
    | some p =>
      have := G.height_parent b p hb hp
      rw [G'.height_parent b p hb hp, ← ih (G.closed b p hb hp) (by omega)]

/-- An ancestor that is not lower is the node itself. -/
theorem eq_of_height (hb : S b) (h : Anc parent a b) (hh : height b ≤ height a) : a = b := by
  rcases h.eq_or_parent with rfl | ⟨p, hp, h⟩
  · rfl
  · have := G.height_le (G.closed _ _ hb hp) h
    have := G.height_parent _ _ hb hp
    omega

/-- Every node has a path to a root. -/
theorem exists_path (hb : S b) : ∃ l, Path parent b l := by
  induction hn : height b generalizing b with
  | zero =>
    cases hp : parent b with
    | none => exact ⟨_, .root hp⟩
    | some p =>
      have := G.height_parent b p hb hp
      omega
  | succ n ih =>
    cases hp : parent b with
    | none => exact ⟨_, .root hp⟩
    | some p =>
      have := G.height_parent b p hb hp
      obtain ⟨l, hl⟩ := ih (G.closed b p hb hp) (by omega)
      exact ⟨_, .step hp hl⟩

/-- The height is the number of steps along the path. -/
theorem height_path {l : List α} (hb : S b) (h : Path parent b l) :
    l.length = height b + 1 := by
  induction h with
  | root hp => rw [G.height_root _ hb hp]; rfl
  | step hp _ ih =>
    rw [G.height_parent _ _ hb hp, List.length_cons, ih (G.closed _ _ hb hp)]

theorem antisymm (hb : S b) (hab : Anc parent a b) (hba : Anc parent b a) : a = b :=
  G.eq_of_height hb hab (G.height_le (G.mem_anc hb hab) hba)

/-- Of two ancestors of one node the lower one is an ancestor of the other. -/
theorem anc_of_height_le (hc : S c) (ha : Anc parent a c) (hb : Anc parent b c)
    (hh : height a ≤ height b) : Anc parent a b := by
  rcases ha.total hb with h | h
  · exact h
  · rw [G.eq_of_height (G.mem_anc hc ha) h hh]
    exact .refl

theorem height_up (hb : S b) (k : ℕ) : height (up parent k b) = height b - k := by
  induction k generalizing b with
  | zero => rfl
  | succ k ih =>
    rw [up]
    cases h : parent b with
    | none =>
      have := G.height_root b hb h
      simp only
      omega
    | some p =>
      have := G.height_parent b p hb h
      simp only
      rw [ih (G.closed b p hb h)]
      omega

end Graded

end AccountabilityGadget.Ancestry
