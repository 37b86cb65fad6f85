import Mathlib.Algebra.BigOperators.Group.Finset.Basic
import Mathlib.Algebra.Order.BigOperators.Group.Finset
import Mathlib.Order.Minimal
import Mathlib.Tactic.Common

/-!
# Weighted quorums

Sets of voters weighed by a stake function `w : α → ℕ` inside a universe `U`.

* `weight_inter` — two sets that weigh `a` and `b` overlap in at least `a + b - weight U`.
* `exists_common_of_weight`, `exists_of_weight` — an overlap, or a set, heavier than a set `F`
  contains a voter outside `F`.
* `weight_inter_third` — two sets above two thirds of the weight overlap in more than a third.
* `exists_dictator` — if no set and its complement both weigh more than `m`, less than a third of
  the weight, then the voters but one weigh at most `m`.
* `card_inter_third` — the counting case: two sets larger than two thirds of `n` overlap in more
  than a third of `n`.
-/

set_option autoImplicit false

namespace AccountabilityGadget.Quorum

variable {α : Type*} {w : α → ℕ} {U A B F : Finset α}

/-- Total stake of a set of voters. -/
def weight (w : α → ℕ) (S : Finset α) : ℕ := ∑ i ∈ S, w i

theorem weight_mono (h : A ⊆ B) : weight w A ≤ weight w B :=
  Finset.sum_le_sum_of_subset h

/-- Voters without stake weigh nothing. -/
theorem weight_le_of_support (h : ∀ a ∈ A, w a ≠ 0 → a ∈ B) : weight w A ≤ weight w B :=
  Finset.sum_le_sum_of_ne_zero h

theorem weight_one (S : Finset α) : weight (fun _ => 1) S = S.card := by
  simp [weight]

variable [DecidableEq α]

theorem weight_insert {a : α} (h : a ∉ A) : weight w (insert a A) = w a + weight w A :=
  Finset.sum_insert h

theorem weight_union_add_inter (A B : Finset α) :
    weight w (A ∪ B) + weight w (A ∩ B) = weight w A + weight w B :=
  Finset.sum_union_inter

/-- **Quorum intersection.** -/
theorem weight_inter (hA : A ⊆ U) (hB : B ⊆ U) :
    weight w A + weight w B ≤ weight w U + weight w (A ∩ B) := by
  have hu : weight w (A ∪ B) ≤ weight w U := weight_mono (Finset.union_subset hA hB)
  have hi := weight_union_add_inter (w := w) A B
  omega

/-- An overlap that outweighs `F` contains a voter outside `F`. -/
theorem exists_common_of_weight (hA : A ⊆ U) (hB : B ⊆ U)
    (h : weight w U + weight w (U ∩ F) < weight w A + weight w B) :
    ∃ x ∈ A ∩ B, x ∉ F := by
  by_contra hc
  push Not at hc
  have hsub : A ∩ B ⊆ U ∩ F := fun x hx =>
    Finset.mem_inter.mpr ⟨hA (Finset.mem_inter.mp hx).1, hc x hx⟩
  have := weight_mono (w := w) hsub
  have := weight_inter (w := w) hA hB
  omega

/-- A set that outweighs `F` contains a voter outside `F`. -/
theorem exists_of_weight (hA : A ⊆ U) (h : weight w (U ∩ F) < weight w A) : ∃ x ∈ A, x ∉ F := by
  by_contra hc
  push Not at hc
  have hsub : A ⊆ U ∩ F := fun x hx => Finset.mem_inter.mpr ⟨hA hx, hc x hx⟩
  have := weight_mono (w := w) hsub
  omega

/-- Two sets above two thirds of the weight share more than a third of it. -/
theorem weight_inter_third (hA : A ⊆ U) (hB : B ⊆ U) (ha : 2 * weight w U < 3 * weight w A)
    (hb : 2 * weight w U < 3 * weight w B) : weight w U < 3 * weight w (A ∩ B) := by
  have := weight_inter (w := w) hA hB
  omega

theorem weight_sdiff (hA : A ⊆ U) : weight w (U \ A) + weight w A = weight w U :=
  Finset.sum_sdiff hA

theorem weight_erase {a : α} (ha : a ∈ A) : weight w (A.erase a) + w a = weight w A :=
  Finset.sum_erase_add A w ha

/-- **A voter that decides alone.**  A lightest set above `m` drops to `m` without any of its voters,
so that each of them outweighs `m`. -/
theorem exists_dictator {m : ℕ} (hm : 3 * m < weight w U)
    (h : ∀ A ⊆ U, m < weight w A → weight w (U \ A) ≤ m) : ∃ a ∈ U, weight w (U.erase a) ≤ m := by
  obtain ⟨B, hBU, hmin⟩ :=
    exists_minimal_le_of_wellFoundedLT (fun B => m < weight w B) U (by omega)
  have hB : m < weight w B := hmin.prop
  obtain ⟨a, ha⟩ : B.Nonempty := by
    rw [Finset.nonempty_iff_ne_empty]
    rintro rfl
    exact absurd hB (Nat.not_lt_zero m)
  have hless : weight w (B.erase a) ≤ m := by
    by_contra hc
    have hle := hmin.le_of_le (not_le.mp hc) (Finset.erase_subset a B)
    exact Finset.notMem_erase a B (hle ha)
  have hrest := h B hBU hB
  have hwB := weight_erase (w := w) ha
  have hwU := weight_sdiff (w := w) hBU
  have hsingle : weight w {a} = w a := Finset.sum_singleton w a
  have haU : a ∈ U := hBU ha
  refine ⟨a, haU, ?_⟩
  rw [← Finset.sdiff_singleton_eq_erase]
  exact h {a} (Finset.singleton_subset_iff.mpr haU) (by omega)

/-- Two sets above two thirds of `n` voters share more than a third. -/
theorem card_inter_third {n : ℕ} (hU : U.card ≤ n) (hA : A ⊆ U) (hB : B ⊆ U)
    (ha : 2 * n < 3 * A.card) (hb : 2 * n < 3 * B.card) : n < 3 * (A ∩ B).card := by
  have := weight_inter (w := fun _ => 1) hA hB
  simp only [weight_one] at this
  omega

/-- A set above two thirds and a set of at least one third share a voter. -/
theorem exists_common_third {n : ℕ} (hU : U.card ≤ n) (hA : A ⊆ U) (hB : B ⊆ U)
    (ha : 2 * n < 3 * A.card) (hb : n ≤ 3 * B.card) : ∃ x ∈ A, x ∈ B := by
  have hw := weight_inter (w := fun _ => 1) hA hB
  simp only [weight_one] at hw
  have hpos : 0 < (A ∩ B).card := by omega
  obtain ⟨x, hx⟩ := Finset.card_pos.mp hpos
  exact ⟨x, (Finset.mem_inter.mp hx).1, (Finset.mem_inter.mp hx).2⟩

end AccountabilityGadget.Quorum
