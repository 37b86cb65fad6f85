import Mathlib.Data.List.Induction
import Mathlib.Tactic.Common

/-!
# The last item of a list that passes a test

* `latest` — that item; `latest_eq_some` and `latest_eq_none` say where it stands.
* `latest_concat` — an item that passes replaces the latest one of those before it.
* `Overtaken` — the latest item of one kind is followed by an item of another kind with a different
  key; `latest_or_iff`: exactly then the latest item of the two kinds has a key of its own.
-/

set_option autoImplicit false

namespace AccountabilityGadget.Latest

variable {α β : Type*} {p q : α → Bool} {l : List α} {x y : α}

/-- The last item that passes the test. -/
def latest (p : α → Bool) (l : List α) : Option α := l.reverse.find? p

@[simp] theorem latest_nil (p : α → Bool) : latest p [] = none := rfl

theorem latest_concat (p : α → Bool) (l : List α) (x : α) :
    latest p (l ++ [x]) = if p x then some x else latest p l := by
  rw [latest, List.reverse_concat, List.find?_cons]
  cases p x <;> rfl

theorem latest_eq_none : latest p l = none ↔ ∀ x ∈ l, p x = false := by
  simp [latest, List.find?_eq_none]

theorem latest_eq_some :
    latest p l = some x ↔ p x = true ∧ ∃ l₁ l₂, l = l₁ ++ x :: l₂ ∧ ∀ y ∈ l₂, p y = false := by
  rw [latest, List.find?_eq_some_iff_append]
  constructor
  · rintro ⟨hx, as, bs, hl, has⟩
    refine ⟨hx, bs.reverse, as.reverse, ?_, ?_⟩
    · simpa using congrArg List.reverse hl
    · intro y hy
      simpa using has y (List.mem_reverse.mp hy)
  · rintro ⟨hx, l₁, l₂, rfl, hl₂⟩
    refine ⟨hx, l₂.reverse, l₁.reverse, by simp, ?_⟩
    intro y hy
    simpa using hl₂ y (List.mem_reverse.mp hy)

theorem mem_of_latest (h : latest p l = some x) : x ∈ l :=
  List.mem_reverse.mp (List.mem_of_find?_eq_some h)

theorem test_of_latest (h : latest p l = some x) : p x = true := (latest_eq_some.mp h).1

theorem latest_congr (h : ∀ x ∈ l, p x = q x) : latest p l = latest q l := by
  induction l using List.reverseRecOn with
  | nil => rfl
  | append_singleton l x ih =>
    rw [latest_concat, latest_concat, h x (by simp), ih fun y hy => h y (by simp [hy])]

theorem latest_filter (p q : α → Bool) (l : List α) :
    latest q (l.filter p) = latest (fun x => p x && q x) l := by
  simp [latest, ← List.filter_reverse, List.find?_filter]

/-- The last `q` is followed by a `p`, and the last such has another key. -/
def Overtaken (p q : α → Bool) (key : α → β) (l : List α) : Prop :=
  ∃ l₁ x l₂ y l₃, l = l₁ ++ x :: (l₂ ++ y :: l₃) ∧ q x = true ∧ p y = true ∧
    (∀ z ∈ l₂ ++ y :: l₃, q z = false) ∧ (∀ z ∈ l₃, p z = false) ∧ key y ≠ key x

/-- **The latest item of two kinds has the key of the latest `q` unless that is overtaken.** -/
theorem latest_or_iff {key : α → β} (hx : latest q l = some x) :
    (latest (fun z => p z || q z) l).map key = some (key x) ↔ ¬ Overtaken p q key l := by
  obtain ⟨hq, l₁, l₂, hl, hl₂⟩ := latest_eq_some.mp hx
  constructor
  · rintro h ⟨m₁, x', m₂, y, m₃, hm, hq', hp, hmq, hmp, hne⟩
    have hx' : latest q l = some x' := latest_eq_some.mpr ⟨hq', m₁, m₂ ++ y :: m₃, hm, hmq⟩
    have hy : latest (fun z => p z || q z) l = some y := by
      refine latest_eq_some.mpr ⟨by simp [hp], m₁ ++ x' :: m₂, m₃, by simp [hm], ?_⟩
      intro z hz
      rw [hmp z hz, hmq z (by simp [hz])]
      rfl
    rw [hx, Option.some.injEq] at hx'
    subst hx'
    rw [hy, Option.map_some, Option.some.injEq] at h
    exact hne h
  · intro hno
    cases hp : latest p l₂ with
    | none =>
      have hxl : latest (fun z => p z || q z) l = some x := by
        refine latest_eq_some.mpr ⟨by simp [hq], l₁, l₂, hl, ?_⟩
        intro z hz
        rw [latest_eq_none.mp hp z hz, hl₂ z hz]
        rfl
      rw [hxl]
      rfl
    | some y =>
      obtain ⟨hpy, m₂, m₃, hm, hm₃⟩ := latest_eq_some.mp hp
      have hy : latest (fun z => p z || q z) l = some y := by
        refine latest_eq_some.mpr ⟨by simp [hpy], l₁ ++ x :: m₂, m₃, by simp [hl, hm], ?_⟩
        intro z hz
        rw [hm₃ z hz, hl₂ z (by simp [hm, hz])]
        rfl
      rw [hy, Option.map_some, Option.some.injEq]
      by_contra hne
      subst hm
      exact hno ⟨l₁, x, m₂, y, m₃, hl, hq, hpy, hl₂, hm₃, hne⟩

end AccountabilityGadget.Latest
