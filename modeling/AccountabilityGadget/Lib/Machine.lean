import Mathlib.Data.List.Basic
import Mathlib.Logic.Relation
import Mathlib.Tactic.Common

/-!
# Labelled transition systems and their invariants

* `Machine σ ι` — an initial condition and a labelled step relation.
* `Machine.Reachable` — the states of all finite runs.
* `Machine.invariant` — a predicate that holds initially and is preserved by every step holds
  of every reachable state.
* `Machine.Reachable.project` — the runs of a component of a larger machine.
* `Machine.restrict` — the sub-machine whose steps all meet a side condition on the state
  before the step and its label.
* `Machine.within` — the runs all of whose states satisfy a predicate.
* `Machine.Leads` — one state comes after another in a run.
* `Machine.ofStep` — the machine of a partial step function (`none`: the step is not enabled);
  `Machine.exec` and `Machine.execIf` run it on a schedule.
* `Machine.record` — a step function that also keeps what its steps put out.
-/

set_option autoImplicit false

namespace AccountabilityGadget

/-- A labelled transition system. -/
structure Machine (σ ι : Type*) where
  init : σ → Prop
  step : σ → ι → σ → Prop

namespace Machine

variable {σ ι : Type*} {M : Machine σ ι}

/-- States reached by finite runs. -/
inductive Reachable (M : Machine σ ι) : σ → Prop where
  | init {s : σ} : M.init s → Reachable M s
  | step {s t : σ} {i : ι} : Reachable M s → M.step s i t → Reachable M t

/-- **Invariant rule.** -/
theorem invariant {P : σ → Prop} (h0 : ∀ s, M.init s → P s)
    (hs : ∀ s i t, P s → M.step s i t → P t) {s : σ} (h : M.Reachable s) : P s := by
  induction h with
  | init h => exact h0 _ h
  | step _ hst ih => exact hs _ _ _ ih hst

/-- The states of the runs of a machine with fewer steps. -/
theorem Reachable.mono {N : Machine σ ι} (h0 : ∀ s, M.init s → N.init s)
    (hs : ∀ s i t, M.step s i t → N.step s i t) {s : σ} (h : M.Reachable s) : N.Reachable s := by
  induction h with
  | init h => exact .init (h0 _ h)
  | step _ hst ih => exact ih.step (hs _ _ _ hst)

/-- **Projection rule.**  Every step is one of the other machine on the projections, or leaves the
projection as it is. -/
theorem Reachable.project {σ' ι' : Type*} {N : Machine σ' ι'} {f : σ → σ'}
    (h0 : ∀ s, M.init s → N.init (f s))
    (hs : ∀ s i t, M.Reachable s → M.step s i t → f t = f s ∨ ∃ j, N.step (f s) j (f t)) {s : σ}
    (h : M.Reachable s) : N.Reachable (f s) := by
  induction h with
  | init h => exact .init (h0 _ h)
  | step hr hst ih =>
    rcases hs _ _ _ hr hst with he | ⟨j, hj⟩
    · exact he ▸ ih
    · exact ih.step hj

/-- The runs of `M` whose steps all satisfy `C`. -/
def restrict (M : Machine σ ι) (C : σ → ι → Prop) : Machine σ ι :=
  ⟨M.init, fun s i t => C s i ∧ M.step s i t⟩

/-- The runs of `M` all of whose states satisfy `T`. -/
def within (M : Machine σ ι) (T : σ → Prop) : Machine σ ι :=
  ⟨fun s => M.init s ∧ T s, fun s i t => M.step s i t ∧ T t⟩

/-- `t` comes after `s` in a run. -/
def Leads (M : Machine σ ι) : σ → σ → Prop := Relation.ReflTransGen fun s t => ∃ i, M.step s i t

theorem Reachable.leads {s t : σ} (h : M.Reachable s) (hl : M.Leads s t) : M.Reachable t := by
  induction hl with
  | refl => exact h
  | tail _ hst ih =>
    obtain ⟨i, hi⟩ := hst
    exact ih.step hi

/-- The machine of a partial step function. -/
def ofStep (init : σ → Prop) (f : σ → ι → Option σ) : Machine σ ι :=
  ⟨init, fun s i t => f s i = some t⟩

/-- Keep what the steps put out. -/
def record {ω : Type*} (f : σ → ι → Option σ) (out : σ → ι → List ω) (p : σ × List ω) (i : ι) :
    Option (σ × List ω) :=
  (f p.1 i).map fun s => (s, p.2 ++ out p.1 i)

/-- Execute a schedule with a partial step function. -/
def exec (f : σ → ι → Option σ) : σ → List ι → Option σ
  | s, [] => some s
  | s, i :: is => (f s i).bind fun t => exec f t is

theorem exec_append {f : σ → ι → Option σ} : ∀ {is js : List ι} {s t : σ}, exec f s is = some t →
    exec f s (is ++ js) = exec f t js
  | [], js, s, t, h => by
    cases h
    rfl
  | i :: is, js, s, t, h => by
    obtain ⟨u, hu, h⟩ := Option.bind_eq_some_iff.mp h
    show (f s i).bind (fun t => exec f t (is ++ js)) = _
    rw [hu]
    exact exec_append h

theorem reachable_exec {init : σ → Prop} {f : σ → ι → Option σ} :
    ∀ {is : List ι} {s t : σ}, (ofStep init f).Reachable s → exec f s is = some t →
      (ofStep init f).Reachable t
  | [], s, t, h, he => by simp only [exec, Option.some.injEq] at he; subst he; exact h
  | i :: is, s, t, h, he => by
    simp only [exec, Option.bind_eq_some_iff] at he
    obtain ⟨u, hu, he⟩ := he
    exact reachable_exec (.step h hu) he

theorem reachable_exec_restrict {init : σ → Prop} {f : σ → ι → Option σ} {C : σ → ι → Prop} :
    ∀ {is : List ι} {s t : σ}, (∀ i ∈ is, ∀ s, C s i) →
      ((ofStep init f).restrict C).Reachable s → exec f s is = some t →
      ((ofStep init f).restrict C).Reachable t
  | [], s, t, _, h, he => by simp only [exec, Option.some.injEq] at he; subst he; exact h
  | i :: is, s, t, hC, h, he => by
    obtain ⟨u, hu, he⟩ := Option.bind_eq_some_iff.mp he
    have hi : C s i := hC i (by simp) s
    exact reachable_exec_restrict (fun j hj => hC j (by simp [hj])) (.step h ⟨hi, hu⟩) he

/-- Execute a schedule whose steps must also pass a check. -/
def execIf (ok : σ → ι → Bool) (f : σ → ι → Option σ) : σ → List ι → Option σ
  | s, [] => some s
  | s, i :: is => if ok s i then (f s i).bind fun t => execIf ok f t is else none

theorem reachable_execIf {init : σ → Prop} {f : σ → ι → Option σ} {C : σ → ι → Prop}
    {ok : σ → ι → Bool} (hok : ∀ s i, ok s i = true → C s i) :
    ∀ {is : List ι} {s t : σ}, ((ofStep init f).restrict C).Reachable s →
      execIf ok f s is = some t → ((ofStep init f).restrict C).Reachable t
  | [], s, t, h, he => by simp only [execIf, Option.some.injEq] at he; subst he; exact h
  | i :: is, s, t, h, he => by
    rw [execIf] at he
    split_ifs at he with hi
    obtain ⟨u, hu, he⟩ := Option.bind_eq_some_iff.mp he
    exact reachable_execIf hok (.step h ⟨hok s i hi, hu⟩) he

theorem reachable_execIf_within {init : σ → Prop} {f : σ → ι → Option σ} {C : σ → ι → Prop}
    {T : σ → Prop} {ok : σ → ι → Bool} {tame : σ → Bool} (hok : ∀ s i, ok s i = true → C s i)
    (htame : ∀ s, tame s = true → T s) :
    ∀ {is : List ι} {s t : σ}, (((ofStep init f).within T).restrict C).Reachable s →
      execIf ok (fun s i => (f s i).filter tame) s is = some t →
      (((ofStep init f).within T).restrict C).Reachable t
  | [], s, t, h, he => by simp only [execIf, Option.some.injEq] at he; subst he; exact h
  | i :: is, s, t, h, he => by
    rw [execIf] at he
    split_ifs at he with hi
    obtain ⟨u, hu, he⟩ := Option.bind_eq_some_iff.mp he
    obtain ⟨hf, ht⟩ := Option.filter_eq_some_iff.mp hu
    exact reachable_execIf_within hok htame (.step h ⟨hok s i hi, hf, htame u ht⟩) he

end Machine

end AccountabilityGadget
