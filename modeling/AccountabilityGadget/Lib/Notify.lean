import Mathlib.Data.List.Basic
import Mathlib.Data.List.Nodup
import Mathlib.Logic.Function.Basic
import Mathlib.Tactic.Common

/-!
# Cells that can be waited for

A cell has a value once it has been written.  One who reads it gets what it has; one who awaits it
gets its value, or is kept waiting for the first write.

* `Cell.step`, `Cell.run` — a cell, and what it replies.
* `Cell.Settled` — nobody waits at a cell with a value.
* `answers_read`, `answers_await` — the only answer to a request, in any run.
* `Keyed.step`, `Keyed.run` — a family of cells; `Keyed.run_apply` and `Keyed.answers_run`: each of
  them behaves as in the run of the operations on it alone.
-/

set_option autoImplicit false

namespace AccountabilityGadget.Notify

variable {κ σ α : Type*}

inductive Op (σ α : Type*) where
  | write (v : α)
  | read (asker : σ)
  | await (asker : σ)
  deriving DecidableEq

/-- Who gets the reply to a request. -/
def Op.asker? : Op σ α → Option σ
  | write _ => none
  | read x | await x => some x

inductive Reply (σ α : Type*) where
  | value (asker : σ) (v : Option α)
  | notified (asker : σ) (v : α)
  deriving DecidableEq

def Reply.asker : Reply σ α → σ
  | value x _ | notified x _ => x

/-- The requests of a sequence of operations. -/
def askers (os : List (Op σ α)) : List σ := os.filterMap Op.asker?

/-- The value after the operations. -/
def current : Option α → List (Op σ α) → Option α
  | v, [] => v
  | _, .write w :: os => current (some w) os
  | v, .read _ :: os | v, .await _ :: os => current v os

/-- The first value written. -/
def firstWrite : List (Op σ α) → Option α
  | [] => none
  | .write w :: _ => some w
  | .read _ :: os | .await _ :: os => firstWrite os

def Op.written : Op σ α → Option α
  | write v => some v
  | read _ | await _ => none

theorem current_eq (v : Option α) (os : List (Op σ α)) :
    current v os = (os.filterMap Op.written).getLast?.or v := by
  induction os generalizing v with
  | nil => rfl
  | cons o os ih =>
    cases o with
    | write w =>
      have hwrites : (Op.write w :: os : List (Op σ α)).filterMap Op.written =
          w :: os.filterMap Op.written := rfl
      rw [current, ih, hwrites, List.getLast?_cons]
      cases (os.filterMap Op.written).getLast? <;> rfl
    | read x => exact ih v
    | await x => exact ih v

theorem firstWrite_eq (os : List (Op σ α)) : firstWrite os = (os.filterMap Op.written).head? := by
  induction os with
  | nil => rfl
  | cons o os ih =>
    cases o with
    | write w => rfl
    | read x => exact ih
    | await x => exact ih

structure Cell (σ α : Type*) where
  value : Option α
  waiting : List σ
  deriving DecidableEq

namespace Cell

def step (c : Cell σ α) : Op σ α → Cell σ α × List (Reply σ α)
  | .write v => (⟨some v, []⟩, c.waiting.map (.notified · v))
  | .read x => (c, [.value x c.value])
  | .await x =>
    match c.value with
    | some v => (c, [.notified x v])
    | none => (⟨none, c.waiting ++ [x]⟩, [])

def run : Cell σ α → List (Op σ α) → Cell σ α × List (Reply σ α)
  | c, [] => (c, [])
  | c, o :: os => (((c.step o).1.run os).1, (c.step o).2 ++ ((c.step o).1.run os).2)

/-- Nobody waits at a cell with a value. -/
def Settled (c : Cell σ α) : Prop := c.value ≠ none → c.waiting = []

variable {c : Cell σ α} {x : σ} {o : Op σ α} {os pre post : List (Op σ α)}

theorem run_append : ∀ (c : Cell σ α) (pre post : List (Op σ α)),
    c.run (pre ++ post) =
      (((c.run pre).1.run post).1, (c.run pre).2 ++ ((c.run pre).1.run post).2)
  | _, [], _ => rfl
  | c, o :: pre, post => by
    rw [List.cons_append, run, run_append (c.step o).1 pre post, run, List.append_assoc]

theorem value_run (c : Cell σ α) (os : List (Op σ α)) :
    (c.run os).1.value = current c.value os := by
  induction os generalizing c with
  | nil => rfl
  | cons o os ih =>
    rw [run, ih]
    cases o with
    | write v => rfl
    | read x => rfl
    | await x =>
      rw [step]
      cases hv : c.value <;> simp [current, hv]

theorem Settled.step (h : c.Settled) (o : Op σ α) : (c.step o).1.Settled := by
  cases o with
  | write v => exact fun _ => rfl
  | read x => exact h
  | await x =>
    rw [Cell.step]
    cases hv : c.value with
    | some v => exact h
    | none => exact fun hne => absurd rfl hne

/-- **Whatever happens to a settled cell, nobody waits at it once it has a value.** -/
theorem Settled.run (h : c.Settled) (os : List (Op σ α)) : (c.run os).1.Settled := by
  induction os generalizing c with
  | nil => exact h
  | cons o os ih => exact ih (h.step o)

/-- Who waits after a step has waited before or asks. -/
theorem mem_waiting_step (h : x ∈ (c.step o).1.waiting) : x ∈ c.waiting ∨ o.asker? = some x := by
  cases o with
  | write v => cases h
  | read y => exact .inl h
  | await y =>
    rw [step] at h
    cases hv : c.value with
    | some v =>
      rw [hv] at h
      exact .inl h
    | none =>
      rw [hv] at h
      rcases List.mem_append.mp h with h | h
      · exact .inl h
      · exact .inr (congrArg some (List.mem_singleton.mp h).symm)

/-- Who is answered by a step has waited or asks. -/
theorem asker_of_step {r : Reply σ α} (h : r ∈ (c.step o).2) :
    r.asker ∈ c.waiting ∨ o.asker? = some r.asker := by
  cases o with
  | write v =>
    obtain ⟨x, hx, rfl⟩ := List.mem_map.mp h
    exact .inl hx
  | read y =>
    rw [List.mem_singleton.mp h]
    exact .inr rfl
  | await y =>
    rw [step] at h
    cases hv : c.value with
    | some v =>
      rw [hv] at h
      rw [List.mem_singleton.mp h]
      exact .inr rfl
    | none =>
      rw [hv] at h
      cases h

/-- One who waits keeps waiting or is notified. -/
theorem waiting_step (h : x ∈ c.waiting) (o : Op σ α) :
    x ∈ (c.step o).1.waiting ∨ ∃ v, .notified x v ∈ (c.step o).2 := by
  cases o with
  | write v => exact .inr ⟨v, List.mem_map_of_mem h⟩
  | read y => exact .inl h
  | await y =>
    rw [step]
    cases c.value with
    | some v => exact .inl h
    | none => exact .inl (List.mem_append_left _ h)

/-- One who starts to wait waits or is notified. -/
theorem await_step (c : Cell σ α) (x : σ) :
    x ∈ (c.step (.await x)).1.waiting ∨ ∃ v, .notified x v ∈ (c.step (.await x)).2 := by
  rw [step]
  cases c.value with
  | some v => exact .inr ⟨v, List.mem_singleton_self _⟩
  | none => exact .inl (List.mem_append_right _ (List.mem_singleton_self x))

/-- What is notified is the value. -/
theorem value_of_notified {v : α} (h : .notified x v ∈ (c.step o).2) :
    (c.step o).1.value = some v := by
  cases o with
  | write w =>
    obtain ⟨y, -, he⟩ := List.mem_map.mp h
    cases he
    rfl
  | read y => cases List.mem_singleton.mp h
  | await y =>
    rw [step] at h ⊢
    cases hv : c.value with
    | some w =>
      rw [hv] at h
      cases List.mem_singleton.mp h
      exact hv
    | none =>
      rw [hv] at h
      cases h

theorem value_of_read {v : Option α} (h : .value x v ∈ (c.step o).2) : v = c.value := by
  cases o with
  | write w =>
    obtain ⟨y, -, he⟩ := List.mem_map.mp h
    cases he
  | read y =>
    cases List.mem_singleton.mp h
    rfl
  | await y =>
    rw [step] at h
    cases hv : c.value with
    | some w =>
      rw [hv] at h
      cases List.mem_singleton.mp h
    | none =>
      rw [hv] at h
      cases h

/-- A value is never lost. -/
theorem value_step_ne_none (h : c.value ≠ none) (o : Op σ α) : (c.step o).1.value ≠ none := by
  cases o with
  | write v => exact Option.some_ne_none v
  | read y => exact h
  | await y =>
    rw [step]
    cases hv : c.value with
    | some v => exact h
    | none => exact absurd hv h

theorem askers_cons (o : Op σ α) (os : List (Op σ α)) :
    askers (o :: os) = o.asker?.toList ++ askers os := by
  unfold askers
  cases h : o.asker? <;> simp [h]

theorem askers_append (pre post : List (Op σ α)) : askers (pre ++ post) = askers pre ++ askers post :=
  List.filterMap_append

theorem mem_waiting_run (h : x ∈ (c.run os).1.waiting) : x ∈ c.waiting ∨ x ∈ askers os := by
  induction os generalizing c with
  | nil => exact .inl h
  | cons o os ih =>
    rw [askers_cons]
    rcases ih h with h | h
    · rcases mem_waiting_step h with h | h
      · exact .inl h
      · exact .inr (List.mem_append_left _ (by simp [h]))
    · exact .inr (List.mem_append_right _ h)

/-! ### Answers -/

variable [DecidableEq σ]

/-- The replies to one who asked. -/
def answers (x : σ) (rs : List (Reply σ α)) : List (Reply σ α) := rs.filter fun r => r.asker = x

theorem answers_append (x : σ) (rs rs' : List (Reply σ α)) :
    answers x (rs ++ rs') = answers x rs ++ answers x rs' :=
  List.filter_append ..

theorem answers_eq_nil {rs : List (Reply σ α)} (h : ∀ r ∈ rs, r.asker ≠ x) : answers x rs = [] := by
  rw [answers, List.filter_eq_nil_iff]
  simpa using h

/-- One who neither waits nor asks is not answered. -/
theorem answers_stranger (hw : x ∉ c.waiting) (hx : x ∉ askers os) : answers x (c.run os).2 = [] := by
  induction os generalizing c with
  | nil => rfl
  | cons o os ih =>
    rw [askers_cons, List.mem_append, not_or] at hx
    obtain ⟨ho, hx⟩ := hx
    have hasker : o.asker? ≠ some x := by
      intro h
      rw [h] at ho
      exact ho (List.mem_singleton_self x)
    rw [run, answers_append, ih (fun h => ?_) hx, List.append_nil]
    · apply answers_eq_nil
      rintro r hr rfl
      rcases asker_of_step hr with h | h
      · exact hw h
      · exact hasker h
    · rcases mem_waiting_step h with h | h
      · exact hw h
      · exact hasker h

/-- One who waits is answered by the first write, and by nothing else. -/
theorem answers_waiting (hv : c.value = none) (hw : c.waiting.count x = 1) (hx : x ∉ askers os) :
    answers x (c.run os).2 = (firstWrite os).toList.map (.notified x) := by
  induction os generalizing c with
  | nil => rfl
  | cons o os ih =>
    rw [askers_cons, List.mem_append, not_or] at hx
    obtain ⟨ho, hx⟩ := hx
    rw [run, answers_append]
    cases o with
    | write v =>
      have hrest : answers x ((c.step (.write v)).1.run os).2 = [] :=
        answers_stranger List.not_mem_nil hx
      rw [hrest, List.append_nil, step, firstWrite, answers, List.filter_map]
      have hfilter : c.waiting.filter ((fun r : Reply σ α => decide (r.asker = x)) ∘ (.notified · v)) =
          [x] := by
        have hone := List.filter_eq (l := c.waiting) x
        rw [hw] at hone
        rw [List.replicate_one] at hone
        rw [← hone]
        apply List.filter_congr
        intro y _
        simp [Reply.asker, eq_comm]
      rw [hfilter]
      rfl
    | read y =>
      have hne : y ≠ x := fun h => ho (h ▸ List.mem_singleton_self y)
      rw [step, firstWrite, ih hv hw hx]
      rw [answers_eq_nil (by simpa [Reply.asker] using hne)]
      rfl
    | await y =>
      have hne : y ≠ x := fun h => ho (h ▸ List.mem_singleton_self y)
      rw [step, hv, firstWrite]
      simp only
      rw [ih rfl ?_ hx]
      · rfl
      · rw [List.count_append, hw, List.count_singleton]
        simp [hne]

/-- **A read is answered once, with the value that the operations before it leave.** -/
theorem answers_read (hw : x ∉ c.waiting) (hos : os = pre ++ .read x :: post)
    (hfresh : (askers os).Nodup) : answers x (c.run os).2 = [.value x (current c.value pre)] := by
  subst hos
  rw [askers_append, askers_cons, List.nodup_append] at hfresh
  obtain ⟨-, hpost, hdis⟩ := hfresh
  have hpre : x ∉ askers pre := fun h => hdis x h x List.mem_cons_self rfl
  rw [run_append, run, answers_append, answers_append, answers_stranger hw hpre, step,
    answers_stranger (fun h => ?_) (List.nodup_cons.mp hpost).1, value_run]
  · simp [answers, Reply.asker]
  · rcases mem_waiting_run h with h | h
    · exact hw h
    · exact hpre h

/-- **An await is answered once: with the value, or else with the first one written.** -/
theorem answers_await (hw : x ∉ c.waiting) (hos : os = pre ++ .await x :: post)
    (hfresh : (askers os).Nodup) : answers x (c.run os).2 =
      ((current c.value pre).or (firstWrite post)).toList.map (.notified x) := by
  subst hos
  rw [askers_append, askers_cons, List.nodup_append] at hfresh
  obtain ⟨-, hpost, hdis⟩ := hfresh
  have hpre : x ∉ askers pre := fun h => hdis x h x List.mem_cons_self rfl
  have hpost' := (List.nodup_cons.mp hpost).1
  have hwait : x ∉ (c.run pre).1.waiting := by
    intro h
    rcases mem_waiting_run h with h | h
    · exact hw h
    · exact hpre h
  rw [run_append, run, answers_append, answers_append, answers_stranger hw hpre, step, ← value_run]
  cases hv : (c.run pre).1.value with
  | some v =>
    simp only
    rw [answers_stranger hwait hpost']
    simp [answers, Reply.asker]
  | none =>
    simp only
    rw [answers_waiting rfl ?_ hpost']
    · simp [answers]
    · rw [List.count_append, List.count_eq_zero_of_not_mem hwait, List.count_singleton_self]

end Cell

/-! ## Families of cells -/

section

variable [DecidableEq κ]

abbrev Keyed (κ σ α : Type*) := κ → Cell σ α

/-- The operations on one key. -/
def opsOn (k : κ) (cs : List (κ × Op σ α)) : List (Op σ α) := (cs.filter (·.1 = k)).map (·.2)

namespace Keyed

def step (f : Keyed κ σ α) (c : κ × Op σ α) : Keyed κ σ α × List (Reply σ α) :=
  (Function.update f c.1 ((f c.1).step c.2).1, ((f c.1).step c.2).2)

def run : Keyed κ σ α → List (κ × Op σ α) → Keyed κ σ α × List (Reply σ α)
  | f, [] => (f, [])
  | f, c :: cs => ((run (step f c).1 cs).1, (step f c).2 ++ (run (step f c).1 cs).2)

theorem step_self (f : Keyed κ σ α) (k : κ) (o : Op σ α) :
    (step f (k, o)).1 k = ((f k).step o).1 :=
  Function.update_self ..

theorem step_of_ne {k k' : κ} (h : k ≠ k') (f : Keyed κ σ α) (o : Op σ α) :
    (step f (k', o)).1 k = f k :=
  Function.update_of_ne h ..

theorem opsOn_cons_self (k : κ) (o : Op σ α) (cs : List (κ × Op σ α)) :
    opsOn k ((k, o) :: cs) = o :: opsOn k cs := by
  simp [opsOn]

theorem opsOn_cons_of_ne {k k' : κ} (h : k' ≠ k) (o : Op σ α) (cs : List (κ × Op σ α)) :
    opsOn k ((k', o) :: cs) = opsOn k cs := by
  simp [opsOn, h]

/-- **A cell is as the operations on it alone leave it.** -/
theorem run_apply (f : Keyed κ σ α) (cs : List (κ × Op σ α)) (k : κ) :
    (run f cs).1 k = ((f k).run (opsOn k cs)).1 := by
  induction cs generalizing f with
  | nil => rfl
  | cons c cs ih =>
    obtain ⟨k', o⟩ := c
    rw [run, ih]
    by_cases hk : k' = k
    · subst hk
      rw [opsOn_cons_self, Cell.run, step_self]
    · rw [opsOn_cons_of_ne hk, step_of_ne (Ne.symm hk)]

/-- **One who asks for one key is answered as if there were no other keys.** -/
theorem answers_run [DecidableEq σ] {x : σ} {k : κ} (f : Keyed κ σ α) (cs : List (κ × Op σ α))
    (hw : ∀ k', x ∈ (f k').waiting → k' = k) (hx : ∀ c ∈ cs, c.2.asker? = some x → c.1 = k) :
    Cell.answers x (run f cs).2 = Cell.answers x ((f k).run (opsOn k cs)).2 := by
  induction cs generalizing f with
  | nil => rfl
  | cons c cs ih =>
    obtain ⟨k', o⟩ := c
    have hw' : ∀ k'', x ∈ ((step f (k', o)).1 k'').waiting → k'' = k := by
      intro k'' h
      by_cases hk : k'' = k'
      · subst hk
        rw [step_self] at h
        rcases Cell.mem_waiting_step h with h | h
        · exact hw _ h
        · exact hx _ List.mem_cons_self h
      · rw [step_of_ne hk] at h
        exact hw _ h
    rw [run, Cell.answers_append, ih _ hw' fun c hc => hx c (List.mem_cons_of_mem _ hc)]
    by_cases hk : k' = k
    · subst hk
      rw [opsOn_cons_self, Cell.run, Cell.answers_append, step_self]
      rfl
    · rw [opsOn_cons_of_ne hk]
      have hnone : Cell.answers x (step f (k', o)).2 = [] := by
        apply Cell.answers_eq_nil
        rintro r hr rfl
        rcases Cell.asker_of_step hr with h | h
        · exact hk (hw _ h)
        · exact hk (hx _ List.mem_cons_self h)
      rw [hnone, List.nil_append, step_of_ne (Ne.symm hk)]

end Keyed

end

end AccountabilityGadget.Notify
