import Mathlib.Data.List.Basic
import Mathlib.Data.List.Infix
import Mathlib.Tactic.Common

/-!
# Histories

A history is a list of entries in the order in which they were made.

* `Justified ok log` — every entry was admissible after the entries before it.
* `justified_concat`, `Justified.append`, `Justified.initial` — how it grows, and its prefixes.
* `Justified.countP_le_one` — entries that exclude each other occur at most once.
-/

set_option autoImplicit false

namespace AccountabilityGadget

variable {ε : Type*} {ok ok' : List ε → ε → Prop} {log : List ε} {e : ε}

/-- Every entry was admissible after the entries before it. -/
def Justified (ok : List ε → ε → Prop) (log : List ε) : Prop :=
  ∀ pre e post, log = pre ++ e :: post → ok pre e

theorem justified_nil : Justified ok [] := by
  intro pre e post h
  simp at h

theorem justified_concat : Justified ok (log ++ [e]) ↔ Justified ok log ∧ ok log e := by
  constructor
  · intro h
    refine ⟨?_, h log e [] rfl⟩
    intro pre e' post he
    exact h pre e' (post ++ [e]) (by rw [he]; simp)
  · rintro ⟨h, hlast⟩ pre e' post he
    rcases List.eq_nil_or_concat post with rfl | ⟨post', e'', rfl⟩
    · obtain ⟨hpre, hlog⟩ := List.append_inj' he rfl
      cases (List.cons.inj hlog).1
      exact hpre ▸ hlast
    · rw [List.concat_eq_append, ← List.cons_append, ← List.append_assoc] at he
      obtain ⟨hpre, -⟩ := List.append_inj' he rfl
      exact h pre e' post' hpre

theorem Justified.concat (h : Justified ok log) (he : ok log e) : Justified ok (log ++ [e]) :=
  justified_concat.mpr ⟨h, he⟩

theorem Justified.append (h : Justified ok log) {es : List ε}
    (hes : ∀ pre e post, es = pre ++ e :: post → ok (log ++ pre) e) : Justified ok (log ++ es) := by
  intro pre e post he
  rcases List.append_eq_append_iff.mp he with ⟨l, rfl, hl⟩ | ⟨l, rfl, hl⟩
  · exact hes l e post hl
  · rcases l with _ | ⟨e', l⟩
    · simpa using hes [] e post hl.symm
    · obtain ⟨rfl, -⟩ := List.cons.inj hl
      exact h pre e l rfl

theorem Justified.initial {log' : List ε} (h : Justified ok log) (hp : log' <+: log) :
    Justified ok log' := by
  obtain ⟨l, rfl⟩ := hp
  intro pre e post he
  exact h pre e (post ++ l) (by rw [he]; simp)

/-- Entries that are only made while there is none of them. -/
theorem Justified.countP_le_one {p : ε → Bool} (h : Justified ok log)
    (hp : ∀ pre e, ok pre e → p e = true → ∀ e' ∈ pre, p e' = false) : log.countP p ≤ 1 := by
  induction log using List.reverseRecOn with
  | nil => simp
  | append_singleton log e ih =>
    obtain ⟨hlog, he⟩ := justified_concat.mp h
    have hcount := ih hlog
    rw [List.countP_append, List.countP_singleton]
    split_ifs with hpe
    · have hzero : log.countP p = 0 := by
        rw [List.countP_eq_zero]
        intro e' he'
        rw [hp log e he hpe e' he']
        exact Bool.false_ne_true
      omega
    · omega

end AccountabilityGadget
