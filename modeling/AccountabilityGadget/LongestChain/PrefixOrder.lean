import AccountabilityGadget.LongestChain.Tips

/-!
# `is_prefix_of` is the ancestor order

* `isPrefixOfWalk` — the same test by the parents alone, without the comparison of heights.
* `WellFormed.isPrefixOfFuel_eq` — the answer does not depend on the fuel beyond the height.
* `WellFormed.isPrefixOf_eq_walk` — the early exit on heights never changes the answer.
* `WellFormed.isPrefixOf_true_iff`, `isPrefixOf_refl`, `isPrefixOf_antisymm`, `isPrefixOf_trans`,
  `isPrefixOf_total` — the order.
* `is_prefix_of_exact` — all of it, for every tree made by calls of `add`.
-/

set_option autoImplicit false

namespace AccountabilityGadget.LcBlockTree

open Ancestry

/-- `is_prefix_of` without the comparison of the precomputed heights. -/
def isPrefixOfWalkFuel (t : LcBlockTree) : ℕ → Digest → Digest → Except (Fault String) Bool
  | 0, _, _ => .error (.panic .stackOverflow)
  | n + 1, short, long =>
    if t.lcblocks short = none then .error (.reject "Unknown block blk_short_digest!")
    else match t.lcblocks long with
    | none => .error (.reject "Unknown block blk_long_digest!")
    | some blk =>
      if long = short then .ok true
      else match blk.parent with
      | none => .ok false
      | some d => t.isPrefixOfWalkFuel n short d

def isPrefixOfWalk (t : LcBlockTree) (short long : Digest) : Except (Fault String) Bool :=
  t.isPrefixOfWalkFuel (t.heightOf long + 1) short long

variable {cr : Crypto} {t : LcBlockTree} {a b c : Digest}

theorem isPrefixOf_eq_fuel (t : LcBlockTree) (a b : Digest) :
    t.isPrefixOf a b = t.isPrefixOfFuel (t.heightOf b + 1) a b := rfl

/-- Unknown blocks are refused at once. -/
theorem isPrefixOfFuel_unknown (h : ¬ t.Mem a ∨ ¬ t.Mem b) :
    ∃ e, (∀ m, t.isPrefixOfFuel (m + 1) a b = .error (.reject e)) ∧
      ∀ m, t.isPrefixOfWalkFuel (m + 1) a b = .error (.reject e) := by
  by_cases ha : t.lcblocks a = none
  · exact ⟨_, fun m => by rw [isPrefixOfFuel, if_pos ha],
      fun m => by rw [isPrefixOfWalkFuel, if_pos ha]⟩
  · have hb : t.lcblocks b = none := by
      rcases h with h | h
      · exact absurd (Option.isSome_iff_ne_none.mpr ha) h
      · simpa [Mem] using h
    refine ⟨"Unknown block blk_long_digest!", ?_, ?_⟩
    · intro m
      rw [isPrefixOfFuel, if_neg ha, hb]
    · intro m
      rw [isPrefixOfWalkFuel, if_neg ha, hb]

/-- On known blocks the walk along the parents decides ancestry. -/
theorem WellFormed.isPrefixOfWalkFuel_iff (hw : WellFormed cr t) (ha : t.Mem a) :
    ∀ {n : ℕ} {b : Digest}, t.Mem b → t.heightOf b < n →
      ∃ r, t.isPrefixOfWalkFuel n a b = .ok r ∧ (r = true ↔ t.Ext a b)
  | 0, _, _, h => absurd h (Nat.not_lt_zero _)
  | n + 1, b, hb, hn => by
    obtain ⟨x, hx⟩ := mem_iff.mp ha
    obtain ⟨y, hy⟩ := mem_iff.mp hb
    rw [isPrefixOfWalkFuel, if_neg (by rw [hx]; simp)]
    simp only [hy]
    by_cases heq : b = a
    · exact ⟨true, by rw [if_pos heq], by simp [heq, Anc.refl]⟩
    · rw [if_neg heq]
      cases hp : y.parent with
      | none =>
        have hroot : t.parentOf b = none := by rw [parentOf, hy, Option.bind_some, hp]
        refine ⟨false, rfl, ?_⟩
        simp only [Bool.false_eq_true, false_iff]
        intro h
        exact heq (h.eq_of_root hroot)
      | some p =>
        have hpb : t.parentOf b = some p := parentOf_eq_some.mpr ⟨y, hy, hp⟩
        have hh := hw.graded.height_parent b p hb hpb
        obtain ⟨r, hr, hiff⟩ := hw.isPrefixOfWalkFuel_iff ha (hw.graded.closed b p hb hpb)
          (show t.heightOf p < n by omega)
        exact ⟨r, hr, hiff.trans (Anc.parent_iff heq hpb)⟩

/-- Two tests that answer a question alike give the same answer. -/
theorem answer_unique {x y : Except (Fault String) Bool} {P : Prop}
    (hx : ∃ r, x = .ok r ∧ (r = true ↔ P)) (hy : ∃ r, y = .ok r ∧ (r = true ↔ P)) : x = y := by
  obtain ⟨r, rfl, hr⟩ := hx
  obtain ⟨s, rfl, hs⟩ := hy
  rw [Bool.eq_iff_iff.mpr (hr.trans hs.symm)]

/-- **`is_prefix_of` terminates**: one call for each level of the tree is enough. -/
theorem WellFormed.isPrefixOfFuel_eq (hw : WellFormed cr t) {n : ℕ} (hn : t.heightOf b < n) :
    t.isPrefixOfFuel n a b = t.isPrefixOf a b := by
  by_cases h : t.Mem a ∧ t.Mem b
  · exact answer_unique (hw.isPrefixOfFuel_iff h.1 h.2 hn) (hw.isPrefixOf_ok h.1 h.2)
  · obtain ⟨e, he, -⟩ := isPrefixOfFuel_unknown (not_and_or.mp h)
    obtain ⟨m, rfl⟩ : ∃ m, n = m + 1 := ⟨n - 1, by omega⟩
    rw [isPrefixOf_eq_fuel, he, he]

/-- **The early exit on heights never changes the answer.** -/
theorem WellFormed.isPrefixOf_eq_walk (hw : WellFormed cr t) (a b : Digest) :
    t.isPrefixOf a b = t.isPrefixOfWalk a b := by
  by_cases h : t.Mem a ∧ t.Mem b
  · exact answer_unique (hw.isPrefixOf_ok h.1 h.2)
      (hw.isPrefixOfWalkFuel_iff h.1 h.2 (Nat.lt_succ_self _))
  · obtain ⟨e, he, he'⟩ := isPrefixOfFuel_unknown (not_and_or.mp h)
    rw [isPrefixOf_eq_fuel, isPrefixOfWalk, he, he']

/-- `is_prefix_of` errs exactly on unknown blocks, and never panics. -/
theorem WellFormed.isPrefixOf_error_iff (hw : WellFormed cr t) :
    (∃ e, t.isPrefixOf a b = .error (.reject e)) ↔ ¬ t.Mem a ∨ ¬ t.Mem b := by
  constructor
  · rintro ⟨e, he⟩
    by_contra hno
    obtain ⟨ha, hb⟩ := not_or.mp hno
    obtain ⟨r, hr, -⟩ := hw.isPrefixOf_ok (not_not.mp ha) (not_not.mp hb)
    rw [he] at hr
    cases hr
  · intro h
    obtain ⟨e, he, -⟩ := isPrefixOfFuel_unknown h
    exact ⟨e, he _⟩

theorem WellFormed.isPrefixOf_ne_panic (hw : WellFormed cr t) {p : Panic} :
    t.isPrefixOf a b ≠ .error (.panic p) := by
  intro hp
  by_cases h : t.Mem a ∧ t.Mem b
  · obtain ⟨r, hr, -⟩ := hw.isPrefixOf_ok h.1 h.2
    rw [hp] at hr
    cases hr
  · obtain ⟨e, he⟩ := hw.isPrefixOf_error_iff.mpr (not_and_or.mp h)
    rw [hp] at he
    cases he

theorem WellFormed.isPrefixOf_true_iff (hw : WellFormed cr t) :
    t.isPrefixOf a b = .ok true ↔ t.Mem b ∧ t.Ext a b := by
  constructor
  · intro h
    exact ⟨(mem_of_isPrefixOf h).2, hw.ext_of_isPrefixOf h⟩
  · rintro ⟨hb, h⟩
    exact hw.isPrefixOf_true hb h

theorem WellFormed.isPrefixOf_refl (hw : WellFormed cr t) (ha : t.Mem a) :
    t.isPrefixOf a a = .ok true := hw.isPrefixOf_true ha .refl

theorem WellFormed.isPrefixOf_antisymm (hw : WellFormed cr t) (hab : t.isPrefixOf a b = .ok true)
    (hba : t.isPrefixOf b a = .ok true) : a = b :=
  hw.graded.antisymm (mem_of_isPrefixOf hab).2 (hw.ext_of_isPrefixOf hab)
    (hw.ext_of_isPrefixOf hba)

theorem WellFormed.isPrefixOf_trans (hw : WellFormed cr t) (hab : t.isPrefixOf a b = .ok true)
    (hbc : t.isPrefixOf b c = .ok true) : t.isPrefixOf a c = .ok true :=
  hw.isPrefixOf_true (mem_of_isPrefixOf hbc).2
    ((hw.ext_of_isPrefixOf hab).trans (hw.ext_of_isPrefixOf hbc))

/-- Two ancestors of one block are comparable. -/
theorem WellFormed.isPrefixOf_total (hw : WellFormed cr t) (hac : t.isPrefixOf a c = .ok true)
    (hbc : t.isPrefixOf b c = .ok true) :
    t.isPrefixOf a b = .ok true ∨ t.isPrefixOf b a = .ok true := by
  apply ((hw.ext_of_isPrefixOf hac).total (hw.ext_of_isPrefixOf hbc)).imp
  · exact hw.isPrefixOf_true (mem_of_isPrefixOf hbc).1
  · exact hw.isPrefixOf_true (mem_of_isPrefixOf hac).1

/-- Every chain of parents ends at genesis. -/
theorem WellFormed.genesis_ext (hw : WellFormed cr t) {b : Digest} (hb : t.Mem b) :
    t.Ext (LcBlock.genesisDigest cr) b := by
  induction hn : t.heightOf b generalizing b with
  | zero =>
    obtain ⟨blk, hblk⟩ := mem_iff.mp hb
    cases hp : blk.parent with
    | none =>
      rw [← hw.digest b blk hblk, hw.root b blk hblk hp]
      exact .refl
    | some p =>
      have := hw.graded.height_parent b p hb (parentOf_eq_some.mpr ⟨blk, hblk, hp⟩)
      omega
  | succ n ih =>
    obtain ⟨blk, hblk⟩ := mem_iff.mp hb
    cases hp : blk.parent with
    | none =>
      have := hw.graded.height_root b hb (by rw [parentOf, hblk, Option.bind_some, hp])
      omega
    | some p =>
      have hpb : t.parentOf b = some p := parentOf_eq_some.mpr ⟨blk, hblk, hp⟩
      have := hw.graded.height_parent b p hb hpb
      exact .step hpb (ih (hw.graded.closed b p hb hpb) (by omega))

/-- **The ancestry test is exact**, on every tree made by calls of `add`.  It never panics and needs
one call for each level; it errs exactly on unknown blocks and answers `true` exactly for the blocks
on the chain of parents, which ends at genesis; it is a partial order in which two ancestors of one
block are comparable; and it agrees with the walk that does not look at heights. -/
theorem is_prefix_of_exact (cr : Crypto) (bs : List LcBlock) (hc : NoCollision cr bs) :
    let t := addAll cr (new cr) bs
    (∀ a b n, t.heightOf b < n → t.isPrefixOfFuel n a b = t.isPrefixOf a b) ∧
    (∀ a b p, t.isPrefixOf a b ≠ .error (.panic p)) ∧
    (∀ a b, (∃ e, t.isPrefixOf a b = .error (.reject e)) ↔ ¬ t.Mem a ∨ ¬ t.Mem b) ∧
    (∀ a b, t.isPrefixOf a b = .ok true ↔ t.Mem b ∧ t.Ext a b) ∧
    (∀ b, t.Mem b → t.Ext (LcBlock.genesisDigest cr) b) ∧
    (∀ a, t.Mem a → t.isPrefixOf a a = .ok true) ∧
    (∀ a b, t.isPrefixOf a b = .ok true → t.isPrefixOf b a = .ok true → a = b) ∧
    (∀ a b c, t.isPrefixOf a b = .ok true → t.isPrefixOf b c = .ok true →
      t.isPrefixOf a c = .ok true) ∧
    (∀ a b c, t.isPrefixOf a c = .ok true → t.isPrefixOf b c = .ok true →
      t.isPrefixOf a b = .ok true ∨ t.isPrefixOf b a = .ok true) ∧
    ∀ a b, t.isPrefixOf a b = t.isPrefixOfWalk a b := by
  intro t
  have hw : WellFormed cr t :=
    wellFormed_addAll hc (wellFormed_new cr) (within_new bs) fun b hb => hb
  refine ⟨?_, ?_, ?_, ?_, ?_, ?_, ?_, ?_, ?_, ?_⟩
  · intro a b n hn
    exact hw.isPrefixOfFuel_eq hn
  · intro a b p
    exact hw.isPrefixOf_ne_panic
  · intro a b
    exact hw.isPrefixOf_error_iff
  · intro a b
    exact hw.isPrefixOf_true_iff
  · intro b hb
    exact hw.genesis_ext hb
  · intro a ha
    exact hw.isPrefixOf_refl ha
  · intro a b hab hba
    exact hw.isPrefixOf_antisymm hab hba
  · intro a b c hab hbc
    exact hw.isPrefixOf_trans hab hbc
  · intro a b c hac hbc
    exact hw.isPrefixOf_total hac hbc
  · intro a b
    exact hw.isPrefixOf_eq_walk a b

/-- The child of a child of genesis has the latter as an ancestor. -/
theorem is_prefix_of_exact_sample :
    (addAll sampleCrypto (new sampleCrypto) [sampleParent, sampleChild]).isPrefixOf
      (sampleParent.digest sampleCrypto) (sampleChild.digest sampleCrypto) = .ok true := by
  obtain ⟨-, -, -, h, -⟩ := is_prefix_of_exact sampleCrypto [sampleParent, sampleChild]
    (noCollision_of_nodup (by decide +kernel))
  refine (h _ _).mpr ⟨by unfold Mem; decide +kernel, .step (p := sampleParent.digest sampleCrypto) ?_ .refl⟩
  decide +kernel

end AccountabilityGadget.LcBlockTree
