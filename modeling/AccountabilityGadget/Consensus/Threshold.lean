import AccountabilityGadget.Consensus.Messages

/-!
# The quorum threshold in machine arithmetic (`consensus/src/config.rs`)

`quorum_threshold` computes `2 * total_votes / 3 + 1` in `u32`.  The product fits up to a total of
`2 ^ 31 - 1`; above that a build with overflow checks panics and a release build goes on with the
product modulo `2 ^ 32`.

* `quorumThresholdChecked` — the function with overflow checks; `quorumThreshold` is the other one.
* `Intersects` — all authorities together reach the threshold, and two sets that reach it share more
  than a third of the stake.
* `quorumThreshold_wrapped` — the threshold of a total that does not fit.
* `quorums_intersect_iff` — when quorums intersect, in both builds.
* `quorums_disjoint` — two authorities that hold half of `2 ^ 31` each are quorums by themselves.
-/

set_option autoImplicit false

namespace AccountabilityGadget.Consensus

open Quorum

/-- `a + b`, with overflow checks. -/
def checkedAdd (a b : Stake) : Except Panic Stake :=
  if a.toNat + b.toNat < 2 ^ 32 then .ok (a + b) else .error .overflow

/-- `a * b`, with overflow checks. -/
def checkedMul (a b : Stake) : Except Panic Stake :=
  if a.toNat * b.toNat < 2 ^ 32 then .ok (a * b) else .error .overflow

/-- `iter.sum()`, with overflow checks. -/
def checkedSum : Stake → List Stake → Except Panic Stake
  | acc, [] => .ok acc
  | acc, x :: xs => do
    let acc ← checkedAdd acc x
    checkedSum acc xs

namespace Committee

variable (c : Committee)

/-- `quorum_threshold` in a build with overflow checks. -/
def quorumThresholdChecked : Except Panic Stake := do
  let totalVotes ← checkedSum 0 (c.authorities.entries.map (·.2.stake))
  let doubled ← checkedMul 2 totalVotes
  checkedAdd (doubled / 3) 1

/-- The stake of a set of authorities. -/
def weigh (A : Finset PublicKey) : ℕ := weight (fun a => (c.stake a).toNat) A

/-- What is asked of a threshold `q`. -/
structure Intersects (q : Stake) : Prop where
  reached : q.toNat ≤ c.weigh c.voters
  common : ∀ A ⊆ c.voters, ∀ B ⊆ c.voters, q.toNat ≤ c.weigh A → q.toNat ≤ c.weigh B →
    c.total < 3 * c.weigh (A ∩ B)

end Committee

variable {c : Committee}

theorem checkedSum_eq : ∀ {xs : List Stake} {acc : Stake},
    acc.toNat + (xs.map UInt32.toNat).sum < 2 ^ 32 → checkedSum acc xs = .ok (acc + xs.sum)
  | [], acc, _ => by rw [checkedSum, List.sum_nil, UInt32.add_zero]
  | x :: xs, acc, h => by
    rw [List.map_cons, List.sum_cons] at h
    have hadd : (acc + x).toNat = acc.toNat + x.toNat := by
      rw [UInt32.toNat_add]
      omega
    have hfit : acc.toNat + x.toNat < 2 ^ 32 := by omega
    rw [checkedSum, checkedAdd, if_pos hfit]
    show checkedSum (acc + x) xs = _
    rw [checkedSum_eq (by omega), List.sum_cons, UInt32.add_assoc]

/-- The total stake as the loop computes it. -/
theorem sum_stakes_toNat (hfit : c.total < 2 ^ 32) :
    ((c.authorities.entries.map (·.2.stake)).sum : Stake).toNat = c.total := by
  rw [Committee.sum_toNat, List.map_map]
  exact Nat.mod_eq_of_lt hfit

/-- **With overflow checks the threshold is computed up to a total of `2 ^ 31 - 1`.** -/
theorem quorumThresholdChecked_eq (hfit : c.total < 2 ^ 32) :
    c.quorumThresholdChecked =
      if c.total < 2 ^ 31 then .ok c.quorumThreshold else .error .overflow := by
  have hsum : checkedSum 0 (c.authorities.entries.map (·.2.stake)) =
      .ok (c.authorities.entries.map (·.2.stake)).sum := by
    rw [checkedSum_eq, UInt32.zero_add]
    rw [List.map_map, UInt32.toNat_zero, Nat.zero_add]
    exact hfit
  have htotal := sum_stakes_toNat hfit
  rw [Committee.quorumThresholdChecked, hsum]
  show (checkedMul 2 _ >>= fun doubled => checkedAdd (doubled / 3) 1) = _
  rw [checkedMul, htotal]
  by_cases h : c.total < 2 ^ 31
  · have hmul : (2 : Stake).toNat * c.total < 2 ^ 32 := by
      simp only [UInt32.reduceToNat]
      omega
    rw [if_pos hmul, if_pos h]
    show checkedAdd (2 * _ / 3) 1 = _
    rw [checkedAdd, if_pos]
    · rfl
    · simp only [UInt32.toNat_div, UInt32.toNat_mul, UInt32.reduceToNat, htotal]
      omega
  · have hmul : ¬ (2 : Stake).toNat * c.total < 2 ^ 32 := by
      simp only [UInt32.reduceToNat]
      omega
    rw [if_neg hmul, if_neg h]
    rfl

/-- The threshold of a total whose double does not fit. -/
theorem quorumThreshold_wrapped (hfit : c.total < 2 ^ 32) (h : 2 ^ 31 ≤ c.total) :
    c.quorumThreshold.toNat = (2 * c.total - 2 ^ 32) / 3 + 1 := by
  have hmod : 2 * c.total % 2 ^ 32 = 2 * c.total - 2 ^ 32 := by omega
  unfold Committee.quorumThreshold
  simp only [UInt32.toNat_add, UInt32.toNat_div, UInt32.toNat_mul, UInt32.reduceToNat,
    sum_stakes_toNat hfit, hmod]
  omega

/-- As long as the product fits, quorums intersect. -/
theorem intersects_of_fits (hpos : 1 ≤ c.total) (h : c.total < 2 ^ 31) :
    c.Intersects c.quorumThreshold := by
  have hw : c.weigh c.voters = c.total := Committee.weight_voters
  constructor
  · rw [hw, Committee.quorumThreshold_toNat h]
    omega
  · intro A hA B hB ha hb
    rw [Committee.quorumThreshold_toNat h] at ha hb
    have hwU : weight (fun a => (c.stake a).toNat) c.voters = c.total := Committee.weight_voters
    rw [← hwU] at ha hb ⊢
    unfold Committee.weigh at ha hb ⊢
    exact weight_inter_third hA hB (by omega) (by omega)

/-- With a product that does not fit, quorums intersect only around one authority. -/
theorem intersects_wrapped_iff (hfit : c.total < 2 ^ 32) (h : 2 ^ 31 ≤ c.total) :
    c.Intersects c.quorumThreshold ↔
      ∃ a ∈ c.voters, 3 * (c.total - (c.stake a).toNat) ≤ 2 * c.total - 2 ^ 32 := by
  have hq := quorumThreshold_wrapped hfit h
  have hw : weight (fun a => (c.stake a).toNat) c.voters = c.total := Committee.weight_voters
  constructor
  · intro hi
    obtain ⟨a, ha, hle⟩ := exists_dictator (w := fun a => (c.stake a).toNat) (U := c.voters)
      (m := (2 * c.total - 2 ^ 32) / 3) (by omega) (by
        intro A hA hlt
        by_contra hc
        have hdis := hi.common A hA (c.voters \ A) Finset.sdiff_subset
          (by rw [hq]; exact hlt) (by rw [hq]; exact not_le.mp hc)
        rw [Finset.inter_sdiff_self, Committee.weigh, weight, Finset.sum_empty] at hdis
        omega)
    have herase := weight_erase (w := fun a => (c.stake a).toNat) ha
    exact ⟨a, ha, by omega⟩
  · rintro ⟨a, ha, hle⟩
    -- whoever reaches the threshold has this authority on board
    have hmem : ∀ A ⊆ c.voters, c.quorumThreshold.toNat ≤ c.weigh A → a ∈ A := by
      intro A hA hreach
      by_contra hno
      have hsub : A ⊆ c.voters.erase a := Finset.subset_erase.mpr ⟨hA, hno⟩
      have hlight := weight_mono (w := fun a => (c.stake a).toNat) hsub
      have herase := weight_erase (w := fun a => (c.stake a).toNat) ha
      unfold Committee.weigh at hreach
      omega
    constructor
    · unfold Committee.weigh
      omega
    · intro A hA B hB hreach hreach'
      have hcommon : {a} ⊆ A ∩ B :=
        Finset.singleton_subset_iff.mpr
          (Finset.mem_inter.mpr ⟨hmem A hA hreach, hmem B hB hreach'⟩)
      have hheavy := weight_mono (w := fun a => (c.stake a).toNat) hcommon
      rw [weight, Finset.sum_singleton] at hheavy
      unfold Committee.weigh
      omega

/-- **When quorums intersect.**  With overflow checks: if and only if the total stake is below
`2 ^ 31`.  Without: if and only if it is, or one authority leaves so little to the others that they
do not reach the wrapped threshold together. -/
theorem quorums_intersect_iff (c : Committee) (hpos : 1 ≤ c.total) (hfit : c.total < 2 ^ 32) :
    ((∃ q, c.quorumThresholdChecked = .ok q ∧ c.Intersects q) ↔ c.total < 2 ^ 31) ∧
    (c.Intersects c.quorumThreshold ↔ c.total < 2 ^ 31 ∨
      ∃ a ∈ c.voters, 3 * (c.total - (c.stake a).toNat) ≤ 2 * c.total - 2 ^ 32) := by
  constructor
  · rw [quorumThresholdChecked_eq hfit]
    constructor
    · rintro ⟨q, hq, -⟩
      by_contra h
      rw [if_neg h] at hq
      cases hq
    · intro h
      exact ⟨_, if_pos h, intersects_of_fits hpos h⟩
  · by_cases h : c.total < 2 ^ 31
    · exact ⟨fun _ => .inl h, fun _ => intersects_of_fits hpos h⟩
    · rw [intersects_wrapped_iff hfit (not_lt.mp h)]
      constructor
      · exact .inr
      · rintro (h' | h')
        · exact absurd h' h
        · exact h'

/-- Four votes of five. -/
theorem quorums_intersect_iff_pair :
    (Committee.new [(keyA, 4), (keyB, 1)]).Intersects
      (Committee.new [(keyA, 4), (keyB, 1)]).quorumThreshold :=
  (quorums_intersect_iff _ (by decide +kernel) (by decide +kernel)).2.mpr (.inl (by decide +kernel))

/-- Two authorities with a stake of `2 ^ 30` each. -/
def halves : Committee := .new [(keyA, 2 ^ 30), (keyB, 2 ^ 30)]

/-- **Two halves are two disjoint quorums.** -/
theorem quorums_disjoint : halves.total = 2 ^ 31 ∧
    halves.quorumThresholdChecked = .error .overflow ∧ halves.quorumThreshold = 1 ∧
    halves.quorumThreshold.toNat ≤ halves.weigh {keyA} ∧
    halves.quorumThreshold.toNat ≤ halves.weigh {keyB} ∧ ¬ halves.Intersects halves.quorumThreshold := by
  have hA : halves.quorumThreshold.toNat ≤ halves.weigh {keyA} := by decide +kernel
  have hB : halves.quorumThreshold.toNat ≤ halves.weigh {keyB} := by decide +kernel
  refine ⟨by decide +kernel, by decide +kernel, by decide +kernel, hA, hB, ?_⟩
  intro h
  have hcommon := h.common {keyA} (by decide +kernel) {keyB} (by decide +kernel) hA hB
  exact absurd hcommon (by decide +kernel)

end AccountabilityGadget.Consensus
