import AccountabilityGadget.Checkpoint.Tally
import AccountabilityGadget.Lib.Binary32

/-!
# The thresholds in single precision

The extractor of the source compares a count of votes with `2.0/3.0` and `1.0/3.0` of the committee
size in `f32`.

* `moreThanTwoThirds`, `atLeastOneThird` — the two comparisons, in `Float32`.
* `twoThirds_iff`, `oneThird_iff` — up to `3 * 2 ^ 21` authorities they are the exact ones.
* `decision32`, `step32`, `run32` — the extractor with these comparisons.
* `extractor_f32` — it computes the same run as the exact one on every ledger.
-/

set_option autoImplicit false

namespace AccountabilityGadget

open Binary32
open CheckpointTransaction (tryFrom ShortKey)

/-- `n as f32` -/
def asF32 (n : ℕ) : Float32 := n.toUInt64.toFloat32

/-- `count as f32 > 2.0/3.0 * (size as f32)` -/
def moreThanTwoThirds (count size : ℕ) : Bool := 2.0 / 3.0 * asF32 size < asF32 count

/-- `count as f32 >= 1.0/3.0 * (size as f32)` -/
def atLeastOneThird (count size : ℕ) : Bool := 1.0 / 3.0 * asF32 size ≤ asF32 count

/-! ## The comparisons -/

/-- `2.0 / 3.0`, which is `(1 + 2 ^ (-25)) * 2 / 3`. -/
theorem denotes_twoThirds : Denotes (2.0 / 3.0) (11184811 * 2 ^ (-24 : ℤ)) := by
  have hunpack : (2.0 / 3.0 : Float32).toModel.unpack =
    .finite .positive 11184811 (-24) (by decide) := by rfl
  exact_mod_cast Denotes.normal hunpack (by decide) (by decide)

/-- `1.0 / 3.0`, half of it. -/
theorem denotes_oneThird : Denotes (1.0 / 3.0) (11184811 * 2 ^ (-25 : ℤ)) := by
  have hunpack : (1.0 / 3.0 : Float32).toModel.unpack =
    .finite .positive 11184811 (-25) (by decide) := by rfl
  exact_mod_cast Denotes.normal hunpack (by decide) (by decide)

theorem denotes_asF32 {n : ℕ} (h : n < 2 ^ 64) : ∃ v, Denotes (asF32 n) v ∧ Nearest n v := by
  obtain ⟨v, hv, hnear⟩ := denotes_natCast n.toUInt64
  rw [show n.toUInt64.toNat = n from UInt64.toNat_ofNat_of_lt' h] at hnear
  exact ⟨v, hv, hnear⟩

/-- The right-hand side of a comparison: a number nearest to the rounded fraction of the size. -/
theorem exists_product {c : Float32} {x : ℚ} (hc : Denotes c x) (hx : 1 / 4 ≤ x) (hx' : x ≤ 1)
    (size : ℕ) (h : size ≤ 2 ^ 24) : ∃ v, Denotes (c * asF32 size) v ∧ Nearest (x * size) v := by
  obtain ⟨s, hs, hnear⟩ := denotes_asF32 (n := size) (by omega)
  obtain rfl := hnear.eq_of_representable (representable_natCast h)
  have hle : (size : ℚ) ≤ 2 ^ 24 := by exact_mod_cast h
  refine hc.mul hs ?_ ?_
  · rcases Nat.eq_zero_or_pos size with rfl | hpos
    · left
      simp
    · right
      have hone : (1 : ℚ) ≤ size := by exact_mod_cast hpos
      calc (2 : ℚ) ^ (-100 : ℤ) ≤ 1 / 4 * 1 := by norm_num
        _ ≤ x * size := by gcongr
  · calc x * size ≤ 1 * 2 ^ 24 := by gcongr
      _ < 2 ^ (100 : ℤ) := by norm_num

/-- Below the exact fraction the rounded one is not exceeded. -/
theorem asF32_le {count : ℕ} {y v w : ℚ} (hv : Nearest y v) (hw : Nearest count w)
    (hcount : count ≤ 2 ^ 24) (h : (count : ℚ) ≤ y) : w ≤ v := by
  rw [hw.eq_of_representable (representable_natCast hcount)]
  exact hv.le_of_le (representable_natCast hcount) h

/-- The product with `2.0 / 3.0` is below the next integer. -/
theorem twoThirds_lt {size : ℕ} (h : size ≤ 3 * 2 ^ 21) {v : ℚ}
    (hv : Nearest (11184811 * 2 ^ (-24 : ℤ) * size) v) : v < (2 * size / 3 : ℕ) + 1 := by
  obtain ⟨j, r, hr, rfl⟩ : ∃ j r, r < 3 ∧ size = 3 * j + r :=
    ⟨size / 3, size % 3, Nat.mod_lt _ (by norm_num), (Nat.div_add_mod size 3).symm⟩
  have hj : (j : ℚ) ≤ 2 ^ 21 := by
    have : j ≤ 2 ^ 21 := by omega
    exact_mod_cast this
  have hconst : (11184811 * 2 ^ (-24 : ℤ) : ℚ) = 2 / 3 * (1 + 1 / 2 ^ 25) := by norm_num
  rw [hconst] at hv
  rcases (by omega : r = 0 ∨ r = 1 ∨ r = 2) with rfl | rfl | rfl
  · -- the product is just above an even integer
    rw [show 2 * (3 * j + 0) / 3 = 2 * j by omega]
    refine hv.lt_of_closer (representable_natCast (n := 2 * j) (by omega)) ?_
    push_cast
    rw [abs_lt]
    constructor <;> linarith
  · -- a quarter below the next integer
    rw [show 2 * (3 * j + 1) / 3 = 2 * j by omega]
    refine hv.lt_of_closer (representable_quarter (n := 8 * j + 3) (by omega)) ?_
    push_cast
    rw [abs_lt]
    constructor <;> linarith
  · rw [show 2 * (3 * j + 2) / 3 = 2 * j + 1 by omega]
    refine hv.lt_of_closer (representable_natCast (n := 2 * j + 1) (by omega)) ?_
    push_cast
    rw [abs_lt]
    constructor <;> linarith

/-- **The first comparison is exact.** -/
theorem twoThirds_iff {count size : ℕ} (hsize : size ≤ 3 * 2 ^ 21) (hcount : count < 2 ^ 64) :
    moreThanTwoThirds count size = true ↔ 2 * size < 3 * count := by
  obtain ⟨v, hv, hnear⟩ := exists_product denotes_twoThirds (by norm_num) (by norm_num)
    size (by omega)
  obtain ⟨w, hw, hnear'⟩ := denotes_asF32 hcount
  rw [moreThanTwoThirds, decide_eq_true_iff, hv.lt_iff hw]
  constructor
  · intro hlt
    by_contra hle
    have hle' : (3 * count : ℚ) ≤ 2 * size := by exact_mod_cast not_lt.mp hle
    refine absurd (asF32_le hnear hnear' (by omega) ?_) (not_le.mpr hlt)
    norm_num
    linarith
  · intro hlt
    have hnext : 2 * size / 3 + 1 ≤ count := by omega
    have hrep := representable_natCast (n := 2 * size / 3 + 1) (by omega)
    calc v < (2 * size / 3 : ℕ) + 1 := twoThirds_lt hsize hnear
      _ = ((2 * size / 3 + 1 : ℕ) : ℚ) := by push_cast; rfl
      _ ≤ w := hnear'.le_of_le hrep (by exact_mod_cast hnext)

/-- A third of the size is not exceeded by the product with `1.0 / 3.0`. -/
theorem oneThird_le {size count : ℕ} (h : size ≤ 3 * 2 ^ 21) (hcount : size ≤ 3 * count) {v : ℚ}
    (hv : Nearest (11184811 * 2 ^ (-25 : ℤ) * size) v) : v ≤ count := by
  obtain ⟨j, r, hr, rfl⟩ : ∃ j r, r < 3 ∧ size = 3 * j + r :=
    ⟨size / 3, size % 3, Nat.mod_lt _ (by norm_num), (Nat.div_add_mod size 3).symm⟩
  have hj : (j : ℚ) ≤ 2 ^ 21 := by
    have : j ≤ 2 ^ 21 := by omega
    exact_mod_cast this
  have hconst : (11184811 * 2 ^ (-25 : ℤ) : ℚ) = 1 / 3 * (1 + 1 / 2 ^ 25) := by norm_num
  rw [hconst] at hv
  rcases Nat.eq_zero_or_pos r with rfl | hpos
  · -- the product is just above an integer, and no number is nearer
    suffices hle : v ≤ j by
      have : j ≤ count := by omega
      exact hle.trans (by exact_mod_cast this)
    rcases Nat.eq_zero_or_pos j with rfl | hj'
    · have hzero := hv.eq_of_representable (by simpa using representable_natCast (n := 0) (by omega))
      simp [hzero]
    · by_contra hlt
      have hgap := hv.representable.gap hj' (by omega) (not_le.mp hlt)
      have hnear := hv.le _ (representable_natCast (n := j) (by omega))
      have hjpos : (0 : ℚ) < j := by exact_mod_cast hj'
      push_cast at hnear
      rw [abs_le] at hnear
      rw [abs_of_neg (by linarith)] at hnear
      linarith [hnear.2]
  · have hnext : j + 1 ≤ count := by omega
    calc v ≤ ((j + 1 : ℕ) : ℚ) := by
            refine hv.ge_of_ge (representable_natCast (by omega)) ?_
            have : (r : ℚ) ≤ 2 := by exact_mod_cast (by omega : r ≤ 2)
            push_cast
            linarith
      _ ≤ count := by exact_mod_cast hnext

/-- Fewer than a third of the size are below the product with `1.0 / 3.0`. -/
theorem lt_oneThird {size count : ℕ} (h : size ≤ 3 * 2 ^ 21) (hcount : 3 * count < size) {v : ℚ}
    (hv : Nearest (11184811 * 2 ^ (-25 : ℤ) * size) v) : (count : ℚ) < v := by
  have hconst : (11184811 * 2 ^ (-25 : ℤ) : ℚ) = 1 / 3 * (1 + 1 / 2 ^ 25) := by norm_num
  have hsize : (3 * count + 1 : ℚ) ≤ size := by exact_mod_cast hcount
  rw [hconst] at hv
  calc (count : ℚ) < (4 * count + 1 : ℕ) / 4 := by push_cast; linarith
    _ ≤ v := by
      refine hv.le_of_le (representable_quarter (by omega)) ?_
      push_cast
      linarith

/-- **So is the second.** -/
theorem oneThird_iff {count size : ℕ} (hsize : size ≤ 3 * 2 ^ 21) (hcount : count < 2 ^ 64) :
    atLeastOneThird count size = true ↔ size ≤ 3 * count := by
  obtain ⟨v, hv, hnear⟩ := exists_product denotes_oneThird (by norm_num) (by norm_num)
    size (by omega)
  obtain ⟨w, hw, hnear'⟩ := denotes_asF32 hcount
  rw [atLeastOneThird, decide_eq_true_iff, hv.le_iff hw]
  constructor
  · intro hle
    by_contra hlt
    rw [hnear'.eq_of_representable (representable_natCast (by omega))] at hle
    exact absurd hle (not_le.mpr (lt_oneThird hsize (by omega) hnear))
  · intro hle
    -- the first count that reaches the third is a float
    have hnext : (size + 2) / 3 ≤ count := by omega
    calc v ≤ ((size + 2) / 3 : ℕ) := oneThird_le hsize (by omega) hnear
      _ ≤ w := hnear'.le_of_le (representable_natCast (by omega)) (by exact_mod_cast hnext)

/-- One authority more, and a count above two thirds is not seen to be above. -/
example : moreThanTwoThirds 4194305 6291457 = false ∧ 2 * 6291457 < 3 * 4194305 := by
  decide +kernel

/-! ## The extractor -/

namespace Extractor

/-- `decision`, with the comparisons of the source. -/
def decision32 (ord : VoteOrder) (n : ℕ) (votes : Votes) : Option (Option Digest) :=
  let bs := ((values ord votes).filterMap Vote.accepted).eraseDups
  match bs.find? fun b => moreThanTwoThirds ((values ord votes).count (.accept b)) n with
  | some b => some (some b)
  | none => if atLeastOneThird ((values ord votes).count .reject) n then some none else none

/-- `step`, with the comparisons of the source. -/
def step32 (ord : VoteOrder) (cr : Crypto) (committee : CheckpointCommittee) (s : Extractor)
    (tx : Bytes) : Except Panic (Extractor × Option CheckpointEvent) :=
  match tryFrom cr tx with
  | .error (.panic p) => .error p
  | .error (.reject _) => .ok (s, none)
  | .ok vote =>
    match vote.verifySignature cr committee with
    | .error _ => .ok (s, none)
    | .ok () =>
      let currentVotes := s.record vote.author vote.action
      match decision32 ord committee.size currentVotes with
      | some v => .ok (⟨s.currentIteration + 1, ∅⟩, some (.newCheckpoint s.currentIteration v))
      | none => .ok ({ s with currentVotes }, none)

/-- The ledger from position `k` on. -/
def run32 (ord : ℕ → VoteOrder) (cr : Crypto) (committee : CheckpointCommittee) :
    ℕ → Extractor → List Bytes → List (ℕ × CheckpointEvent) × Except Panic Extractor
  | _, s, [] => ([], .ok s)
  | k, s, tx :: L =>
    match step32 (ord k) cr committee s tx with
    | .error p => ([], .error p)
    | .ok (s', ev) =>
      let r := run32 ord cr committee (k + 1) s' L
      ((ev.map fun e => (k, e)).toList ++ r.1, r.2)

variable {cr : Crypto} {committee : CheckpointCommittee}

theorem decision32_eq (ord : VoteOrder) {n : ℕ} {votes : Votes} (hn : n ≤ 3 * 2 ^ 21)
    (hvotes : ∀ v, (Scan.keysOf votes v).card ≤ n) :
    decision32 ord n votes = decision ord n votes := by
  have hcount : ∀ v, (values ord votes).count v < 2 ^ 64 := by
    intro v
    rw [count_values]
    exact (hvotes v).trans_lt (by omega)
  have htwo : ∀ b, moreThanTwoThirds ((values ord votes).count (.accept b)) n =
      decide (2 * n < 3 * (values ord votes).count (.accept b)) := fun b =>
    Bool.eq_iff_iff.mpr ((twoThirds_iff hn (hcount _)).trans decide_eq_true_iff.symm)
  unfold decision32 decision
  simp only [htwo]
  cases List.find? _ _ with
  | some b => simp only
  | none => simp only [oneThird_iff hn (hcount _)]

/-- One transaction, when no more keys than authorities vote. -/
theorem step32_eq (o : VoteOrder) {s : Extractor} {i : ℕ} {seg : List Bytes}
    (ht : Tracks cr committee s i seg) (hn : committee.size ≤ 3 * 2 ^ 21) (tx : Bytes) :
    step32 o cr committee s tx = step o cr committee s tx := by
  unfold step32 step
  cases htx : tryFrom cr tx with
  | error e => cases e <;> rfl
  | ok vote =>
    cases hv : vote.verifySignature cr committee with
    | error e => simp only [hv]
    | ok u =>
      have hvalid : validVote cr committee tx = some (vote.author, vote.action) := by
        simp [validVote, htx, hv]
      have hkeys := (ht.record hvalid).keysOf
      simp only at hkeys
      have hvotes : ∀ v, (Scan.keysOf (s.record vote.author vote.action) v).card ≤
          committee.size := by
        intro v
        rw [hkeys]
        exact (Finset.card_filter_le _ _).trans CheckpointCommittee.card_voters_le
      cases hd : decision o committee.size (s.record vote.author vote.action) <;>
        simp only [hv, decision32_eq o hn hvotes, hd]

theorem run32_eq (ord : ℕ → VoteOrder) (hn : committee.size ≤ 3 * 2 ^ 21) :
    ∀ (L : List Bytes) (k : ℕ) {s : Extractor} {i : ℕ} {seg : List Bytes},
      Tracks cr committee s i seg → run32 ord cr committee k s L = run ord cr committee k s L
  | [], _, _, _, _, _ => rfl
  | tx :: L, k, s, i, seg, ht => by
    rw [run32, step32_eq (ord k) ht hn, run]
    by_cases hk : ShortKey cr tx
    · rw [step_shortKey hk]
    · rw [step_not_shortKey hk]
      rcases ht.handle (ord k) tx with ⟨v, -, he⟩ | ⟨-, -, ht'⟩
      · simp only [he, run32_eq ord hn L (k + 1) (tracks_fresh (i + 1))]
      · simp only [run32_eq ord hn L (k + 1) ht']

/-- **Up to `3 * 2 ^ 21` authorities the comparisons in single precision change nothing.** -/
theorem extractor_f32 (cr : Crypto) (committee : CheckpointCommittee)
    (hn : committee.size ≤ 3 * 2 ^ 21) (ord : ℕ → VoteOrder) (L : List Bytes) :
    run32 ord cr committee 0 new L = run ord cr committee 0 new L :=
  run32_eq ord hn L 0 (tracks_fresh 0)

theorem extractor_f32_sole : soleCommittee.size ≤ 3 * 2 ^ 21 ∧
    run32 (fun _ => .stored) sampleCrypto soleCommittee 0 new [soleVote (.accept 0 .default)] =
      run (fun _ => .stored) sampleCrypto soleCommittee 0 new [soleVote (.accept 0 .default)] :=
  ⟨by decide, extractor_f32 sampleCrypto soleCommittee (by decide) _ _⟩

end Extractor

end AccountabilityGadget
