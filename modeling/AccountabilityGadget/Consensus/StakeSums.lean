import AccountabilityGadget.Consensus.Rounds

/-!
# The stakes that are summed up (`consensus/src/config.rs`, `messages.rs`, `aggregator.rs`)

Stakes are `u32` values.  `quorum_threshold` sums up all of them and doubles the sum, certificates
are verified with the sum of the stakes behind them, and a maker adds those of its votes.

* `Committee.thresholdSums`, `certificateSums`, `Block.verifySums`, `Maker.sums` — the sums that the
  source forms, as natural numbers.
* `tallySums_le`, `Maker.Sound.weight_le` — authorities are counted once, so that no sum of their
  stakes exceeds the total.
* `Core.stakeSums_lt` — a total below `2 ^ 31` keeps all sums of a core below `2 ^ 32`.
-/

set_option autoImplicit false

namespace AccountabilityGadget.Consensus

open Encoding

/-! ## Sums -/

/-- The sums of `quorum_threshold`; those on the way to the total are smaller. -/
def Committee.thresholdSums (c : Committee) : List ℕ :=
  [c.total, 2 * c.total, 2 * c.total / 3 + 1]

/-- The sums of `tally`. -/
def tallySums (c : Committee) : List PublicKey → List PublicKey → ℕ → List ℕ
  | [], _, _ => []
  | name :: names, used, weight =>
    if name ∈ used ∨ c.stake name = 0 then []
    else
      let weight := weight + (c.stake name).toNat
      weight :: tallySums c names (name :: used) weight

/-- The sums of `QC::verify` and of `TC::verify`. -/
def certificateSums (c : Committee) (names : List PublicKey) : List ℕ :=
  tallySums c names [] 0 ++ match tally c names [] 0 with
    | .ok _ => c.thresholdSums
    | .error _ => []

/-- The sums of `Block::verify`. -/
def Block.verifySums (cr : BatchCrypto) (c : Committee) (b : Block) : List ℕ :=
  if 0 < c.stake b.author ∧ cr.verify b.signature (b.digest cr) b.author = true then
    (if b.qc.eq .genesis then [] else certificateSums c (b.qc.votes.map Prod.fst)) ++
      if b.qc.eq .genesis ∨ b.qc.verify cr c = .ok () then
        b.tc.toList.flatMap fun tc => certificateSums c (tc.votes.map Prod.fst)
      else []
  else []

/-- The sums of `append`. -/
def Maker.sums {α : Type} (c : Committee) (m : Maker α) (author : PublicKey) : List ℕ :=
  if author ∈ m.used then [] else (m.weight.toNat + (c.stake author).toNat) :: c.thresholdSums

/-- The sums of stakes that the pending call forms. -/
def Core.stakeSums (env : Env) (s : Core) : List ℕ :=
  match s.call with
  | .handleProposal b =>
    if b.author = env.leader b.round then b.verifySums env.cr env.committee else []
  | .handleVote v =>
    if s.round ≤ v.round ∧ v.verify env.cr env.committee = .ok () then
      (s.aggregator.votesAggregators v.round (v.digest env.cr)).sums env.committee v.author
    else []
  | .handleTimeout t =>
    if s.round ≤ t.round ∧ t.verify env.cr env.committee = .ok () then
      (s.aggregator.timeoutsAggregators t.round).sums env.committee t.author
    else []
  | _ => []

/-! ## Bounds -/

section

variable {c : Committee} {names used : List PublicKey} {weight n : ℕ}

theorem tallySums_le : ∀ {names used : List PublicKey} {weight : ℕ}, used.Nodup →
    (∀ a ∈ used, 0 < c.stake a) → weight = (used.map fun a => (c.stake a).toNat).sum →
      ∀ n ∈ tallySums c names used weight, n ≤ c.total
  | [], _, _, _, _, _ => fun _ hn => by cases hn
  | name :: names, used, weight, hnodup, hstake, hweight => by
    intro n hn
    rw [tallySums] at hn
    split_ifs at hn with hstop
    · cases hn
    · obtain ⟨hfresh, hzero⟩ := not_or.mp hstop
      have hnodup' : (name :: used).Nodup := List.nodup_cons.mpr ⟨hfresh, hnodup⟩
      have hstake' : ∀ a ∈ name :: used, 0 < c.stake a := by
        intro a ha
        rcases List.mem_cons.mp ha with rfl | ha
        · exact UInt32.pos_iff_ne_zero.mpr hzero
        · exact hstake a ha
      have hweight' : weight + (c.stake name).toNat =
          ((name :: used).map fun a => (c.stake a).toNat).sum := by
        rw [List.map_cons, List.sum_cons, hweight, Nat.add_comm]
      rcases List.mem_cons.mp hn with rfl | hn
      · rw [hweight']
        exact sum_stakes_le hnodup' hstake'
      · exact tallySums_le hnodup' hstake' hweight' n hn

variable (hc : c.total < 2 ^ 31)

include hc

theorem thresholdSums_lt (hn : n ∈ c.thresholdSums) : n < 2 ^ 32 := by
  simp only [Committee.thresholdSums, List.mem_cons, List.not_mem_nil, or_false] at hn
  omega

theorem certificateSums_lt (hn : n ∈ certificateSums c names) : n < 2 ^ 32 := by
  rcases List.mem_append.mp hn with hn | hn
  · have hle := tallySums_le List.nodup_nil (fun a ha => by cases ha) rfl n hn
    omega
  · split at hn
    · exact thresholdSums_lt hc hn
    · cases hn

theorem Block.verifySums_lt {cr : BatchCrypto} {b : Block} (hn : n ∈ b.verifySums cr c) :
    n < 2 ^ 32 := by
  unfold Block.verifySums at hn
  split at hn
  · rcases List.mem_append.mp hn with hn | hn
    · split at hn
      · cases hn
      · exact certificateSums_lt hc hn
    · split at hn
      · obtain ⟨tc, -, hn⟩ := List.mem_flatMap.mp hn
        exact certificateSums_lt hc hn
      · cases hn
  · cases hn

omit hc in
/-- A vote that is new weighs no more than what is left of the total. -/
theorem Maker.Sound.weight_le {α : Type} {P : PublicKey × α → Prop} {m : Maker α}
    (h : Sound c P m) {author : PublicKey} (hu : author ∉ m.used) (hs : 0 < c.stake author) :
    m.weight.toNat + (c.stake author).toNat ≤ c.total := by
  have hfresh : author ∉ m.votes.map Prod.fst := fun hmem => hu (h.used author hmem)
  have hle := sum_stakes_le (List.nodup_cons.mpr ⟨hfresh, h.nodup⟩)
    (List.forall_mem_cons.mpr ⟨hs, h.stake⟩)
  have hweight := h.weight
  rw [List.map_cons, List.sum_cons] at hle
  omega

theorem Maker.Sound.sums_lt {α : Type} {P : PublicKey × α → Prop} {m : Maker α}
    (h : Sound c P m) {author : PublicKey} (hs : 0 < c.stake author)
    (hn : n ∈ m.sums c author) : n < 2 ^ 32 := by
  unfold Maker.sums at hn
  split at hn
  · cases hn
  · rename_i hu
    rcases List.mem_cons.mp hn with rfl | hn
    · have hle := h.weight_le hu hs
      omega
    · exact thresholdSums_lt hc hn

end

/-! ## Over a run -/

/-- No evidence at all. -/
def Evidence.none : Evidence where
  sig _ _ := True
  timeoutSig _ _ := True
  vote _ := True
  timeout _ := True
  qc _ := True
  tc _ := True
  block _ := True

variable {env : Env} {s s' : Core}

theorem CallBacked.none (r : RoundNumber) (c : Call) : CallBacked env .none r c := by
  cases c with
  | handleProposal b => exact fun _ => ⟨trivial, fun _ _ => trivial⟩
  | processTc b => exact fun _ _ => trivial
  | handleVote v => exact fun _ => trivial
  | handleTimeout t => exact fun _ => trivial
  | handleTc tc => exact fun _ => trivial
  | _ => trivial

/-- The makers of a core stay sound, whatever it receives. -/
theorem backed_step_none (h : Backed env .none s) {i : Core.Input} (hs : s.step env i = some s') :
    Backed env .none s' := by
  have hclosed : Evidence.none.Closed env :=
    ⟨trivial, fun _ _ => trivial, fun _ _ => trivial, fun _ _ _ _ _ _ _ => trivial,
      fun _ _ _ => trivial⟩
  refine h.step hclosed ?_ hs ⟨fun _ _ _ => trivial, fun _ _ _ _ => trivial⟩
  cases i with
  | deliver m => exact fun c _ => .none s.round c
  | _ => trivial

/-- **No sum of stakes overflows.** -/
theorem Core.stakeSums_lt (hc : env.committee.total < 2 ^ 31) (h : Backed env .none s) :
    ∀ n ∈ s.stakeSums env, n < 2 ^ 32 := by
  intro n hn
  unfold Core.stakeSums at hn
  split at hn
  · split at hn
    · exact Block.verifySums_lt hc hn
    · cases hn
  · split at hn
    · rename_i hv
      exact (h.aggregator.votes _ _).sums_lt hc (Vote.verify_eq_ok.mp hv.2).1 hn
    · cases hn
  · split at hn
    · rename_i hv
      exact (h.aggregator.timeouts _).sums_lt hc (Timeout.verify_eq_ok.mp hv.2).1 hn
    · cases hn
  · cases hn

end AccountabilityGadget.Consensus
