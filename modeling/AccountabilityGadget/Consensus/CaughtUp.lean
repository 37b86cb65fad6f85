import AccountabilityGadget.Consensus.Aggregation
import AccountabilityGadget.Consensus.StakeSums

/-!
# When a leader has caught up

A timeout carries the round of its author's highest certificate but not the certificate, so that a
leader knows of it only from proposals and votes.

* `Learned`, `Core.learned` — the certificates of votes that a core has processed and the timeouts
  that it has collected, in the order of the messages that brought them.
* `Informed` — once the timeouts of a round are those of a quorum, each of the rounds that they
  report has been reached by a certificate processed before.
* `Tracked`, `Tracked.step` — the highest certificate is above all that was learned, and the makers
  hold the timeouts that were.
* `Tracked.caughtUp` — a leader that is informed has caught up with the timeouts when they complete.
-/

set_option autoImplicit false

namespace AccountabilityGadget.Consensus

/-- What a core learns from a message. -/
inductive Learned where
  /-- A certificate of votes of the round, in a proposal that passes the checks, or assembled. -/
  | certificate (round : RoundNumber)
  /-- The first timeout of its author for a round that is not over. -/
  | timeout (t : Timeout)
  deriving DecidableEq

/-- The timeouts of a round. -/
def timeoutsOf (ls : List Learned) (round : RoundNumber) : List Timeout :=
  ls.filterMap fun
    | .timeout t => if t.round = round then some t else none
    | .certificate _ => none

/-- If the timeouts of the round are those of a quorum, what they report is not news. -/
def Informed (c : Committee) (ls : List Learned) (round : RoundNumber) : Prop :=
  c.quorumThreshold.toNat ≤ ((timeoutsOf ls round).map fun t => (c.stake t.author).toNat).sum →
    ∀ t ∈ timeoutsOf ls round, t.highQcRound = 0 ∨
      ∃ r, .certificate r ∈ ls ∧ t.highQcRound ≤ r

namespace Core

variable (env : Env)

/-- The round of the certificate of votes that a step processes. -/
def learnedQc (s : Core) : Input → Option RoundNumber
  | .next =>
    match s.call with
    | .handleProposal _ | .handleVote _ => s.certificate env
    | _ => none
  | _ => none

/-- The timeout that a step collects. -/
def learnedTimeout (s : Core) (i : Input) : Option Timeout :=
  match s.handed env i with
  | some (.timeout t) =>
    if t.author ∈ (s.aggregator.timeoutsAggregators t.round).used then none else some t
  | _ => none

def learned (s : Core) (i : Input) : List Learned :=
  (s.learnedQc env i).toList.map .certificate ++ (s.learnedTimeout env i).toList.map .timeout

/-- The core handles a timeout that completes a certificate, with which it makes a block. -/
structure Completes (s : Core) (t : Timeout) : Prop where
  call : s.call = .handleTimeout t
  round : s.round ≤ t.round
  verify : t.verify env.cr env.committee = .ok ()
  fresh : t.author ∉ (s.aggregator.timeoutsAggregators t.round).used
  quorum : env.committee.quorumThreshold ≤
    (s.aggregator.timeoutsAggregators t.round).weight + env.committee.stake t.author
  leader : env.name = env.leader (t.round + 1)
  proposes : env.boycottProposals = false

/-- No timeout of the certificate reports a certificate above the highest one. -/
def CaughtUp (s : Core) : Prop :=
  ∀ t, s.Completes env t → t.highQcRound ≤ s.highQc.round ∧
    ∀ v ∈ (s.aggregator.timeoutsAggregators t.round).votes, v.2.2 ≤ s.highQc.round

end Core

/-- What a maker keeps of a timeout. -/
def Timeout.entry (t : Timeout) : PublicKey × Signature × RoundNumber :=
  (t.author, t.signature, t.highQcRound)

/-- What a core has learned is in its state. -/
structure Tracked (env : Env) (s : Core) (ls : List Learned) : Prop where
  certificates : ∀ r, .certificate r ∈ ls → r ≤ s.highQc.round
  timeouts : s.round ≠ 0 → ∀ r, s.round ≤ r →
    (s.aggregator.timeoutsAggregators r).votes = (timeoutsOf ls r).map Timeout.entry
  backed : Backed env .none s

variable {env : Env} {s s' : Core} {ls : List Learned} {i : Core.Input} {t : Timeout}
  {r : RoundNumber}

/-! ## What is learned -/

theorem timeoutsOf_append (ls ls' : List Learned) (r : RoundNumber) :
    timeoutsOf (ls ++ ls') r = timeoutsOf ls r ++ timeoutsOf ls' r :=
  List.filterMap_append

theorem timeoutsOf_certificates (o : Option RoundNumber) :
    timeoutsOf (o.toList.map .certificate) r = [] := by
  cases o <;> rfl

namespace Core

theorem certificate_mem_learned :
    .certificate r ∈ s.learned env i ↔ s.learnedQc env i = some r := by
  simp [learned]

theorem timeoutsOf_learned :
    timeoutsOf (s.learned env i) r = (s.learnedTimeout env i).toList.filter (·.round = r) := by
  rw [learned, timeoutsOf_append, timeoutsOf_certificates, List.nil_append]
  cases s.learnedTimeout env i with
  | none => rfl
  | some t => by_cases ht : t.round = r <;> simp [timeoutsOf, ht]

theorem highQc_le_processQc (qc : QC) : s.highQc.round ≤ (s.processQc qc).highQc.round := by
  rw [highQc_processQc]
  split
  · exact le_of_lt ‹_›
  · exact le_refl _

theorem le_highQc_processQc (qc : QC) : qc.round ≤ (s.processQc qc).highQc.round := by
  rw [highQc_processQc]
  split
  · exact le_refl _
  · exact not_lt.mp ‹_›

/-- The highest certificate only gets higher. -/
theorem highQc_le_step (hs : s.step env i = some s') : s.highQc.round ≤ s'.highQc.round := by
  -- the step moves the pacemaker as `u` does
  have hsame : ∀ {u : Core}, u.SamePace s' → s.highQc.round ≤ u.highQc.round →
      s.highQc.round ≤ s'.highQc.round := by
    intro u hp hu
    rw [hp.highQc]
    exact hu
  have hadvance : ∀ {u : Core} {r}, (u.advanceRound r).SamePace s' → u.highQc = s.highQc →
      s.highQc.round ≤ s'.highQc.round := by
    intro u r hp hu
    apply hsame hp
    rw [highQc_advanceRound, hu]
  have hprocess : ∀ {u : Core} {qc}, (u.processQc qc).SamePace s' → u.highQc = s.highQc →
      s.highQc.round ≤ s'.highQc.round := by
    intro u qc hp hu
    apply hsame hp
    rw [← hu]
    exact highQc_le_processQc qc
  cases step_moves hs with
  | still hp | receive _ hp | timer hp | vote hp => exact hsame hp (le_refl _)
  | collectVote _ _ hp | collectTimeout _ _ hp => exact hsame hp (le_refl _)
  | proposal _ _ hp | assembleQc _ _ _ _ hp => exact hprocess hp rfl
  | proposalTc _ _ hp | assembleTc _ _ _ _ hp | receiveTc _ hp => exact hadvance hp rfl

/-- The certificates of votes that a step processes are not above the highest one. -/
theorem learnedQc_le (hs : s.step env i = some s') (h : s.learnedQc env i = some r) :
    r ≤ s'.highQc.round := by
  unfold learnedQc at h
  split at h
  · split at h
    · rename_i b hcall
      simp only [step, runCall, hcall, Option.some.injEq] at hs
      subst hs
      simp only [certificate, hcall] at h
      split_ifs at h with hleader
      split at h
      · rename_i hv
        cases h
        simp only [handleProposal, hleader, ne_eq, not_true_eq_false, if_false, hv]
        exact le_highQc_processQc b.qc
      · cases h
    · rename_i v hcall
      simp only [step, runCall, hcall, Option.some.injEq] at hs
      subst hs
      simp only [certificate, hcall] at h
      split_ifs at h with hlt
      split at h
      · rename_i qc hv hqc
        cases h
        unfold handleVote
        rw [if_neg hlt, hv]
        dsimp only
        cases ha : s.aggregator.addVote env.cr env.committee v with
        | mk a o =>
          rw [ha] at hqc
          cases hqc
          dsimp only
          rw [(SamePace.refl.proposeIfLeader none).highQc]
          exact le_highQc_processQc qc
      · cases h
    · cases h
  · cases h

theorem learnedTimeout_eq_some : s.learnedTimeout env i = some t ↔
    s.handed env i = some (.timeout t) ∧
      t.author ∉ (s.aggregator.timeoutsAggregators t.round).used := by
  unfold learnedTimeout
  split
  · rename_i u hu
    rw [hu]
    constructor
    · intro h
      split at h <;> cases h
      exact ⟨rfl, ‹_›⟩
    · rintro ⟨h, hfresh⟩
      cases h
      exact if_neg hfresh
  · rename_i hno
    constructor
    · intro h
      cases h
    · exact fun h => absurd h.1 (hno t)

/-- A maker keeps the timeouts that are learned. -/
theorem timeouts_add {b : Ballot} (hb : s.handed env i = some b) (r : RoundNumber) :
    ((s.aggregator.add env.cr env.committee b).1.timeoutsAggregators r).votes =
      (s.aggregator.timeoutsAggregators r).votes ++
        (timeoutsOf (s.learned env i) r).map Timeout.entry := by
  rw [timeoutsOf_learned]
  cases b with
  | vote v =>
    have hnone : s.learnedTimeout env i = none := by
      unfold learnedTimeout
      rw [hb]
    rw [hnone]
    exact (List.append_nil _).symm
  | timeout t =>
    by_cases hu : t.author ∈ (s.aggregator.timeoutsAggregators t.round).used
    · have hnone : s.learnedTimeout env i = none := by
        unfold learnedTimeout
        rw [hb]
        exact if_pos hu
      rw [hnone]
      by_cases hr : r = t.round
      · subst hr
        simp [Aggregator.add, Aggregator.addTimeout, TCMaker.append, Maker.append, hu]
      · simp [Aggregator.add, Aggregator.addTimeout, hr]
    · rw [learnedTimeout_eq_some.mpr ⟨hb, hu⟩]
      by_cases hr : r = t.round
      · subst hr
        simp only [Aggregator.add, Aggregator.addTimeout, TCMaker.append, Prod.map_fst, id_eq,
          Function.update_self, Maker.append, if_neg hu]
        split <;> simp [Timeout.entry]
      · simp [Aggregator.add, Aggregator.addTimeout, hr, Ne.symm hr]

theorem round_le_of_ne_zero (hs : s.step env i = some s') (h0 : s'.round ≠ 0) :
    s.round ≤ s'.round := by
  rcases step_round hs with hround | ⟨-, r, -, hround⟩
  · exact le_of_eq hround.symm
  · rw [hround] at h0 ⊢
    exact (nextRound_lt h0).1

end Core

/-! ## Over a run -/

theorem tracked_new : Tracked env (Core.new env) [] where
  certificates r hr := by cases hr
  timeouts _ r _ := rfl
  backed := backed_new

namespace Tracked

/-- **Step lemma.** -/
theorem step (h : Tracked env s ls) (h0 : s.round ≠ 0) (hs : s.step env i = some s') :
    Tracked env s' (ls ++ s.learned env i) where
  certificates r hr := by
    rcases List.mem_append.mp hr with hr | hr
    · exact (h.certificates r hr).trans (Core.highQc_le_step hs)
    · exact Core.learnedQc_le hs (Core.certificate_mem_learned.mp hr)
  timeouts h0' r hr := by
    have hle := Core.round_le_of_ne_zero hs h0'
    have hold := h.timeouts h0 r (hle.trans hr)
    rw [timeoutsOf_append, List.map_append, ← hold]
    cases Core.step_collects hs with
    | idle hnone ha =>
      have hlearned : s.learnedTimeout env i = none := by
        unfold Core.learnedTimeout
        rw [hnone]
      rw [Core.timeoutsOf_learned, hlearned]
      rcases ha with ha | ha
      · rw [ha]
        exact (List.append_nil _).symm
      · rw [ha]
        simp [Aggregator.cleanup, hr]
    | count hb _ _ ha =>
      rw [ha]
      exact Core.timeouts_add hb r
    | complete hb _ _ _ ha =>
      rw [ha, ← Core.timeouts_add hb r]
      simp [Aggregator.cleanup, hr]
  backed := backed_step_none h.backed hs

/-- **A leader that is informed has caught up.** -/
theorem caughtUp (h : Tracked env s ls) (h0 : s.round ≠ 0)
    (hi : ∀ t, s.learnedTimeout env .next = some t → env.name = env.leader (t.round + 1) →
      env.boycottProposals = false → Informed env.committee (ls ++ [.timeout t]) t.round) :
    s.CaughtUp env := by
  intro t ht
  have hlearned : s.learnedTimeout env .next = some t := by
    refine Core.learnedTimeout_eq_some.mpr ⟨Core.handed_eq_some.mpr ⟨rfl, ?_, ?_⟩, ht.fresh⟩
    · rw [ht.call]
      rfl
    · exact ⟨ht.round, ht.verify⟩
  have hvotes := h.timeouts h0 t.round ht.round
  have hof : timeoutsOf (ls ++ [.timeout t]) t.round = timeoutsOf ls t.round ++ [t] := by
    rw [timeoutsOf_append]
    simp [timeoutsOf]
  -- the weight of the maker may wrap, but then it only gets smaller
  have hquorum : env.committee.quorumThreshold.toNat ≤
      ((timeoutsOf (ls ++ [.timeout t]) t.round).map fun u =>
        (env.committee.stake u.author).toNat).sum := by
    have hweight := (h.backed.aggregator.timeouts t.round).weight
    have hreached := UInt32.le_iff_toNat_le.mp ht.quorum
    rw [UInt32.toNat_add] at hreached
    rw [hvotes, List.map_map, List.map_map] at hweight
    rw [hof, List.map_append, List.sum_append]
    simp only [List.map_cons, List.map_nil, List.sum_cons, List.sum_nil, Nat.add_zero]
    change _ ≤ ((timeoutsOf ls t.round).map fun u => (env.committee.stake u.author).toNat).sum
      at hweight
    omega
  have hreport : ∀ u ∈ timeoutsOf ls t.round ++ [t], u.highQcRound ≤ s.highQc.round := by
    intro u hu
    rcases hi t hlearned ht.leader ht.proposes hquorum u (hof ▸ hu) with hzero | ⟨r, hr, hle⟩
    · rw [hzero]
      exact Fin.zero_le _
    · rcases List.mem_append.mp hr with hr | hr
      · exact hle.trans (h.certificates r hr)
      · cases List.mem_singleton.mp hr
  refine ⟨hreport t (by simp), ?_⟩
  intro v hv
  rw [hvotes] at hv
  obtain ⟨u, hu, rfl⟩ := List.mem_map.mp hv
  exact hreport u (List.mem_append_left _ hu)

end Tracked

end AccountabilityGadget.Consensus
