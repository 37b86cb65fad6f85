import AccountabilityGadget.Consensus.Voting

/-!
# What a step does to the pacemaker

The pacemaker is the round, the highest certificate and the aggregator.  Each step is one of a few
moves, which say what call they come from, what has been verified on the way and what call they end
in.

* `Core.Moves`, `Core.step_moves` — the moves, and that every step is one.
* `Core.Starts`, `Core.step_starts` — how `generate_proposal` comes to run.
* `Core.certificate`, `Core.step_round` — the round handed to `advance_round`, which alone changes
  the round.
* `Core.Writes`, `Core.step_writes` — what a step appends to the log; `Core.Fresh`, `Core.step_fresh`
  — the same, effect by effect.
-/

set_option autoImplicit false

namespace AccountabilityGadget.Consensus

/-- A call that brings nothing to the pacemaker. -/
def Call.Inert : Call → Prop
  | .idle | .verifying _ | .processBlock _ | .stopped _ => True
  | _ => False

/-- The handler of a message that concerns the pacemaker. -/
def ConsensusMessage.handler : ConsensusMessage → Option Call
  | .propose b => some (.handleProposal b)
  | .vote v => some (.handleVote v)
  | .timeout t => some (.handleTimeout t)
  | .tc c => some (.handleTc c)
  | .loopBack _ | .syncRequest _ _ => none

namespace Core

structure SamePace (s s' : Core) : Prop where
  round : s'.round = s.round
  highQc : s'.highQc = s.highQc
  aggregator : s'.aggregator = s.aggregator

/-- The moves, one for each way through the handlers. -/
inductive Moves (env : Env) (s : Core) : Input → Core → Prop where
  | still {i : Input} {s' : Core} : s.SamePace s' → s'.call.Inert ∨ s'.call = s.call →
      Moves env s i s'
  | receive {m : ConsensusMessage} {s' : Core} : m.handler = some s'.call → s.SamePace s' →
      Moves env s (.deliver m) s'
  | timer {s' : Core} : s.SamePace s' →
      s'.call = .handleTimeout (.new env.cr s.highQc.round s.round env.name) →
      .timeout (.new env.cr s.highQc.round s.round env.name) ∈ s'.log → Moves env s .timer s'
  /-- The own vote of the next leader. -/
  | vote {b : Block} {s' : Core} : s.SamePace s' → s'.call = .handleVote (.new env.cr b env.name) →
      .vote b ∈ s'.log → Moves env s .next s'
  | proposal {b : Block} {s' : Core} : s.call = .handleProposal b →
      b.verify env.cr env.committee = .ok () → (s.processQc b.qc).SamePace s' →
      s'.call = .processTc b → Moves env s .next s'
  | proposalTc {b : Block} {tc : TC} {s' : Core} : s.call = .processTc b → b.tc = some tc →
      (s.advanceRound tc.round).SamePace s' → s'.call.Inert → Moves env s .next s'
  | collectVote {v : Vote} {s' : Core} : s.call = .handleVote v →
      v.verify env.cr env.committee = .ok () →
      { s with aggregator := (s.aggregator.addVote env.cr env.committee v).1 }.SamePace s' →
      s'.call.Inert → Moves env s .next s'
  | assembleQc {v : Vote} {qc : QC} {s' : Core} : s.call = .handleVote v → s.round ≤ v.round →
      v.verify env.cr env.committee = .ok () →
      (s.aggregator.addVote env.cr env.committee v).2 = .ok (some qc) →
      ({ s with aggregator := (s.aggregator.addVote env.cr env.committee v).1 }.processQc
        qc).SamePace s' →
      s'.call.Inert ∨ s'.call = .generateProposal none → Moves env s .next s'
  | collectTimeout {t : Timeout} {s' : Core} : s.call = .handleTimeout t →
      t.verify env.cr env.committee = .ok () →
      { s with aggregator := (s.aggregator.addTimeout env.committee t).1 }.SamePace s' →
      s'.call.Inert → Moves env s .next s'
  | assembleTc {t : Timeout} {tc : TC} {s' : Core} : s.call = .handleTimeout t →
      s.round ≤ t.round → t.verify env.cr env.committee = .ok () →
      (s.aggregator.addTimeout env.committee t).2 = .ok (some tc) →
      ({ s with aggregator := (s.aggregator.addTimeout env.committee t).1 }.advanceRound
        tc.round).SamePace s' →
      s'.call.Inert ∨ env.name = env.leader s'.round ∧ s'.call = .generateProposal (some tc) →
      Moves env s .next s'
  | receiveTc {tc : TC} {s' : Core} : s.call = .handleTc tc →
      (s.advanceRound tc.round).SamePace s' →
      s'.call.Inert ∨ s'.call = .generateProposal (some tc) → Moves env s .next s'

/-- What a step from `s` can add to the log. -/
def Fresh (env : Env) (s : Core) : Effect → Prop
  | .propose b => env.boycottProposals = false ∧ ∃ tc payload, s.call = .generateProposal tc ∧
      b = .new env.cr s.highQc tc env.name s.round payload
  | .vote b => b.round = s.round
  | .timeout t => t = .new env.cr s.highQc.round s.round env.name
  | .send m _ => ∀ tc, m ≠ .tc tc
  | .cleanup digests _ => ∃ b0 b1 b, s.call = .processBlock b ∧
      s.getAncestors b = .ok (some (b0, b1)) ∧ digests = b0.payload ++ b1.payload ++ b.payload
  | _ => True

variable {env : Env} {s s' t : Core} {b : Block}

namespace SamePace

theorem refl : s.SamePace s := ⟨rfl, rfl, rfl⟩

theorem trans (h : s.SamePace s') (h' : s'.SamePace t) : s.SamePace t :=
  ⟨h'.round.trans h.round, h'.highQc.trans h.highQc, h'.aggregator.trans h.aggregator⟩

theorem withCall (h : s.SamePace s') (c : Call) : s.SamePace { s' with call := c } :=
  h.trans ⟨rfl, rfl, rfl⟩

theorem ret (h : s.SamePace s') (r : ConsensusResult Unit) : s.SamePace (s'.ret r) := by
  apply h.trans
  cases r with
  | ok u => exact ⟨rfl, rfl, rfl⟩
  | error e => dsimp only [Core.ret]; split <;> exact ⟨rfl, rfl, rfl⟩

theorem transmit (h : s.SamePace s') {m : ConsensusMessage} {receiver : Option PublicKey}
    (ht : s'.transmit env m receiver = .ok t) : s.SamePace t := by
  apply h.trans
  cases receiver with
  | none => cases ht; exact ⟨rfl, rfl, rfl⟩
  | some r =>
    dsimp only [Core.transmit] at ht
    split at ht
    · cases ht; exact ⟨rfl, rfl, rfl⟩
    · cases ht

theorem proposeIfLeader (h : s.SamePace s') (tc : Option TC) :
    s.SamePace (s'.proposeIfLeader env tc) := by
  unfold Core.proposeIfLeader
  split
  · exact h.withCall _
  · exact h.ret _

end SamePace

/-! ## Calls -/

theorem inert_ret (r : ConsensusResult Unit) : (s.ret r).call.Inert := by
  cases r with
  | ok u => trivial
  | error e => dsimp only [ret]; split <;> trivial

theorem call_proposeIfLeader (tc : Option TC) : (s.proposeIfLeader env tc).call.Inert ∨
    env.name = env.leader (s.proposeIfLeader env tc).round ∧
      (s.proposeIfLeader env tc).call = .generateProposal tc := by
  unfold proposeIfLeader
  split
  · exact .inr ⟨‹_›, rfl⟩
  · exact .inl (inert_ret _)

/-- A call that returns at once. -/
theorem Moves.ret (i : Input) (r : ConsensusResult Unit) : Moves env s i (s.ret r) :=
  .still (SamePace.refl.ret r) (.inl (inert_ret r))

theorem moves_voteFor {u : Core} (h : s.SamePace u) : Moves env s .next (u.voteFor env b) := by
  unfold voteFor
  cases hm : u.makeVote env b with
  | error p => exact .still (h.trans ⟨rfl, rfl, rfl⟩) (.inl trivial)
  | ok r =>
    have hret : ∀ {w : Core} (r), s.SamePace w → Moves env s .next (w.ret r) := fun r hw =>
      .still (hw.ret r) (.inl (inert_ret r))
    unfold makeVote at hm
    split at hm
    · cases hm
    · split at hm <;> cases hm
      · have hv : s.SamePace ((u.increaseLastVotedRound b.round).logged [.vote b]) :=
          h.trans ⟨rfl, rfl, rfl⟩
        dsimp only
        split
        · exact .vote (hv.withCall _) rfl (by simp [logged])
        · split
          · exact hret _ hv
          · rename_i ht
            exact hret _ (hv.transmit ht)
      · exact hret _ h

theorem moves_processBlock : Moves env s .next (s.processBlock env b) := by
  unfold processBlock
  split
  · exact .ret _ _
  · exact .still ⟨rfl, rfl, rfl⟩ (.inl trivial)
  · have hw : s.SamePace (s.wait env b) := by unfold wait; split <;> exact ⟨rfl, rfl, rfl⟩
    exact .still (hw.ret _) (.inl (inert_ret _))
  · rename_i b0 b1 _
    have hc : s.SamePace ((s.storeBlock env b).commitHead b0 b1 b) := by
      unfold commitHead
      split <;> exact ⟨rfl, rfl, rfl⟩
    have hl : s.SamePace (((s.storeBlock env b).commitHead b0 b1 b).logged
        [.cleanup (b0.payload ++ b1.payload ++ b.payload) b.round]) := hc.trans ⟨rfl, rfl, rfl⟩
    unfold processDelivered
    dsimp only
    split
    · exact .still (hl.ret _) (.inl (inert_ret _))
    · exact moves_voteFor hl

theorem moves_handleVote {v : Vote} (hcall : s.call = .handleVote v) :
    Moves env s .next (s.handleVote env v) := by
  unfold handleVote
  split
  · exact .ret _ _
  · rename_i hlt
    split
    · exact .ret _ _
    · rename_i hv
      have hsame : ∀ a r, s.aggregator.addVote env.cr env.committee v = (a, r) →
          { s with aggregator := (s.aggregator.addVote env.cr env.committee v).1 }.SamePace
            { s with aggregator := a } := fun a r h => ⟨rfl, rfl, by rw [h]⟩
      split
      · rename_i heq
        exact .collectVote hcall hv ((hsame _ _ heq).ret _) (inert_ret _)
      · rename_i heq
        exact .collectVote hcall hv ((hsame _ _ heq).ret _) (inert_ret _)
      · rename_i heq
        refine .assembleQc hcall (not_lt.mp hlt) hv (by rw [heq]) ?_
          ((call_proposeIfLeader none).imp id And.right)
        rw [heq]
        exact .proposeIfLeader .refl _

theorem moves_handleTimeout {t : Timeout} (hcall : s.call = .handleTimeout t) :
    Moves env s .next (s.handleTimeout env t) := by
  unfold handleTimeout
  split
  · exact .ret _ _
  · rename_i hlt
    split
    · exact .ret _ _
    · rename_i hv
      have hsame : ∀ a r, s.aggregator.addTimeout env.committee t = (a, r) →
          { s with aggregator := (s.aggregator.addTimeout env.committee t).1 }.SamePace
            { s with aggregator := a } := fun a r h => ⟨rfl, rfl, by rw [h]⟩
      split
      · rename_i heq
        exact .collectTimeout hcall hv ((hsame _ _ heq).ret _) (inert_ret _)
      · rename_i heq
        exact .collectTimeout hcall hv ((hsame _ _ heq).ret _) (inert_ret _)
      · rename_i heq
        refine .assembleTc hcall (not_lt.mp hlt) hv (by rw [heq]) ?_ (call_proposeIfLeader _)
        rw [heq]
        exact .proposeIfLeader .refl _

theorem moves_runCall (hs : s.Runs env s') : Moves env s .next s' := by
  cases hs with
  | @handleProposal b hcall =>
    unfold handleProposal
    split
    · exact .ret _ _
    · split
      · exact .ret _ _
      · rename_i hv
        exact .proposal hcall hv (.withCall .refl _) rfl
  | @processTc b hcall =>
    unfold processTc
    split
    · exact .still ⟨rfl, rfl, rfl⟩ (.inl trivial)
    · rename_i tc htc
      exact .proposalTc hcall htc (.withCall .refl _) trivial
  | processBlock => exact moves_processBlock
  | handleVote hcall => exact moves_handleVote hcall
  | handleTimeout hcall => exact moves_handleTimeout hcall
  | handleTc hcall =>
    exact .receiveTc hcall (.proposeIfLeader .refl _)
      ((call_proposeIfLeader _).imp id And.right)
  | boycott => exact .ret _ _

theorem moves_handleSyncRequest (d : Digest) (sender : PublicKey) (i : Input) :
    Moves env s i (s.handleSyncRequest env d sender) := by
  generalize hu : s.handleSyncRequest env d sender = u
  cases handleSyncRequest_serves hu with
  | ret => exact .ret _ _
  | panic => exact .still ⟨rfl, rfl, rfl⟩ (.inl trivial)
  | send _ ht => exact .still ((SamePace.refl.transmit ht).ret _) (.inl (inert_ret _))

/-- **Every step is one of the moves.** -/
theorem step_moves {i : Input} (hs : s.step env i = some s') : Moves env s i s' := by
  cases step_takes hs with
  | @deliver m =>
    cases m with
    | loopBack b => exact .still ⟨rfl, rfl, rfl⟩ (.inl trivial)
    | syncRequest d sender => exact moves_handleSyncRequest d sender _
    | _ => exact .receive rfl ⟨rfl, rfl, rfl⟩
  | loopBack | payloadReady | abandon | payload => exact .still ⟨rfl, rfl, rfl⟩ (.inl trivial)
  | payloadCancel | resume | storeWrite => exact .still ⟨rfl, rfl, rfl⟩ (.inr rfl)
  | timer =>
    exact .timer ⟨rfl, rfl, rfl⟩ rfl (by simp [localTimeoutRound, logged, increaseLastVotedRound])
  | next hrun => exact moves_runCall hrun
  | @status b st =>
    cases st with
    | accept => exact .still ⟨rfl, rfl, rfl⟩ (.inl trivial)
    | reject => exact .ret _ (.error .invalidPayload)
    | wait =>
      have hw : s.SamePace (s.waitPayload env b) := by
        unfold waitPayload
        split <;> exact ⟨rfl, rfl, rfl⟩
      exact .still (hw.ret (.ok ())) (.inl (inert_ret (.ok ())))

/-! ## Proposals -/

/-- How `generate_proposal` comes to run. -/
inductive Starts (env : Env) (s : Core) (i : Input) (s' : Core) : Option TC → Prop where
  | before {tc : Option TC} : s.call = .generateProposal tc → s.SamePace s' → Starts env s i s' tc
  | assembleQc {v : Vote} {qc : QC} : i = .next → s.call = .handleVote v → s.round ≤ v.round →
      v.verify env.cr env.committee = .ok () →
      (s.aggregator.addVote env.cr env.committee v).2 = .ok (some qc) →
      ({ s with aggregator := (s.aggregator.addVote env.cr env.committee v).1 }.processQc
        qc).SamePace s' → Starts env s i s' none
  | assembleTc {t : Timeout} {tc : TC} : i = .next → s.call = .handleTimeout t →
      s.round ≤ t.round → t.verify env.cr env.committee = .ok () →
      (s.aggregator.addTimeout env.committee t).2 = .ok (some tc) →
      ({ s with aggregator := (s.aggregator.addTimeout env.committee t).1 }.advanceRound
        tc.round).SamePace s' →
      env.name = env.leader s'.round → Starts env s i s' (some tc)
  | receiveTc {tc : TC} : i = .next → s.call = .handleTc tc →
      (s.advanceRound tc.round).SamePace s' → env.name = env.leader s'.round →
      Starts env s i s' (some tc)

theorem step_starts {i : Input} {tc : Option TC} (hs : s.step env i = some s')
    (hcall : s'.call = .generateProposal tc) : Starts env s i s' tc := by
  have hgo : ¬ s'.call.Inert := by rw [hcall]; exact id
  cases step_moves hs with
  | still hp hc => exact .before ((hc.resolve_left hgo).symm.trans hcall) hp
  | @receive m s' hm =>
    rw [hcall] at hm
    cases m <;> cases hm
  | timer _ hc | vote _ hc | proposal _ _ _ hc =>
    rw [hcall] at hc
    cases hc
  | proposalTc _ _ _ hc | collectVote _ _ _ hc | collectTimeout _ _ _ hc => exact absurd hc hgo
  | assembleQc hv hle hok hqc hp hc =>
    have hnone := hc.resolve_left hgo
    rw [hcall] at hnone
    cases hnone
    exact .assembleQc rfl hv hle hok hqc hp
  | assembleTc ht hle hok htc hp hc =>
    obtain ⟨hleader, hsome⟩ := hc.resolve_left hgo
    rw [hcall] at hsome
    cases hsome
    exact .assembleTc rfl ht hle hok htc hp hleader
  | receiveTc ht hp hc =>
    have hsome := hc.resolve_left hgo
    rw [hcall] at hsome
    cases hsome
    refine .receiveTc rfl ht hp ?_
    simp only [step, runCall, ht, Option.some.injEq] at hs
    subst hs
    exact ((call_proposeIfLeader _).resolve_left hgo).1

/-! ## The round -/

/-- The round of the certificate that the pending call hands to `advance_round`. -/
def certificate (env : Env) (s : Core) : Option RoundNumber :=
  match s.call with
  | .handleProposal b =>
    if b.author = env.leader b.round then
      match b.verify env.cr env.committee with
      | .ok () => some b.qc.round
      | .error _ => none
    else none
  | .processTc b => b.tc.map TC.round
  | .handleVote v =>
    if v.round < s.round then none
    else
      match v.verify env.cr env.committee, (s.aggregator.addVote env.cr env.committee v).2 with
      | .ok (), .ok (some qc) => some qc.round
      | _, _ => none
  | .handleTimeout t =>
    if t.round < s.round then none
    else
      match t.verify env.cr env.committee, (s.aggregator.addTimeout env.committee t).2 with
      | .ok (), .ok (some tc) => some tc.round
      | _, _ => none
  | .handleTc tc => some tc.round
  | _ => none

theorem certificate_handleVote {v : Vote} {qc : QC} (hcall : s.call = .handleVote v)
    (hle : s.round ≤ v.round) (hv : v.verify env.cr env.committee = .ok ())
    (hqc : (s.aggregator.addVote env.cr env.committee v).2 = .ok (some qc)) :
    s.certificate env = some qc.round := by
  simp only [certificate, hcall, if_neg (not_lt.mpr hle), hv, hqc]

theorem certificate_handleTimeout {t : Timeout} {tc : TC} (hcall : s.call = .handleTimeout t)
    (hle : s.round ≤ t.round) (hv : t.verify env.cr env.committee = .ok ())
    (htc : (s.aggregator.addTimeout env.committee t).2 = .ok (some tc)) :
    s.certificate env = some tc.round := by
  simp only [certificate, hcall, if_neg (not_lt.mpr hle), hv, htc]

theorem certificate_handleTc {tc : TC} (hcall : s.call = .handleTc tc) :
    s.certificate env = some tc.round := by
  simp only [certificate, hcall]

@[simp] theorem round_ret (r : ConsensusResult Unit) : (s.ret r).round = s.round :=
  (SamePace.refl.ret r).round

@[simp] theorem round_proposeIfLeader (tc : Option TC) :
    (s.proposeIfLeader env tc).round = s.round := (SamePace.refl.proposeIfLeader tc).round

/-- The round stays, or is the one after that of the certificate. -/
def Paced (env : Env) (s s' : Core) : Prop :=
  s'.round = s.round ∨ ∃ r, s.certificate env = some r ∧ s'.round = nextRound s.round r

theorem paced_handleProposal (hcall : s.call = .handleProposal b) :
    s.Paced env (s.handleProposal env b) := by
  unfold handleProposal
  split_ifs with hl
  · exact .inl (round_ret _)
  · split
    · exact .inl (round_ret _)
    · rename_i hv
      refine .inr ⟨b.qc.round, ?_, round_processQc _⟩
      simp only [certificate, hcall, if_pos (not_not.mp hl), hv]

theorem paced_processTc (hcall : s.call = .processTc b) : s.Paced env (s.processTc b) := by
  unfold processTc
  split
  · exact .inl rfl
  · rename_i tc htc
    refine .inr ⟨tc.round, ?_, round_advanceRound _⟩
    simp only [certificate, hcall, htc, Option.map_some]

theorem paced_handleVote {v : Vote} (hcall : s.call = .handleVote v) :
    s.Paced env (s.handleVote env v) := by
  unfold handleVote
  split_ifs with hlt
  · exact .inl (round_ret _)
  · split
    · exact .inl (round_ret _)
    · rename_i hv
      split
      · exact .inl (round_ret _)
      · exact .inl (round_ret _)
      · rename_i a qc hqc
        exact .inr ⟨qc.round, certificate_handleVote hcall (not_lt.mp hlt) hv (by rw [hqc]),
          by rw [round_proposeIfLeader, round_processQc]⟩

theorem paced_handleTimeout {t : Timeout} (hcall : s.call = .handleTimeout t) :
    s.Paced env (s.handleTimeout env t) := by
  unfold handleTimeout
  split_ifs with hlt
  · exact .inl (round_ret _)
  · split
    · exact .inl (round_ret _)
    · rename_i hv
      split
      · exact .inl (round_ret _)
      · exact .inl (round_ret _)
      · rename_i a tc htc
        exact .inr ⟨tc.round, certificate_handleTimeout hcall (not_lt.mp hlt) hv (by rw [htc]),
          by rw [round_proposeIfLeader, round_advanceRound]⟩

theorem paced_runCall (hs : s.Runs env s') : s.Paced env s' := by
  cases hs with
  | handleProposal hcall => exact paced_handleProposal hcall
  | processTc hcall => exact paced_processTc hcall
  | @processBlock b hcall =>
    have hmoves : Moves env s .next (s.processBlock env b) := moves_processBlock
    cases hmoves with
    | still hp | vote hp => exact .inl hp.round
    | _ => simp_all
  | handleVote hcall => exact paced_handleVote hcall
  | handleTimeout hcall => exact paced_handleTimeout hcall
  | @handleTc tc hcall =>
    refine .inr ⟨tc.round, certificate_handleTc hcall, ?_⟩
    rw [handleTc, round_proposeIfLeader, round_advanceRound]
  | boycott => exact .inl (round_ret _)

/-- **Rounds change by certificates that the pending call takes in.** -/
theorem step_round {i : Input} (hs : s.step env i = some s') :
    s'.round = s.round ∨
      i = .next ∧ ∃ r, s.certificate env = some r ∧ s'.round = nextRound s.round r := by
  cases step_takes hs with
  | next hrun => exact (paced_runCall hrun).imp id fun h => ⟨rfl, h⟩
  | deliver =>
    cases step_moves hs with
    | still hp | receive _ hp => exact .inl hp.round
  | status =>
    cases step_moves hs with
    | still hp => exact .inl hp.round
  | _ => exact .inl rfl

/-- Rounds only grow, until a certificate of the last round number. -/
theorem round_le_step {i : Input} (hlast : i = .next → s.certificate env ≠ some lastRound)
    (hs : s.step env i = some s') : s.round ≤ s'.round := by
  rcases step_round hs with hround | ⟨hnext, r, hr, hround⟩
  · exact le_of_eq hround.symm
  · rw [hround]
    exact (nextRound_lt (nextRound_ne_zero fun hl => hlast hnext (hl ▸ hr))).1

/-! ## The highest certificate -/

theorem highQc_advanceRound (r : RoundNumber) : (s.advanceRound r).highQc = s.highQc := by
  unfold advanceRound
  split <;> rfl

theorem highQc_processQc (qc : QC) :
    (s.processQc qc).highQc = if s.highQc.round < qc.round then qc else s.highQc := by
  unfold processQc updateHighQc
  rw [highQc_advanceRound]
  split
  · rfl
  · exact highQc_advanceRound _

theorem behind_advanceRound (h : s.highQc.round < s.round) {r : RoundNumber}
    (h0 : (s.advanceRound r).round ≠ 0) :
    (s.advanceRound r).highQc.round < (s.advanceRound r).round := by
  rw [highQc_advanceRound]
  rw [round_advanceRound] at h0 ⊢
  exact h.trans_le (nextRound_lt h0).1

theorem behind_processQc (h : s.highQc.round < s.round) {qc : QC}
    (h0 : (s.processQc qc).round ≠ 0) :
    (s.processQc qc).highQc.round < (s.processQc qc).round := by
  rw [highQc_processQc]
  rw [round_processQc] at h0 ⊢
  split
  · exact (nextRound_lt h0).2
  · exact h.trans_le (nextRound_lt h0).1

/-- **The highest certificate stays behind the round**, unless the round number overflows. -/
theorem behind_step {i : Input} (hlt : s.highQc.round < s.round) (hs : s.step env i = some s') :
    s'.round ≠ 0 → s'.highQc.round < s'.round := by
  have hcollect : ∀ a, { s with aggregator := a }.highQc.round < { s with aggregator := a }.round :=
    fun _ => hlt
  -- the step moves the pacemaker as `u` does
  have hsame : ∀ {u : Core}, u.SamePace s' → (u.round ≠ 0 → u.highQc.round < u.round) →
      s'.round ≠ 0 → s'.highQc.round < s'.round := by
    intro u hp hu
    rw [hp.round, hp.highQc]
    exact hu
  cases step_moves hs with
  | still hp | receive _ hp | timer hp | vote hp => exact hsame hp fun _ => hlt
  | collectVote _ _ hp | collectTimeout _ _ hp => exact hsame hp fun _ => hlt
  | proposal _ _ hp => exact hsame hp (behind_processQc hlt)
  | assembleQc _ _ _ _ hp => exact hsame hp (behind_processQc (hcollect _))
  | proposalTc _ _ hp => exact hsame hp (behind_advanceRound hlt)
  | assembleTc _ _ _ _ hp => exact hsame hp (behind_advanceRound (hcollect _))
  | receiveTc _ hp => exact hsame hp (behind_advanceRound hlt)

/-! ## The log -/

@[simp] theorem log_ret (r : ConsensusResult Unit) : (s.ret r).log = s.log := by
  cases r with
  | ok u => rfl
  | error e => dsimp only [ret]; split <;> rfl

@[simp] theorem log_advanceRound (r : RoundNumber) : (s.advanceRound r).log = s.log := by
  unfold advanceRound
  split <;> rfl

@[simp] theorem log_processQc (qc : QC) : (s.processQc qc).log = s.log := by
  unfold processQc updateHighQc
  split
  · exact log_advanceRound qc.round
  · exact log_advanceRound qc.round

@[simp] theorem log_proposeIfLeader (tc : Option TC) : (s.proposeIfLeader env tc).log = s.log := by
  unfold proposeIfLeader
  split
  · rfl
  · exact log_ret _

@[simp] theorem log_wait (b : Block) : (s.wait env b).log = s.log := by
  unfold wait
  split <;> rfl

@[simp] theorem log_waitPayload (b : Block) : (s.waitPayload env b).log = s.log := by
  unfold waitPayload
  split <;> rfl

@[simp] theorem log_handleVote (v : Vote) : (s.handleVote env v).log = s.log := by
  unfold handleVote
  split
  · exact log_ret _
  · split
    · exact log_ret _
    · split
      · exact log_ret _
      · exact log_ret _
      · rw [log_proposeIfLeader, log_processQc]

@[simp] theorem log_handleTimeout (t : Timeout) : (s.handleTimeout env t).log = s.log := by
  unfold handleTimeout
  split
  · exact log_ret _
  · split
    · exact log_ret _
    · split
      · exact log_ret _
      · exact log_ret _
      · rw [log_proposeIfLeader, log_advanceRound]

@[simp] theorem log_handleProposal (b : Block) : (s.handleProposal env b).log = s.log := by
  unfold handleProposal
  split
  · exact log_ret _
  · split
    · exact log_ret _
    · exact log_processQc _

@[simp] theorem log_processTc (b : Block) : (s.processTc b).log = s.log := by
  unfold processTc
  split
  · rfl
  · exact log_advanceRound _

theorem log_transmit {m : ConsensusMessage} {receiver : Option PublicKey}
    (h : s.transmit env m receiver = .ok t) : t.log = s.log ++ [.send m receiver] := by
  cases receiver with
  | none => cases h; rfl
  | some r =>
    dsimp only [transmit] at h
    split at h
    · cases h; rfl
    · cases h

/-- Its vote for a block, if it is for the current round and safe, and then its message. -/
def VoteWrites (s : Core) (b : Block) (vs : List Effect) : Prop :=
  vs = [] ∨ b.round = s.round ∧ s.lastVotedRound < b.round ∧ safetyRule2 b = .ok true ∧
    (vs = [.vote b] ∨ ∃ m r, (∀ tc, m ≠ .tc tc) ∧ vs = [.vote b, .send m r])

/-- What a step appends to the log. -/
inductive Writes (env : Env) (s : Core) : List Effect → Prop where
  | nothing : Writes env s []
  | send {m : ConsensusMessage} {r : Option PublicKey} : (∀ tc, m ≠ .tc tc) →
      Writes env s [.send m r]
  | timeout {t : Timeout} : t = .new env.cr s.highQc.round s.round env.name →
      Writes env s [.timeout t, .send (.timeout t) none]
  | propose {tc : Option TC} {payload : List Digest} {b : Block} :
      env.boycottProposals = false → s.call = .generateProposal tc →
      b = .new env.cr s.highQc tc env.name s.round payload →
      Writes env s [.propose b, .send (.propose b) none]
  | process {b0 b1 b : Block} {cs vs : List Effect} : s.call = .processBlock b →
      s.getAncestors b = .ok (some (b0, b1)) →
      cs = [] ∨ b0.round + 1 = b1.round ∧ cs = [.commit b0 b1 b] → VoteWrites s b vs →
      Writes env s
        (.store b :: cs ++ .cleanup (b0.payload ++ b1.payload ++ b.payload) b.round :: vs)

variable (env) in
theorem writes_voteFor {u : Core} (hr : u.round = s.round)
    (hlast : u.lastVotedRound = s.lastVotedRound) (hb : b.round = u.round) :
    ∃ vs, (u.voteFor env b).log = u.log ++ vs ∧ VoteWrites s b vs := by
  unfold voteFor
  cases hm : u.makeVote env b with
  | error p => exact ⟨[], by simp [stop], .inl rfl⟩
  | ok r =>
    rcases makeVote_cases hm with rfl | ⟨hlt, hrule, rfl⟩
    · exact ⟨[], by simp, .inl rfl⟩
    · have hsafe : ∀ vs, (vs = [.vote b] ∨ ∃ m r, (∀ tc, m ≠ .tc tc) ∧ vs = [.vote b, .send m r]) →
          VoteWrites s b vs := fun vs hvs => .inr ⟨hb.trans hr, hlast ▸ hlt, hrule, hvs⟩
      dsimp only
      split
      · exact ⟨[.vote b], rfl, hsafe _ (.inl rfl)⟩
      · split
        · exact ⟨[.vote b], by simp [logged, increaseLastVotedRound], hsafe _ (.inl rfl)⟩
        · rename_i ht
          refine ⟨[.vote b, .send (.vote (.new env.cr b env.name))
            (some (env.leader (u.round + 1)))], ?_, hsafe _ (.inr ⟨_, _, by simp, rfl⟩)⟩
          rw [log_ret, log_transmit ht]
          simp [logged, increaseLastVotedRound]

theorem writes_processBlock (hcall : s.call = .processBlock b) :
    ∃ es, (s.processBlock env b).log = s.log ++ es ∧ Writes env s es := by
  unfold processBlock
  split
  · exact ⟨[], by simp, .nothing⟩
  · exact ⟨[], by simp [stop], .nothing⟩
  · exact ⟨[], by simp, .nothing⟩
  · rename_i b0 b1 ha
    obtain ⟨cs, hcs, hcommit⟩ : ∃ cs, ((s.storeBlock env b).commitHead b0 b1 b).log =
        s.log ++ (.store b :: cs) ∧ (cs = [] ∨ b0.round + 1 = b1.round ∧ cs = [.commit b0 b1 b]) := by
      unfold commitHead
      split
      · rename_i hr
        exact ⟨[.commit b0 b1 b], by simp [logged, storeBlock], .inr ⟨hr, rfl⟩⟩
      · exact ⟨[], by simp [storeBlock], .inl rfl⟩
    have hframe : ((s.storeBlock env b).commitHead b0 b1 b).round = s.round ∧
        ((s.storeBlock env b).commitHead b0 b1 b).lastVotedRound = s.lastVotedRound := by
      unfold commitHead
      split <;> exact ⟨rfl, rfl⟩
    unfold processDelivered
    dsimp only
    split_ifs with hr
    · refine ⟨_, ?_, .process hcall ha hcommit (.inl rfl)⟩
      simp [logged, hcs]
    · obtain ⟨vs, hvs, hvote⟩ := writes_voteFor env (s := s) (b := b)
        (u := ((s.storeBlock env b).commitHead b0 b1 b).logged
          [.cleanup (b0.payload ++ b1.payload ++ b.payload) b.round])
        hframe.1 hframe.2 (not_not.mp hr)
      refine ⟨_, ?_, .process hcall ha hcommit hvote⟩
      rw [hvs]
      simp [logged, hcs]

theorem writes_runCall (hs : s.Runs env s') : ∃ es, s'.log = s.log ++ es ∧ Writes env s es := by
  cases hs with
  | processBlock hcall => exact writes_processBlock hcall
  | handleTc => exact ⟨[], by simp [handleTc], .nothing⟩
  | _ => exact ⟨[], by simp, .nothing⟩

/-- **What a step appends to the log.** -/
theorem step_writes {i : Input} (hs : s.step env i = some s') :
    ∃ es, s'.log = s.log ++ es ∧ Writes env s es := by
  cases step_takes hs with
  | @deliver m =>
    cases m with
    | syncRequest d sender =>
      generalize hu : s.receive env (.syncRequest d sender) = u
      cases handleSyncRequest_serves hu with
      | ret => exact ⟨[], by simp, .nothing⟩
      | panic => exact ⟨[], by simp [stop], .nothing⟩
      | send _ ht => exact ⟨_, by rw [log_ret, log_transmit ht], .send (by simp)⟩
    | _ => exact ⟨[], by simp [receive], .nothing⟩
  | loopBack | payloadReady | payloadCancel | resume | storeWrite => exact ⟨[], by simp, .nothing⟩
  | abandon => exact ⟨[], by simp [stop], .nothing⟩
  | timer => exact ⟨_, rfl, .timeout rfl⟩
  | next hrun => exact writes_runCall hrun
  | @status b st => cases st <;> exact ⟨[], by simp [verifying], .nothing⟩
  | payload hcall hboycott => exact ⟨_, rfl, .propose hboycott hcall rfl⟩

/-- **What a step adds to the log is fresh.** -/
theorem step_fresh {i : Input} (hs : s.step env i = some s') :
    ∀ e ∈ s'.log, e ∈ s.log ∨ Fresh env s e := by
  obtain ⟨es, hlog, hw⟩ := step_writes hs
  intro e he
  rw [hlog] at he
  apply (List.mem_append.mp he).imp_right
  intro he
  cases hw with
  | nothing => cases he
  | send hm =>
    rw [List.mem_singleton.mp he]
    exact hm
  | timeout ht =>
    rcases List.mem_cons.mp he with rfl | he
    · exact ht
    · rw [List.mem_singleton.mp he]
      exact fun tc => by simp
  | propose hboycott hcall hb =>
    rcases List.mem_cons.mp he with rfl | he
    · exact ⟨hboycott, _, _, hcall, hb⟩
    · rw [List.mem_singleton.mp he]
      exact fun tc => by simp
  | process hcall ha hcommit hvote =>
    rcases List.mem_append.mp he with he | he
    · rcases List.mem_cons.mp he with rfl | he
      · trivial
      · rcases hcommit with rfl | ⟨-, rfl⟩
        · cases he
        · rw [List.mem_singleton.mp he]
          trivial
    · rcases List.mem_cons.mp he with rfl | he
      · exact ⟨_, _, _, hcall, ha, rfl⟩
      · rcases hvote with rfl | ⟨hr, -, -, rfl | ⟨m, r, hm, rfl⟩⟩
        · cases he
        · rw [List.mem_singleton.mp he]
          exact hr
        · rcases List.mem_cons.mp he with rfl | he
          · exact hr
          · rw [List.mem_singleton.mp he]
            exact hm

end Core

end AccountabilityGadget.Consensus
