import AccountabilityGadget.Consensus.Chain
import AccountabilityGadget.Consensus.Pacemaker

/-!
# Blocks on their way to `process_block`

Between the checks of `handle_proposal` and `process_block` a block may wait for its payload and
for its parent.  Its round is not among the checks; it is compared with the current one after
`process_block` has stored the block, committed on its account and told the mempool to clean up.

* `Core.InFlight`, `Core.step_inFlight` — where such blocks come from.
* `Core.Entered`, `Core.step_entered` — where the block of the pending call comes from.
* `Core.reached` — the round after the certificates of a proposal.
* `Prompt`, `InTime` — a block beyond the round that its certificates lead to is suspended for its
  parent until the core is there, and then the block of the pending call is not ahead of the core.
-/

set_option autoImplicit false

namespace AccountabilityGadget.Consensus

/-- The block of a call, past the checks. -/
def Call.block? : Call → Option Block
  | .processTc b | .verifying b | .processBlock b => some b
  | _ => none

variable {env : Env} {s s' : Core} {b c : Block} {i : Core.Input}

namespace Core

/-- The block is checked and not yet through with `process_block`. -/
def InFlight (s : Core) (b : Block) : Prop := b ∈ s.view.held ∨ s.call.block? = some b

/-- Where a block in flight comes from. -/
inductive Launched (env : Env) (s : Core) (i : Input) (b : Block) : Prop where
  | before : s.InFlight b → Launched env s i b
  | proposal : i = .next → s.call = .handleProposal b → b.author = env.leader b.round →
      b.verify env.cr env.committee = .ok () → Launched env s i b
  | own {tc : Option TC} {payload : List Digest} : s.call = .generateProposal tc →
      env.boycottProposals = false → b = .new env.cr s.highQc tc env.name s.round payload →
      Launched env s i b
  | loopBack : i = .deliver (.loopBack b) → Launched env s i b

/-- If the pending call has no block, the block is suspended. -/
theorem InFlight.held (h : s.InFlight b) (hc : s.call.block? = none) : b ∈ s.view.held := by
  apply h.resolve_right
  rw [hc]
  exact (Option.some_ne_none b).symm

theorem held_erase_pending (h : b ∈ s.pending.erase c ++ s.payloadPending) : b ∈ s.view.held :=
  List.mem_append.mpr ((List.mem_append.mp h).imp List.mem_of_mem_erase id)

theorem held_erase_payloadPending (h : b ∈ s.pending ++ s.payloadPending.erase c) :
    b ∈ s.view.held :=
  List.mem_append.mpr ((List.mem_append.mp h).imp id List.mem_of_mem_erase)

theorem block?_ret (r : ConsensusResult Unit) : (s.ret r).call.block? = none := by
  cases r with
  | ok u => rfl
  | error e => dsimp only [ret]; split <;> rfl

theorem inFlight_ret {r : ConsensusResult Unit} (h : (s.ret r).InFlight b) : b ∈ s.view.held := by
  have hheld := h.held (block?_ret r)
  rw [view_ret] at hheld
  exact hheld

theorem inFlight_proposeIfLeader {tc : Option TC} (h : (s.proposeIfLeader env tc).InFlight b) :
    b ∈ s.view.held := by
  unfold proposeIfLeader at h
  split at h
  · rcases h with h | h
    · exact h
    · cases h
  · exact inFlight_ret h

theorem held_processQc (qc : QC) : (s.processQc qc).view.held = s.view.held := by
  unfold processQc
  rw [view_updateHighQc, view_advanceRound]
  rfl

theorem held_advanceRound (r : RoundNumber) : (s.advanceRound r).view.held = s.view.held := by
  rw [view_advanceRound]
  rfl

theorem inFlight_voteFor (h : (s.voteFor env c).InFlight b) : b ∈ s.view.held := by
  unfold voteFor at h
  cases hm : s.makeVote env c with
  | error p =>
    rw [hm] at h
    rcases h with h | h
    · exact h
    · cases h
  | ok r =>
    rw [hm] at h
    rcases makeVote_cases hm with rfl | ⟨-, -, rfl⟩
    · exact inFlight_ret h
    · have hview : ((s.increaseLastVotedRound c.round).logged [.vote c]).view.held =
          s.view.held := rfl
      dsimp only at h
      split at h
      · rcases h with h | h
        · exact hview ▸ h
        · cases h
      · split at h
        · exact hview ▸ inFlight_ret h
        · rename_i ht
          have hsent := inFlight_ret h
          rw [view_transmit ht] at hsent
          exact hview ▸ hsent

/-- A block that is processed may have to wait for its parent. -/
theorem inFlight_processBlock (h : (s.processBlock env c).InFlight b) :
    b ∈ s.view.held ∨ b = c := by
  unfold processBlock at h
  split at h
  · exact .inl (inFlight_ret h)
  · rcases h with h | h
    · exact .inl h
    · cases h
  · have hwait := inFlight_ret h
    unfold wait at hwait
    split at hwait
    · exact .inl hwait
    · change b ∈ s.pending ++ [c] ++ s.payloadPending at hwait
      simp only [List.mem_append, List.mem_singleton] at hwait
      rcases hwait with (hb | hb) | hb
      · exact .inl (List.mem_append_left _ hb)
      · exact .inr hb
      · exact .inl (List.mem_append_right _ hb)
  · rename_i b0 b1 _
    have hview : (((s.storeBlock env c).commitHead b0 b1 c).logged
        [.cleanup (b0.payload ++ b1.payload ++ c.payload) c.round]).view = s.view := by
      rw [view_logged rfl rfl, view_commitHead, view_storeBlock]
    unfold processDelivered at h
    dsimp only at h
    split at h
    · exact .inl (hview ▸ inFlight_ret h)
    · exact .inl (hview ▸ inFlight_voteFor h)

theorem inFlight_handleVote {v : Vote} (h : (s.handleVote env v).InFlight b) :
    b ∈ s.view.held := by
  unfold handleVote at h
  split at h
  · exact inFlight_ret h
  · split at h
    · exact inFlight_ret h
    · split at h
      · have hheld := inFlight_ret h
        exact hheld
      · have hheld := inFlight_ret h
        exact hheld
      · have hheld := inFlight_proposeIfLeader h
        rw [held_processQc] at hheld
        exact hheld

theorem inFlight_handleTimeout {t : Timeout} (h : (s.handleTimeout env t).InFlight b) :
    b ∈ s.view.held := by
  unfold handleTimeout at h
  split at h
  · exact inFlight_ret h
  · split at h
    · exact inFlight_ret h
    · split at h
      · have hheld := inFlight_ret h
        exact hheld
      · have hheld := inFlight_ret h
        exact hheld
      · have hheld := inFlight_proposeIfLeader h
        rw [held_advanceRound] at hheld
        exact hheld

theorem launched_runCall (hs : s.Runs env s') (hb : s'.InFlight b) : Launched env s .next b := by
  have hheld : b ∈ s.view.held → Launched env s .next b := fun h => .before (.inl h)
  cases hs with
  | @handleProposal c hcall =>
    unfold handleProposal at hb
    split at hb
    · exact hheld (inFlight_ret hb)
    · rename_i hleader
      split at hb
      · exact hheld (inFlight_ret hb)
      · rename_i hv
        rcases hb with hb | hb
        · exact hheld (held_processQc c.qc ▸ hb)
        · cases hb
          exact .proposal rfl hcall (not_not.mp hleader) hv
  | @processTc c hcall =>
    have hc : s.InFlight c := .inr (by rw [hcall]; rfl)
    unfold processTc at hb
    split at hb
    · rcases hb with hb | hb
      · exact hheld hb
      · cases hb
        exact .before hc
    · rename_i tc htc
      rcases hb with hb | hb
      · exact hheld (held_advanceRound tc.round ▸ hb)
      · cases hb
        exact .before hc
  | @processBlock c hcall =>
    rcases inFlight_processBlock hb with hb | rfl
    · exact hheld hb
    · exact .before (.inr (by rw [hcall]; rfl))
  | handleVote => exact hheld (inFlight_handleVote hb)
  | handleTimeout => exact hheld (inFlight_handleTimeout hb)
  | @handleTc tc => exact hheld (held_advanceRound tc.round ▸ inFlight_proposeIfLeader hb)
  | boycott => exact hheld (inFlight_ret hb)

/-- **Blocks in flight** were in flight before, have passed the checks of `handle_proposal`, are the
core's own blocks, or come as a `LoopBack` message. -/
theorem step_inFlight (hs : s.step env i = some s') (hb : s'.InFlight b) : Launched env s i b := by
  have hheld : b ∈ s.view.held → Launched env s i b := fun h => .before (.inl h)
  cases step_takes hs with
  | @deliver m =>
    cases m with
    | loopBack c =>
      rcases hb with hb | hb
      · exact hheld hb
      · cases hb
        exact .loopBack rfl
    | syncRequest d sender =>
      generalize hu : s.receive env (.syncRequest d sender) = u at hb
      cases handleSyncRequest_serves hu with
      | ret => exact hheld (inFlight_ret hb)
      | panic => exact hheld (hb.held rfl)
      | send _ ht =>
        have hsent := inFlight_ret hb
        rw [view_transmit ht] at hsent
        exact hheld hsent
    | _ => exact hheld (hb.held rfl)
  | loopBack hmem =>
    rcases hb with hb | hb
    · exact hheld (held_erase_pending hb)
    · cases hb
      exact hheld (List.mem_append_left _ hmem)
  | payloadReady hmem =>
    rcases hb with hb | hb
    · exact hheld (held_erase_payloadPending hb)
    · cases hb
      exact hheld (List.mem_append_right _ hmem)
  | payloadCancel =>
    rcases hb with hb | hb
    · exact hheld (held_erase_payloadPending hb)
    · exact .before (.inr hb)
  | timer | abandon => exact hheld (hb.held rfl)
  | resume | storeWrite => exact .before hb
  | next hrun => exact launched_runCall hrun hb
  | @status c st hcall =>
    have hc : s.InFlight c := .inr (by rw [hcall]; rfl)
    cases st with
    | accept =>
      rcases hb with hb | hb
      · exact hheld hb
      · cases hb
        exact .before hc
    | reject => exact hheld (inFlight_ret (r := .error .invalidPayload) hb)
    | wait =>
      have hwait := inFlight_ret (r := .ok ()) hb
      unfold waitPayload at hwait
      split at hwait
      · exact hheld hwait
      · change b ∈ s.pending ++ (s.payloadPending ++ [c]) at hwait
        simp only [List.mem_append, List.mem_singleton] at hwait
        rcases hwait with hb | hb | rfl
        · exact hheld (List.mem_append_left _ hb)
        · exact hheld (List.mem_append_right _ hb)
        · exact .before hc
  | payload hcall hboycott =>
    rcases hb with hb | hb
    · rw [view_generateProposal] at hb
      exact hheld hb
    · cases hb
      exact .own hcall hboycott rfl

/-! ## The block of the pending call -/

theorem block?_proposeIfLeader (tc : Option TC) :
    (s.proposeIfLeader env tc).call.block? = none := by
  unfold proposeIfLeader
  split
  · rfl
  · exact block?_ret _

theorem block?_voteFor : (s.voteFor env b).call.block? = none := by
  unfold voteFor
  split
  · rfl
  · exact block?_ret _
  · dsimp only
    split
    · rfl
    · split <;> exact block?_ret _

theorem block?_processBlock : (s.processBlock env b).call.block? = none := by
  unfold processBlock
  split
  · exact block?_ret _
  · rfl
  · exact block?_ret _
  · unfold processDelivered
    dsimp only
    split
    · exact block?_ret _
    · exact block?_voteFor

theorem block?_handleVote (v : Vote) : (s.handleVote env v).call.block? = none := by
  unfold handleVote
  split
  · exact block?_ret _
  · split
    · exact block?_ret _
    · split
      · exact block?_ret _
      · exact block?_ret _
      · exact block?_proposeIfLeader _

theorem block?_handleTimeout (t : Timeout) : (s.handleTimeout env t).call.block? = none := by
  unfold handleTimeout
  split
  · exact block?_ret _
  · split
    · exact block?_ret _
    · split
      · exact block?_ret _
      · exact block?_ret _
      · exact block?_proposeIfLeader _

theorem block?_handleSyncRequest (d : Digest) (sender : PublicKey) :
    (s.handleSyncRequest env d sender).call.block? = none := by
  generalize hu : s.handleSyncRequest env d sender = u
  cases handleSyncRequest_serves hu with
  | ret => exact block?_ret _
  | panic => rfl
  | send => exact block?_ret _

/-- Where the block of the pending call comes from. -/
inductive Entered (env : Env) (s : Core) (i : Input) (s' : Core) (b : Block) : Prop where
  | before : s.call.block? = some b → s'.store = s.store → Entered env s i s' b
  | written {d : Digest} {value : Bytes} : s.call.block? = some b → i = .storeWrite d value →
      Entered env s i s' b
  | proposal : i = .next → s.call = .handleProposal b → b.author = env.leader b.round →
      b.verify env.cr env.committee = .ok () →
      s' = { s.processQc b.qc with call := .processTc b } → Entered env s i s' b
  | own {tc : Option TC} {payload : List Digest} : s.call = .generateProposal tc →
      b = .new env.cr s.highQc tc env.name s.round payload → Entered env s i s' b
  | loopBack : i = .deliver (.loopBack b) → Entered env s i s' b
  | resumed : i = .loopBack b ∨ i = .payloadReady b → s'.store = s.store → Entered env s i s' b

theorem entered_runCall (hs : s.Runs env s') (hb : s'.call.block? = some b) :
    Entered env s .next s' b := by
  cases hs with
  | @handleProposal c hcall =>
    unfold handleProposal at hb ⊢
    split at hb
    · rw [block?_ret] at hb
      cases hb
    · rename_i hleader
      rw [if_neg hleader]
      split at hb
      · rw [block?_ret] at hb
        cases hb
      · rename_i hv
        cases hb
        exact .proposal rfl hcall (not_not.mp hleader) hv rfl
  | @processTc c hcall =>
    have hstore : (s.processTc c).store = s.store := quiet_processTc.store
    refine .before ?_ hstore
    rw [hcall]
    unfold processTc at hb
    split at hb <;> exact hb
  | processBlock => rw [block?_processBlock] at hb; cases hb
  | handleVote => rw [block?_handleVote] at hb; cases hb
  | handleTimeout => rw [block?_handleTimeout] at hb; cases hb
  | handleTc => rw [handleTc, block?_proposeIfLeader] at hb; cases hb
  | boycott => rw [block?_ret] at hb; cases hb

/-- **The block of the pending call** is the one of the call before, a proposal that has passed the
checks, the core's own, or one that is handed back. -/
theorem step_entered (hs : s.step env i = some s') (hb : s'.call.block? = some b) :
    Entered env s i s' b := by
  cases step_takes hs with
  | @deliver m =>
    cases m with
    | loopBack c => cases hb; exact .loopBack rfl
    | syncRequest d sender =>
      rw [receive, block?_handleSyncRequest] at hb
      cases hb
    | _ => cases hb
  | loopBack => cases hb; exact .resumed (.inl rfl) rfl
  | payloadReady => cases hb; exact .resumed (.inr rfl) rfl
  | payloadCancel | resume => exact .before hb rfl
  | timer | abandon => cases hb
  | next hrun => exact entered_runCall hrun hb
  | @status c st hcall =>
    cases st with
    | accept => exact .before (by rw [hcall]; exact hb) rfl
    | reject =>
      rw [verifying, block?_ret] at hb
      cases hb
    | wait =>
      rw [verifying, block?_ret] at hb
      cases hb
  | payload hcall =>
    cases hb
    exact .own hcall rfl
  | storeWrite => exact .written hb rfl

end Core

/-! ## Rounds -/

namespace Core

/-- The round after a timeout certificate, if there is one. -/
def afterTc (round : RoundNumber) : Option TC → RoundNumber
  | none => round
  | some tc => nextRound round tc.round

/-- The round after the two certificates of a proposal. -/
def reached (round : RoundNumber) (b : Block) : RoundNumber :=
  afterTc (nextRound round b.qc.round) b.tc

/-- At least the current round, and the one after a timeout certificate that is still to be
processed. -/
def due (s : Core) : RoundNumber :=
  match s.call with
  | .processTc b => max s.round (afterTc s.round b.tc)
  | _ => s.round

theorem round_le_due : s.round ≤ s.due := by
  unfold due
  split
  · exact le_max_left _ _
  · exact le_refl _

theorem due_of_processBlock (h : s.call = .processBlock b) : s.due = s.round := by
  rw [due, h]

theorem round_processTc (b : Block) : (s.processTc b).round = afterTc s.round b.tc := by
  unfold processTc
  cases b.tc with
  | none => rfl
  | some tc => exact round_advanceRound tc.round

/-- The call runs, or waits while something else happens. -/
theorem step_processTc (hcall : s.call = .processTc b) (hs : s.step env i = some s') :
    s' = s.processTc b ∨ s'.call = s.call ∧ s'.round = s.round := by
  cases i with
  | payloadCancel c => cases hs; exact .inr ⟨rfl, rfl⟩
  | storeWrite d v => cases hs; exact .inr ⟨rfl, rfl⟩
  | next =>
    simp only [step, runCall, hcall, Option.some.injEq] at hs
    exact .inl hs.symm
  | _ => simp [step, hcall] at hs

theorem due_le_step (hlast : i = .next → s.certificate env ≠ some lastRound)
    (hs : s.step env i = some s') : s.due ≤ s'.due := by
  have hround := round_le_step hlast hs
  by_cases hcall : ∃ b, s.call = .processTc b
  · obtain ⟨b, hcall⟩ := hcall
    rcases step_processTc hcall hs with rfl | ⟨hc, hr⟩
    · -- the round is now the one that was due
      have hdue : s.due = max s.round (s.processTc b).round := by rw [due, hcall, round_processTc]
      rw [hdue, max_eq_right hround]
      exact round_le_due
    · rw [due, due, hc, hr]
  · have hdue : s.due = s.round := by
      unfold due
      split
      · rename_i b hb
        exact absurd ⟨b, hb⟩ hcall
      · rfl
    rw [hdue]
    exact hround.trans round_le_due

end Core

/-- `process_block` suspends the block: its parent is not in the store. -/
def Core.Suspends (s : Core) (b : Block) : Prop :=
  b.qc.eq .genesis = false ∧ s.store b.parent = none

instance : Decidable (s.Suspends b) := inferInstanceAs (Decidable (_ ∧ _))

theorem Core.Suspends.getAncestors (h : s.Suspends b) : s.getAncestors b = .ok none := by
  unfold Core.getAncestors Core.getParentBlock
  rw [h.1, h.2]
  rfl

theorem Core.Suspends.of_store (h : s.Suspends b) (hstore : s'.store = s.store) :
    s'.Suspends b :=
  ⟨h.1, by rw [hstore]; exact h.2⟩

/-- A proposal that passes the checks is for a round that its certificates lead to, or its parent is
not there yet; a suspended block is handed back when the core has reached its round; and no
certificate is of the last round number. -/
structure Prompt (env : Env) (s : Core) (i : Core.Input) : Prop where
  last : i = .next → s.certificate env ≠ some lastRound
  round : ∀ b, i = .next → s.call = .handleProposal b → b.author = env.leader b.round →
    b.verify env.cr env.committee = .ok () → b.round ≤ Core.reached s.round b ∨ s.Suspends b
  resumed : ∀ b, i = .loopBack b ∨ i = .payloadReady b → b.round ≤ s.round ∨ s.Suspends b
  /-- No other user of the store writes the parent of a block that is ahead and on its way to
  `process_block`. -/
  written : ∀ b d value, i = .storeWrite d value → s.call.block? = some b → s.due < b.round →
    d ≠ b.parent

/-- The block of the pending call is not ahead of the core, or will be suspended. -/
def InTime (s : Core) : Prop := ∀ b, s.call.block? = some b → b.round ≤ s.due ∨ s.Suspends b

/-- **Step lemma.** -/
theorem InTime.step (h : InTime s) (hi : Prompt env s i)
    (hown : ∀ b, i ≠ .deliver (.loopBack b)) (hs : s.step env i = some s') : InTime s' := by
  intro b hb
  have hdue : s.due ≤ s'.due := Core.due_le_step hi.last hs
  cases Core.step_entered hs hb with
  | before hbefore hstore =>
    exact (h b hbefore).imp (fun hle => hle.trans hdue) fun hsus => hsus.of_store hstore
  | @written d value hbefore hw =>
    subst hw
    by_cases hahead : s.due < b.round
    · -- it is not ahead after all, or its parent is still missing
      obtain ⟨hgenesis, hmissing⟩ := (h b hbefore).resolve_left (not_le.mpr hahead)
      have hne : b.parent ≠ d := (hi.written b d value rfl hbefore hahead).symm
      cases hs
      exact .inr ⟨hgenesis, (Function.update_of_ne hne _ _).trans hmissing⟩
    · exact .inl ((not_lt.mp hahead).trans hdue)
  | proposal hnext hcall hleader hv hs' =>
    subst hs'
    have hstore : (s.processQc b.qc).store = s.store :=
      (Core.Quiet.processQc (.of_eq rfl rfl) b.qc).store
    refine (hi.round b hnext hcall hleader hv).imp (fun hle => hle.trans ?_)
      fun hsus => hsus.of_store hstore
    show Core.afterTc (nextRound s.round b.qc.round) b.tc ≤
      max (s.processQc b.qc).round (Core.afterTc (s.processQc b.qc).round b.tc)
    rw [Core.round_processQc]
    exact le_max_right _ _
  | own hcall hb =>
    subst hb
    exact .inl ((Core.round_le_step hi.last hs).trans Core.round_le_due)
  | loopBack hb => exact absurd hb (hown b)
  | resumed hb hstore =>
    exact (hi.resumed b hb).imp (fun hle => (hle.trans Core.round_le_due).trans hdue)
      fun hsus => hsus.of_store hstore

/-- **What a core that is in time cleans up is not ahead of it.** -/
theorem InTime.cleanup (h : InTime s) {es : List Effect} (hw : Core.Writes env s es)
    {digests : List Digest} {r : RoundNumber} (he : .cleanup digests r ∈ es) : r ≤ s.round := by
  cases hw with
  | nothing => simp at he
  | send hm => simp at he
  | timeout ht => simp at he
  | propose hp hc hb => simp at he
  | @process b0 b1 b cs vs hc ha hcommit hvote =>
    obtain rfl : r = b.round := by
      rcases hcommit with rfl | ⟨-, rfl⟩ <;>
        rcases hvote with rfl | ⟨-, -, -, rfl | ⟨m, r, -, rfl⟩⟩ <;> simp at he <;> exact he.2
    have hle : b.round ≤ s.due := by
      apply (h b (by rw [hc]; rfl)).resolve_right
      intro hsus
      rw [hsus.getAncestors] at ha
      cases ha
    exact Core.due_of_processBlock hc ▸ hle

theorem inTime_new : InTime (Core.new env) := by
  intro b hb
  unfold Core.new at hb
  dsimp only at hb
  split at hb <;> cases hb

end AccountabilityGadget.Consensus
