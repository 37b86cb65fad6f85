import AccountabilityGadget.Consensus.InFlight

/-!
# Blocks whose payload has been checked

A block that waits for its parent, or that `process_block` is called with, has passed the check of
the mempool.

* `Core.Ready`, `Core.step_ready` — where such blocks come from.
* `Core.step_processed` — what is stored or voted for is such a block.
* `Core.step_await` — a core that waits for the mempool does nothing else.
-/

set_option autoImplicit false

namespace AccountabilityGadget.Consensus.Core

variable {env : Env} {s s' : Core} {b c : Block} {i : Input}

/-- The block waits for its parent, or is processed next. -/
def Ready (s : Core) (b : Block) : Prop := b ∈ s.pending ∨ s.call = .processBlock b

/-- Where such a block comes from. -/
inductive Readied (s : Core) (i : Input) (b : Block) : Prop where
  | before : s.Ready b → Readied s i b
  | accepted : i = .status .accept → s.call = .verifying b → Readied s i b
  | own : i = .payload b.payload → Readied s i b
  | woken : i = .payloadReady b → Readied s i b
  | loopBack : i = .deliver (.loopBack b) → Readied s i b

theorem ready_ret {r : ConsensusResult Unit} (h : (s.ret r).Ready b) : b ∈ s.pending := by
  cases r with
  | ok u => exact h.resolve_right (by simp [ret])
  | error e =>
    unfold ret at h
    dsimp only at h
    split at h
    · exact h.resolve_right (by simp [stop])
    · exact h.resolve_right (by simp)

theorem ready_proposeIfLeader {tc : Option TC} (h : (s.proposeIfLeader env tc).Ready b) :
    b ∈ s.pending := by
  unfold proposeIfLeader at h
  split at h
  · exact h.resolve_right (by simp)
  · exact ready_ret h

theorem pending_advanceRound (r : RoundNumber) : (s.advanceRound r).pending = s.pending := by
  unfold advanceRound
  split <;> rfl

theorem pending_processQc (qc : QC) : (s.processQc qc).pending = s.pending := by
  unfold processQc updateHighQc
  split <;> exact pending_advanceRound _

theorem pending_transmit {m : ConsensusMessage} {receiver : Option PublicKey}
    (h : s.transmit env m receiver = .ok s') : s'.pending = s.pending := by
  cases receiver with
  | none =>
    cases h
    rfl
  | some r =>
    dsimp only [transmit] at h
    split at h
    · cases h
      rfl
    · cases h

theorem ready_voteFor (h : (s.voteFor env c).Ready b) : b ∈ s.pending := by
  unfold voteFor at h
  cases hm : s.makeVote env c with
  | error p =>
    rw [hm] at h
    exact h.resolve_right (by simp [stop])
  | ok r =>
    rw [hm] at h
    rcases makeVote_cases hm with rfl | ⟨-, -, rfl⟩
    · exact ready_ret h
    · dsimp only at h
      split at h
      · exact h.resolve_right (by simp)
      · split at h
        · have hsent := ready_ret h
          exact hsent
        · rename_i ht
          have hsent := ready_ret h
          rwa [pending_transmit ht] at hsent

/-- The block may have to wait for its parent. -/
theorem ready_processBlock (h : (s.processBlock env c).Ready b) : b ∈ s.pending ∨ b = c := by
  unfold processBlock at h
  split at h
  · exact .inl (ready_ret h)
  · exact .inl (h.resolve_right (by simp [stop]))
  · have hwait := ready_ret h
    unfold wait at hwait
    split at hwait
    · exact .inl hwait
    · exact (List.mem_append.mp hwait).imp_right List.mem_singleton.mp
  · rename_i b0 b1 _
    have hpending : (((s.storeBlock env c).commitHead b0 b1 c).logged
        [.cleanup (b0.payload ++ b1.payload ++ c.payload) c.round]).pending = s.pending := by
      unfold commitHead
      split <;> rfl
    unfold processDelivered at h
    dsimp only at h
    split at h
    · exact .inl (hpending ▸ ready_ret h)
    · exact .inl (hpending ▸ ready_voteFor h)

theorem ready_handleVote {v : Vote} (h : (s.handleVote env v).Ready b) : b ∈ s.pending := by
  unfold handleVote at h
  split at h
  · exact ready_ret h
  · split at h
    · exact ready_ret h
    · split at h
      · have hret := ready_ret h
        exact hret
      · have hret := ready_ret h
        exact hret
      · have hpropose := ready_proposeIfLeader h
        rwa [pending_processQc] at hpropose

theorem ready_handleTimeout {t : Timeout} (h : (s.handleTimeout env t).Ready b) :
    b ∈ s.pending := by
  unfold handleTimeout at h
  split at h
  · exact ready_ret h
  · split at h
    · exact ready_ret h
    · split at h
      · have hret := ready_ret h
        exact hret
      · have hret := ready_ret h
        exact hret
      · have hpropose := ready_proposeIfLeader h
        rwa [pending_advanceRound] at hpropose

theorem ready_runCall (hs : s.Runs env s') (h : s'.Ready b) : s.Ready b := by
  cases hs with
  | @handleProposal c hcall =>
    unfold handleProposal at h
    split at h
    · exact .inl (ready_ret h)
    · split at h
      · exact .inl (ready_ret h)
      · have hqc : b ∈ (s.processQc c.qc).pending := h.resolve_right (by simp)
        exact .inl (pending_processQc c.qc ▸ hqc)
  | @processTc c hcall =>
    unfold processTc at h
    split at h
    · exact .inl (h.resolve_right (by simp))
    · rename_i tc _
      have htc : b ∈ (s.advanceRound tc.round).pending := h.resolve_right (by simp)
      exact .inl (pending_advanceRound tc.round ▸ htc)
  | @processBlock c hcall =>
    rcases ready_processBlock h with h | rfl
    · exact .inl h
    · exact .inr hcall
  | handleVote => exact .inl (ready_handleVote h)
  | handleTimeout => exact .inl (ready_handleTimeout h)
  | @handleTc tc => exact .inl (pending_advanceRound tc.round ▸ ready_proposeIfLeader h)
  | boycott => exact .inl (ready_ret h)

/-- **Blocks that are ready** were ready before, have been accepted by the mempool, are the core's
own blocks, come back from the synchronizer of the mempool, or come as a `LoopBack` message. -/
theorem step_ready (hs : s.step env i = some s') (h : s'.Ready b) : Readied s i b := by
  cases step_takes hs with
  | @deliver m =>
    cases m with
    | loopBack c =>
      rcases h with h | h
      · exact .before (.inl h)
      · cases h
        exact .loopBack rfl
    | syncRequest d sender =>
      generalize hu : s.receive env (.syncRequest d sender) = u at h
      cases handleSyncRequest_serves hu with
      | ret => exact .before (.inl (ready_ret h))
      | panic => exact .before (.inl (h.resolve_right (by simp [stop])))
      | send _ ht => exact .before (.inl (pending_transmit ht ▸ ready_ret h))
    | _ => exact .before (.inl (h.resolve_right (by simp [receive])))
  | @loopBack c hmem =>
    rcases h with h | h
    · exact .before (.inl (List.mem_of_mem_erase h))
    · cases h
      exact .before (.inl hmem)
  | payloadReady =>
    rcases h with h | h
    · exact .before (.inl h)
    · cases h
      exact .woken rfl
  | payloadCancel | resume | storeWrite => exact .before h
  | timer => exact .before (.inl (h.resolve_right (by simp [localTimeoutRound])))
  | abandon => exact .before (.inl (h.resolve_right (by simp [stop])))
  | next hrun => exact .before (ready_runCall hrun h)
  | @status c st hcall =>
    cases st with
    | accept =>
      rcases h with h | h
      · exact .before (.inl h)
      · cases h
        exact .accepted rfl hcall
    | reject => exact .before (.inl (ready_ret (r := .error .invalidPayload) h))
    | wait =>
      have hwait := ready_ret (r := .ok ()) h
      unfold waitPayload at hwait
      split at hwait <;> exact .before (.inl hwait)
  | payload =>
    rcases h with h | h
    · exact .before (.inl h)
    · cases h
      exact .own rfl

/-- What is stored or voted for was ready; what is proposed has the payload that the mempool has
answered. -/
def EffectReady (s : Core) (i : Input) : Effect → Prop
  | .store b | .vote b => s.Ready b
  | .propose b => i = .payload b.payload
  | _ => True

theorem step_processed (hs : s.step env i = some s') {e : Effect} (he : e ∈ s'.log) :
    e ∈ s.log ∨ EffectReady s i e := by
  obtain ⟨es, hlog, hw⟩ := step_writes hs
  rw [hlog, List.mem_append] at he
  apply he.imp_right
  intro he
  cases hw with
  | nothing => cases he
  | send =>
    rw [List.mem_singleton.mp he]
    trivial
  | timeout =>
    rcases List.mem_cons.mp he with rfl | he
    · trivial
    · rw [List.mem_singleton.mp he]
      trivial
  | @propose tc payload b hboycott hcall hb =>
    rcases List.mem_cons.mp he with rfl | he
    · cases i with
      | payload ds =>
        simp only [step, hcall, hboycott, Bool.false_eq_true, if_false, Option.some.injEq] at hs
        subst hs
        rw [generateProposal, logged, List.append_cancel_left_eq] at hlog
        rw [← Effect.propose.inj (List.cons.inj hlog).1]
        rfl
      | payloadCancel c =>
        cases hs
        simp at hlog
      | storeWrite d v =>
        cases hs
        simp at hlog
      | next => simp [step, runCall, hcall, hboycott] at hs
      | _ => simp [step, hcall] at hs
    · rw [List.mem_singleton.mp he]
      trivial
  | @process b0 b1 b cs vs hcall _ hcs hvs =>
    have hready : s.Ready b := .inr hcall
    have hcommit : ∀ e ∈ cs, EffectReady s i e := by
      rcases hcs with rfl | ⟨-, rfl⟩ <;> simp [EffectReady]
    have hvote : ∀ e ∈ vs, EffectReady s i e := by
      rcases hvs with rfl | ⟨-, -, -, rfl | ⟨m, r, -, rfl⟩⟩ <;> simp [EffectReady, hready]
    rcases List.mem_append.mp he with he | he
    · rcases List.mem_cons.mp he with rfl | he
      · exact hready
      · exact hcommit e he
    · rcases List.mem_cons.mp he with rfl | he
      · trivial
      · exact hvote e he

/-- The core waits for an answer of the mempool. -/
def Awaiting (env : Env) (s : Core) : Prop :=
  (∃ b, s.call = .verifying b) ∨ env.boycottProposals = false ∧ ∃ tc, s.call = .generateProposal tc

/-- **A core that waits for the mempool does nothing else.** -/
theorem step_await (h : Awaiting env s) (hs : s.step env i = some s') :
    (∃ st, i = .status st) ∨ (∃ ds, i = .payload ds) ∨ s'.call = s.call ∧ s'.log = s.log := by
  cases i with
  | status st => exact .inl ⟨st, rfl⟩
  | payload ds => exact .inr (.inl ⟨ds, rfl⟩)
  | payloadCancel b =>
    cases hs
    exact .inr (.inr ⟨rfl, rfl⟩)
  | storeWrite d v =>
    cases hs
    exact .inr (.inr ⟨rfl, rfl⟩)
  | next => rcases h with ⟨b, hcall⟩ | ⟨hboycott, tc, hcall⟩ <;> simp [step, runCall, *] at hs
  | _ => rcases h with ⟨b, hcall⟩ | ⟨-, tc, hcall⟩ <;> simp [step, hcall] at hs

theorem not_awaiting_ret (r : ConsensusResult Unit) : ¬ Awaiting env (s.ret r) := by
  cases r with
  | ok u => simp [Awaiting, ret]
  | error e =>
    unfold ret
    dsimp only
    split <;> simp [Awaiting, stop]

/-- After an answer it does not wait any more. -/
theorem step_answered (hs : s.step env i = some s')
    (hi : (∃ st, i = .status st) ∨ ∃ ds, i = .payload ds) : ¬ Awaiting env s' := by
  cases step_takes hs with
  | @status b st hcall =>
    cases st with
    | accept => simp [Awaiting, verifying]
    | reject => exact not_awaiting_ret (.error .invalidPayload)
    | wait => exact not_awaiting_ret (.ok ())
  | payload => simp [Awaiting, generateProposal]
  | _ => simp at hi

end AccountabilityGadget.Consensus.Core
