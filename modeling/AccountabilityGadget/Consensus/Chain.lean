import AccountabilityGadget.Consensus.Sound

/-!
# The blocks that a core stores and commits

* `Core.step_cases` — all steps but two kinds leave the store alone and neither vote nor commit:
  foreign writes to the store, and the processing of a block whose ancestors are there.
* `Core.log_step` — the log only grows.
* `Chained` — every block is stored under its digest and before it is voted for, and a committed
  block is the parent of the parent of a processed block, two consecutive rounds below.
-/

set_option autoImplicit false

namespace AccountabilityGadget.Consensus

/-- Neither a vote, nor a stored or committed block. -/
def Effect.Quiet : Effect → Prop
  | .vote _ | .store _ | .commit _ _ _ => False
  | _ => True

/-- The store stays, and only quiet effects are added. -/
structure Core.Quiet (s s' : Core) : Prop where
  store : s'.store = s.store
  log : ∃ es, s'.log = s.log ++ es ∧ ∀ e ∈ es, e.Quiet

variable {env : Env} {s s' t : Core} {b b0 b1 : Block}

namespace Core

namespace Quiet

theorem of_eq (hs : s'.store = s.store) (hl : s'.log = s.log) : s.Quiet s' :=
  ⟨hs, [], by rw [hl, List.append_nil], fun e he => by cases he⟩

theorem trans (h : s.Quiet s') (h' : s'.Quiet t) : s.Quiet t := by
  obtain ⟨hs, es, hl, he⟩ := h
  obtain ⟨hs', es', hl', he'⟩ := h'
  refine ⟨hs'.trans hs, es ++ es', by rw [hl', hl, List.append_assoc], ?_⟩
  intro e hmem
  exact (List.mem_append.mp hmem).elim (he e) (he' e)

theorem ret (h : s.Quiet s') (r : ConsensusResult Unit) : s.Quiet (s'.ret r) := by
  apply h.trans
  cases r with
  | ok u => exact of_eq rfl rfl
  | error e => dsimp only [Core.ret]; split <;> exact of_eq rfl rfl

theorem logged (h : s.Quiet s') {es : List Effect} (he : ∀ e ∈ es, e.Quiet) :
    s.Quiet (s'.logged es) :=
  h.trans ⟨rfl, es, rfl, he⟩

theorem transmit (h : s.Quiet s') {m : ConsensusMessage} {receiver : Option PublicKey}
    (ht : s'.transmit env m receiver = .ok t) : s.Quiet t := by
  have hsend : ∀ r, s.Quiet (s'.logged [.send m r]) := fun r =>
    h.logged fun e he => by rw [List.mem_singleton.mp he]; trivial
  cases receiver with
  | none => cases ht; exact hsend none
  | some r =>
    dsimp only [Core.transmit] at ht
    split at ht
    · cases ht; exact hsend (some r)
    · cases ht

theorem advanceRound (h : s.Quiet s') (r : RoundNumber) : s.Quiet (s'.advanceRound r) := by
  apply h.trans
  unfold Core.advanceRound
  split <;> exact of_eq rfl rfl

theorem processQc (h : s.Quiet s') (qc : QC) : s.Quiet (s'.processQc qc) := by
  apply (h.advanceRound qc.round).trans
  unfold Core.processQc updateHighQc
  split <;> exact of_eq rfl rfl

theorem proposeIfLeader (h : s.Quiet s') (tc : Option TC) :
    s.Quiet (s'.proposeIfLeader env tc) := by
  unfold Core.proposeIfLeader
  split
  · exact h.trans (of_eq rfl rfl)
  · exact h.ret _

end Quiet

theorem quiet_wait : s.Quiet (s.wait env b) := by
  unfold wait
  split <;> exact .of_eq rfl rfl

theorem quiet_waitPayload : s.Quiet (s.waitPayload env b) := by
  unfold waitPayload
  split <;> exact .of_eq rfl rfl

theorem quiet_handleVote (vote : Vote) : s.Quiet (s.handleVote env vote) := by
  have h (a : Aggregator) : s.Quiet { s with aggregator := a } := .of_eq rfl rfl
  unfold handleVote
  split
  · exact Quiet.ret (.of_eq rfl rfl) _
  · split
    · exact Quiet.ret (.of_eq rfl rfl) _
    · split
      · exact (h _).ret _
      · exact (h _).ret _
      · exact ((h _).processQc _).proposeIfLeader _

theorem quiet_handleTimeout (timeout : Timeout) : s.Quiet (s.handleTimeout env timeout) := by
  have h (a : Aggregator) : s.Quiet { s with aggregator := a } := .of_eq rfl rfl
  unfold handleTimeout
  split
  · exact Quiet.ret (.of_eq rfl rfl) _
  · split
    · exact Quiet.ret (.of_eq rfl rfl) _
    · split
      · exact (h _).ret _
      · exact (h _).ret _
      · exact ((h _).advanceRound _).proposeIfLeader _

theorem quiet_handleProposal : s.Quiet (s.handleProposal env b) := by
  unfold handleProposal
  split
  · exact Quiet.ret (.of_eq rfl rfl) _
  · split
    · exact Quiet.ret (.of_eq rfl rfl) _
    · exact (Quiet.processQc (.of_eq rfl rfl) b.qc).trans (.of_eq rfl rfl)

theorem quiet_processTc : s.Quiet (s.processTc b) := by
  unfold processTc
  split
  · exact .of_eq rfl rfl
  · exact (Quiet.advanceRound (.of_eq rfl rfl) _).trans (.of_eq rfl rfl)

theorem quiet_verifying (st : PayloadStatus) : s.Quiet (s.verifying env b st) := by
  cases st with
  | accept => exact .of_eq rfl rfl
  | reject => exact Quiet.ret (.of_eq rfl rfl) (.error .invalidPayload)
  | wait => exact quiet_waitPayload.ret (.ok ())

theorem quiet_handleSyncRequest (d : Digest) (sender : PublicKey) :
    s.Quiet (s.handleSyncRequest env d sender) := by
  generalize hu : s.handleSyncRequest env d sender = u
  cases handleSyncRequest_serves hu with
  | ret => exact Quiet.ret (.of_eq rfl rfl) _
  | panic => exact .of_eq rfl rfl
  | send _ ht => exact (Quiet.transmit (.of_eq rfl rfl) ht).ret _

theorem quiet_generateProposal (tc : Option TC) (payload : List Digest) :
    s.Quiet (s.generateProposal env tc payload) := by
  refine Quiet.trans (Quiet.logged (.of_eq rfl rfl) ?_) (.of_eq rfl rfl)
  intro e he
  rcases List.mem_cons.mp he with rfl | he
  · trivial
  · rw [List.mem_singleton.mp he]
    trivial

theorem quiet_localTimeoutRound : s.Quiet (s.localTimeoutRound env) := by
  have hlast : s.Quiet (s.increaseLastVotedRound s.round) := .of_eq rfl rfl
  refine (hlast.logged ?_).trans (.of_eq rfl rfl)
  intro e he
  rcases List.mem_cons.mp he with rfl | he
  · trivial
  · rw [List.mem_singleton.mp he]
    trivial

/-- The effects of a processed block. -/
structure Processed (env : Env) (s : Core) (b0 b1 b : Block) (s' : Core) : Prop where
  store : s'.store = Function.update s.store (b.digest env.cr) (some (.ok b))
  log : ∃ es, s'.log = s.log ++ .store b :: es ∧ ∀ e ∈ es, e.Quiet ∨ e = .vote b ∨
    e = .commit b0 b1 b ∧ b0.round + 1 = b1.round

theorem processed (b0 b1 b : Block) : Processed env s b0 b1 b (s.processDelivered env b0 b1 b) := by
  -- what is added after the store, up to the vote
  let c : Effect := .cleanup (b0.payload ++ b1.payload ++ b.payload) b.round
  let u := ((s.storeBlock env b).commitHead b0 b1 b).logged [c]
  have hu : Processed env s b0 b1 b u := by
    unfold u commitHead
    split
    · rename_i hr
      refine ⟨rfl, [.commit b0 b1 b, c], by simp [logged, storeBlock], ?_⟩
      intro e he
      rcases List.mem_cons.mp he with rfl | he
      · exact .inr (.inr ⟨rfl, hr⟩)
      · rw [List.mem_singleton.mp he]
        exact .inl trivial
    · refine ⟨rfl, [c], by simp [logged, storeBlock], ?_⟩
      intro e he
      rw [List.mem_singleton.mp he]
      exact .inl trivial
  have hquiet : ∀ {v w : Core}, Processed env s b0 b1 b v → v.Quiet w →
      Processed env s b0 b1 b w := by
    rintro v w ⟨hs, es, hl, he⟩ ⟨hs', es', hl', he'⟩
    refine ⟨hs'.trans hs, es ++ es', by rw [hl', hl]; simp, ?_⟩
    intro e hmem
    exact (List.mem_append.mp hmem).elim (he e) fun hmem => .inl (he' e hmem)
  have hvoted : Processed env s b0 b1 b ((u.increaseLastVotedRound b.round).logged [.vote b]) := by
    obtain ⟨hs, es, hl, he⟩ := hu
    refine ⟨hs, es ++ [.vote b], by simp [logged, increaseLastVotedRound, hl], ?_⟩
    intro e hmem
    rcases List.mem_append.mp hmem with hmem | hmem
    · exact he e hmem
    · exact .inr (.inl (List.mem_singleton.mp hmem))
  have hret : ∀ {v : Core}, Processed env s b0 b1 b v → ∀ r, Processed env s b0 b1 b (v.ret r) :=
    fun hv r => hquiet hv (Quiet.ret (.of_eq rfl rfl) r)
  unfold processDelivered
  dsimp only
  split_ifs
  · exact hret hu _
  · show Processed env s b0 b1 b (u.voteFor env b)
    unfold voteFor
    cases hm : u.makeVote env b with
    | error p => exact hquiet hu (.of_eq rfl rfl)
    | ok r =>
      rcases makeVote_cases hm with rfl | ⟨-, -, rfl⟩
      · exact hret hu _
      · dsimp only
        split_ifs
        · exact hquiet hvoted (.of_eq rfl rfl)
        · split
          · exact hret hvoted _
          · rename_i ht
            exact hret (hquiet hvoted (Quiet.transmit (.of_eq rfl rfl) ht)) _

/-- **What a step can do to the store and the log.** -/
theorem step_cases {i : Input} (hs : s.step env i = some s') :
    s.Quiet s' ∨ (∃ d v, i = .storeWrite d v ∧ s'.log = s.log) ∨
      ∃ b b0 b1, s.call = .processBlock b ∧ s.getAncestors b = .ok (some (b0, b1)) ∧
        Processed env s b0 b1 b s' := by
  cases step_takes hs with
  | @deliver m =>
    cases m with
    | syncRequest d sender => exact .inl (quiet_handleSyncRequest d sender)
    | _ => exact .inl (.of_eq rfl rfl)
  | loopBack | payloadReady | payloadCancel | resume | abandon => exact .inl (.of_eq rfl rfl)
  | timer => exact .inl quiet_localTimeoutRound
  | next hrun =>
    cases hrun with
    | handleProposal => exact .inl quiet_handleProposal
    | processTc => exact .inl quiet_processTc
    | @processBlock b hcall =>
      unfold processBlock
      split
      · exact .inl (Quiet.ret (.of_eq rfl rfl) _)
      · exact .inl (.of_eq rfl rfl)
      · exact .inl (quiet_wait.ret _)
      · rename_i b0 b1 ha
        exact .inr (.inr ⟨b, b0, b1, hcall, ha, processed b0 b1 b⟩)
    | handleVote => exact .inl (quiet_handleVote _)
    | handleTimeout => exact .inl (quiet_handleTimeout _)
    | handleTc => exact .inl (Quiet.proposeIfLeader (Quiet.advanceRound (.of_eq rfl rfl) _) _)
    | boycott => exact .inl (Quiet.ret (.of_eq rfl rfl) _)
  | status => exact .inl (quiet_verifying _)
  | payload => exact .inl (quiet_generateProposal _ _)
  | @storeWrite d v => exact .inr (.inl ⟨d, v, rfl, rfl⟩)

/-- A block whose ancestors are there is processed by the next step that is not about waiting blocks
or foreign writes. -/
theorem step_processBlock {i : Input} (hcall : s.call = .processBlock b)
    (ha : s.getAncestors b = .ok (some (b0, b1))) (hs : s.step env i = some s') :
    s'.log = s.log ∨ Processed env s b0 b1 b s' := by
  cases i with
  | payloadCancel c => cases hs; exact .inl rfl
  | storeWrite d v => cases hs; exact .inl rfl
  | next =>
    simp only [step, runCall, hcall, Option.some.injEq] at hs
    subst hs
    unfold processBlock
    rw [ha]
    exact .inr (processed b0 b1 b)
  | _ => simp [step, hcall] at hs

/-- **The log only grows.** -/
theorem log_step {i : Input} (hs : s.step env i = some s') : s.log ⊆ s'.log := by
  rcases step_cases hs with ⟨-, es, hl, -⟩ | ⟨d, v, -, hl⟩ | ⟨b, b0, b1, -, -, -, es, hl, -⟩
  · rw [hl]; exact List.subset_append_left _ _
  · rw [hl]; exact List.Subset.refl _
  · rw [hl]; exact List.subset_append_left _ _

end Core

/-- `b0` is genesis or a stored block, and the parent of the stored block `b1`. -/
structure Linked (env : Env) (s : Core) (b0 b1 b : Block) : Prop where
  rounds : b0.round + 1 = b1.round
  notGenesis : b.qc.eq .genesis = false
  digest : b1.digest env.cr = b.qc.hash
  stored : .store b1 ∈ s.log
  processed : .store b ∈ s.log
  parent : b1.qc.eq .genesis = true ∧ b0 = .genesis ∨
    b1.qc.eq .genesis = false ∧ b0.digest env.cr = b1.qc.hash ∧ .store b0 ∈ s.log

structure Chained (env : Env) (s : Core) : Prop where
  voted : ∀ b, .vote b ∈ s.log → .store b ∈ s.log
  keyed : ∀ d b, s.store d = some (.ok b) → b.digest env.cr = d ∧ .store b ∈ s.log
  linked : ∀ b0 b1 b, .commit b0 b1 b ∈ s.log → Linked env s b0 b1 b

/-- Other users of the store write no blocks. -/
def NoForeignBlock (env : Env) : Core.Input → Prop
  | .storeWrite _ value => ∀ b, Block.tryFrom env.cr.toCrypto value ≠ .ok b
  | _ => True

theorem Linked.mono (h : Linked env s b0 b1 b) (hl : s.log ⊆ s'.log) : Linked env s' b0 b1 b :=
  { h with
    stored := hl h.stored
    processed := hl h.processed
    parent := h.parent.imp id fun ⟨h1, h2, h3⟩ => ⟨h1, h2, hl h3⟩ }

namespace Chained

theorem quiet (h : Chained env s) (hq : s.Quiet s') : Chained env s' := by
  obtain ⟨hstore, es, hl, he⟩ := hq
  have hsub : s.log ⊆ s'.log := by rw [hl]; exact List.subset_append_left _ _
  -- a vote or a commit is not among the new effects
  have hold : ∀ e, ¬ e.Quiet → e ∈ s'.log → e ∈ s.log := by
    intro e hne hmem
    rw [hl] at hmem
    exact (List.mem_append.mp hmem).resolve_right fun hmem => hne (he e hmem)
  refine ⟨fun b hb => hsub (h.voted b (hold _ id hb)), ?_, ?_⟩
  · intro d b hd
    rw [hstore] at hd
    exact (h.keyed d b hd).imp id fun hmem => hsub hmem
  · intro b0 b1 b hc
    exact (h.linked b0 b1 b (hold _ id hc)).mono hsub

/-- A stored parent is found under its digest. -/
theorem getParentBlock (h : Chained env s) {p : Block} (hp : s.getParentBlock b = .ok (some p)) :
    b.qc.eq .genesis = true ∧ p = .genesis ∨
      b.qc.eq .genesis = false ∧ p.digest env.cr = b.qc.hash ∧ .store p ∈ s.log := by
  apply (Core.getParentBlock_some hp).imp id
  rintro ⟨hg, hstore⟩
  exact ⟨hg, h.keyed _ _ hstore⟩

theorem processed (h : Chained env s) (ha : s.getAncestors b = .ok (some (b0, b1)))
    (hp : Core.Processed env s b0 b1 b s') : Chained env s' := by
  obtain ⟨hstore, es, hl, he⟩ := hp
  have hsub : s.log ⊆ s'.log := by rw [hl]; exact List.subset_append_left _ _
  have hmem : .store b ∈ s'.log := by rw [hl]; simp
  have hnew : ∀ e, e ∈ s'.log → e ∈ s.log ∨ e = .store b ∨ e.Quiet ∨ e = .vote b ∨
      e = .commit b0 b1 b ∧ b0.round + 1 = b1.round := by
    intro e hmem
    rw [hl] at hmem
    exact (List.mem_append.mp hmem).imp id fun hmem => (List.mem_cons.mp hmem).imp id (he e)
  refine ⟨?_, ?_, ?_⟩
  · intro c hc
    rcases hnew _ hc with hc | hc | hc | hc | ⟨hc, -⟩
    · exact hsub (h.voted c hc)
    · cases hc
    · cases hc
    · cases hc; exact hmem
    · cases hc
  · intro d c hd
    rw [hstore] at hd
    by_cases hk : d = b.digest env.cr
    · rw [hk, Function.update_self] at hd
      cases hd
      exact ⟨hk.symm, hmem⟩
    · rw [Function.update_of_ne hk] at hd
      exact (h.keyed d c hd).imp id fun hlog => hsub hlog
  · intro c0 c1 c hc
    rcases hnew _ hc with hc | hc | hc | hc | ⟨hc, hr⟩
    · exact (h.linked c0 c1 c hc).mono hsub
    · cases hc
    · cases hc
    · cases hc
    · cases hc
      obtain ⟨hg, hs1⟩ := Core.parent_of_commit ha hr
      obtain ⟨hd, hlog⟩ := h.keyed _ _ hs1
      refine ⟨hr, hg, hd, hsub hlog, hmem, ?_⟩
      exact (h.getParentBlock (Core.getAncestors_some ha).2).imp id
        fun ⟨h1, h2, h3⟩ => ⟨h1, h2, hsub h3⟩

/-- Somebody else writes to the store. -/
theorem storeWrite (h : Chained env s) {d : Digest} {value : Except (Fault DecodeError) Block}
    (hvalue : ∀ b, value ≠ .ok b) :
    Chained env { s with store := Function.update s.store d (some value) } := by
  refine ⟨h.voted, ?_, fun b0 b1 b hc => { h.linked b0 b1 b hc with }⟩
  intro k b hb
  dsimp only at hb
  by_cases hk : k = d
  · rw [hk, Function.update_self, Option.some.injEq] at hb
    exact absurd hb (hvalue b)
  · rw [Function.update_of_ne hk] at hb
    exact h.keyed k b hb

/-- **Every step of a core that alone writes blocks to its store keeps the chain.** -/
theorem step (h : Chained env s) {i : Core.Input} (hi : NoForeignBlock env i)
    (hs : s.step env i = some s') : Chained env s' := by
  rcases Core.step_cases hs with hq | ⟨d, v, rfl, -⟩ | ⟨b, b0, b1, -, ha, hp⟩
  · exact h.quiet hq
  · cases hs
    exact h.storeWrite hi
  · exact h.processed ha hp

end Chained

theorem chained_new : Chained env (Core.new env) where
  voted b hb := by cases hb
  keyed d v hd := by cases hd
  linked b0 b1 b hc := by cases hc

end AccountabilityGadget.Consensus
