import AccountabilityGadget.Consensus.Core

/-!
# What a core knows of the objects that it holds

`Evidence` is what is known of a signature, a vote, a certificate or a block: that it verifies, or
that the authorities behind it have signed it.  Evidence that the aggregator can combine (`Closed`)
is kept by the core for everything that takes effect.

* `Known` — a block of the elected leader with evidence for the block and its certificates.
* `Sound` — the certificate, the collected votes, the stored, suspended and pending blocks and the
  effects of a core are known.
* `Sound.step` — kept by every step whose input brings evidence along (`InputKnown`).
-/

set_option autoImplicit false

namespace AccountabilityGadget.Consensus

open Encoding

structure Evidence where
  sig : Digest → PublicKey × Signature → Prop
  timeoutSig : RoundNumber → PublicKey × Signature × RoundNumber → Prop
  vote : Vote → Prop
  timeout : Timeout → Prop
  qc : QC → Prop
  tc : TC → Prop
  block : Block → Prop

/-- Certificates that are assembled from known votes are known. -/
structure Evidence.Closed (env : Env) (P : Evidence) : Prop where
  genesis : P.qc .genesis
  vote : ∀ v, P.vote v → P.sig (v.digest env.cr) (v.author, v.signature)
  timeout : ∀ t, P.timeout t → P.timeoutSig t.round (t.author, t.signature, t.highQcRound)
  qc : ∀ (qc : QC) (v : Vote), P.vote v → qc.hash = v.hash → qc.round = v.round →
    Quorate env.committee (qc.votes.map Prod.fst) →
    (∀ u ∈ qc.votes, P.sig (v.digest env.cr) u) → P.qc qc
  tc : ∀ tc : TC, Quorate env.committee (tc.votes.map Prod.fst) →
    (∀ u ∈ tc.votes, P.timeoutSig tc.round u) → P.tc tc

structure Known (env : Env) (P : Evidence) (b : Block) : Prop where
  leader : b.author = env.leader b.round
  block : P.block b
  qc : P.qc b.qc
  tc : ∀ tc, b.tc = some tc → P.tc tc

/-- The blocks of an effect are known. -/
def EffectKnown (env : Env) (P : Evidence) : Effect → Prop
  | .propose b | .vote b | .store b => Known env P b
  | .commit _ b1 b => Known env P b1 ∧ Known env P b
  | _ => True

/-- What the node signs itself is known. -/
def EffectSigned (env : Env) (P : Evidence) : Effect → Prop
  | .vote b => P.vote (.new env.cr b env.name)
  | .timeout t =>
    t.author = env.name → t.signature = env.cr.sign env.name (t.digest env.cr) → P.timeout t
  | .propose b =>
    b.author = env.name → b.signature = env.cr.sign env.name (b.digest env.cr) → P.block b
  | _ => True

/-- The own block that carries the certificate is never made, or the certificate is known. -/
def Usable (env : Env) (P : Evidence) (tc : Option TC) : Prop :=
  env.boycottProposals = true ∨ ∀ t, tc = some t → P.tc t

/-- The round after `advance_round`. -/
def nextRound (current round : RoundNumber) : RoundNumber :=
  if round < current then current else round + 1

/-- What the pending call is given is known, once the call has verified it. -/
def CallKnown (env : Env) (P : Evidence) (round : RoundNumber) : Call → Prop
  | .handleProposal b =>
    b.author = env.leader b.round → b.verify env.cr env.committee = .ok () → Known env P b
  | .processTc b | .verifying b | .processBlock b => Known env P b
  | .handleVote v => v.verify env.cr env.committee = .ok () → P.vote v
  | .handleTimeout t => t.verify env.cr env.committee = .ok () → P.timeout t
  | .handleTc tc => env.name = env.leader (nextRound round tc.round) → Usable env P (some tc)
  | .generateProposal tc => env.name = env.leader round ∧ Usable env P tc
  | .idle | .stopped _ => True

/-- What an input brings along is known. -/
def InputKnown (env : Env) (P : Evidence) (round : RoundNumber) : Core.Input → Prop
  | .deliver (.propose b) =>
    b.author = env.leader b.round → b.verify env.cr env.committee = .ok () → Known env P b
  | .deliver (.vote v) => v.verify env.cr env.committee = .ok () → P.vote v
  | .deliver (.timeout t) => t.verify env.cr env.committee = .ok () → P.timeout t
  | .deliver (.tc tc) => env.name = env.leader (nextRound round tc.round) → Usable env P (some tc)
  | .deliver (.loopBack b) => Known env P b
  | .storeWrite _ value => ∀ b, Block.tryFrom env.cr.toCrypto value = .ok b → Known env P b
  | _ => True

/-- `Sound`, apart from the pending call. -/
structure Held (env : Env) (P : Evidence) (s : Core) : Prop where
  highQc : P.qc s.highQc
  aggregator : s.aggregator.Sound env.committee P.sig P.timeoutSig
  store : ∀ d b, s.store d = some (.ok b) → Known env P b
  pending : ∀ b ∈ s.pending, Known env P b
  payloadPending : ∀ b ∈ s.payloadPending, Known env P b
  log : ∀ e ∈ s.log, EffectKnown env P e

structure Sound (env : Env) (P : Evidence) (s : Core) : Prop where
  held : Held env P s
  call : CallKnown env P s.round s.call

variable {env : Env} {P : Evidence} {s s' : Core} {b b0 b1 : Block}

theorem Core.round_advanceRound (r : RoundNumber) :
    (s.advanceRound r).round = nextRound s.round r := by
  unfold advanceRound nextRound
  split <;> rfl

theorem Core.round_processQc (qc : QC) : (s.processQc qc).round = nextRound s.round qc.round := by
  rw [← round_advanceRound]
  unfold processQc updateHighQc
  split <;> rfl

/-! ## More evidence -/

structure Evidence.Le (P Q : Evidence) : Prop where
  sig : ∀ d v, P.sig d v → Q.sig d v
  timeoutSig : ∀ r v, P.timeoutSig r v → Q.timeoutSig r v
  vote : ∀ v, P.vote v → Q.vote v
  timeout : ∀ t, P.timeout t → Q.timeout t
  qc : ∀ qc, P.qc qc → Q.qc qc
  tc : ∀ tc, P.tc tc → Q.tc tc
  block : ∀ b, P.block b → Q.block b

section Mono

variable {Q : Evidence} (hle : P.Le Q)

include hle

theorem Known.mono (h : Known env P b) : Known env Q b :=
  ⟨h.leader, hle.block b h.block, hle.qc b.qc h.qc, fun tc htc => hle.tc tc (h.tc tc htc)⟩

theorem Usable.mono {tc : Option TC} (h : Usable env P tc) : Usable env Q tc :=
  h.imp id fun h t ht => hle.tc t (h t ht)

theorem EffectKnown.mono {e : Effect} (h : EffectKnown env P e) : EffectKnown env Q e := by
  cases e with
  | propose b => exact Known.mono hle h
  | vote b => exact Known.mono hle h
  | store b => exact Known.mono hle h
  | commit b0 b1 b => exact ⟨h.1.mono hle, h.2.mono hle⟩
  | _ => trivial

theorem CallKnown.mono {r : RoundNumber} {c : Call} (h : CallKnown env P r c) :
    CallKnown env Q r c := by
  cases c with
  | handleProposal b => exact fun hl hv => (h hl hv).mono hle
  | processTc b => exact Known.mono hle h
  | verifying b => exact Known.mono hle h
  | processBlock b => exact Known.mono hle h
  | handleVote v => exact fun hv => hle.vote v (h hv)
  | handleTimeout t => exact fun hv => hle.timeout t (h hv)
  | handleTc tc => exact fun hl => (h hl).mono hle
  | generateProposal tc => exact ⟨h.1, h.2.mono hle⟩
  | _ => trivial

theorem Sound.mono (h : Sound env P s) : Sound env Q s where
  held :=
    { highQc := hle.qc _ h.held.highQc
      aggregator := h.held.aggregator.mono hle.sig hle.timeoutSig
      store := fun d b hb => (h.held.store d b hb).mono hle
      pending := fun b hb => (h.held.pending b hb).mono hle
      payloadPending := fun b hb => (h.held.payloadPending b hb).mono hle
      log := fun e he => (h.held.log e he).mono hle }
  call := h.call.mono hle

end Mono

namespace Held

theorem withCall (h : Held env P s) (c : Call) : Held env P { s with call := c } := { h with }

theorem withAggregator (h : Held env P s) {a : Aggregator}
    (ha : a.Sound env.committee P.sig P.timeoutSig) : Held env P { s with aggregator := a } :=
  { h with aggregator := ha }

theorem stop (h : Held env P s) (p : Panic) : Sound env P (s.stop p) := ⟨{ h with }, trivial⟩

theorem ret (h : Held env P s) (r : ConsensusResult Unit) : Sound env P (s.ret r) := by
  cases r with
  | ok u => exact ⟨{ h with }, trivial⟩
  | error e =>
    dsimp only [Core.ret]
    split
    · exact h.stop _
    · exact ⟨{ h with }, trivial⟩

theorem logged (h : Held env P s) {es : List Effect} (he : ∀ e ∈ es, EffectKnown env P e) :
    Held env P (s.logged es) :=
  { h with log := fun e hmem => (List.mem_append.mp hmem).elim (h.log e) (he e) }

theorem transmit (h : Held env P s) {m : ConsensusMessage} {receiver : Option PublicKey}
    (hs : s.transmit env m receiver = .ok s') : Held env P s' := by
  have hsend : ∀ r, Held env P (s.logged [.send m r]) := fun r =>
    h.logged fun e he => by rw [List.mem_singleton.mp he]; trivial
  cases receiver with
  | none => cases hs; exact hsend none
  | some r =>
    dsimp only [Core.transmit] at hs
    split at hs
    · cases hs; exact hsend (some r)
    · cases hs

theorem advanceRound (h : Held env P s) (r : RoundNumber) : Held env P (s.advanceRound r) := by
  unfold Core.advanceRound
  split
  · exact h
  · exact { h with aggregator := h.aggregator.cleanup _ }

theorem updateHighQc (h : Held env P s) {qc : QC} (hqc : P.qc qc) :
    Held env P (s.updateHighQc qc) := by
  unfold Core.updateHighQc
  split
  · exact { h with highQc := hqc }
  · exact h

theorem processQc (h : Held env P s) {qc : QC} (hqc : P.qc qc) : Held env P (s.processQc qc) :=
  (h.advanceRound qc.round).updateHighQc hqc

theorem proposeIfLeader (h : Held env P s) {tc : Option TC}
    (htc : env.name = env.leader s.round → Usable env P tc) :
    Sound env P (s.proposeIfLeader env tc) := by
  unfold Core.proposeIfLeader
  split
  · rename_i hl
    exact ⟨h.withCall _, hl, htc hl⟩
  · exact h.ret _

theorem wait (h : Held env P s) (hb : Known env P b) : Held env P (s.wait env b) := by
  unfold Core.wait
  split
  · exact h
  · refine { h with pending := ?_ }
    intro c hc
    rcases List.mem_append.mp hc with hc | hc
    · exact h.pending c hc
    · rw [List.mem_singleton.mp hc]; exact hb

theorem waitPayload (h : Held env P s) (hb : Known env P b) :
    Held env P (s.waitPayload env b) := by
  unfold Core.waitPayload
  split
  · exact h
  · refine { h with payloadPending := ?_ }
    intro c hc
    rcases List.mem_append.mp hc with hc | hc
    · exact h.payloadPending c hc
    · rw [List.mem_singleton.mp hc]; exact hb

theorem storeBlock (h : Held env P s) (hb : Known env P b) : Held env P (s.storeBlock env b) := by
  have hstore : ∀ d c, (s.storeBlock env b).store d = some (.ok c) → Known env P c := by
    intro d c hc
    dsimp only [Core.storeBlock] at hc
    by_cases hd : d = b.digest env.cr
    · simp only [hd, Function.update_self, Option.some.injEq] at hc
      cases hc
      exact hb
    · rw [Function.update_of_ne hd] at hc
      exact h.store d c hc
  exact { (h.logged fun e he => by rw [List.mem_singleton.mp he]; exact hb :
    Held env P (s.logged [.store b])) with store := hstore }

theorem commitHead (h : Held env P s) (hb1 : b0.round + 1 = b1.round → Known env P b1)
    (hb : Known env P b) : Held env P (s.commitHead b0 b1 b) := by
  unfold Core.commitHead
  split
  · rename_i hr
    exact h.logged fun e he => by rw [List.mem_singleton.mp he]; exact ⟨hb1 hr, hb⟩
  · exact h

end Held

/-- What `makeVote` does when it does not panic. -/
theorem Core.makeVote_cases {r : Core × Option Vote} (h : s.makeVote env b = .ok r) :
    r = (s, none) ∨
      s.lastVotedRound < b.round ∧ Core.safetyRule2 b = .ok true ∧
        r = ((s.increaseLastVotedRound b.round).logged [.vote b],
          some (.new env.cr b env.name)) := by
  unfold Core.makeVote at h
  split at h
  · cases h
  · rename_i rule2 hrule
    split at h
    · rename_i hvote
      cases h
      rw [hvote.2] at hrule
      exact .inr ⟨hvote.1, hrule, rfl⟩
    · cases h
      exact .inl rfl

theorem Held.voteFor (h : Held env P s) (hb : Known env P b)
    (hsig : ∀ e ∈ (s.voteFor env b).log, EffectSigned env P e) : Sound env P (s.voteFor env b) := by
  unfold Core.voteFor at hsig ⊢
  cases hm : s.makeVote env b with
  | error p => exact h.stop p
  | ok r =>
    rw [hm] at hsig
    rcases Core.makeVote_cases hm with rfl | ⟨-, -, rfl⟩
    · exact h.ret _
    · have hv : Held env P ((s.increaseLastVotedRound b.round).logged [.vote b]) :=
        Held.logged (s := s.increaseLastVotedRound b.round) { h with } fun e he => by
          rw [List.mem_singleton.mp he]; exact hb
      dsimp only at hsig ⊢
      split_ifs at hsig ⊢
      · refine ⟨hv.withCall _, ?_⟩
        intro _
        exact hsig (.vote b) (by simp [Core.logged])
      · split
        · exact hv.ret _
        · rename_i ht
          exact (hv.transmit ht).ret _

/-- A parent that is not genesis is in the store. -/
theorem Core.getParentBlock_some {p : Block} (h : s.getParentBlock b = .ok (some p)) :
    b.qc.eq .genesis = true ∧ p = .genesis ∨
      b.qc.eq .genesis = false ∧ s.store b.parent = some (.ok p) := by
  unfold Core.getParentBlock at h
  cases hq : b.qc.eq .genesis with
  | true =>
    rw [hq] at h
    cases h
    exact .inl ⟨rfl, rfl⟩
  | false =>
    simp only [hq, Bool.false_eq_true, if_false] at h
    split at h
    · rename_i value hvalue
      cases hd : Core.deserialized value with
      | error e =>
        rw [hd] at h
        cases h
      | ok c =>
        rw [hd] at h
        cases h
        rw [Core.deserialized_eq_ok.mp hd] at hvalue
        exact .inr ⟨rfl, hvalue⟩
    · cases h

theorem Core.getAncestors_some (h : s.getAncestors b = .ok (some (b0, b1))) :
    s.getParentBlock b = .ok (some b1) ∧ s.getParentBlock b1 = .ok (some b0) := by
  unfold Core.getAncestors at h
  split at h
  · cases h
  · cases h
  · rename_i c hc
    split at h
    · cases h
    · cases h
    · rename_i d hd
      cases h
      exact ⟨hc, hd⟩

/-- The parent of a block whose grandparent gets committed is not genesis. -/
theorem Core.parent_of_commit (h : s.getAncestors b = .ok (some (b0, b1)))
    (hr : b0.round + 1 = b1.round) :
    b.qc.eq .genesis = false ∧ s.store b.parent = some (.ok b1) := by
  obtain ⟨h1, h0⟩ := getAncestors_some h
  rcases getParentBlock_some h1 with ⟨-, rfl⟩ | hstore
  · -- the parent of genesis is genesis
    have : b0 = .genesis := by
      unfold getParentBlock at h0
      cases h0
      rfl
    subst this
    exact absurd hr (by decide)
  · exact hstore

theorem Held.processDelivered (h : Held env P s) (hb : Known env P b)
    (ha : s.getAncestors b = .ok (some (b0, b1)))
    (hsig : ∀ e ∈ (s.processDelivered env b0 b1 b).log, EffectSigned env P e) :
    Sound env P (s.processDelivered env b0 b1 b) := by
  have hb1 : b0.round + 1 = b1.round → Known env P b1 := fun hr =>
    h.store _ _ (Core.parent_of_commit ha hr).2
  have hcleanup : ∀ e ∈ [Effect.cleanup (b0.payload ++ b1.payload ++ b.payload) b.round],
      EffectKnown env P e := fun e he => by rw [List.mem_singleton.mp he]; trivial
  have h2 := ((h.storeBlock hb).commitHead hb1 hb).logged hcleanup
  unfold Core.processDelivered at hsig ⊢
  dsimp only at hsig ⊢
  split_ifs at hsig ⊢
  · exact h2.ret _
  · exact h2.voteFor hb hsig

theorem Held.processBlock (h : Held env P s) (hb : Known env P b)
    (hsig : ∀ e ∈ (s.processBlock env b).log, EffectSigned env P e) :
    Sound env P (s.processBlock env b) := by
  unfold Core.processBlock at hsig ⊢
  split at hsig
  · exact h.ret _
  · exact h.stop _
  · exact (h.wait hb).ret _
  · rename_i ha
    exact h.processDelivered hb ha hsig

theorem Held.handleVote (hP : P.Closed env) (h : Held env P s) {vote : Vote}
    (hv : vote.verify env.cr env.committee = .ok () → P.vote vote) :
    Sound env P (s.handleVote env vote) := by
  unfold Core.handleVote
  split
  · exact h.ret _
  · split
    · exact h.ret _
    · rename_i hverify
      obtain ⟨hagg, hmade⟩ := h.aggregator.addVote env.cr
        (Vote.verify_eq_ok.mp hverify).1 (hP.vote vote (hv hverify))
      split
      · rename_i heq
        exact (h.withAggregator (by rw [heq] at hagg; exact hagg)).ret _
      · rename_i heq
        exact (h.withAggregator (by rw [heq] at hagg; exact hagg)).ret _
      · rename_i aggregator qc heq
        rw [heq] at hagg hmade
        obtain ⟨hhash, hround, hq, hvotes⟩ := hmade qc rfl
        have hqc : P.qc qc := hP.qc qc vote (hv hverify) hhash hround hq hvotes
        exact ((h.withAggregator hagg).processQc hqc).proposeIfLeader
          fun _ => .inr fun t ht => by cases ht

theorem Held.handleTimeout (hP : P.Closed env) (h : Held env P s) {timeout : Timeout}
    (hv : timeout.verify env.cr env.committee = .ok () → P.timeout timeout) :
    Sound env P (s.handleTimeout env timeout) := by
  unfold Core.handleTimeout
  split
  · exact h.ret _
  · split
    · exact h.ret _
    · rename_i hverify
      obtain ⟨hagg, hmade⟩ := h.aggregator.addTimeout
        (Timeout.verify_eq_ok.mp hverify).1 (hP.timeout timeout (hv hverify))
      split
      · rename_i heq
        exact (h.withAggregator (by rw [heq] at hagg; exact hagg)).ret _
      · rename_i heq
        exact (h.withAggregator (by rw [heq] at hagg; exact hagg)).ret _
      · rename_i aggregator tc heq
        rw [heq] at hagg hmade
        obtain ⟨hround, hq, hvotes⟩ := hmade tc rfl
        have htc : P.tc tc := hP.tc tc hq fun u hu => hround ▸ hvotes u hu
        exact ((h.withAggregator hagg).advanceRound tc.round).proposeIfLeader
          fun _ => .inr fun t ht => by cases ht; exact htc

theorem Held.handleProposal (h : Held env P s)
    (hb : b.author = env.leader b.round → b.verify env.cr env.committee = .ok () → Known env P b) :
    Sound env P (s.handleProposal env b) := by
  unfold Core.handleProposal
  split
  · exact h.ret _
  · rename_i hl
    split
    · exact h.ret _
    · rename_i hverify
      have hk := hb (not_not.mp hl) hverify
      exact ⟨(h.processQc hk.qc).withCall _, hk⟩

theorem Held.processTc (h : Held env P s) (hb : Known env P b) :
    Sound env P (s.processTc b) := by
  unfold Core.processTc
  split
  · exact ⟨h.withCall _, hb⟩
  · exact ⟨(h.advanceRound _).withCall _, hb⟩

theorem Held.verifying (h : Held env P s) (hb : Known env P b) (st : PayloadStatus) :
    Sound env P (s.verifying env b st) := by
  cases st with
  | accept => exact ⟨h.withCall _, hb⟩
  | reject => exact h.ret (.error .invalidPayload)
  | wait => exact (h.waitPayload hb).ret (.ok ())

theorem Held.handleSyncRequest (h : Held env P s) (d : Digest) (sender : PublicKey) :
    Sound env P (s.handleSyncRequest env d sender) := by
  generalize hu : s.handleSyncRequest env d sender = u
  cases Core.handleSyncRequest_serves hu with
  | ret => exact h.ret _
  | panic => exact h.stop _
  | send _ ht => exact (h.transmit ht).ret _

theorem Held.generateProposal (h : Held env P s) {tc : Option TC} {payload : List Digest}
    (hl : env.name = env.leader s.round) (htc : ∀ t, tc = some t → P.tc t)
    (hsig : ∀ e ∈ (s.generateProposal env tc payload).log, EffectSigned env P e) :
    Sound env P (s.generateProposal env tc payload) := by
  have hblock : P.block (.new env.cr s.highQc tc env.name s.round payload) :=
    hsig (.propose _) (by simp [Core.generateProposal, Core.logged]) rfl rfl
  have hk : Known env P (.new env.cr s.highQc tc env.name s.round payload) :=
    ⟨hl, hblock, h.highQc, htc⟩
  refine ⟨(h.logged ?_).withCall _, hk⟩
  intro e he
  rcases List.mem_cons.mp he with rfl | he
  · exact hk
  · rw [List.mem_singleton.mp he]
    trivial

theorem Held.localTimeoutRound (h : Held env P s)
    (hsig : ∀ e ∈ (s.localTimeoutRound env).log, EffectSigned env P e) :
    Sound env P (s.localTimeoutRound env) := by
  refine ⟨?_, ?_⟩
  · refine (Held.logged (s := s.increaseLastVotedRound s.round) { h with } ?_).withCall _
    intro e he
    rcases List.mem_cons.mp he with rfl | he
    · trivial
    · rw [List.mem_singleton.mp he]
      trivial
  · intro _
    exact hsig (.timeout _) (by simp [Core.localTimeoutRound, Core.logged]) rfl rfl

/-- The pending call keeps what is known. -/
theorem Sound.runCall (hP : P.Closed env) (h : Sound env P s) (hs : s.Runs env s')
    (hsig : ∀ e ∈ s'.log, EffectSigned env P e) : Sound env P s' := by
  have hc := h.call
  cases hs with
  | handleProposal hcall => rw [hcall] at hc; exact h.held.handleProposal hc
  | processTc hcall => rw [hcall] at hc; exact h.held.processTc hc
  | processBlock hcall => rw [hcall] at hc; exact h.held.processBlock hc hsig
  | handleVote hcall => rw [hcall] at hc; exact h.held.handleVote hP hc
  | handleTimeout hcall => rw [hcall] at hc; exact h.held.handleTimeout hP hc
  | handleTc hcall =>
    rw [hcall] at hc
    refine (h.held.advanceRound _).proposeIfLeader fun hl => hc ?_
    rw [← Core.round_advanceRound]
    exact hl
  | boycott => exact h.held.ret _

/-- **Everything that takes effect stays known.** -/
theorem Sound.step (hP : P.Closed env) (h : Sound env P s) {i : Core.Input}
    (hi : InputKnown env P s.round i) (hs : s.step env i = some s')
    (hsig : ∀ e ∈ s'.log, EffectSigned env P e) : Sound env P s' := by
  have hc := h.call
  cases Core.step_takes hs with
  | @deliver m =>
    cases m with
    | propose b => exact ⟨h.held.withCall _, hi⟩
    | vote v => exact ⟨h.held.withCall _, hi⟩
    | timeout t => exact ⟨h.held.withCall _, hi⟩
    | tc tc => exact ⟨h.held.withCall _, hi⟩
    | loopBack b => exact ⟨h.held.withCall _, hi⟩
    | syncRequest d sender => exact h.held.handleSyncRequest d sender
  | loopBack hmem =>
    exact ⟨{ h.held with pending := fun c hc => h.held.pending c (List.mem_of_mem_erase hc) },
      h.held.pending _ hmem⟩
  | payloadReady hmem =>
    exact ⟨{ h.held with
      payloadPending := fun c hc => h.held.payloadPending c (List.mem_of_mem_erase hc) },
      h.held.payloadPending _ hmem⟩
  | payloadCancel =>
    exact ⟨{ h.held with
      payloadPending := fun c hc => h.held.payloadPending c (List.mem_of_mem_erase hc) }, h.call⟩
  | timer => exact h.held.localTimeoutRound hsig
  | resume => exact h
  | abandon => exact h.held.stop _
  | next hrun => exact h.runCall hP hrun hsig
  | status hcall =>
    rw [hcall] at hc
    exact h.held.verifying hc _
  | payload hcall hboycott =>
    rw [hcall] at hc
    exact h.held.generateProposal hc.1 (hc.2.resolve_left (Bool.eq_false_iff.mp hboycott)) hsig
  | @storeWrite d v =>
    refine ⟨{ h.held with store := ?_ }, h.call⟩
    intro k c hk
    dsimp only at hk
    by_cases hd : k = d
    · simp only [hd, Function.update_self, Option.some.injEq] at hk
      exact hi c hk
    · rw [Function.update_of_ne hd] at hk
      exact h.held.store k c hk

theorem sound_new (hP : P.Closed env) : Sound env P (Core.new env) := by
  refine ⟨⟨hP.genesis, Aggregator.sound_new, ?_, ?_, ?_, ?_⟩, ?_⟩
  · intro d b h
    cases h
  · intro b h
    cases h
  · intro b h
    cases h
  · intro e h
    cases h
  · unfold Core.new
    dsimp only
    split
    · rename_i hl
      exact ⟨hl, .inr fun t ht => by cases ht⟩
    · trivial

end AccountabilityGadget.Consensus
