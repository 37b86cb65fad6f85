import AccountabilityGadget.Consensus.Agreement
import AccountabilityGadget.Consensus.Pacemaker

/-!
# What it takes to advance a round

* `Backed`, `Backed.advances` — a core whose collected votes and pending call are known moves to the
  round after that of a known certificate, or stays.
* `Network.Unforged`, `Network.Guarded` — arbitrary messages without forged signatures of honest
  authorities; those steps that do not rest on an unverified timeout certificate, while there is a
  next round.
* `Network.rounds_advance` — in runs of such steps every change of a round is to the one after a
  round in which a quorum has signed votes for one block, or timeouts.
* `Network.forged_tc_advances` — the message `TC` does it with no signature at all.
-/

set_option autoImplicit false

namespace AccountabilityGadget.Consensus

open Encoding

/-! ## One core -/

/-- What the pending call brings to the pacemaker is known, once the call has verified it. -/
def CallBacked (env : Env) (P : Evidence) (round : RoundNumber) : Call → Prop
  | .handleProposal b => b.verify env.cr env.committee = .ok () →
      P.qc b.qc ∧ ∀ tc, b.tc = some tc → P.tc tc
  | .processTc b => ∀ tc, b.tc = some tc → P.tc tc
  | .handleVote v => v.verify env.cr env.committee = .ok () → P.vote v
  | .handleTimeout t => t.verify env.cr env.committee = .ok () → P.timeout t
  | .handleTc tc => round ≤ tc.round → P.tc tc
  | _ => True

/-- So is what a message brings. -/
def InputBacked (env : Env) (P : Evidence) (round : RoundNumber) : Core.Input → Prop
  | .deliver m => ∀ c, m.handler = some c → CallBacked env P round c
  | _ => True

structure Backed (env : Env) (P : Evidence) (s : Core) : Prop where
  aggregator : s.aggregator.Sound env.committee P.sig P.timeoutSig
  call : CallBacked env P s.round s.call

/-- There is a known certificate of the round. -/
def Certifies (P : Evidence) (r : RoundNumber) : Prop :=
  (∃ qc, P.qc qc ∧ qc.round = r) ∨ ∃ tc, P.tc tc ∧ tc.round = r

/-- The round stays, or becomes the one after that of a known certificate. -/
def Advances (P : Evidence) (s s' : Core) : Prop :=
  s'.round = s.round ∨ ∃ r, s.round ≤ r ∧ s'.round = r + 1 ∧ Certifies P r

variable {env : Env} {P Q : Evidence} {s s' : Core}

theorem CallBacked.of_inert {r : RoundNumber} {c : Call} (h : c.Inert) : CallBacked env P r c := by
  cases c <;> trivial

theorem CallBacked.mono (hle : P.Le Q) {r : RoundNumber} {c : Call} (h : CallBacked env P r c) :
    CallBacked env Q r c := by
  cases c with
  | handleProposal b =>
    exact fun hv => ⟨hle.qc _ (h hv).1, fun tc htc => hle.tc _ ((h hv).2 tc htc)⟩
  | processTc b => exact fun tc htc => hle.tc _ (h tc htc)
  | handleVote v => exact fun hv => hle.vote _ (h hv)
  | handleTimeout t => exact fun hv => hle.timeout _ (h hv)
  | handleTc tc => exact fun hr => hle.tc _ (h hr)
  | _ => trivial

theorem Backed.mono (hle : P.Le Q) (h : Backed env P s) : Backed env Q s :=
  ⟨h.aggregator.mono hle.sig hle.timeoutSig, h.call.mono hle⟩

namespace Core

theorem sound_advanceRound {c : Committee} {V : Digest → PublicKey × Signature → Prop}
    {T : RoundNumber → PublicKey × Signature × RoundNumber → Prop}
    (h : s.aggregator.Sound c V T) (r : RoundNumber) : (s.advanceRound r).aggregator.Sound c V T := by
  unfold advanceRound
  split
  · exact h
  · exact h.cleanup _

theorem sound_processQc {c : Committee} {V : Digest → PublicKey × Signature → Prop}
    {T : RoundNumber → PublicKey × Signature × RoundNumber → Prop}
    (h : s.aggregator.Sound c V T) (qc : QC) : (s.processQc qc).aggregator.Sound c V T := by
  have ha := sound_advanceRound h qc.round
  unfold processQc updateHighQc
  split <;> exact ha

end Core

/-- The own votes and timeouts are known, once they verify. -/
structure SignsKnown (env : Env) (P : Evidence) (s : Core) : Prop where
  vote : ∀ b, .vote b ∈ s.log →
    (Vote.new env.cr b env.name).verify env.cr env.committee = .ok () →
      P.vote (.new env.cr b env.name)
  timeout : ∀ q r, .timeout (.new env.cr q r env.name) ∈ s.log →
    (Timeout.new env.cr q r env.name).verify env.cr env.committee = .ok () →
      P.timeout (.new env.cr q r env.name)

section Steps

variable (hP : P.Closed env) (h : Backed env P s)

include hP h

/-- A certificate assembled from a vote that verifies is known. -/
theorem Backed.known_qc {v : Vote} {qc : QC} (hcall : s.call = .handleVote v)
    (hv : v.verify env.cr env.committee = .ok ())
    (hqc : (s.aggregator.addVote env.cr env.committee v).2 = .ok (some qc)) :
    P.qc qc ∧ qc.round = v.round := by
  have hvote : P.vote v := by
    have hc := h.call
    rw [hcall] at hc
    exact hc hv
  obtain ⟨hhash, hround, hq, hvotes⟩ := (h.aggregator.addVote env.cr
    (Vote.verify_eq_ok.mp hv).1 (hP.vote v hvote)).2 qc hqc
  exact ⟨hP.qc qc v hvote hhash hround hq hvotes, hround⟩

theorem Backed.known_tc {t : Timeout} {tc : TC} (hcall : s.call = .handleTimeout t)
    (hv : t.verify env.cr env.committee = .ok ())
    (htc : (s.aggregator.addTimeout env.committee t).2 = .ok (some tc)) :
    P.tc tc ∧ tc.round = t.round := by
  have htimeout : P.timeout t := by
    have hc := h.call
    rw [hcall] at hc
    exact hc hv
  obtain ⟨hround, hq, hvotes⟩ := (h.aggregator.addTimeout
    (Timeout.verify_eq_ok.mp hv).1 (hP.timeout t htimeout)).2 tc htc
  exact ⟨hP.tc tc hq fun u hu => hround ▸ hvotes u hu, hround⟩

theorem Backed.sound_addVote {v : Vote} (hcall : s.call = .handleVote v)
    (hv : v.verify env.cr env.committee = .ok ()) :
    (s.aggregator.addVote env.cr env.committee v).1.Sound env.committee P.sig P.timeoutSig := by
  have hc := h.call
  rw [hcall] at hc
  exact (h.aggregator.addVote env.cr (Vote.verify_eq_ok.mp hv).1 (hP.vote v (hc hv))).1

theorem Backed.sound_addTimeout {t : Timeout} (hcall : s.call = .handleTimeout t)
    (hv : t.verify env.cr env.committee = .ok ()) :
    (s.aggregator.addTimeout env.committee t).1.Sound env.committee P.sig P.timeoutSig := by
  have hc := h.call
  rw [hcall] at hc
  exact (h.aggregator.addTimeout (Timeout.verify_eq_ok.mp hv).1 (hP.timeout t (hc hv))).1

/-- **Step lemma.** -/
theorem Backed.step {i : Core.Input} (hi : InputBacked env P s.round i)
    (hs : s.step env i = some s') (hsign : SignsKnown env P s') : Backed env P s' := by
  have hmade : ∀ {tc : Option TC}, s'.call = .generateProposal tc →
      CallBacked env P s'.round s'.call := by
    intro tc hc
    rw [hc]
    trivial
  cases Core.step_moves hs with
  | still hp hc =>
    refine ⟨by rw [hp.aggregator]; exact h.aggregator, ?_⟩
    rcases hc with hc | hc
    · exact .of_inert hc
    · rw [hc, hp.round]
      exact h.call
  | receive hm hp =>
    refine ⟨by rw [hp.aggregator]; exact h.aggregator, ?_⟩
    rw [hp.round]
    exact hi _ hm
  | timer hp hc hlog =>
    refine ⟨by rw [hp.aggregator]; exact h.aggregator, ?_⟩
    rw [hc]
    exact hsign.timeout _ _ hlog
  | vote hp hc hlog =>
    refine ⟨by rw [hp.aggregator]; exact h.aggregator, ?_⟩
    rw [hc]
    exact hsign.vote _ hlog
  | proposal hcall hv hp hc =>
    refine ⟨by rw [hp.aggregator]; exact Core.sound_processQc h.aggregator _, ?_⟩
    have hb := h.call
    rw [hcall] at hb
    rw [hc]
    exact (hb hv).2
  | proposalTc hcall htc hp hc =>
    exact ⟨by rw [hp.aggregator]; exact Core.sound_advanceRound h.aggregator _,
      .of_inert hc⟩
  | collectVote hcall hv hp hc =>
    exact ⟨by rw [hp.aggregator]; exact h.sound_addVote hP hcall hv, .of_inert hc⟩
  | assembleQc hcall _ hv _ hp hc =>
    refine ⟨?_, hc.elim .of_inert hmade⟩
    rw [hp.aggregator]
    exact Core.sound_processQc (h.sound_addVote hP hcall hv) _
  | collectTimeout hcall hv hp hc =>
    exact ⟨by rw [hp.aggregator]; exact h.sound_addTimeout hP hcall hv, .of_inert hc⟩
  | assembleTc hcall _ hv _ hp hc =>
    refine ⟨?_, hc.elim .of_inert fun hc => hmade hc.2⟩
    rw [hp.aggregator]
    exact Core.sound_advanceRound (h.sound_addTimeout hP hcall hv) _
  | receiveTc hcall hp hc =>
    refine ⟨?_, hc.elim .of_inert hmade⟩
    rw [hp.aggregator]
    exact Core.sound_advanceRound h.aggregator _

/-- **A backed core advances on known certificates only.** -/
theorem Backed.advances {i : Core.Input} (hs : s.step env i = some s') : Advances P s s' := by
  have hnext : ∀ {r}, s'.round = nextRound s.round r → (s.round ≤ r → Certifies P r) →
      Advances P s s' := by
    intro r hr hc
    unfold nextRound at hr
    split at hr
    · exact .inl hr
    · rename_i hlt
      exact .inr ⟨r, not_lt.mp hlt, hr, hc (not_lt.mp hlt)⟩
  have hcall := h.call
  cases Core.step_moves hs with
  | still hp | receive _ hp | timer hp | vote hp | collectVote _ _ hp | collectTimeout _ _ hp =>
    exact .inl hp.round
  | proposal hc hv hp =>
    rw [hc] at hcall
    exact hnext (hp.round.trans (Core.round_processQc _)) fun _ => .inl ⟨_, (hcall hv).1, rfl⟩
  | proposalTc hc htc hp =>
    rw [hc] at hcall
    exact hnext (hp.round.trans (Core.round_advanceRound _)) fun _ => .inr ⟨_, hcall _ htc, rfl⟩
  | assembleQc hc _ hv hqc hp =>
    exact hnext (hp.round.trans (Core.round_processQc _)) fun _ =>
      .inl ⟨_, (h.known_qc hP hc hv hqc).1, rfl⟩
  | assembleTc hc _ hv htc hp =>
    exact hnext (hp.round.trans (Core.round_advanceRound _)) fun _ =>
      .inr ⟨_, (h.known_tc hP hc hv htc).1, rfl⟩
  | receiveTc hc hp =>
    rw [hc] at hcall
    exact hnext (hp.round.trans (Core.round_advanceRound _)) fun hr => .inr ⟨_, hcall hr, rfl⟩

end Steps

theorem backed_new : Backed env P (Core.new env) := by
  refine ⟨Aggregator.sound_new, ?_⟩
  unfold Core.new
  dsimp only
  split <;> trivial

/-! ## The network -/

/-- The signatures in a message. -/
def ConsensusMessage.carried : ConsensusMessage → List Signed
  | .tc c => c.signatures
  | m => m.signatures

/-- The round that a vote or a timeout is for. -/
def Effect.signedRound : Effect → Option RoundNumber
  | .vote b => some b.round
  | .timeout t => some t.round
  | _ => none

/-- New votes and timeouts are for the current round. -/
theorem Core.signedRound_step {i : Core.Input} (hs : s.step env i = some s') {e : Effect}
    {r : RoundNumber} (he : e ∈ s'.log) (hr : e.signedRound = some r) :
    e ∈ s.log ∨ r = s.round := by
  rcases Core.step_fresh hs e he with hold | hnew
  · exact .inl hold
  · cases e with
    | vote b =>
      cases hr
      exact .inr hnew
    | timeout u =>
      cases hr
      rw [show u = _ from hnew]
      exact .inr rfl
    | _ => cases hr

namespace Network

variable (N : Network) (S : Bytes → Prop)

/-- The messages are arbitrary, but a signature of an honest authority is its own. -/
def Unforged (σ : Cores) (l : PublicKey × Core.Input) : Prop :=
  match l.2 with
  | .deliver m => ∀ u ∈ m.carried, S u.2.2 ∧
      (N.cr.Accepts u.2.1 (N.cr.sha512 u.2.2) u.1 → N.Attested σ u.1 (N.cr.sha512 u.2.2))
  | _ => True

/-- No honest core is in the last round, and a timeout certificate that comes as a message verifies
or is for a past round. -/
structure Guarded (σ : Cores) (l : PublicKey × Core.Input) : Prop where
  round : ∀ p, N.Honest p → (σ p).round.val + 1 < 2 ^ 64
  tc : ∀ tc, l.2 = .deliver (.tc tc) →
    tc.verify N.cr N.committee = .ok () ∨ tc.round < (σ l.1).round

/-- What honest cores sign is computed from strings in `S`. -/
def Hashed (σ : Cores) : Prop := ∀ p, N.Honest p → ∀ e ∈ (σ p).log, ∀ x ∈ e.signed N.cr, S x

/-- A quorum has signed votes for one block and one round. -/
def QuorumVoted (σ : Cores) (r : RoundNumber) : Prop :=
  ∃ (hash : Digest) (names : List PublicKey), Quorate N.committee names ∧ ∀ a ∈ names,
    (∃ s, N.cr.Accepts s (N.cr.sha512 (hash.toBytes ++ leBytes 8 r)) a) ∧
    (N.Honest a → ∃ b, .vote b ∈ (σ a).log ∧ b.digest N.cr = hash ∧ b.round = r)

/-- A quorum has signed timeouts for one round. -/
def QuorumTimedOut (σ : Cores) (r : RoundNumber) : Prop :=
  ∃ names : List PublicKey, Quorate N.committee names ∧ ∀ a ∈ names, ∃ q : RoundNumber,
    (∃ s, N.cr.Accepts s (N.cr.sha512 (timeoutPreimage r q)) a) ∧
    (N.Honest a → ∃ t : Timeout, .timeout t ∈ (σ a).log ∧ t.round = r ∧ t.highQcRound = q)

def QuorumEvidence (σ : Cores) (r : RoundNumber) : Prop :=
  N.QuorumVoted σ r ∨ N.QuorumTimedOut σ r

/-- Every honest core is in the first round, or in the one after a round with quorum evidence. -/
def RoundsEvidenced (σ : Cores) : Prop :=
  ∀ p, N.Honest p → (σ p).round.val = 1 ∨
    ∃ r : RoundNumber, 1 ≤ r.val ∧ (σ p).round.val = r.val + 1 ∧ N.QuorumEvidence σ r

/-- A round that changes grows, without overflow, to the one after a round with quorum evidence. -/
def EvidencedStep (σ σ' : Cores) : Prop :=
  ∀ p, N.Honest p → (σ' p).round = (σ p).round ∨
    ∃ r : RoundNumber, 1 ≤ r.val ∧ (σ p).round ≤ r ∧ (σ' p).round.val = r.val + 1 ∧
      N.QuorumEvidence σ r

/-! ### Evidence -/

/-- A signature that is accepted and, if the authority is honest, its own. -/
def Signs (σ : Cores) (a : PublicKey) (s : Signature) (d : Digest) : Prop :=
  N.cr.Accepts s d a ∧ N.Attested σ a d

/-- The quorum behind a certificate. -/
def signatureEvidence (σ : Cores) : Evidence where
  sig d v := N.Signs σ v.1 v.2 d
  timeoutSig r v := S (timeoutPreimage r v.2.2) ∧
    N.Signs σ v.1 v.2.1 (N.cr.sha512 (timeoutPreimage r v.2.2))
  vote v := S v.preimage ∧ N.Signs σ v.author v.signature (v.digest N.cr)
  timeout t := S t.preimage ∧ N.Signs σ t.author t.signature (t.digest N.cr)
  qc qc := qc.eq .genesis = true ∨
    S qc.preimage ∧ Quorate N.committee (qc.votes.map Prod.fst) ∧
      ∀ v ∈ qc.votes, N.Signs σ v.1 v.2 (qc.digest N.cr)
  tc tc := Quorate N.committee (tc.votes.map Prod.fst) ∧
    ∀ v ∈ tc.votes, S (timeoutPreimage tc.round v.2.2) ∧
      N.Signs σ v.1 v.2.1 (N.cr.sha512 (timeoutPreimage tc.round v.2.2))
  block _ := True

structure RoundInv (σ : Cores) : Prop where
  backed : ∀ p, N.Honest p → Backed (N.env p) (N.signatureEvidence S σ) (σ p)
  signed : ∀ p, N.Honest p → ∀ e ∈ (σ p).log, ∀ r, e.signedRound = some r → r ≤ (σ p).round
  hashed : N.Hashed S σ
  rounds : N.RoundsEvidenced σ

variable {N S} {σ σ' : Cores} {p : PublicKey}

theorem Signs.mono (hlog : ∀ p, (σ p).log ⊆ (σ' p).log) {a : PublicKey} {s : Signature} {d : Digest}
    (h : N.Signs σ a s d) : N.Signs σ' a s d := ⟨h.1, h.2.mono hlog⟩

theorem signatureEvidence_le (hlog : ∀ p, (σ p).log ⊆ (σ' p).log) :
    (N.signatureEvidence S σ).Le (N.signatureEvidence S σ') where
  sig _ _ h := Signs.mono hlog h
  timeoutSig _ _ h := ⟨h.1, h.2.mono hlog⟩
  vote _ h := ⟨h.1, h.2.mono hlog⟩
  timeout _ h := ⟨h.1, h.2.mono hlog⟩
  qc _ h := h.imp id fun h => ⟨h.1, h.2.1, fun v hv => (h.2.2 v hv).mono hlog⟩
  tc _ h := ⟨h.1, fun v hv => ⟨(h.2 v hv).1, (h.2 v hv).2.mono hlog⟩⟩
  block _ _ := trivial

theorem QuorumEvidence.mono (hlog : ∀ p, (σ p).log ⊆ (σ' p).log) {r : RoundNumber}
    (h : N.QuorumEvidence σ r) : N.QuorumEvidence σ' r := by
  rcases h with ⟨hash, names, hq, hv⟩ | ⟨names, hq, hv⟩
  · refine .inl ⟨hash, names, hq, fun a ha => ⟨(hv a ha).1, fun hp => ?_⟩⟩
    obtain ⟨b, hb, hd, hr⟩ := (hv a ha).2 hp
    exact ⟨b, hlog a hb, hd, hr⟩
  · refine .inr ⟨names, hq, ?_⟩
    intro a ha
    obtain ⟨q, hs, hh⟩ := hv a ha
    refine ⟨q, hs, ?_⟩
    intro hp
    obtain ⟨t, ht, hr⟩ := hh hp
    exact ⟨t, hlog a ht, hr⟩

theorem closed_signatureEvidence (σ : Cores) (p : PublicKey) :
    (N.signatureEvidence S σ).Closed (N.env p) where
  genesis := .inl (by decide)
  vote _ h := h.2
  timeout _ h := h
  qc qc v hv hhash hround hq hvotes := by
    have hpre : qc.preimage = v.preimage := by
      unfold QC.preimage Vote.preimage
      rw [hhash, hround]
    refine .inr ⟨hpre ▸ hv.1, hq, ?_⟩
    unfold QC.digest
    rw [hpre]
    exact hvotes
  tc _ hq hvotes := ⟨hq, hvotes⟩

/-- A timeout certificate that verifies, without forged signatures, is known. -/
theorem known_tc_of_unforged {tc : TC} (hv : tc.verify N.cr N.committee = .ok ())
    (hu : ∀ u ∈ tc.signatures, S u.2.2 ∧
      (N.cr.Accepts u.2.1 (N.cr.sha512 u.2.2) u.1 → N.Attested σ u.1 (N.cr.sha512 u.2.2))) :
    (N.signatureEvidence S σ).tc tc := by
  obtain ⟨hq, hsig⟩ := TC.quorate_of_verify hv
  refine ⟨hq, ?_⟩
  intro v hv
  obtain ⟨hS, ha⟩ := hu _ (List.mem_map_of_mem hv)
  exact ⟨hS, .inl (hsig v hv), ha (.inl (hsig v hv))⟩

theorem known_qc_of_unforged {qc : QC} (hv : qc.verify N.cr N.committee = .ok ())
    (hu : ∀ u ∈ qc.signatures, S u.2.2 ∧
      (N.cr.Accepts u.2.1 (N.cr.sha512 u.2.2) u.1 → N.Attested σ u.1 (N.cr.sha512 u.2.2))) :
    (N.signatureEvidence S σ).qc qc := by
  obtain ⟨hq, hbatch⟩ := QC.quorate_of_verify hv
  have hmem : ∀ v ∈ qc.votes, (v.1, v.2, qc.preimage) ∈ qc.signatures := fun v hv =>
    List.mem_map_of_mem hv
  obtain ⟨a, ha⟩ := List.exists_mem_of_ne_nil _ hq.ne_nil
  obtain ⟨v, hv, -⟩ := List.mem_map.mp ha
  refine .inr ⟨(hu _ (hmem v hv)).1, hq, ?_⟩
  intro v hv
  have hacc : N.cr.Accepts v.2 (qc.digest N.cr) v.1 := .inr ⟨qc.votes, hv, hbatch⟩
  exact ⟨hacc, (hu _ (hmem v hv)).2 hacc⟩

/-- **What messages bring is known.** -/
theorem inputBacked_of_unforged {i : Core.Input} (hu : N.Unforged S σ (p, i))
    (hg : N.Guarded σ (p, i)) :
    InputBacked (N.env p) (N.signatureEvidence S σ) (σ p).round i := by
  cases i with
  | deliver m =>
    intro c hc
    cases m with
    | propose b =>
      cases hc
      intro hv
      obtain ⟨-, -, hqc, htc⟩ := Block.verify_eq_ok.mp hv
      refine ⟨?_, fun tc ht => known_tc_of_unforged (htc tc ht) fun u hmem => hu u ?_⟩
      · rcases hqc with hqc | hqc
        · exact .inl hqc
        · exact known_qc_of_unforged hqc fun u hmem =>
            hu u (List.mem_cons_of_mem _ (List.mem_append_left _ hmem))
      · refine List.mem_cons_of_mem _ (List.mem_append_right _ ?_)
        rw [ht]
        exact hmem
    | vote v =>
      cases hc
      intro hv
      have hacc : N.cr.Accepts v.signature (v.digest N.cr) v.author :=
        .inl (Vote.verify_eq_ok.mp hv).2
      obtain ⟨hS, ha⟩ := hu _ (List.mem_singleton_self _)
      exact ⟨hS, hacc, ha hacc⟩
    | timeout t =>
      cases hc
      intro hv
      have hacc : N.cr.Accepts t.signature (t.digest N.cr) t.author :=
        .inl (Timeout.verify_eq_ok.mp hv).2
      obtain ⟨hS, ha⟩ := hu _ (List.mem_singleton_self _)
      exact ⟨hS, hacc, ha hacc⟩
    | tc tc =>
      cases hc
      intro hr
      rcases hg.tc tc rfl with hv | hlt
      · exact known_tc_of_unforged hv hu
      · exact absurd hlt (not_lt.mpr hr)
    | loopBack b => cases hc
    | syncRequest d sender => cases hc
  | _ => trivial

/-- What an honest core has signed is known. -/
theorem signsKnown_of_hashed (hh : N.Hashed S σ) (hp : N.Honest p) :
    SignsKnown (N.env p) (N.signatureEvidence S σ) (σ p) where
  vote _ hb hv := ⟨hh p hp _ hb _ (List.mem_singleton_self _), .inl (Vote.verify_eq_ok.mp hv).2,
    fun _ => ⟨_, hb, _, List.mem_singleton_self _, rfl⟩⟩
  timeout _ _ ht hv := ⟨hh p hp _ ht _ (List.mem_singleton_self _),
    .inl (Timeout.verify_eq_ok.mp hv).2, fun _ => ⟨_, ht, _, List.mem_singleton_self _, rfl⟩⟩

/-! ### Steps -/

theorem RoundInv.tame (h : N.RoundInv S σ) : N.Tame S σ := by
  intro p hp
  refine ⟨?_, h.hashed p hp⟩
  intro h0
  have hval : (σ p).round.val = 0 := by rw [h0]; rfl
  rcases h.rounds p hp with h1 | ⟨r, -, h1, -⟩ <;> omega

/-- A quorum has an honest member. -/
theorem exists_honest {names : List PublicKey} (h : Quorate N.committee names)
    (hf : Quorum.weight (fun a => (N.committee.stake a).toNat) (N.committee.voters ∩ N.faulty) <
      N.committee.quorumThreshold.toNat) : ∃ a ∈ names, N.Honest a := by
  have hw : Quorum.weight (fun a => (N.committee.stake a).toNat) (N.committee.voters ∩ N.faulty) <
      Quorum.weight (fun a => (N.committee.stake a).toNat) names.toFinset := by
    rw [weight_toFinset h.nodup]
    exact hf.trans_le h.weight
  obtain ⟨a, ha, hna⟩ := Quorum.exists_of_weight (subset_voters h.stake) hw
  exact ⟨a, List.mem_toFinset.mp ha, subset_voters h.stake ha, hna⟩

section Steps

variable (hf : Quorum.weight (fun a => (N.committee.stake a).toNat)
    (N.committee.voters ∩ N.faulty) < N.committee.quorumThreshold.toNat)
  (hS : N.cr.CollisionFree S)

include hS

/-- A known certificate of a round that a core has reached is evidence of a quorum. -/
theorem RoundInv.quorumEvidence (h : N.RoundInv S σ) {r : RoundNumber} (hr : 1 ≤ r.val)
    (hc : Certifies (N.signatureEvidence S σ) r) : N.QuorumEvidence σ r := by
  rcases hc with ⟨qc, hqc, rfl⟩ | ⟨tc, ⟨hq, hv⟩, rfl⟩
  · rcases hqc with hg | ⟨hx, hq, hv⟩
    · -- the certificate of genesis is of round 0
      have h0 : qc.round.val = 0 := congrArg Fin.val (QC.eq_genesis.mp hg).2
      omega
    · refine .inl ⟨qc.hash, _, hq, ?_⟩
      intro a ha
      obtain ⟨v, hmem, rfl⟩ := List.mem_map.mp ha
      obtain ⟨hacc, hatt⟩ := hv v hmem
      exact ⟨⟨_, hacc⟩, fun hp => voted_of_attested hS h.tame hp hx hatt⟩
  · refine .inr ⟨_, hq, ?_⟩
    intro a ha
    obtain ⟨v, hmem, rfl⟩ := List.mem_map.mp ha
    obtain ⟨hx, hacc, hatt⟩ := hv v hmem
    refine ⟨v.2.2, ⟨_, hacc⟩, ?_⟩
    intro hp
    obtain ⟨-, t, ht, hround, hhigh⟩ := timedOut_of_attested hS h.tame hp hx hatt
    exact ⟨t, ht, Fin.ext hround, Fin.ext hhigh⟩

include hf

omit hS in
/-- Some honest core has signed a vote or a timeout of a round with quorum evidence. -/
theorem QuorumEvidence.signer {r : RoundNumber} (he : N.QuorumEvidence σ r) :
    ∃ a, N.Honest a ∧ ∃ e ∈ (σ a).log, e.signedRound = some r := by
  rcases he with ⟨hash, names, hq, hv⟩ | ⟨names, hq, hv⟩
  · obtain ⟨a, ha, hp⟩ := exists_honest hq hf
    obtain ⟨b, hb, -, hr⟩ := (hv a ha).2 hp
    exact ⟨a, hp, _, hb, congrArg some hr⟩
  · obtain ⟨a, ha, hp⟩ := exists_honest hq hf
    obtain ⟨q, -, hh⟩ := hv a ha
    obtain ⟨t, ht, hr, -⟩ := hh hp
    exact ⟨a, hp, _, ht, congrArg some hr⟩

omit hS in
/-- There is a next round: some honest core is in this one or past it. -/
theorem RoundInv.next_exists (h : N.RoundInv S σ)
    (hlast : ∀ p, N.Honest p → (σ p).round.val + 1 < 2 ^ 64) {r : RoundNumber}
    (he : N.QuorumEvidence σ r) : r.val + 1 < 2 ^ 64 := by
  obtain ⟨a, ha, e, hlog, hr⟩ := he.signer hf
  have hle := h.signed a ha e hlog r hr
  have := hlast a ha
  rw [Fin.le_def] at hle
  omega

/-- **Every step of an honest core rests on a quorum.** -/
theorem RoundInv.evidencedStep (h : N.RoundInv S σ) {l : PublicKey × Core.Input}
    (hg : N.Guarded σ l) (hs : N.step σ l = some σ') : N.EvidencedStep σ σ' := by
  obtain ⟨p, i⟩ := l
  obtain ⟨hp, t, ht, rfl⟩ := step_some hs
  intro a ha
  by_cases hap : a = p
  · subst hap
    rw [Function.update_self]
    rcases (h.backed a hp).advances (closed_signatureEvidence σ a) ht with hr | ⟨r, hle, hr, hc⟩
    · exact .inl hr
    · have hpos : 1 ≤ r.val := by
        have hne := (h.tame a hp).1
        have hval : (σ a).round.val ≠ 0 := fun h0 => hne (Fin.ext h0)
        rw [Fin.le_def] at hle
        omega
      have he := h.quorumEvidence hS hpos hc
      have hlt := h.next_exists hf hg.round he
      refine .inr ⟨r, hpos, hle, ?_, he⟩
      rw [hr]
      exact Fin.val_add_one_of_lt' hlt
  · rw [Function.update_of_ne hap]
    exact .inl rfl

/-- **Every guarded step keeps the invariant.** -/
theorem RoundInv.step (h : N.RoundInv S σ) {l : PublicKey × Core.Input} (hu : N.Unforged S σ l)
    (hg : N.Guarded σ l) (hs : N.step σ l = some σ') (hh : N.Hashed S σ') : N.RoundInv S σ' := by
  have hev := h.evidencedStep hf hS hg hs
  have hlog := log_step hs
  have hle := signatureEvidence_le (N := N) (S := S) hlog
  have hmono : ∀ a, N.Honest a → (σ a).round ≤ (σ' a).round := by
    intro a ha
    rcases hev a ha with hr | ⟨r, -, hle, hr, -⟩
    · exact hr.ge
    · rw [Fin.le_def] at hle ⊢
      omega
  obtain ⟨p, i⟩ := l
  obtain ⟨hp, t, ht, rfl⟩ := step_some hs
  have hself : Function.update σ p t p = t := Function.update_self ..
  have hother : ∀ a, a ≠ p → Function.update σ p t a = σ a := fun a ha =>
    Function.update_of_ne ha ..
  refine ⟨?_, ?_, hh, ?_⟩
  · intro a ha
    by_cases hap : a = p
    · have hsign := signsKnown_of_hashed hh hp
      have hin := inputBacked_of_unforged hu hg
      rw [hself] at hsign
      rw [hap, hself]
      refine ((h.backed p hp).mono hle).step (closed_signatureEvidence _ p) ?_ ht hsign
      cases i with
      | deliver m => exact fun c hc => (hin c hc).mono hle
      | _ => trivial
    · rw [hother a hap]
      exact (h.backed a ha).mono hle
  · intro a ha e he r hr
    refine le_trans ?_ (hmono a ha)
    by_cases hap : a = p
    · rw [hap, hself] at he
      rw [hap]
      rcases Core.signedRound_step ht he hr with hold | rfl
      · exact h.signed p hp e hold r hr
      · exact le_rfl
    · rw [hother a hap] at he
      exact h.signed a ha e he r hr
  · intro a ha
    rcases hev a ha with hr | ⟨r, hpos, -, hr, he⟩
    · rw [hr]
      rcases h.rounds a ha with h1 | ⟨r, hpos, h1, he⟩
      · exact .inl h1
      · exact .inr ⟨r, hpos, h1, he.mono hlog⟩
    · exact .inr ⟨r, hpos, hr, he.mono hlog⟩

end Steps

theorem roundInv_new (hh : N.Hashed S fun p => Core.new (N.env p)) :
    N.RoundInv S fun p => Core.new (N.env p) where
  backed _ _ := backed_new
  signed _ _ e he := by cases he
  hashed := hh
  rounds _ _ := .inl rfl

/-- Less than a third of the stake is less than a quorum, as long as the threshold does not
overflow. -/
theorem weight_lt_quorum (hN : N.committee.total < 2 ^ 31)
    (h : 3 * Quorum.weight (fun a => (N.committee.stake a).toNat)
      (N.committee.voters ∩ N.faulty) < N.committee.total) :
    Quorum.weight (fun a => (N.committee.stake a).toNat) (N.committee.voters ∩ N.faulty) <
      N.committee.quorumThreshold.toNat := by
  rw [Committee.quorumThreshold_toNat hN]
  omega

/-- **Rounds advance on quorum evidence**, in every run of guarded steps. -/
theorem rounds_advance (N : Network)
    (hf : Quorum.weight (fun a => (N.committee.stake a).toNat)
      (N.committee.voters ∩ N.faulty) < N.committee.quorumThreshold.toNat)
    (S : Bytes → Prop) (hS : N.cr.CollisionFree S) (σ : Cores)
    (hr : ((N.machine.within (N.Hashed S)).restrict
      fun σ l => N.Unforged S σ l ∧ N.Guarded σ l).Reachable σ) :
    N.RoundsEvidenced σ ∧
      ∀ l σ', N.Guarded σ l → N.step σ l = some σ' → N.EvidencedStep σ σ' := by
  have hinv : N.RoundInv S σ := by
    refine Machine.invariant ?_ ?_ hr
    · intro σ h
      rw [show σ = fun p => Core.new (N.env p) from h.1]
      exact roundInv_new (h.1 ▸ h.2)
    · intro σ l σ' h hs
      exact h.step hf hS hs.1.1 hs.1.2 hs.2.1 hs.2.2
  exact ⟨hinv.rounds, fun l σ' hg hs => hinv.evidencedStep hf hS hg hs⟩

/-- `Unforged` and `Guarded`, as a check. -/
def roundCheck (σ : Cores) (l : PublicKey × Core.Input) : Bool :=
  fairCheck σ l && [keyA, keyB].all fun p => (σ p).round.val + 1 < 2 ^ 64

theorem unforged_guarded_of_check {σ : Cores} {l : PublicKey × Core.Input}
    (h : roundCheck σ l = true) :
    sampleNetwork.Unforged (· ∈ sampleStrings) σ l ∧ sampleNetwork.Guarded σ l := by
  obtain ⟨hcheck, hround⟩ := Bool.and_eq_true_iff.mp h
  have hfair := fair_of_check hcheck
  obtain ⟨p, i⟩ := l
  have htc : ∀ tc, i ≠ .deliver (.tc tc) := by
    rintro tc rfl
    cases hcheck
  refine ⟨?_, ?_, fun tc ht => absurd ht (htc tc)⟩
  · cases i with
    | deliver m =>
      cases m with
      | tc tc => exact absurd rfl (htc tc)
      | loopBack b => exact hfair.elim
      | _ => exact hfair
    | _ => trivial
  · intro q hq
    exact of_decide_eq_true (List.all_eq_true.mp hround q (mem_keys_of_honest hq))

/-- The other core follows the leader into the second round, the leader is one ahead. -/
theorem rounds_advance_two_cores : ∃ σ : Cores,
    ((σ keyA).round = 3 ∧ (σ keyB).round = 2) ∧ sampleNetwork.RoundsEvidenced σ := by
  have hrun : ((Machine.execIf roundCheck (fun σ l => (sampleNetwork.step σ l).filter tameCheck)
      (fun p => Core.new (sampleNetwork.env p)) (sampleRound block1 ++ sampleRound block2)).any
        fun σ => (σ keyA).round = 3 ∧ (σ keyB).round = 2) = true := by
    decide +kernel
  rw [Option.any_eq_true] at hrun
  obtain ⟨σ, hσ, h⟩ := hrun
  have hfree : ∀ x ∈ sampleStrings, ∀ y ∈ sampleStrings,
      sampleBatch.sha512 x = sampleBatch.sha512 y → x = y := by
    decide +kernel
  have hhashed : ∀ σ, tameCheck σ = true → sampleNetwork.Hashed (· ∈ sampleStrings) σ :=
    fun σ h p hp => (tame_of_check h p hp).2
  exact ⟨σ, of_decide_eq_true h,
    (rounds_advance sampleNetwork (weight_lt_quorum (by decide +kernel) (by decide +kernel))
      (· ∈ sampleStrings) (fun x y hx hy => hfree x hx y hy) σ
      (Machine.reachable_execIf_within (fun _ _ => unforged_guarded_of_check) hhashed
        (.init ⟨rfl, hhashed _ (by decide +kernel)⟩) hσ)).1⟩

/-! ### The message `TC` -/

/-- A timeout certificate without votes. -/
def forgedTc (r : RoundNumber) : TC := ⟨r, []⟩

/-- An idle core handles it. -/
def forge (r : RoundNumber) : List (PublicKey × Core.Input) :=
  [(keyB, .deliver (.tc (forgedTc r))), (keyB, .next)]

/-- A check for steps without any signature. -/
def unsignedCheck (l : PublicKey × Core.Input) : Bool :=
  match l.2 with
  | .deliver m => m.carried.isEmpty
  | _ => true

theorem unforged_of_check {l : PublicKey × Core.Input} (h : unsignedCheck l = true) (σ : Cores) :
    sampleNetwork.Unforged S σ l := by
  obtain ⟨p, i⟩ := l
  cases i with
  | deliver m =>
    intro u hu
    rw [List.isEmpty_iff.mp h] at hu
    cases hu
  | _ => trivial

/-- **The message `TC` moves a core to any round**, although nothing is signed in the whole run;
past the last round it moves it to round 0. -/
theorem forged_tc_advances :
    (∃ σ, (sampleNetwork.machine.restrict (sampleNetwork.Unforged fun _ => True)).Reachable σ ∧
      (σ keyB).round = 8 ∧ ¬ sampleNetwork.RoundsEvidenced σ) ∧
    ∃ σ, (sampleNetwork.machine.restrict (sampleNetwork.Unforged fun _ => True)).Reachable σ ∧
      (σ keyB).round = 0 := by
  have hreach : ∀ {r σ}, Machine.execIf (fun _ => unsignedCheck) sampleNetwork.step
      (fun p => Core.new (sampleNetwork.env p)) (forge r) = some σ →
      (sampleNetwork.machine.restrict (sampleNetwork.Unforged fun _ => True)).Reachable σ :=
    Machine.reachable_execIf (fun σ _ h => unforged_of_check h σ) (.init rfl)
  constructor
  · have hrun : ((Machine.execIf (fun _ => unsignedCheck) sampleNetwork.step
        (fun p => Core.new (sampleNetwork.env p)) (forge 7)).any fun σ =>
          (σ keyB).round = 8 ∧ [keyA, keyB].all fun p => (σ p).log.isEmpty) = true := by
      decide +kernel
    rw [Option.any_eq_true] at hrun
    obtain ⟨σ, hσ, h⟩ := hrun
    obtain ⟨hround, hlog⟩ := of_decide_eq_true h
    refine ⟨σ, hreach hσ, hround, ?_⟩
    intro hev
    have hB : sampleNetwork.Honest keyB := by decide +kernel
    rcases hev keyB hB with h1 | ⟨r, -, -, he⟩
    · rw [hround] at h1
      cases h1
    · obtain ⟨a, ha, e, hmem, -⟩ :=
        he.signer (weight_lt_quorum (by decide +kernel) (by decide +kernel))
      have hempty : (σ a).log = [] :=
        List.isEmpty_iff.mp (List.all_eq_true.mp hlog a (mem_keys_of_honest ha))
      rw [hempty] at hmem
      cases hmem
  · have hrun : ((Machine.execIf (fun _ => unsignedCheck) sampleNetwork.step
        (fun p => Core.new (sampleNetwork.env p)) (forge (-1))).any fun σ =>
          (σ keyB).round = 0) = true := by
      decide +kernel
    rw [Option.any_eq_true] at hrun
    obtain ⟨σ, hσ, h⟩ := hrun
    exact ⟨σ, hreach hσ, of_decide_eq_true h⟩

end Network

end AccountabilityGadget.Consensus
