import AccountabilityGadget.Consensus.Agreement
import AccountabilityGadget.Consensus.Pacemaker

/-!
# What the aggregator counts over a run

The weight of a maker is set back to zero once it has made its certificate, while the names stay.
That a certificate is made once, by the message that completes the quorum, rests on the core: it
moves past the round of the certificate, and drops messages of earlier rounds.

* `Ballot`, `Certificate` — what goes into the aggregator, and what comes out; `Core.handed` — the
  message that a step hands over, once the core has checked its round and its signature.
* `Maker.Counts` — a maker has counted the distinct ones of some names, short of a quorum.
* `Tallied` — so have the makers of the current round and the later ones, with the names of all
  messages handed over in the run.
* `ExactlyOnce`, `aggregated_exactly_once` — one certificate for each block and round, and one for
  each round of timeouts, made by the message that completes the quorum, all of which verify, as
  long as no certificate is of the last round number.
* `aggregated_twice` — past that round the rounds are gone through again.
-/

set_option autoImplicit false

namespace AccountabilityGadget.Consensus

open Encoding
open Network (block1)

/-! ## Stake -/

/-- The stake of the distinct ones of these names. -/
def Committee.stakeOf (c : Committee) (names : List PublicKey) : ℕ :=
  Quorum.weight (fun a => (c.stake a).toNat) names.toFinset

section

variable {c : Committee} {names : List PublicKey} {author : PublicKey}

theorem stakeOf_append_of_mem (h : author ∈ names) :
    c.stakeOf (names ++ [author]) = c.stakeOf names := by
  apply congrArg (Quorum.weight _)
  ext a
  simp only [List.mem_toFinset, List.mem_append, List.mem_singleton, or_iff_left_iff_imp]
  rintro rfl
  exact h

theorem stakeOf_append_of_notMem (h : author ∉ names) :
    c.stakeOf (names ++ [author]) = c.stakeOf names + (c.stake author).toNat := by
  have hset : (names ++ [author]).toFinset = insert author names.toFinset := by
    ext a
    simp
  rw [Committee.stakeOf, hset, Quorum.weight_insert (by simpa using h), add_comm]
  rfl

/-- Names without voting rights weigh nothing. -/
theorem stakeOf_le : c.stakeOf names ≤ c.total := by
  rw [← Committee.weight_voters]
  apply Quorum.weight_le_of_support
  intro a _ ha
  exact Committee.mem_voters_of_stake (UInt32.lt_iff_toNat_lt.mpr (Nat.pos_of_ne_zero ha))

end

/-! ## One maker -/

namespace Maker

variable {α : Type} {c : Committee} {names : List PublicKey} {m : Maker α} {author : PublicKey}

/-- The maker has counted the distinct ones of these names, and they are no quorum. -/
structure Counts (c : Committee) (names : List PublicKey) (m : Maker α) : Prop where
  used : ∀ a, a ∈ m.used ↔ a ∈ names
  weight : m.weight.toNat = c.stakeOf names
  below : c.stakeOf names < c.quorumThreshold.toNat

theorem counts_new : Counts c [] (new : Maker α) where
  used _ := Iff.rfl
  weight := rfl
  below := c.quorumThreshold_pos

namespace Counts

theorem append_reuse (h : Counts c names m) (ha : author ∈ names) (vote : α) :
    m.append c author vote = (m, .error (.authorityReuse author)) := by
  rw [Maker.append, if_pos ((h.used author).mpr ha)]

/-- The weight does not wrap. -/
theorem weight_append (hc : c.total < 2 ^ 31) (h : Counts c names m) (ha : author ∉ names) :
    (m.weight + c.stake author).toNat = c.stakeOf (names ++ [author]) := by
  have hle : c.stakeOf (names ++ [author]) ≤ c.total := stakeOf_le
  rw [stakeOf_append_of_notMem ha] at hle ⊢
  rw [UInt32.toNat_add, h.weight]
  exact Nat.mod_eq_of_lt (by omega)

/-- A maker makes its votes into a certificate when they become a quorum. -/
theorem append_eq_some_iff (hc : c.total < 2 ^ 31) (h : Counts c names m) (vote : α) :
    (∃ votes, (m.append c author vote).2 = .ok (some votes)) ↔
      c.quorumThreshold.toNat ≤ c.stakeOf (names ++ [author]) := by
  by_cases ha : author ∈ names
  · rw [h.append_reuse ha vote, stakeOf_append_of_mem ha]
    have := h.below
    constructor
    · rintro ⟨votes, hvotes⟩
      cases hvotes
    · omega
  · rw [← h.weight_append hc ha, ← UInt32.le_iff_toNat_le, Maker.append,
      if_neg fun hu => ha ((h.used author).mp hu)]
    dsimp only
    split_ifs with hq
    · exact ⟨fun _ => hq, fun _ => ⟨_, rfl⟩⟩
    · constructor
      · rintro ⟨votes, hvotes⟩
        cases hvotes
      · exact fun hle => absurd hle hq

/-- Short of a quorum, the maker goes on counting. -/
theorem append (hc : c.total < 2 ^ 31) (h : Counts c names m)
    (hq : c.stakeOf (names ++ [author]) < c.quorumThreshold.toNat) (vote : α) :
    Counts c (names ++ [author]) (m.append c author vote).1 := by
  by_cases ha : author ∈ names
  · rw [h.append_reuse ha vote]
    refine ⟨?_, h.weight.trans (stakeOf_append_of_mem ha).symm, hq⟩
    intro a
    rw [h.used, List.mem_append, List.mem_singleton, or_iff_left_of_imp]
    rintro rfl
    exact ha
  · have hw := h.weight_append hc ha
    rw [Maker.append, if_neg fun hu => ha ((h.used author).mp hu)]
    dsimp only
    rw [if_neg]
    · refine ⟨?_, hw, hq⟩
      intro a
      rw [List.mem_cons, h.used, List.mem_append, List.mem_singleton, or_comm]
    · rw [UInt32.le_iff_toNat_le, hw]
      omega

end Counts

end Maker

/-! ## All makers -/

/-- A message for the aggregator. -/
inductive Ballot where
  | vote (v : Vote)
  | timeout (t : Timeout)
  deriving DecidableEq

/-- What the aggregator makes of its messages. -/
inductive Certificate where
  | qc (qc : QC)
  | tc (tc : TC)
  deriving DecidableEq

namespace Ballot

def author : Ballot → PublicKey
  | .vote v => v.author
  | .timeout t => t.author

def round : Ballot → RoundNumber
  | .vote v => v.round
  | .timeout t => t.round

/-- The round, and the block of a vote. -/
def subject : Ballot → RoundNumber × Option Digest
  | .vote v => (v.round, some v.hash)
  | .timeout t => (t.round, none)

/-- The maker that takes the message. -/
def slot (cr : BatchCrypto) : Ballot → RoundNumber × Option Digest
  | .vote v => (v.round, some (v.digest cr))
  | .timeout t => (t.round, none)

def verify (cr : BatchCrypto) (c : Committee) : Ballot → ConsensusResult Unit
  | .vote v => v.verify cr c
  | .timeout t => t.verify cr c

end Ballot

namespace Certificate

def round : Certificate → RoundNumber
  | .qc q => q.round
  | .tc t => t.round

/-- The round, and the block of a certificate of votes. -/
def subject : Certificate → RoundNumber × Option Digest
  | .qc q => (q.round, some q.hash)
  | .tc t => (t.round, none)

def verify (cr : BatchCrypto) (c : Committee) : Certificate → ConsensusResult Unit
  | .qc q => q.verify cr c
  | .tc t => t.verify cr c

end Certificate

namespace Aggregator

/-- `add_vote` or `add_timeout`. -/
def add (cr : BatchCrypto) (c : Committee) (a : Aggregator) :
    Ballot → Aggregator × ConsensusResult (Option Certificate)
  | .vote v => (a.addVote cr c v).map id (·.map (Option.map .qc))
  | .timeout t => (a.addTimeout c t).map id (·.map (Option.map .tc))

/-- What a maker has counted. -/
def Counts (c : Committee) (names : List PublicKey) (a : Aggregator) :
    RoundNumber × Option Digest → Prop
  | (r, some d) => (a.votesAggregators r d).Counts c names
  | (r, none) => (a.timeoutsAggregators r).Counts c names

variable {cr : BatchCrypto} {c : Committee} {names : List PublicKey} {a : Aggregator} {b : Ballot}
  {k : RoundNumber × Option Digest}

theorem counts_new : Counts c [] new k := by
  obtain ⟨r, d | d⟩ := k
  · exact Maker.counts_new
  · exact Maker.counts_new

/-- The other makers are left alone. -/
theorem counts_add_of_ne (h : k ≠ b.slot cr) :
    (a.add cr c b).1.Counts c names k ↔ a.Counts c names k := by
  obtain ⟨r, d⟩ := k
  cases b with
  | vote v =>
    cases d with
    | none => rfl
    | some d =>
      by_cases hr : r = v.round
      · subst hr
        have hd : d ≠ v.digest cr := fun hd => h (by rw [hd]; rfl)
        simp [Counts, add, addVote, hd]
      · simp [Counts, add, addVote, hr]
  | timeout t =>
    cases d with
    | some d => rfl
    | none =>
      have hr : r ≠ t.round := fun hr => h (by rw [hr]; rfl)
      simp [Counts, add, addTimeout, hr]

theorem counts_cleanup {round : RoundNumber} (h : round ≤ k.1) :
    (a.cleanup round).Counts c names k ↔ a.Counts c names k := by
  obtain ⟨r, d | d⟩ := k
  · simp only [Counts, cleanup, if_pos h]
  · simp only [Counts, cleanup, if_pos h]

theorem exists_map_eq_ok_some {α β : Type} {x : ConsensusResult (Option α)} {f : α → β} :
    (∃ y, x.map (Option.map f) = .ok (some y)) ↔ ∃ y, x = .ok (some y) := by
  constructor
  · rintro ⟨y, h⟩
    obtain ⟨z, hz, -⟩ := map_eq_ok_some h
    exact ⟨z, hz⟩
  · rintro ⟨y, rfl⟩
    exact ⟨f y, rfl⟩

namespace Counts

theorem below (h : a.Counts c names k) : c.stakeOf names < c.quorumThreshold.toNat := by
  obtain ⟨r, d | d⟩ := k
  · exact Maker.Counts.below h
  · exact Maker.Counts.below h

theorem add_reuse (h : a.Counts c names (b.slot cr)) (hb : b.author ∈ names) :
    a.add cr c b = (a, .error (.authorityReuse b.author)) := by
  cases b with
  | vote v =>
    have hm := Maker.Counts.append_reuse h hb v.signature
    simp only [add, addVote, QCMaker.append, Ballot.author] at hm ⊢
    rw [hm]
    simp [Except.map]
  | timeout t =>
    have hm := Maker.Counts.append_reuse h hb (t.signature, t.highQcRound)
    simp only [add, addTimeout, TCMaker.append, Ballot.author] at hm ⊢
    rw [hm]
    simp [Except.map]

theorem add_eq_some_iff (hc : c.total < 2 ^ 31) (h : a.Counts c names (b.slot cr)) :
    (∃ x, (a.add cr c b).2 = .ok (some x)) ↔
      c.quorumThreshold.toNat ≤ c.stakeOf (names ++ [b.author]) := by
  cases b with
  | vote v =>
    rw [← Maker.Counts.append_eq_some_iff hc h v.signature]
    simp only [add, addVote, QCMaker.append, Prod.map_snd, exists_map_eq_ok_some]
    rfl
  | timeout t =>
    rw [← Maker.Counts.append_eq_some_iff hc h (t.signature, t.highQcRound)]
    simp only [add, addTimeout, TCMaker.append, Prod.map_snd, exists_map_eq_ok_some]
    rfl

theorem add (hc : c.total < 2 ^ 31) (h : a.Counts c names (b.slot cr))
    (hq : c.stakeOf (names ++ [b.author]) < c.quorumThreshold.toNat) :
    (a.add cr c b).1.Counts c (names ++ [b.author]) (b.slot cr) := by
  cases b with
  | vote v =>
    have hm := Maker.Counts.append hc h hq v.signature
    simpa [Counts, Aggregator.add, addVote, QCMaker.append, Ballot.slot, Ballot.author] using hm
  | timeout t =>
    have hm := Maker.Counts.append hc h hq (t.signature, t.highQcRound)
    simpa [Counts, Aggregator.add, addTimeout, TCMaker.append, Ballot.slot, Ballot.author] using hm

end Counts

/-- A certificate is about what the message that completes it is about, and verifies. -/
theorem Sound.add {env : Env} (hc : env.committee.total < 2 ^ 32)
    (hbatch : ∀ d votes, (∀ v ∈ votes, env.cr.verify v.2 d v.1 = true) →
      env.cr.verifyBatch d votes = true)
    (h : a.Sound env.committee (Evidence.verified env).sig (Evidence.verified env).timeoutSig)
    (hb : b.verify env.cr env.committee = .ok ()) :
    (a.add env.cr env.committee b).1.Sound env.committee (Evidence.verified env).sig
        (Evidence.verified env).timeoutSig ∧
      ∀ x, (a.add env.cr env.committee b).2 = .ok (some x) →
        x.subject = b.subject ∧ x.verify env.cr env.committee = .ok () := by
  cases b with
  | vote v =>
    obtain ⟨hstake, hsig⟩ := Vote.verify_eq_ok.mp hb
    obtain ⟨ha, hqc⟩ := h.addVote env.cr hstake hsig
    refine ⟨ha, ?_⟩
    intro x hx
    obtain ⟨qc, hmade, rfl⟩ := map_eq_ok_some hx
    obtain ⟨hhash, hround, hq, hvotes⟩ := hqc qc hmade
    refine ⟨?_, verify_qc hc hbatch hhash hround hq hvotes⟩
    simp only [Certificate.subject, Ballot.subject, hhash, hround]
  | timeout t =>
    obtain ⟨hstake, hsig⟩ := Timeout.verify_eq_ok.mp hb
    obtain ⟨ha, htc⟩ := h.addTimeout hstake hsig
    refine ⟨ha, ?_⟩
    intro x hx
    obtain ⟨tc, hmade, rfl⟩ := map_eq_ok_some hx
    obtain ⟨hround, hq, hvotes⟩ := htc tc hmade
    refine ⟨?_, (TC.verify_eq_ok hc).mpr ⟨hq, ?_⟩⟩
    · simp only [Certificate.subject, Ballot.subject, hround]
    · rw [hround]
      exact hvotes

end Aggregator

/-! ## What a step hands to the aggregator -/

/-- The messages handed over so far, each with the certificate it made. -/
abbrev Record := List (Ballot × Option Certificate)

def Call.ballot : Call → Option Ballot
  | .handleVote v => some (.vote v)
  | .handleTimeout t => some (.timeout t)
  | _ => none

namespace Core

variable (env : Env)

/-- The message that a step hands over: not of an earlier round, and verified. -/
def handed (s : Core) : Input → Option Ballot
  | .next => s.call.ballot.filter fun b =>
    s.round ≤ b.round ∧ b.verify env.cr env.committee = .ok ()
  | _ => none

/-- What the aggregator returns for the message. -/
def returned (s : Core) (b : Ballot) : ConsensusResult (Option Certificate) :=
  (s.aggregator.add env.cr env.committee b).2

/-- What a step adds to the record. -/
def collected (s : Core) (i : Input) : Record :=
  (s.handed env i).toList.map fun b => (b, (s.returned env b).toOption.join)

/-- All runs of the core of one node, with the record. -/
def collecting : Machine (Core × Record) Input :=
  .ofStep (· = (new env, [])) (Machine.record (step env) (collected env))

variable {env} {s s' : Core} {i : Input} {b : Ballot}

theorem handed_eq_some : s.handed env i = some b ↔ i = .next ∧ s.call.ballot = some b ∧
    s.round ≤ b.round ∧ b.verify env.cr env.committee = .ok () := by
  cases i with
  | next => simp [handed, Option.filter_eq_some_iff]
  | _ => simp [handed]

/-- A step leaves the makers alone, drops those of earlier rounds, or hands a message over. -/
inductive Collects (env : Env) (s : Core) (i : Input) (s' : Core) : Prop where
  | idle : s.handed env i = none →
      s'.aggregator = s.aggregator ∨ s'.aggregator = s.aggregator.cleanup s'.round →
      Collects env s i s'
  | count {b : Ballot} : s.handed env i = some b → (∀ x, s.returned env b ≠ .ok (some x)) →
      s'.round = s.round → s'.aggregator = (s.aggregator.add env.cr env.committee b).1 →
      Collects env s i s'
  | complete {b : Ballot} {x : Certificate} : s.handed env i = some b →
      s.returned env b = .ok (some x) → s.certificate env = some x.round →
      s'.round = nextRound s.round x.round →
      s'.aggregator = (s.aggregator.add env.cr env.committee b).1.cleanup s'.round →
      Collects env s i s'

theorem aggregator_advanceRound (r : RoundNumber) :
    (s.advanceRound r).aggregator = s.aggregator ∨
      (s.advanceRound r).aggregator = s.aggregator.cleanup (s.advanceRound r).round := by
  unfold advanceRound
  split
  · exact .inl rfl
  · exact .inr rfl

theorem aggregator_processQc (qc : QC) :
    (s.processQc qc).aggregator = (s.advanceRound qc.round).aggregator := by
  unfold processQc updateHighQc
  split <;> rfl

/-- A message that makes no certificate leaves the round as it is. -/
theorem Collects.of_keep {u : Core} {a : Aggregator} {r : ConsensusResult (Option Certificate)}
    (hhanded : s.handed env i = some b) (ha : s.aggregator.add env.cr env.committee b = (a, r))
    (hr : ∀ x, r ≠ .ok (some x)) (hp : { s with aggregator := a }.SamePace u) :
    Collects env s i u := by
  refine .count hhanded ?_ hp.round ?_
  · rw [returned, ha]
    exact hr
  · rw [hp.aggregator, ha]

/-- One that makes a certificate moves the core past it. -/
theorem Collects.of_advance {u : Core} {a : Aggregator} {x : Certificate}
    (hhanded : s.handed env i = some b)
    (ha : s.aggregator.add env.cr env.committee b = (a, .ok (some x)))
    (hcert : s.certificate env = some x.round) (hle : s.round ≤ x.round)
    (hround : u.round = nextRound s.round x.round)
    (hu : u.aggregator = ({ s with aggregator := a }.advanceRound x.round).aggregator) :
    Collects env s i u := by
  refine .complete hhanded (congrArg Prod.snd ha) hcert hround ?_
  rw [hu, ha, hround, nextRound, if_neg (not_lt.mpr hle), advanceRound, if_neg (not_lt.mpr hle)]

theorem collects_handleVote {v : Vote} (hcall : s.call = .handleVote v) :
    Collects env s .next (s.handleVote env v) := by
  unfold handleVote
  split_ifs with hlt
  · refine .idle ?_ (.inl (SamePace.refl.ret _).aggregator)
    simp [handed, hcall, Call.ballot, Ballot.round, not_le.mpr hlt]
  · split
    · rename_i hv
      refine .idle ?_ (.inl (SamePace.refl.ret _).aggregator)
      simp [handed, hcall, Call.ballot, Ballot.verify, hv]
    · rename_i hv
      have hhanded : s.handed env .next = some (.vote v) :=
        handed_eq_some.mpr ⟨rfl, by rw [hcall]; rfl, not_lt.mp hlt, hv⟩
      have hadd : ∀ {a r}, s.aggregator.addVote env.cr env.committee v = (a, r) →
          s.aggregator.add env.cr env.committee (.vote v) = (a, r.map (Option.map .qc)) :=
        fun h => by rw [Aggregator.add, h]; rfl
      split
      · rename_i ha
        exact .of_keep hhanded (hadd ha) (by simp [Except.map]) (.ret .refl _)
      · rename_i ha
        exact .of_keep hhanded (hadd ha) (by simp [Except.map]) (.ret .refl _)
      · rename_i qc ha
        have hcert : s.certificate env = some qc.round :=
          certificate_handleVote hcall (not_lt.mp hlt) hv (by rw [ha])
        have hle : s.round ≤ qc.round := by
          obtain ⟨votes, -, rfl⟩ := Aggregator.addVote_eq_some (congrArg Prod.snd ha)
          exact not_lt.mp hlt
        apply Collects.of_advance hhanded (hadd ha) hcert hle
        · rw [round_proposeIfLeader, round_processQc]
          rfl
        · rw [(SamePace.refl.proposeIfLeader _).aggregator, aggregator_processQc]
          rfl

theorem collects_handleTimeout {t : Timeout} (hcall : s.call = .handleTimeout t) :
    Collects env s .next (s.handleTimeout env t) := by
  unfold handleTimeout
  split_ifs with hlt
  · refine .idle ?_ (.inl (SamePace.refl.ret _).aggregator)
    simp [handed, hcall, Call.ballot, Ballot.round, not_le.mpr hlt]
  · split
    · rename_i hv
      refine .idle ?_ (.inl (SamePace.refl.ret _).aggregator)
      simp [handed, hcall, Call.ballot, Ballot.verify, hv]
    · rename_i hv
      have hhanded : s.handed env .next = some (.timeout t) :=
        handed_eq_some.mpr ⟨rfl, by rw [hcall]; rfl, not_lt.mp hlt, hv⟩
      have hadd : ∀ {a r}, s.aggregator.addTimeout env.committee t = (a, r) →
          s.aggregator.add env.cr env.committee (.timeout t) = (a, r.map (Option.map .tc)) :=
        fun h => by rw [Aggregator.add, h]; rfl
      split
      · rename_i ha
        exact .of_keep hhanded (hadd ha) (by simp [Except.map]) (.ret .refl _)
      · rename_i ha
        exact .of_keep hhanded (hadd ha) (by simp [Except.map]) (.ret .refl _)
      · rename_i tc ha
        have hcert : s.certificate env = some tc.round :=
          certificate_handleTimeout hcall (not_lt.mp hlt) hv (by rw [ha])
        have hle : s.round ≤ tc.round := by
          obtain ⟨votes, -, rfl⟩ := Aggregator.addTimeout_eq_some (congrArg Prod.snd ha)
          exact not_lt.mp hlt
        apply Collects.of_advance hhanded (hadd ha) hcert hle
        · rw [round_proposeIfLeader, round_advanceRound]
          rfl
        · rw [(SamePace.refl.proposeIfLeader _).aggregator]
          rfl

/-- **What a step does to the makers.** -/
theorem step_collects (hs : s.step env i = some s') : Collects env s i s' := by
  by_cases hballot : i = .next ∧ s.call.ballot.isSome
  · obtain ⟨rfl, hballot⟩ := hballot
    cases step_takes hs with
    | next hrun =>
      cases hrun with
      | handleVote hcall => exact collects_handleVote hcall
      | handleTimeout hcall => exact collects_handleTimeout hcall
      | handleProposal hcall | processTc hcall | processBlock hcall | handleTc hcall
      | boycott hcall =>
        rw [hcall] at hballot
        cases hballot
  · have hnone : s.handed env i = none := by
      apply Option.eq_none_iff_forall_ne_some.mpr
      intro b hb
      obtain ⟨hi, hcall, -⟩ := handed_eq_some.mp hb
      exact hballot ⟨hi, by rw [hcall]; rfl⟩
    have hadvance : ∀ {r}, s'.round = (s.advanceRound r).round →
        s'.aggregator = (s.advanceRound r).aggregator → Collects env s i s' := by
      intro r hround ha
      refine .idle hnone ?_
      rw [ha, hround]
      exact aggregator_advanceRound r
    cases step_moves hs with
    | still hp => exact .idle hnone (.inl hp.aggregator)
    | receive _ hp => exact .idle hnone (.inl hp.aggregator)
    | timer hp => exact .idle hnone (.inl hp.aggregator)
    | vote hp => exact .idle hnone (.inl hp.aggregator)
    | proposal _ _ hp =>
      apply hadvance
      · rw [hp.round, round_processQc, round_advanceRound]
      · rw [hp.aggregator, aggregator_processQc]
    | proposalTc _ _ hp => exact hadvance hp.round hp.aggregator
    | receiveTc _ hp => exact hadvance hp.round hp.aggregator
    | collectVote hc | assembleQc hc | collectTimeout hc | assembleTc hc =>
      exact absurd ⟨rfl, by rw [hc]; rfl⟩ hballot

end Core

/-! ## Over a run -/

namespace Record

/-- The authors of the messages for one maker. -/
def authors (cr : BatchCrypto) (es : Record) (k : RoundNumber × Option Digest) : List PublicKey :=
  es.filterMap fun e => if e.1.slot cr = k then some e.1.author else none

def certificates (es : Record) : List Certificate := es.filterMap Prod.snd

/-- What the certificates are about. -/
def subjects (es : Record) : List (RoundNumber × Option Digest) :=
  es.certificates.map Certificate.subject

end Record

/-- What becomes of a message that is handed over. -/
structure TakenIn (env : Env) (s : Core) (names : List PublicKey) (b : Ballot) : Prop where
  /-- The message with which the stake of the distinct authors first reaches the threshold. -/
  completes : (∃ x, s.returned env b = .ok (some x)) ↔
    env.committee.stakeOf names < env.committee.quorumThreshold.toNat ∧
      env.committee.quorumThreshold.toNat ≤ env.committee.stakeOf (names ++ [b.author])
  subject : ∀ x, s.returned env b = .ok (some x) → x.subject = b.subject
  reuse : b.author ∈ names → s.aggregator.add env.cr env.committee b =
    (s.aggregator, .error (.authorityReuse b.author))

/-- Each certificate is made once, by the message that completes its quorum, and verifies. -/
structure ExactlyOnce (env : Env) (p : Core × Record) : Prop where
  once : p.2.subjects.Nodup
  verified : ∀ x ∈ p.2.certificates, x.verify env.cr env.committee = .ok ()
  takenIn : ∀ i b, p.1.handed env i = some b →
    TakenIn env p.1 (p.2.authors env.cr (b.slot env.cr)) b

/-- The makers of this round and the later ones have counted all authors of their messages. -/
def Tallied (env : Env) (round : RoundNumber) (a : Aggregator) (es : Record) : Prop :=
  ∀ k : RoundNumber × Option Digest, round ≤ k.1 → a.Counts env.committee (es.authors env.cr k) k

structure Collected (env : Env) (p : Core × Record) : Prop where
  tallied : Tallied env p.1.round p.1.aggregator p.2
  sound : p.1.aggregator.Sound env.committee (Evidence.verified env).sig
    (Evidence.verified env).timeoutSig
  past : ∀ k ∈ p.2.subjects, k.1 < p.1.round
  once : p.2.subjects.Nodup
  verified : ∀ x ∈ p.2.certificates, x.verify env.cr env.committee = .ok ()

section

variable {env : Env} {s s' : Core} {es : Record} {i : Core.Input} {b : Ballot}
  {k : RoundNumber × Option Digest}

@[simp] theorem Ballot.slot_fst : (b.slot env.cr).1 = b.round := by cases b <;> rfl

@[simp] theorem Ballot.subject_fst : b.subject.1 = b.round := by cases b <;> rfl

@[simp] theorem Certificate.subject_fst {x : Certificate} : x.subject.1 = x.round := by
  cases x <;> rfl

theorem Record.authors_append {o : Option Certificate} : Record.authors env.cr (es ++ [(b, o)]) k =
    if b.slot env.cr = k then es.authors env.cr k ++ [b.author] else es.authors env.cr k := by
  rw [Record.authors, List.filterMap_append]
  split_ifs with hk
  · simp [hk, Record.authors]
  · simp [hk, Record.authors]

namespace Tallied

variable {a : Aggregator} {round round' : RoundNumber}

theorem mono (h : Tallied env round a es) (hle : round ≤ round') : Tallied env round' a es :=
  fun k hk => h k (hle.trans hk)

theorem cleanup (h : Tallied env round a es) : Tallied env round (a.cleanup round) es :=
  fun k hk => (Aggregator.counts_cleanup hk).mpr (h k hk)

/-- A message that does not complete a quorum. -/
theorem add (hc : env.committee.total < 2 ^ 31) (h : Tallied env round a es)
    (hq : env.committee.stakeOf (es.authors env.cr (b.slot env.cr) ++ [b.author]) <
      env.committee.quorumThreshold.toNat) (o : Option Certificate) :
    Tallied env round (a.add env.cr env.committee b).1 (es ++ [(b, o)]) := by
  intro k hk
  rw [Record.authors_append]
  split_ifs with hslot
  · subst hslot
    exact (h _ hk).add hc hq
  · exact (Aggregator.counts_add_of_ne (Ne.symm hslot)).mpr (h k hk)

/-- Past the round of a message, nothing has changed. -/
theorem past (h : Tallied env round a es) (hle : round ≤ b.round) (hlt : b.round < round')
    (o : Option Certificate) :
    Tallied env round' (a.add env.cr env.committee b).1 (es ++ [(b, o)]) := by
  intro k hk
  have hne : k ≠ b.slot env.cr := by
    rintro rfl
    rw [Ballot.slot_fst] at hk
    exact absurd hlt (not_lt.mpr hk)
  rw [Record.authors_append, if_neg (Ne.symm hne)]
  exact (Aggregator.counts_add_of_ne hne).mpr (h k (hle.trans (hlt.le.trans hk)))

end Tallied

namespace Core

theorem collected_count (hb : s.handed env i = some b)
    (hreturned : ∀ x, s.returned env b ≠ .ok (some x)) : s.collected env i = [(b, none)] := by
  have hnone : (s.returned env b).toOption.join = none := by
    cases hret : s.returned env b with
    | error e => rfl
    | ok o =>
      cases o with
      | none => rfl
      | some x => exact absurd hret (hreturned x)
  simp [collected, hb, hnone]

theorem collected_complete {x : Certificate} (hb : s.handed env i = some b)
    (hreturned : s.returned env b = .ok (some x)) : s.collected env i = [(b, some x)] := by
  simp [collected, hb, hreturned, Except.toOption]

end Core

namespace Record

theorem certificates_count : Record.certificates (es ++ [(b, none)]) = es.certificates := by
  simp [certificates]

theorem certificates_complete {x : Certificate} :
    Record.certificates (es ++ [(b, some x)]) = es.certificates ++ [x] := by
  simp [certificates]

theorem subjects_complete {x : Certificate} :
    Record.subjects (es ++ [(b, some x)]) = es.subjects ++ [x.subject] := by
  rw [subjects, certificates_complete, List.map_append]
  rfl

end Record

namespace Collected

/-- Rounds pass, and the makers of earlier ones may be dropped. -/
theorem idle (h : Collected env (s, es)) (hle : s.round ≤ s'.round)
    (ha : s'.aggregator = s.aggregator ∨ s'.aggregator = s.aggregator.cleanup s'.round) :
    Collected env (s', es) := by
  have htallied := h.tallied.mono hle
  have hpast : ∀ k ∈ es.subjects, k.1 < s'.round := fun k hk => (h.past k hk).trans_le hle
  rcases ha with ha | ha
  · exact ⟨ha ▸ htallied, ha ▸ h.sound, hpast, h.once, h.verified⟩
  · exact ⟨ha ▸ htallied.cleanup, ha ▸ h.sound.cleanup _, hpast, h.once, h.verified⟩

section

variable (h : Collected env (s, es)) (hc : env.committee.total < 2 ^ 31)
  (hbatch : ∀ d votes, (∀ v ∈ votes, env.cr.verify v.2 d v.1 = true) →
    env.cr.verifyBatch d votes = true)

include h hc hbatch

/-- The message that is handed over next. -/
theorem takenIn (hb : s.handed env i = some b) :
    TakenIn env s (es.authors env.cr (b.slot env.cr)) b := by
  obtain ⟨-, -, hle, hv⟩ := Core.handed_eq_some.mp hb
  have hcount := h.tallied (b.slot env.cr) (by rw [Ballot.slot_fst]; exact hle)
  refine ⟨?_, ?_, hcount.add_reuse⟩
  · rw [Core.returned, hcount.add_eq_some_iff hc]
    exact (and_iff_right hcount.below).symm
  · intro x hx
    exact ((h.sound.add (Nat.lt_trans hc (by decide)) hbatch hv).2 x hx).1

/-- A message that makes no certificate. -/
theorem count (hb : s.handed env i = some b) (hreturned : ∀ x, s.returned env b ≠ .ok (some x))
    (hr : s'.round = s.round)
    (ha : s'.aggregator = (s.aggregator.add env.cr env.committee b).1) :
    Collected env (s', es ++ [(b, none)]) := by
  obtain ⟨-, -, hle, hv⟩ := Core.handed_eq_some.mp hb
  have hq : env.committee.stakeOf (es.authors env.cr (b.slot env.cr) ++ [b.author]) <
      env.committee.quorumThreshold.toNat := by
    have hcount := h.tallied (b.slot env.cr) (by rw [Ballot.slot_fst]; exact hle)
    rw [← not_le, ← hcount.add_eq_some_iff hc]
    exact fun ⟨x, hx⟩ => hreturned x hx
  constructor
  · rw [ha, hr]
    exact h.tallied.add hc hq none
  · rw [ha]
    exact (h.sound.add (Nat.lt_trans hc (by decide)) hbatch hv).1
  · rw [Record.subjects, Record.certificates_count, hr]
    exact h.past
  · rw [Record.subjects, Record.certificates_count]
    exact h.once
  · rw [Record.certificates_count]
    exact h.verified

/-- A message that makes a certificate moves the core past its round. -/
theorem complete {x : Certificate} (hb : s.handed env i = some b)
    (hreturned : s.returned env b = .ok (some x)) (hle : s.round ≤ s'.round)
    (hlt : x.round < s'.round)
    (ha : s'.aggregator = (s.aggregator.add env.cr env.committee b).1.cleanup s'.round) :
    Collected env (s', es ++ [(b, some x)]) := by
  obtain ⟨-, -, hcurrent, hv⟩ := Core.handed_eq_some.mp hb
  obtain ⟨hsound, hmade⟩ := h.sound.add (Nat.lt_trans hc (by decide)) hbatch hv
  obtain ⟨hsubject, hverified⟩ := hmade x hreturned
  have hxround : x.round = b.round := by
    rw [← Certificate.subject_fst, hsubject, Ballot.subject_fst]
  constructor
  · rw [ha]
    exact (h.tallied.past hcurrent (hxround ▸ hlt) _).cleanup
  · rw [ha]
    exact hsound.cleanup _
  · rw [Record.subjects_complete]
    intro k hk
    rcases List.mem_append.mp hk with hk | hk
    · exact (h.past k hk).trans_le hle
    · rw [List.mem_singleton.mp hk, Certificate.subject_fst]
      exact hlt
  · -- the certificates so far are of earlier rounds
    rw [Record.subjects_complete, ← List.concat_eq_append]
    apply h.once.concat
    intro hmem
    have hearlier := h.past _ hmem
    rw [Certificate.subject_fst, hxround] at hearlier
    exact absurd hearlier (not_lt.mpr hcurrent)
  · rw [Record.certificates_complete]
    intro y hy
    rcases List.mem_append.mp hy with hy | hy
    · exact h.verified y hy
    · rw [List.mem_singleton.mp hy]
      exact hverified

/-- **Step lemma.** -/
theorem step (hlast : i = .next → s.certificate env ≠ some lastRound)
    (hs : s.step env i = some s') : Collected env (s', es ++ s.collected env i) := by
  have hround : s.round ≤ s'.round := Core.round_le_step hlast hs
  cases Core.step_collects hs with
  | idle hnone ha =>
    rw [show es ++ s.collected env i = es by simp [Core.collected, hnone]]
    exact h.idle hround ha
  | count hb hreturned hr ha =>
    rw [Core.collected_count hb hreturned]
    exact h.count hc hbatch hb hreturned hr ha
  | @complete b x hb hreturned hcert hr ha =>
    have hlt : x.round < s'.round := by
      rw [hr]
      apply (nextRound_lt (nextRound_ne_zero _)).2
      exact fun hl => hlast (Core.handed_eq_some.mp hb).1 (hl ▸ hcert)
    rw [Core.collected_complete hb hreturned]
    exact h.complete hc hbatch hb hreturned hround hlt ha

end

end Collected

theorem collected_new : Collected env (Core.new env, []) where
  tallied _ _ := Aggregator.counts_new
  sound := Aggregator.sound_new
  past k hk := by cases hk
  once := List.nodup_nil
  verified x hx := by cases hx

end

/-- **Certificates are made exactly once**, in every run that takes in no certificate of the last
round number. -/
theorem aggregated_exactly_once (env : Env) (hc : env.committee.total < 2 ^ 31)
    (hbatch : ∀ d votes, (∀ v ∈ votes, env.cr.verify v.2 d v.1 = true) →
      env.cr.verifyBatch d votes = true)
    (p : Core × Record) (hr : ((Core.collecting env).restrict fun p i =>
      i = .next → p.1.certificate env ≠ some lastRound).Reachable p) : ExactlyOnce env p := by
  have h : Collected env p := by
    refine Machine.invariant ?_ ?_ hr
    · intro p hp
      rw [show p = _ from hp]
      exact collected_new
    · intro p i p' h hs
      obtain ⟨s', hs', rfl⟩ := Option.map_eq_some_iff.mp hs.2
      exact h.step hc hbatch hs.1 hs'
  exact ⟨h.once, h.verified, fun i b hb => h.takenIn hc hbatch hb⟩

/-! ## A node that does not lead -/

/-- The vote of the first authority, which is a quorum. -/
def heavyVote : Vote := .new sampleBatch block1 keyA

/-- A certificate of the first round, and one of timeouts of the second round. -/
theorem aggregated_exactly_once_follower : ∃ p : Core × Record,
    p.2.subjects = [(1, some heavyVote.hash), (2, none)] ∧ ExactlyOnce (sampleEnv keyB) p := by
  have hrun : ((Machine.execIf (fun p i => i ≠ .next ||
      p.1.certificate (sampleEnv keyB) ≠ some lastRound)
      (Machine.record (Core.step (sampleEnv keyB)) (Core.collected (sampleEnv keyB)))
      (Core.new (sampleEnv keyB), [])
      [.deliver (.vote heavyVote), .next, .deliver (.timeout (.new sampleBatch 1 2 keyB)), .next,
        .deliver (.timeout (.new sampleBatch 1 2 keyA)), .next]).any fun p =>
          decide (Record.subjects p.2 = [(1, some heavyVote.hash), (2, none)])) = true := by
    decide +kernel
  rw [Option.any_eq_true] at hrun
  obtain ⟨p, hp, h⟩ := hrun
  refine ⟨p, of_decide_eq_true h, aggregated_exactly_once (sampleEnv keyB) (by decide +kernel)
    sampleBatch_verifyBatch p (Machine.reachable_execIf ?_ (.init rfl) hp)⟩
  intro q i hok hi
  simpa [hi] using hok

/-- **After a certificate of the last round number the rounds start again**: the same vote makes a
second certificate for its block and round. -/
theorem aggregated_twice :
    ¬ ∀ env : Env, env.committee.total < 2 ^ 31 →
      (∀ d votes, (∀ v ∈ votes, env.cr.verify v.2 d v.1 = true) →
        env.cr.verifyBatch d votes = true) →
      ∀ p, (Core.collecting env).Reachable p → ExactlyOnce env p := by
  intro h
  have hrun : ((Machine.exec
      (Machine.record (Core.step (sampleEnv keyB)) (Core.collected (sampleEnv keyB)))
      (Core.new (sampleEnv keyB), [])
      [.deliver (.vote heavyVote), .next, .deliver (.tc ⟨lastRound, []⟩), .next,
        .deliver (.vote heavyVote), .next]).any fun p =>
          decide (Record.subjects p.2 = [(1, some heavyVote.hash), (1, some heavyVote.hash)])) =
            true := by
    decide +kernel
  rw [Option.any_eq_true] at hrun
  obtain ⟨p, hp, htwice⟩ := hrun
  have honce := (h (sampleEnv keyB) (by decide +kernel) sampleBatch_verifyBatch p
    (Machine.reachable_exec (.init rfl) hp)).once
  rw [of_decide_eq_true htwice] at honce
  simp at honce

end AccountabilityGadget.Consensus
