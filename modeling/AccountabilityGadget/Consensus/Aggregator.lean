import AccountabilityGadget.Consensus.Messages

/-!
# Vote and timeout aggregators (`consensus/src/aggregator.rs`)

* `Maker` — `QCMaker` and `TCMaker`: votes of distinct authors and a running weight, which is set
  back to zero once it reaches the quorum threshold.
* `Aggregator` — a maker for each round and vote digest, and one for each round of timeouts.
* `Maker.Sound` — what is known of the collected votes; `Maker.Sound.append` keeps it, and the votes
  of a certificate are those of a quorum.
-/

set_option autoImplicit false

namespace AccountabilityGadget.Consensus

open Encoding

structure Maker (α : Type) where
  weight : Stake
  votes : List (PublicKey × α)
  used : List PublicKey

abbrev QCMaker := Maker Signature

abbrev TCMaker := Maker (Signature × RoundNumber)

namespace Maker

variable {α : Type}

def new : Maker α := ⟨0, [], []⟩

/-- "Try to append a signature to a (partial) quorum"; the votes, if they make one. -/
def append (c : Committee) (m : Maker α) (author : PublicKey) (vote : α) :
    Maker α × ConsensusResult (Option (List (PublicKey × α))) :=
  if author ∈ m.used then (m, .error (.authorityReuse author))
  else
    let votes := m.votes ++ [(author, vote)]
    let weight := m.weight + c.stake author
    if c.quorumThreshold ≤ weight then
      -- "Ensures QC is only made once."
      (⟨0, votes, author :: m.used⟩, .ok (some votes))
    else (⟨weight, votes, author :: m.used⟩, .ok none)

/-- What makes a quorum: a new author whose stake reaches the threshold. -/
theorem append_eq_some {c : Committee} {m : Maker α} {author : PublicKey} {vote : α}
    {votes : List (PublicKey × α)} (h : (m.append c author vote).2 = .ok (some votes)) :
    author ∉ m.used ∧ c.quorumThreshold ≤ m.weight + c.stake author ∧
      votes = m.votes ++ [(author, vote)] := by
  unfold append at h
  split at h
  · cases h
  · rename_i hu
    dsimp only at h
    split at h
    · rename_i hq
      cases h
      exact ⟨hu, hq, rfl⟩
    · cases h

/-- Distinct authors with voting rights, all of whose votes satisfy `P`. -/
structure Sound (c : Committee) (P : PublicKey × α → Prop) (m : Maker α) : Prop where
  used : ∀ a ∈ m.votes.map Prod.fst, a ∈ m.used
  nodup : (m.votes.map Prod.fst).Nodup
  stake : ∀ a ∈ m.votes.map Prod.fst, 0 < c.stake a
  entry : ∀ v ∈ m.votes, P v
  weight : m.weight.toNat ≤ ((m.votes.map Prod.fst).map fun a => (c.stake a).toNat).sum

variable {c : Committee} {P Q : PublicKey × α → Prop} {m : Maker α}

theorem sound_new : Sound c P (new : Maker α) :=
  ⟨by simp [new], by simp [new], by simp [new], by simp [new], by simp [new]⟩

theorem Sound.mono (h : Sound c P m) (hPQ : ∀ v, P v → Q v) : Sound c Q m :=
  { h with entry := fun v hv => hPQ v (h.entry v hv) }

/-- A vote with voting rights keeps the maker sound, and a completed quorum is one. -/
theorem Sound.append (h : Sound c P m) {author : PublicKey} {vote : α}
    (hs : 0 < c.stake author) (hv : P (author, vote)) :
    Sound c P (m.append c author vote).1 ∧
      ∀ votes, (m.append c author vote).2 = .ok (some votes) →
        Quorate c (votes.map Prod.fst) ∧ ∀ v ∈ votes, P v := by
  by_cases hu : author ∈ m.used
  · rw [Maker.append, if_pos hu]
    exact ⟨h, fun votes hvotes => by cases hvotes⟩
  · have hfresh : author ∉ m.votes.map Prod.fst := fun hmem => hu (h.used author hmem)
    have hnodup : ((m.votes ++ [(author, vote)]).map Prod.fst).Nodup := by
      rw [List.map_append, List.nodup_append]
      exact ⟨h.nodup, by simp, by simpa using fun a b hab heq => hfresh (by
        rw [← heq]; exact List.mem_map_of_mem hab)⟩
    have hstake : ∀ a ∈ (m.votes ++ [(author, vote)]).map Prod.fst, 0 < c.stake a := by
      intro a ha
      rw [List.map_append, List.mem_append] at ha
      rcases ha with ha | ha
      · exact h.stake a ha
      · obtain rfl : a = author := by simpa using ha
        exact hs
    have hentry : ∀ v ∈ m.votes ++ [(author, vote)], P v := by
      intro v hmem
      rcases List.mem_append.mp hmem with hmem | hmem
      · exact h.entry v hmem
      · rw [List.mem_singleton.mp hmem]
        exact hv
    have hused : ∀ a ∈ (m.votes ++ [(author, vote)]).map Prod.fst, a ∈ author :: m.used := by
      intro a ha
      rw [List.map_append, List.mem_append] at ha
      rcases ha with ha | ha
      · exact List.mem_cons_of_mem _ (h.used a ha)
      · obtain rfl : a = author := by simpa using ha
        exact List.mem_cons_self
    -- the sum may wrap, but then it only gets smaller
    have hweight : (m.weight + c.stake author).toNat ≤
        (((m.votes ++ [(author, vote)]).map Prod.fst).map fun a => (c.stake a).toNat).sum := by
      have hold := h.weight
      rw [UInt32.toNat_add, List.map_append, List.map_append, List.sum_append]
      simp only [List.map_cons, List.map_nil, List.sum_cons, List.sum_nil, Nat.add_zero]
      omega
    rw [Maker.append, if_neg hu]
    dsimp only
    split_ifs with hq
    · refine ⟨⟨hused, hnodup, hstake, hentry, Nat.zero_le _⟩, ?_⟩
      intro votes hvotes
      simp only [Except.ok.injEq, Option.some.injEq] at hvotes
      subst hvotes
      exact ⟨⟨hnodup, hstake, (UInt32.le_iff_toNat_le.mp hq).trans hweight⟩, hentry⟩
    · exact ⟨⟨hused, hnodup, hstake, hentry, hweight⟩, fun votes hvotes => by cases hvotes⟩

end Maker

def QCMaker.append (m : QCMaker) (vote : Vote) (c : Committee) :
    QCMaker × ConsensusResult (Option QC) :=
  let (m, result) := Maker.append c m vote.author vote.signature
  (m, result.map (Option.map fun votes => ⟨vote.hash, vote.round, votes⟩))

def TCMaker.append (m : TCMaker) (timeout : Timeout) (c : Committee) :
    TCMaker × ConsensusResult (Option TC) :=
  let (m, result) := Maker.append c m timeout.author (timeout.signature, timeout.highQcRound)
  (m, result.map (Option.map fun votes => ⟨timeout.round, votes⟩))

/-- An entry that is missing in a map of the source is an empty maker here: the source creates it
with `or_insert_with`. -/
structure Aggregator where
  votesAggregators : RoundNumber → Digest → QCMaker
  timeoutsAggregators : RoundNumber → TCMaker

namespace Aggregator

def new : Aggregator := ⟨fun _ _ => .new, fun _ => .new⟩

def addVote (cr : BatchCrypto) (c : Committee) (a : Aggregator) (vote : Vote) :
    Aggregator × ConsensusResult (Option QC) :=
  let d := vote.digest cr
  let (m, result) := QCMaker.append (a.votesAggregators vote.round d) vote c
  ({ a with
      votesAggregators := Function.update a.votesAggregators vote.round
        (Function.update (a.votesAggregators vote.round) d m) }, result)

def addTimeout (c : Committee) (a : Aggregator) (timeout : Timeout) :
    Aggregator × ConsensusResult (Option TC) :=
  let (m, result) := TCMaker.append (a.timeoutsAggregators timeout.round) timeout c
  ({ a with
      timeoutsAggregators := Function.update a.timeoutsAggregators timeout.round m }, result)

def cleanup (a : Aggregator) (round : RoundNumber) : Aggregator where
  votesAggregators k := if round ≤ k then a.votesAggregators k else fun _ => .new
  timeoutsAggregators k := if round ≤ k then a.timeoutsAggregators k else .new

theorem map_eq_ok_some {α β : Type} {x : ConsensusResult (Option α)} {f : α → β} {b : β}
    (h : x.map (Option.map f) = .ok (some b)) : ∃ a, x = .ok (some a) ∧ b = f a := by
  cases x with
  | error e => cases h
  | ok o =>
    cases o with
    | none => cases h
    | some a =>
      cases h
      exact ⟨a, rfl, rfl⟩

theorem addVote_eq_some {cr : BatchCrypto} {c : Committee} {a : Aggregator} {vote : Vote} {qc : QC}
    (h : (a.addVote cr c vote).2 = .ok (some qc)) :
    ∃ votes, (Maker.append c (a.votesAggregators vote.round (vote.digest cr)) vote.author
      vote.signature).2 = .ok (some votes) ∧ qc = ⟨vote.hash, vote.round, votes⟩ :=
  map_eq_ok_some h

theorem addTimeout_eq_some {c : Committee} {a : Aggregator} {timeout : Timeout} {tc : TC}
    (h : (a.addTimeout c timeout).2 = .ok (some tc)) :
    ∃ votes, (Maker.append c (a.timeoutsAggregators timeout.round) timeout.author
      (timeout.signature, timeout.highQcRound)).2 = .ok (some votes) ∧ tc = ⟨timeout.round, votes⟩ :=
  map_eq_ok_some h

/-- Every collected vote satisfies `V`, with the digest voted for, and every collected timeout
satisfies `T`, with its round. -/
structure Sound (c : Committee) (V : Digest → PublicKey × Signature → Prop)
    (T : RoundNumber → PublicKey × Signature × RoundNumber → Prop) (a : Aggregator) : Prop where
  votes : ∀ r d, (a.votesAggregators r d).Sound c (V d)
  timeouts : ∀ r, (a.timeoutsAggregators r).Sound c (T r)

variable {cr : BatchCrypto} {c : Committee} {V V' : Digest → PublicKey × Signature → Prop}
  {T T' : RoundNumber → PublicKey × Signature × RoundNumber → Prop} {a : Aggregator}

theorem sound_new : Sound c V T new := ⟨fun _ _ => Maker.sound_new, fun _ => Maker.sound_new⟩

theorem Sound.mono (h : Sound c V T a) (hV : ∀ d v, V d v → V' d v) (hT : ∀ r v, T r v → T' r v) :
    Sound c V' T' a :=
  ⟨fun r d => (h.votes r d).mono (hV d), fun r => (h.timeouts r).mono (hT r)⟩

theorem Sound.cleanup (h : Sound c V T a) (round : RoundNumber) : Sound c V T (a.cleanup round) where
  votes r d := by
    unfold Aggregator.cleanup
    dsimp only
    split
    · exact h.votes r d
    · exact Maker.sound_new
  timeouts r := by
    unfold Aggregator.cleanup
    dsimp only
    split
    · exact h.timeouts r
    · exact Maker.sound_new

variable (cr) in
/-- A certificate that `addVote` assembles carries the votes of a quorum. -/
theorem Sound.addVote (h : Sound c V T a) {vote : Vote} (hs : 0 < c.stake vote.author)
    (hv : V (vote.digest cr) (vote.author, vote.signature)) :
    Sound c V T (a.addVote cr c vote).1 ∧
      ∀ qc, (a.addVote cr c vote).2 = .ok (some qc) →
        qc.hash = vote.hash ∧ qc.round = vote.round ∧ Quorate c (qc.votes.map Prod.fst) ∧
          ∀ v ∈ qc.votes, V (vote.digest cr) v := by
  obtain ⟨hm, hq⟩ := (h.votes vote.round (vote.digest cr)).append hs hv
  refine ⟨⟨?_, h.timeouts⟩, ?_⟩
  · intro r d
    by_cases hr : r = vote.round
    · subst hr
      by_cases hd : d = vote.digest cr
      · subst hd
        simpa [Aggregator.addVote, QCMaker.append] using hm
      · simpa [Aggregator.addVote, hd] using h.votes vote.round d
    · simpa [Aggregator.addVote, hr] using h.votes r d
  · intro qc hqc
    obtain ⟨votes, hvotes, rfl⟩ := addVote_eq_some hqc
    exact ⟨rfl, rfl, hq votes hvotes⟩

/-- A certificate that `addTimeout` assembles carries the timeouts of a quorum. -/
theorem Sound.addTimeout (h : Sound c V T a) {timeout : Timeout} (hs : 0 < c.stake timeout.author)
    (hv : T timeout.round (timeout.author, timeout.signature, timeout.highQcRound)) :
    Sound c V T (a.addTimeout c timeout).1 ∧
      ∀ tc, (a.addTimeout c timeout).2 = .ok (some tc) →
        tc.round = timeout.round ∧ Quorate c (tc.votes.map Prod.fst) ∧
          ∀ v ∈ tc.votes, T timeout.round v := by
  obtain ⟨hm, hq⟩ := (h.timeouts timeout.round).append hs hv
  refine ⟨⟨h.votes, ?_⟩, ?_⟩
  · intro r
    by_cases hr : r = timeout.round
    · subst hr
      simpa [Aggregator.addTimeout, TCMaker.append] using hm
    · simpa [Aggregator.addTimeout, hr] using h.timeouts r
  · intro tc htc
    obtain ⟨votes, hvotes, rfl⟩ := addTimeout_eq_some htc
    exact ⟨rfl, hq votes hvotes⟩

end Aggregator

end AccountabilityGadget.Consensus
