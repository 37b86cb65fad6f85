import AccountabilityGadget.Consensus.CaughtUp

/-!
# What leaders propose

A leader puts its own highest certificate into a block.  After a quorum of votes this is the
certificate of the round before.  After a quorum of timeouts it may be lower than what the timeouts
report, since a timeout carries the round of a certificate but not the certificate.

* `Votable.step` — as long as leaders have caught up, what they propose passes the second rule of
  `make_vote`.
* `Network.learning`, `Network.Ready` — what the cores learn over a run, and that the next leader is
  informed of what the timeouts report before they are those of a quorum.
* `Network.proposals_votable` — in runs without faults in which leaders are informed in time.
* `Network.proposal_behind` — a run without faults in which a leader is not.
-/

set_option autoImplicit false

namespace AccountabilityGadget.Consensus

/-! ## One core -/

/-- The blocks that the core has made and the one that it is about to make pass the second rule. -/
structure Votable (env : Env) (s : Core) : Prop where
  behind : s.round ≠ 0 → s.highQc.round < s.round
  call : env.boycottProposals = false → ∀ tc, s.call = .generateProposal tc → ∀ payload,
    Core.safetyRule2 (.new env.cr s.highQc tc env.name s.round payload) = .ok true
  noTc : ∀ tc, s.call ≠ .handleTc tc
  log : ∀ b, .propose b ∈ s.log → Core.safetyRule2 b = .ok true
  sent : ∀ tc receiver, .send (.tc tc) receiver ∉ s.log

variable {env : Env} {s s' : Core}

namespace Core

/-- The second rule for a block with a timeout certificate. -/
theorem safetyRule2_of_tc {b : Block} {tc : TC} (htc : b.tc = some tc) (hne : tc.votes ≠ [])
    (hround : tc.round + 1 = b.round) (hle : ∀ v ∈ tc.votes, v.2.2 ≤ b.qc.round) :
    safetyRule2 b = .ok true := by
  have hmax : ∃ m, tc.highQcRounds.max? = some m := by
    apply Option.ne_none_iff_exists'.mp
    intro h0
    exact hne (List.map_eq_nil_iff.mp (List.max?_eq_none_iff.mp h0))
  obtain ⟨m, hm⟩ := hmax
  have hmle : m ≤ b.qc.round := by
    obtain ⟨v, hv, rfl⟩ := List.mem_map.mp (List.max?_eq_some_iff.mp hm).1
    exact hle v hv
  unfold safetyRule2
  rw [htc]
  dsimp only
  rw [hm]
  simp [hround, hmle]

theorem safetyRule2_of_consecutive {b : Block} (htc : b.tc = none)
    (hround : b.qc.round + 1 = b.round) : safetyRule2 b = .ok true := by
  unfold safetyRule2
  rw [htc]
  simp [hround]

end Core

/-- A leader that has caught up makes a block that is fit for a vote. -/
theorem Core.CaughtUp.assembled_tc (hc : s.CaughtUp env) {t : Timeout} {tc : TC}
    (hcall : s.call = .handleTimeout t) (hle : s.round ≤ t.round)
    (hv : t.verify env.cr env.committee = .ok ())
    (htc : (s.aggregator.addTimeout env.committee t).2 = .ok (some tc)) {a : Aggregator}
    (hleader : env.name = env.leader ({ s with aggregator := a }.advanceRound tc.round).round)
    (hb : env.boycottProposals = false) (payload : List Digest) :
    Core.safetyRule2 (.new env.cr s.highQc (some tc) env.name
      ({ s with aggregator := a }.advanceRound tc.round).round payload) = .ok true := by
  obtain ⟨votes, hvotes, rfl⟩ := Aggregator.addTimeout_eq_some htc
  obtain ⟨hfresh, hq, rfl⟩ := Maker.append_eq_some hvotes
  have hround : ({ s with aggregator := a }.advanceRound t.round).round = t.round + 1 := by
    rw [Core.round_advanceRound]
    exact if_neg (not_lt.mpr hle)
  rw [hround] at hleader ⊢
  obtain ⟨ht, hmaker⟩ := hc t ⟨hcall, hle, hv, hfresh, hq, hleader, hb⟩
  refine Core.safetyRule2_of_tc rfl (by simp) rfl fun u hu => ?_
  rcases List.mem_append.mp hu with hu | hu
  · exact hmaker u hu
  · rw [List.mem_singleton.mp hu]
    exact ht

theorem votable_new : Votable env (Core.new env) where
  behind _ := by
    unfold Core.new
    dsimp only
    decide
  call _ tc hc payload := by
    have htc : tc = none := by
      unfold Core.new at hc
      dsimp only at hc
      split at hc <;> cases hc
      rfl
    subst htc
    apply Core.safetyRule2_of_consecutive rfl
    unfold Core.new
    dsimp only [Block.new]
    decide
  noTc tc := by
    unfold Core.new
    dsimp only
    split <;> simp
  log b hb := by cases hb
  sent tc r h := by cases h

section Steps

variable (h : Votable env s) (h0 : s.round ≠ 0)

include h h0

/-- A certificate of the current round or a later one is followed by the round after it. -/
theorem Votable.assembled_qc {v : Vote} {qc : QC} (hle : s.round ≤ v.round)
    (hqc : (s.aggregator.addVote env.cr env.committee v).2 = .ok (some qc)) {a : Aggregator} :
    ({ s with aggregator := a }.processQc qc).highQc.round + 1 =
      ({ s with aggregator := a }.processQc qc).round := by
  obtain ⟨votes, -, rfl⟩ := Aggregator.addVote_eq_some hqc
  have hlt : s.highQc.round < v.round := (h.behind h0).trans_le hle
  rw [Core.round_processQc, Core.highQc_processQc, if_pos hlt]
  exact (if_neg (not_lt.mpr hle)).symm

theorem Votable.call_step {i : Core.Input} (hc : i = .next → s.CaughtUp env)
    (hs : s.step env i = some s') (hb : env.boycottProposals = false) (tc : Option TC)
    (hcall : s'.call = .generateProposal tc) (payload : List Digest) :
    Core.safetyRule2 (.new env.cr s'.highQc tc env.name s'.round payload) = .ok true := by
  cases Core.step_starts hs hcall with
  | before hbefore hp =>
    rw [hp.highQc, hp.round]
    exact h.call hb tc hbefore payload
  | assembleQc _ _ hle _ hqc hp =>
    rw [hp.highQc, hp.round]
    exact Core.safetyRule2_of_consecutive rfl (h.assembled_qc h0 hle hqc)
  | assembleTc hi ht hle hv htc hp hleader =>
    rw [hp.round] at hleader
    rw [hp.highQc, hp.round, Core.highQc_advanceRound]
    exact (hc hi).assembled_tc ht hle hv htc hleader hb payload
  | receiveTc _ ht => exact absurd ht (h.noTc _)

omit h0 in
theorem Votable.noTc_step {i : Core.Input} (hi : ∀ tc, i ≠ .deliver (.tc tc))
    (hs : s.step env i = some s') (tc : TC) : s'.call ≠ .handleTc tc := by
  intro hcall
  have hinert : ¬ s'.call.Inert := by
    rw [hcall]
    exact id
  cases Core.step_moves hs with
  | still _ hn => exact h.noTc tc ((hn.resolve_left hinert).symm.trans hcall)
  | @receive m _ hm =>
    rw [hcall] at hm
    cases m with
    | tc c => exact hi c rfl
    | _ => cases hm
  | timer _ hn | vote _ hn | proposal _ _ _ hn =>
    rw [hcall] at hn
    cases hn
  | proposalTc _ _ _ hn | collectVote _ _ _ hn | collectTimeout _ _ _ hn => exact hinert hn
  | assembleQc _ _ _ _ _ hn =>
    rw [hcall] at hn
    cases hn.resolve_left id
  | assembleTc _ _ _ _ _ hn =>
    rw [hcall] at hn
    cases (hn.resolve_left id).2
  | receiveTc hc => exact h.noTc _ hc

/-- **Step lemma.** -/
theorem Votable.step {i : Core.Input} (hc : i = .next → s.CaughtUp env)
    (hi : ∀ tc, i ≠ .deliver (.tc tc)) (hs : s.step env i = some s') : Votable env s' where
  behind := Core.behind_step (h.behind h0) hs
  call := h.call_step h0 hc hs
  noTc := h.noTc_step hi hs
  log b hb := by
    rcases Core.step_fresh hs _ hb with hold | ⟨hboycott, tc, payload, hcall, rfl⟩
    · exact h.log b hold
    · exact h.call hboycott tc hcall payload
  sent tc receiver hmem := by
    rcases Core.step_fresh hs _ hmem with hold | hnew
    · exact h.sent tc receiver hold
    · exact hnew tc rfl

end Steps

/-! ## The network -/

namespace Network

variable (N : Network)

/-- The message was sent by a core before; the synchronizers of the cores ask for any block. -/
def Sent (σ : Cores) (l : PublicKey × Core.Input) : Prop :=
  match l.2 with
  | .deliver (.syncRequest _ _) => True
  | .deliver m => ∃ q, N.Honest q ∧ ∃ receiver, .send m receiver ∈ (σ q).log
  | _ => True

/-- All runs, with what each core has learned. -/
def learning : Machine (Cores × List (PublicKey × Learned)) (PublicKey × Core.Input) :=
  .ofStep (· = (fun p => Core.new (N.env p), []))
    (Machine.record N.step fun σ l => ((σ l.1).learned (N.env l.1) l.2).map (l.1, ·))

/-- What the core has learned. -/
def learnedBy (ls : List (PublicKey × Learned)) (p : PublicKey) : List Learned :=
  (ls.filter (·.1 = p)).map Prod.snd

/-- The round of the core has not overflowed; and with a timeout of the round before one that it
leads, the core is informed of what the timeouts of that round report, or they are not those of a
quorum. -/
structure Ready (x : Cores × List (PublicKey × Learned)) (l : PublicKey × Core.Input) : Prop where
  round : (x.1 l.1).round ≠ 0
  informed : ∀ t, (x.1 l.1).learnedTimeout (N.env l.1) l.2 = some t → l.1 = N.leader (t.round + 1) →
    N.boycotts l.1 = false →
      Informed N.committee (learnedBy x.2 l.1 ++ [.timeout t]) t.round

variable {N} {σ σ' : Cores} {ls : List (PublicKey × Learned)}

theorem learnedBy_append (p q : PublicKey) (new : List Learned) :
    learnedBy (ls ++ new.map (p, ·)) q =
      learnedBy ls q ++ if p = q then new else [] := by
  rw [learnedBy, List.filter_append, List.map_append]
  split_ifs with hpq
  · subst hpq
    simp [learnedBy, List.filter_map, Function.comp_def]
  · simp [learnedBy, List.filter_map, Function.comp_def, hpq]

/-- What is known of all honest cores. -/
structure Votables (N : Network) (x : Cores × List (PublicKey × Learned)) : Prop where
  votable : ∀ p, N.Honest p → Votable (N.env p) (x.1 p)
  tracked : ∀ p, N.Honest p → Tracked (N.env p) (x.1 p) (learnedBy x.2 p)

theorem votables_step (h : N.Votables (σ, ls)) {l : PublicKey × Core.Input} (hsent : N.Sent σ l)
    (hready : N.Ready (σ, ls) l) (hs : N.step σ l = some σ') :
    N.Votables (σ', ls ++ ((σ l.1).learned (N.env l.1) l.2).map (l.1, ·)) := by
  obtain ⟨p, i⟩ := l
  obtain ⟨hp, t, ht, rfl⟩ := step_some hs
  have htc : ∀ tc, i ≠ .deliver (.tc tc) := by
    rintro tc rfl
    obtain ⟨q, hq, receiver, hmem⟩ := hsent
    exact (h.votable q hq).sent tc receiver hmem
  have hcaught : i = .next → (σ p).CaughtUp (N.env p) := by
    rintro rfl
    exact (h.tracked p hp).caughtUp hready.round hready.informed
  refine ⟨fun a ha => ?_, fun a ha => ?_⟩ <;> by_cases hap : a = p
  · subst hap
    simp only [Function.update_self]
    exact (h.votable a ha).step hready.round hcaught htc ht
  · simp only [Function.update_of_ne hap]
    exact h.votable a ha
  · subst hap
    simp only [Function.update_self, learnedBy_append, if_true]
    exact (h.tracked a ha).step hready.round ht
  · simp only [Function.update_of_ne hap, learnedBy_append, if_neg (Ne.symm hap), List.append_nil]
    exact h.tracked a ha

/-- **Proposals are votable**, in every run without faults in which leaders learn in time what the
timeouts report. -/
theorem proposals_votable (N : Network) (x : Cores × List (PublicKey × Learned))
    (hr : (N.learning.restrict fun x l => N.Sent x.1 l ∧ N.Ready x l).Reachable x) :
    ∀ p, N.Honest p → ∀ b, .propose b ∈ (x.1 p).log → Core.safetyRule2 b = .ok true := by
  have hinv : N.Votables x := by
    refine Machine.invariant ?_ ?_ hr
    · intro x h
      rw [show x = _ from h]
      exact ⟨fun p _ => votable_new, fun p _ => tracked_new⟩
    · rintro ⟨σ, ls⟩ l x' h ⟨⟨hsent, hready⟩, hs⟩
      obtain ⟨σ', hs', rfl⟩ := Option.map_eq_some_iff.mp hs
      exact votables_step h hsent hready hs'
  exact fun p hp => (hinv.votable p hp).log

/-! ### Two honest cores -/

/-- The second authority leads the second round, the first one leads the others. -/
def relayNetwork : Network :=
  ⟨sampleBatch, sampleCommittee, fun r => if r = 2 then keyB else keyA, fun _ => false, ∅⟩

/-- `Sent`, as a check. -/
def sentCheck (σ : Cores) (l : PublicKey × Core.Input) : Bool :=
  match l.2 with
  | .deliver m => [keyA, keyB].any fun q => (σ q).log.contains (.send m none) ||
      [keyA, keyB].any fun receiver => (σ q).log.contains (.send m (some receiver))
  | _ => true

/-- A check for `Ready`. -/
def readyCheck (x : Cores × List (PublicKey × Learned)) (l : PublicKey × Core.Input) : Bool :=
  (x.1 l.1).round ≠ 0 && ((x.1 l.1).learnedTimeout (relayNetwork.env l.1) l.2).all fun t =>
    (timeoutsOf (learnedBy x.2 l.1 ++ [.timeout t]) t.round).all fun u => u.highQcRound = 0 ||
      (learnedBy x.2 l.1).any fun
        | .certificate r => u.highQcRound ≤ r
        | .timeout _ => false

theorem sent_of_check {σ : Cores} {l : PublicKey × Core.Input} (h : sentCheck σ l = true) :
    relayNetwork.Sent σ l := by
  obtain ⟨p, i⟩ := l
  have hhonest : ∀ q ∈ [keyA, keyB], relayNetwork.Honest q := by decide +kernel
  cases i with
  | deliver m =>
    have hsent : ∃ q, relayNetwork.Honest q ∧ ∃ receiver, .send m receiver ∈ (σ q).log := by
      simp only [sentCheck, List.any_eq_true, Bool.or_eq_true, List.contains_iff_mem] at h
      obtain ⟨q, hq, h | ⟨receiver, -, h⟩⟩ := h
      · exact ⟨q, hhonest q hq, none, h⟩
      · exact ⟨q, hhonest q hq, some receiver, h⟩
    cases m with
    | syncRequest d sender => trivial
    | _ => exact hsent
  | _ => trivial

theorem ready_of_check {x : Cores × List (PublicKey × Learned)} {l : PublicKey × Core.Input}
    (h : readyCheck x l = true) : relayNetwork.Ready x l := by
  obtain ⟨hround, hcheck⟩ := Bool.and_eq_true_iff.mp h
  refine ⟨of_decide_eq_true hround, ?_⟩
  intro t ht _ _ _ u hu
  rw [ht, Option.all_some] at hcheck
  have hu := List.all_eq_true.mp hcheck u hu
  rcases Bool.or_eq_true_iff.mp hu with hzero | hany
  · exact .inl (of_decide_eq_true hzero)
  · obtain ⟨e, he, hle⟩ := List.any_eq_true.mp hany
    cases e with
    | certificate r => exact .inr ⟨r, List.mem_append_left _ he, of_decide_eq_true hle⟩
    | timeout _ => cases hle

/-- The certificate of the timeouts of a round, from what each of them reports. -/
def timeoutTc (round : RoundNumber) (reports : List (PublicKey × RoundNumber)) : TC :=
  ⟨round, reports.map fun r => (r.1, (Timeout.new sampleBatch r.2 round r.1).signature, r.2)⟩

/-- The certificate of the first block, by the vote of the first authority. -/
def relayedQc : QC :=
  ⟨block1.digest sampleBatch, 1, [(keyA, (Vote.new sampleBatch block1 keyA).signature)]⟩

/-- The block of the second leader. -/
def relayedBlock : Block := .new sampleBatch relayedQc none keyB 2 []

/-- The block of the third leader, on timeouts of the second round that report the certificate. -/
def informedBlock : Block :=
  .new sampleBatch relayedQc (some (timeoutTc 2 [(keyB, 1), (keyA, 1)])) keyA 3 []

/-- The third leader learns of the certificate from the block of the second one, whose payload it
does not have, before the second round is timed out. -/
theorem proposals_votable_informed :
    ∃ x : Cores × List (PublicKey × Learned), .propose informedBlock ∈ (x.1 keyA).log ∧
      ∀ p, relayNetwork.Honest p →
        ∀ b, .propose b ∈ (x.1 p).log → Core.safetyRule2 b = .ok true := by
  have hrun : ((Machine.execIf (fun x l => sentCheck x.1 l && readyCheck x l)
      (Machine.record relayNetwork.step fun σ l =>
        ((σ l.1).learned (relayNetwork.env l.1) l.2).map (l.1, ·))
      (fun p => Core.new (relayNetwork.env p), [])
      [(keyA, .payload []), (keyA, .next),
        (keyB, .deliver (.vote (.new sampleBatch block1 keyA))), (keyB, .next),
        (keyB, .payload []), (keyB, .next), (keyB, .timer), (keyB, .next),
        (keyA, .deliver (.propose relayedBlock)), (keyA, .next), (keyA, .next), (keyA, .status .wait),
        (keyA, .deliver (.timeout (.new sampleBatch 1 2 keyB))), (keyA, .next),
        (keyA, .timer), (keyA, .next), (keyA, .payload [])]).any fun x =>
          (x.1 keyA).log.contains (.propose informedBlock)) = true := by
    decide +kernel
  rw [Option.any_eq_true] at hrun
  obtain ⟨x, hx, h⟩ := hrun
  have hcheck : ∀ x l, (sentCheck x.1 l && readyCheck x l) = true →
      relayNetwork.Sent x.1 l ∧ relayNetwork.Ready x l := fun x l h =>
    ⟨sent_of_check (Bool.and_eq_true_iff.mp h).1, ready_of_check (Bool.and_eq_true_iff.mp h).2⟩
  exact ⟨x, List.contains_iff_mem.mp h,
    proposals_votable relayNetwork x (Machine.reachable_execIf hcheck (.init rfl) hx)⟩

/-- The block of the third leader, which has no certificate, on timeouts of the second round. -/
def staleBlock : Block :=
  .new sampleBatch .genesis (some (timeoutTc 2 [(keyB, 1), (keyA, 0)])) keyA 3 []

/-- **A leader that has not caught up**: the certificate of the first round is known to the second
authority only, whose timeout reports it. -/
theorem proposal_behind : ∃ σ : Cores,
    (relayNetwork.machine.restrict relayNetwork.Sent).Reachable σ ∧ relayNetwork.Honest keyA ∧
      .propose staleBlock ∈ (σ keyA).log ∧ Core.safetyRule2 staleBlock = .ok false := by
  have hrun : ((Machine.execIf sentCheck relayNetwork.step
      (fun p => Core.new (relayNetwork.env p))
      [(keyA, .payload []), (keyA, .next),
        -- the vote of the first leader makes the certificate at the second one
        (keyB, .deliver (.vote (.new sampleBatch block1 keyA))), (keyB, .next),
        (keyB, .payload []), (keyB, .next), (keyB, .timer), (keyB, .next),
        (keyA, .timer), (keyA, .next), (keyA, .deliver (.timeout (.new sampleBatch 1 2 keyB))),
        (keyA, .next), (keyA, .timer), (keyA, .next), (keyA, .payload [])]).any fun σ =>
          (σ keyA).log.contains (.propose staleBlock)) = true := by
    decide +kernel
  rw [Option.any_eq_true] at hrun
  obtain ⟨σ, hσ, h⟩ := hrun
  exact ⟨σ, Machine.reachable_execIf (fun _ _ => sent_of_check) (.init rfl) hσ,
    by decide +kernel, List.contains_iff_mem.mp h, by decide +kernel⟩

end Network

end AccountabilityGadget.Consensus
