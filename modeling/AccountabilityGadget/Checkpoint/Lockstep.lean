import AccountabilityGadget.Checkpoint.Node

/-!
# The proposer follows the extractor (`mynode/src/cpproposer.rs`, `mynode/src/cpextractor.rs`)

The extractor may be many iterations ahead of the proposer; between them are the broadcast channel
and the queue that the relay task writes to, with proposals in between.  The proposer has three
places where it takes an event, each with the same assertion on its number.

* `Node.consumption` — the decisions that the proposer takes, with the iteration it is in.
* `Proposer.Keys` — no proposal is kept for an iteration that is over.
* `Lockstep` — what has been consumed and what is under way are the decisions, in order; and the
  proposer is in the iteration after those it has consumed.
* `lockstep` — it is so in every run, so that no assertion fails.
-/

set_option autoImplicit false

namespace AccountabilityGadget

def CheckpointEvent.isCheckpoint : CheckpointEvent → Bool
  | newCheckpoint _ _ => true
  | newProposal _ _ => false

/-- The decision of the iteration before `i`. -/
def decisionBefore (decided : List CheckpointEvent) : ℕ → Option Digest
  | 0 => none
  | i + 1 =>
    match decided[i]? with
    | some (.newCheckpoint _ b) => b
    | _ => none

/-! ## The proposals that are kept -/

namespace Proposer

/-- The proposals are for the current iteration and later ones; at the head of the loop that of the
last iteration may still be there. -/
def Keys (s : Proposer) : Prop :=
  ∀ i b, s.proposals i = some b →
    s.currentIteration ≤ i ∨ s.phase = .start ∧ s.currentIteration ≤ i + 1

variable {env : ProposerEnv} {s s' : Proposer}

theorem Keys.current (h : Keys s) (hp : s.phase ≠ .start) {i : ℕ} {b : Digest}
    (hb : s.proposals i = some b) : s.currentIteration ≤ i :=
  (h i b hb).resolve_right fun hstart => hp hstart.1

/-- A step between phases of one iteration. -/
theorem Keys.within (h : Keys s) (hp : s.phase ≠ .start) (hproposals : s'.proposals = s.proposals)
    (hi : s'.currentIteration = s.currentIteration) : Keys s' := by
  intro i b hb
  rw [hproposals] at hb
  rw [hi]
  exact .inl (h.current hp hb)

theorem Keys.enter (h : Keys s) : Keys s.enter := by
  intro i b hb
  left
  show s.currentIteration ≤ i
  simp only [Proposer.enter] at hb
  split_ifs at hb with hpos
  · have hne : i ≠ s.currentIteration - 1 := by
      rintro rfl
      rw [Function.update_self] at hb
      cases hb
    rw [Function.update_of_ne hne] at hb
    rcases h i b hb with hle | ⟨-, hle⟩
    · exact hle
    · omega
  · omega

theorem Keys.onEvent (h : Keys s) (hp : s.phase ≠ .start) (inject : Bool) (e : CheckpointEvent) :
    Keys (s.onEvent inject e) := by
  cases e with
  | newCheckpoint i b =>
    simp only [Proposer.onEvent]
    split_ifs
    · intro j c hc
      exact .inr ⟨rfl, Nat.succ_le_succ (h.current hp hc)⟩
    · exact h.within hp rfl rfl
  | newProposal i b =>
    -- whatever becomes of the proposal, it is for the current iteration or a later one
    have hstore : ∀ {next : Phase}, s.currentIteration ≤ i →
        Keys { s with proposals := Function.update s.proposals i (some b), phase := next } := by
      intro next hi j c hc
      left
      by_cases hj : j = i
      · exact hj ▸ hi
      · exact h.current hp ((Function.update_of_ne hj ..).symm.trans hc)
    simp only [Proposer.onEvent]
    split_ifs with hi
    · exact hstore hi.1
    · exact hstore hi.1
    · exact h

/-- **Every step keeps the keys.** -/
theorem Keys.step {i : Input} (h : Keys s) (hs : step env s i = some s') : Keys s' := by
  have haway : ∀ {p : Phase}, s.phase = p → p ≠ .start → s.phase ≠ .start := fun hp hne => hp ▸ hne
  cases step_effect hs with
  | enter _ => exact h.enter
  | trigger hp ht =>
    obtain ⟨resume, rfl⟩ := triggerResume_eq ht
    exact h.within (haway hp (by simp)) rfl rfl
  | release hp ht =>
    obtain ⟨resume, rfl⟩ := triggerResume_eq ht
    exact h.within (haway hp (by simp)) rfl rfl
  | receive hp =>
    refine h.onEvent ?_ _ _
    intro hstart
    rw [hstart] at hp
    exact hp
  | closed hp =>
    refine h.within ?_ rfl rfl
    intro hstart
    rw [hstart] at hp
    exact hp
  | resume _ _ => exact h
  | ask hp | await hp | giveUp hp | delayOver hp | timeout hp | again hp | propose hp | accept hp
  | reject hp => exact h.within (haway hp (by simp)) rfl rfl
  | inject hp _ | act hp _ => exact h.within (haway hp (by simp)) rfl rfl

/-- Nothing but a decision changes the iteration and the last checkpoint, and nothing else can fail
the assertion. -/
theorem step_same {i : Input} (hs : step env s i = some s')
    (hi : ∀ j b, i ≠ .event (.newCheckpoint j b)) :
    s'.currentIteration = s.currentIteration ∧ s'.lastCheckpoint = s.lastCheckpoint ∧
      (s.phase ≠ .panicked .assert → s'.phase ≠ .panicked .assert) := by
  cases step_effect hs with
  | enter _ =>
    refine ⟨rfl, rfl, fun _ => ?_⟩
    simp only [Proposer.enter]
    split_ifs <;> simp
  | trigger _ ht | release _ ht =>
    obtain ⟨resume, rfl⟩ := triggerResume_eq ht
    exact ⟨rfl, rfl, fun _ => by simp⟩
  | @receive e hp =>
    cases e with
    | newCheckpoint j b => exact absurd rfl (hi j b)
    | newProposal j b =>
      simp only [Proposer.onEvent]
      split_ifs
      · exact ⟨rfl, rfl, fun _ => by simp⟩
      · exact ⟨rfl, rfl, fun h => h⟩
      · exact ⟨rfl, rfl, fun h => h⟩
  | closed _ => exact ⟨rfl, rfl, fun _ => by simp [Proposer.abort]⟩
  | await _ | propose _ => exact ⟨rfl, rfl, fun _ => by simp [Proposer.await]⟩
  | giveUp _ | accept _ | reject _ => exact ⟨rfl, rfl, fun _ => by simp [Proposer.submitVote]⟩
  | ask _ | delayOver _ | timeout _ | again _ | inject _ _ | act _ _ =>
    exact ⟨rfl, rfl, fun _ => by simp⟩
  | resume _ _ => exact ⟨rfl, rfl, fun h => h⟩

/-- The decision of the current iteration ends it. -/
theorem step_leave {b : Option Digest}
    (hs : step env s (.event (.newCheckpoint s.currentIteration b)) = some s') : s' = s.leave b := by
  cases step_effect hs with
  | receive _ =>
    exact if_pos rfl

end Proposer

/-! ## The queues -/

namespace Node

/-- The decision that the proposer takes in a step, with the iteration it is in. -/
def consumption (n : Node) : Input → List (ℕ × CheckpointEvent)
  | .consume =>
    match n.fusioned with
    | .newCheckpoint i b :: _ => [(n.proposer.currentIteration, .newCheckpoint i b)]
    | _ => []
  | _ => []

/-- All interleavings, with what the proposer has consumed. -/
def recorded (env : NodeEnv) : Machine (Node × List (ℕ × CheckpointEvent)) Input :=
  .ofStep (· = (new env.cr, [])) (Machine.record (step env) consumption)

structure Lockstep (n : Node) (log : List (ℕ × CheckpointEvent)) : Prop where
  iteration : n.extractor.currentIteration = n.decided.length
  numbered : ∀ (m : ℕ) e, n.decided[m]? = some e → ∃ b, e = .newCheckpoint m b
  conserved : log.map Prod.snd ++
    (n.fusioned ++ n.toRelay).filter CheckpointEvent.isCheckpoint = n.decided
  iterations : log.map Prod.fst = List.range n.proposer.currentIteration
  last : n.proposer.lastCheckpoint = decisionBefore n.decided n.proposer.currentIteration
  keys : n.proposer.Keys
  sound : n.proposer.phase ≠ .panicked .assert

variable {env : NodeEnv} {n n' : Node} {log : List (ℕ × CheckpointEvent)}

theorem lockstep_new (env : NodeEnv) : Lockstep (new env.cr) [] where
  iteration := rfl
  numbered _ _ h := by simp [new] at h
  conserved := rfl
  iterations := rfl
  last := rfl
  keys _ _ h := by cases h
  sound h := by cases h

theorem Lockstep.length (h : Lockstep n log) : log.length = n.proposer.currentIteration := by
  have hlen := congrArg List.length h.iterations
  rwa [List.length_map, List.length_range] at hlen

/-- What has been consumed was decided. -/
theorem Lockstep.behind (h : Lockstep n log) : n.proposer.currentIteration ≤ n.decided.length := by
  rw [← h.conserved, ← h.length, List.length_append, List.length_map]
  omega

/-- **The next decision in the queue is that of the current iteration.** -/
theorem Lockstep.next (h : Lockstep n log) {i : ℕ} {b : Option Digest} {rest : List CheckpointEvent}
    (hq : n.fusioned = .newCheckpoint i b :: rest) :
    i = n.proposer.currentIteration ∧
      n.decided[n.proposer.currentIteration]? = some (.newCheckpoint i b) := by
  have hget : n.decided[n.proposer.currentIteration]? = some (.newCheckpoint i b) := by
    rw [← h.conserved, hq, List.cons_append, List.filter_cons_of_pos rfl, ← h.length,
      List.getElem?_append_right (by rw [List.length_map]), List.length_map, Nat.sub_self]
    rfl
  obtain ⟨b', he⟩ := h.numbered _ _ hget
  cases he
  exact ⟨rfl, hget⟩

/-- Steps that neither decide nor consume a decision. -/
theorem Lockstep.quiet (h : Lockstep n log) (hextractor : n'.extractor = n.extractor)
    (hdecided : n'.decided = n.decided)
    (hqueue : (n'.fusioned ++ n'.toRelay).filter CheckpointEvent.isCheckpoint =
      (n.fusioned ++ n.toRelay).filter CheckpointEvent.isCheckpoint)
    (hi : n'.proposer.currentIteration = n.proposer.currentIteration)
    (hlast : n'.proposer.lastCheckpoint = n.proposer.lastCheckpoint) (keys : n'.proposer.Keys)
    (sound : n'.proposer.phase ≠ .panicked .assert) : Lockstep n' log where
  iteration := by rw [hextractor, hdecided, h.iteration]
  numbered := hdecided ▸ h.numbered
  conserved := by rw [hqueue, hdecided, h.conserved]
  iterations := by rw [hi, h.iterations]
  last := by rw [hlast, hi, hdecided, h.last]
  keys := keys
  sound := sound

theorem Lockstep.proposerStep (h : Lockstep n log) {i : Proposer.Input}
    (hi : ∀ j b, i ≠ .event (.newCheckpoint j b)) (hs : n.proposerStep env i = some n') :
    Lockstep n' log := by
  obtain ⟨p, hp, rfl⟩ := Option.map_eq_some_iff.mp hs
  obtain ⟨hiter, hlast, hsound⟩ := Proposer.step_same hp hi
  exact h.quiet rfl rfl rfl hiter hlast (h.keys.step hp) (hsound h.sound)

theorem Lockstep.ledger (h : Lockstep n log) {ord : VoteOrder} {tx : Bytes}
    (hs : step env n (.ledger ord tx) = some n') : Lockstep n' log := by
  simp only [step] at hs
  split at hs
  · split at hs
    · cases hs
      exact h.quiet rfl rfl rfl rfl rfl h.keys h.sound
    · rename_i s' ev hstep
      cases hs
      rcases extractor_step hstep with ⟨rfl, hi⟩ | ⟨b, rfl, hi⟩
      · simp only [Option.toList_none, List.append_nil]
        exact ⟨hi.trans h.iteration, h.numbered, h.conserved, h.iterations, h.last, h.keys, h.sound⟩
      · rw [h.iteration] at hi ⊢
        refine ⟨?_, ?_, ?_, h.iterations, ?_, h.keys, h.sound⟩
        · rw [hi, Option.toList_some, List.length_append, List.length_singleton]
        · intro m e he
          rw [Option.toList_some] at he
          rcases Nat.lt_or_ge m n.decided.length with hlt | hge
          · rw [List.getElem?_append_left hlt] at he
            exact h.numbered m e he
          · rw [List.getElem?_append_right hge, List.getElem?_singleton] at he
            split_ifs at he with hm
            cases he
            exact ⟨b, by rw [show m = n.decided.length by omega]⟩
        · simp only [Option.toList_some]
          rw [← List.append_assoc, List.filter_append, ← List.append_assoc, h.conserved]
          rfl
        · rw [h.last, Option.toList_some]
          have hbehind := h.behind
          cases hc : n.proposer.currentIteration with
          | zero => rfl
          | succ i =>
            rw [decisionBefore, decisionBefore, List.getElem?_append_left (by omega)]
  · cases hs

theorem Lockstep.consume (h : Lockstep n log) (hs : step env n .consume = some n') :
    Lockstep n' (log ++ n.consumption .consume) := by
  simp only [step] at hs
  simp only [consumption]
  cases hq : n.fusioned with
  | nil =>
    rw [hq] at hs
    simp only at hs ⊢
    split_ifs at hs
    rw [List.append_nil]
    exact h.proposerStep (by simp) hs
  | cons e rest =>
    rw [hq] at hs
    cases e with
    | newProposal i b =>
      rw [List.append_nil]
      refine Lockstep.proposerStep (n := { n with fusioned := rest }) ?_ (by simp) hs
      refine h.quiet rfl rfl ?_ rfl rfl h.keys h.sound
      rw [hq]
      rfl
    | newCheckpoint i b =>
      obtain ⟨rfl, hget⟩ := h.next hq
      obtain ⟨p, hp, rfl⟩ := Option.map_eq_some_iff.mp hs
      rw [Proposer.step_leave hp]
      have hkeys : (n.proposer.leave b).Keys := Proposer.step_leave hp ▸ h.keys.step hp
      refine ⟨h.iteration, h.numbered, ?_, ?_, ?_, hkeys, ?_⟩
      · rw [← h.conserved, hq, List.map_append, List.append_assoc]
        rfl
      · rw [List.map_append, h.iterations]
        exact (List.range_succ ..).symm
      · show b = decisionBefore n.decided (n.proposer.currentIteration + 1)
        rw [decisionBefore, hget]
      · exact fun hp => by cases hp

theorem consumption_of_ne (n : Node) {i : Input} (hi : i ≠ .consume) : n.consumption i = [] := by
  cases i with
  | consume => exact absurd rfl hi
  | _ => rfl

/-- Steps other than taking an event from the queue. -/
theorem Lockstep.other (h : Lockstep n log) {i : Input} (hi : i ≠ .consume)
    (hs : step env n i = some n') : Lockstep n' log := by
  cases i with
  | consume => exact absurd rfl hi
  | ledger ord tx => exact h.ledger hs
  | relayEvent =>
    simp only [Node.step] at hs
    split at hs
    · rename_i e rest hrun hq
      cases hs
      refine h.quiet rfl rfl ?_ rfl rfl h.keys h.sound
      rw [hq, List.append_assoc]
      rfl
    · cases hs
  | relayProposal v =>
    simp only [Node.step] at hs
    split at hs
    · split at hs
      · cases hs
        exact h.quiet rfl rfl rfl rfl rfl h.keys h.sound
      · rename_i e he
        cases hs
        cases e with
        | none => exact h.quiet rfl rfl (by simp) rfl rfl h.keys h.sound
        | some e =>
          obtain ⟨j, b, rfl⟩ := relay_proposal he
          refine h.quiet rfl rfl ?_ rfl rfl h.keys h.sound
          simp [CheckpointEvent.isCheckpoint]
    · cases hs
  | tick => exact h.proposerStep (i := .tick) (by simp) hs
  | timer => exact h.proposerStep (i := .timer) (by simp) hs
  | act => exact h.proposerStep (i := .act) (by simp) hs
  | resumeTask j => exact h.proposerStep (i := .resumeTask j) (by simp) hs
  | receive =>
    have hanswered : Lockstep { n with answer := none } log :=
      h.quiet rfl rfl rfl rfl rfl h.keys h.sound
    simp only [Node.step] at hs
    split at hs
    · exact hanswered.proposerStep (by simp) hs
    · exact hanswered.proposerStep (by simp) hs
    · cases hs
  | managerLost =>
    simp only [Node.step] at hs
    split_ifs at hs with hlost
    cases hs
    refine h.quiet rfl rfl rfl rfl rfl ?_ (by simp [Proposer.abort])
    refine h.keys.within ?_ rfl rfl
    intro hstart
    rw [hstart] at hlost
    exact hlost.2.1 rfl
  | managerMessage ord v =>
    simp only [Node.step] at hs
    split_ifs at hs
    cases hs
    exact h.quiet rfl rfl rfl rfl rfl h.keys h.sound
  | managerEvent ord =>
    simp only [Node.step] at hs
    split at hs
    · cases hs
      exact h.quiet rfl rfl rfl rfl rfl h.keys h.sound
    · cases hs
  | managerCommand ord =>
    simp only [Node.step] at hs
    split at hs
    · split at hs <;> cases hs <;> exact h.quiet rfl rfl rfl rfl rfl h.keys h.sound
    · cases hs

/-- **Every step keeps the proposer in step.** -/
theorem Lockstep.step (h : Lockstep n log) {i : Input} (hs : step env n i = some n') :
    Lockstep n' (log ++ n.consumption i) := by
  by_cases hi : i = .consume
  · subst hi
    exact h.consume hs
  · rw [consumption_of_ne n hi, List.append_nil]
    exact h.other hi hs

theorem lockstep_reachable {p : Node × List (ℕ × CheckpointEvent)}
    (h : (recorded env).Reachable p) : Lockstep p.1 p.2 := by
  refine Machine.invariant (P := fun p => Lockstep p.1 p.2) ?_ ?_ h
  · rintro _ rfl
    exact lockstep_new env
  · rintro p i _ hp hs
    obtain ⟨n', hn, rfl⟩ := Option.map_eq_some_iff.mp hs
    exact hp.step hn

/-- **The proposer and the extractor stay in lockstep.**  In every interleaving of the extractor,
the relay task, the proposer and the tree manager: a decision that the proposer finds in its queue is
that of its current iteration, so that no assertion fails; what it has consumed are the first
decisions of the extractor, each in the iteration of its number; the last checkpoint is the decision
of the previous iteration; and no proposal is kept for an earlier iteration, once the head of the loop
has removed the last one. -/
theorem lockstep (env : NodeEnv) (n : Node) (log : List (ℕ × CheckpointEvent))
    (h : (recorded env).Reachable (n, log)) :
    (∀ i b, n.fusioned.head? = some (.newCheckpoint i b) → i = n.proposer.currentIteration) ∧
    n.proposer.phase ≠ .panicked .assert ∧
    log.map Prod.fst = List.range n.proposer.currentIteration ∧
    log.map Prod.snd = n.decided.take n.proposer.currentIteration ∧
    (∀ i e, (i, e) ∈ log → ∃ b, e = .newCheckpoint i b) ∧
    n.proposer.lastCheckpoint = decisionBefore n.decided n.proposer.currentIteration ∧
    (n.proposer.phase ≠ .start →
      ∀ i b, n.proposer.proposals i = some b → n.proposer.currentIteration ≤ i) := by
  have hlock := lockstep_reachable h
  have hsnd : log.map Prod.snd = n.decided.take n.proposer.currentIteration := by
    rw [← hlock.conserved, ← hlock.length, List.take_left' (List.length_map _)]
  refine ⟨?_, hlock.sound, hlock.iterations, hsnd, ?_, hlock.last,
    fun hp i b => hlock.keys.current hp⟩
  · intro i b hq
    obtain ⟨rest, hq⟩ := List.head?_eq_some_iff.mp hq
    exact (hlock.next hq).1
  · intro i e he
    obtain ⟨k, hk, hget⟩ := List.getElem_of_mem he
    have hi : (log.map Prod.fst)[k]? = some i := by
      rw [List.getElem?_map, List.getElem?_eq_getElem hk, hget]
      rfl
    have hdec : (log.map Prod.snd)[k]? = some e := by
      rw [List.getElem?_map, List.getElem?_eq_getElem hk, hget]
      rfl
    rw [hlock.length] at hk
    rw [hlock.iterations, List.getElem?_range hk, Option.some.injEq] at hi
    rw [hsnd, List.getElem?_take_of_lt hk] at hdec
    exact hi ▸ hlock.numbered k e hdec

/-- The sole authority rejects iteration 0. -/
def rejectedRun : List Input :=
  [.ledger .stored (soleVote (.reject 0)), .tick] ++ leadRun ++ [.relayEvent, .consume, .tick]

/-- The extractor decides before the proposer has started, which consumes the decision later. -/
theorem lockstep_rejected : ∃ (n : Node) (log : List (ℕ × CheckpointEvent)),
    log = [(0, .newCheckpoint 0 none)] ∧
    log.map Prod.snd = n.decided.take n.proposer.currentIteration ∧
    n.proposer.phase ≠ .panicked .assert := by
  have hrun : ((Machine.exec (Machine.record (Node.step soleEnv) consumption)
      (new sampleCrypto, []) rejectedRun).any fun p =>
        decide (p.2 = [(0, .newCheckpoint 0 none)])) = true := by
    decide +kernel
  rw [Option.any_eq_true] at hrun
  obtain ⟨⟨n, log⟩, hn, h⟩ := hrun
  rw [decide_eq_true_eq] at h
  obtain ⟨-, hsound, -, hsnd, -⟩ :=
    lockstep soleEnv n log (Machine.reachable_exec (.init rfl) hn)
  exact ⟨n, log, h, hsnd, hsound⟩

end Node

end AccountabilityGadget
