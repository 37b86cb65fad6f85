import AccountabilityGadget.Checkpoint.Proposer
import AccountabilityGadget.Lib.History

/-!
# Voting by an honest proposer (`mynode/src/cpproposer.rs`)

* `ProposerNode.step`, `ProposerNode.machine` — the relay task and the proposer loop, joined by the
  channel of capacity 1000, with the log of what they do.
* `Admissible` — what may be done after what: votes within their iteration, one accept, and it for
  the first proposal.
* `Inv`, `Inv.step` — which events have been consumed, and what has not been done yet in the current
  iteration at each phase of the loop.
* `honest_voting` — every entry of the log of every run is admissible, and the loop never waits for
  room in its own channel.
-/

set_option autoImplicit false

namespace AccountabilityGadget

/-- What the two tasks do, in their order. -/
inductive Observation where
  /-- The relay task forwards an event. -/
  | arrived (e : CheckpointEvent)
  /-- The loop takes an event. -/
  | consumed (e : CheckpointEvent)
  /-- `tx_proposal_to_act_on.send(b)` in iteration `i`. -/
  | queued (i : ℕ) (b : Digest)
  /-- `validate_proposal(b)` answers in iteration `i`. -/
  | answered (i : ℕ) (b : Digest) (ok : Bool)
  /-- `submit_vote`. -/
  | submitted (action : CheckpointAction)
  deriving DecidableEq

namespace Observation

def arrived? : Observation → Option CheckpointEvent
  | arrived e => some e
  | _ => none

def consumed? : Observation → Option CheckpointEvent
  | consumed e => some e
  | _ => none

def submitted? : Observation → Option CheckpointAction
  | submitted action => some action
  | _ => none

end Observation

/-- What the loop does in a step from `s` to `t`. -/
def Proposer.observe (s t : Proposer) : Proposer.Input → List Observation
  | .tick =>
    match s.phase with
    | .elect =>
      if t.phase = .waiting
      then (s.proposals s.currentIteration).toList.map (.queued s.currentIteration) else []
    | .injecting b => [.queued s.currentIteration b]
    | .rejecting => [.submitted (.reject s.currentIteration)]
    | _ => []
  | .proposal _ => (s.proposals s.currentIteration).toList.map (.queued s.currentIteration)
  | .validated ok =>
    match s.phase with
    | .validating b =>
      [.answered s.currentIteration b ok,
        .submitted (if ok then .accept s.currentIteration b else .reject s.currentIteration)]
    | _ => []
  | .event e => [.consumed e]
  | _ => []

/-- The relay task, the channel `tx_checkpoint_events_fusioned` and the proposer loop. -/
structure ProposerNode where
  relayStopped : Option Panic
  fusioned : List CheckpointEvent
  proposer : Proposer
  log : List Observation

namespace ProposerNode

def new : ProposerNode := ⟨none, [], .new, []⟩

inductive Input where
  /-- `rx_inbound_proposals_raw.recv()`. -/
  | message (v : Bytes)
  /-- `rx_checkpoint_events.recv()`: a decision of the extractor. -/
  | decision (i : ℕ) (b : Option Digest)
  /-- The relay task finds one of its channels closed, or lags behind. -/
  | relayClosed (msg : String)
  | loop (i : Proposer.Input)
  /-- The proposer learns that the tree manager is gone. -/
  | managerLost

section Step

variable (env : ProposerEnv) (cr : Crypto) (committee : CheckpointCommittee) (n : ProposerNode)

/-- `tx_checkpoint_events_fusioned.send(e)`: not while the channel is full. -/
def forward (msg : String) (e : CheckpointEvent) : Option ProposerNode :=
  match n.proposer.phase with
  | .panicked _ => some { n with relayStopped := some (.expect msg) }
  | _ =>
    if n.fusioned.length < 1000 then
      some { n with fusioned := n.fusioned ++ [e], log := n.log ++ [.arrived e] }
    else none

/-- The channel after the loop has received from it; `none` where it cannot. -/
def take : Proposer.Input → Option (List CheckpointEvent)
  | .event e => if n.fusioned.head? = some e then some n.fusioned.tail else none
  | .closed => if n.fusioned = [] ∧ n.relayStopped ≠ none then some [] else none
  | _ => some n.fusioned

def step : Input → Option ProposerNode
  | .message v =>
    if n.relayStopped = none then
      match relay env cr committee v with
      | .error p => some { n with relayStopped := some p }
      | .ok none => some n
      | .ok (some e) => n.forward "failed to forward proposal" e
    else none
  | .decision i b =>
    if n.relayStopped = none
    then n.forward "failed to forward checkpoint event" (.newCheckpoint i b) else none
  | .relayClosed msg =>
    if n.relayStopped = none then some { n with relayStopped := some (.expect msg) } else none
  | .loop i =>
    (n.take i).bind fun fusioned => (n.proposer.step env i).map fun proposer =>
      { n with fusioned, proposer, log := n.log ++ n.proposer.observe proposer i }
  | .managerLost =>
    match n.proposer.phase with
    | .proposing | .validating _ =>
      some { n with proposer := n.proposer.abort (.expect "failed to recv command response!") }
    | _ => none

/-- All runs of a node that is not restarted. -/
def machine : Machine ProposerNode Input := .ofStep (· = new) (step env cr committee)

end Step

/-! ## What may be done -/

/-- The value of the first proposal for iteration `i`. -/
def first (events : List CheckpointEvent) (i : ℕ) : Option Digest :=
  events.findSome? fun
    | .newProposal j b => if j = i then some b else none
    | .newCheckpoint _ _ => none

def arrivals (log : List Observation) : List CheckpointEvent := log.filterMap Observation.arrived?

def consumption (log : List Observation) : List CheckpointEvent :=
  log.filterMap Observation.consumed?

/-- Between the decision of iteration `i - 1` and that of `i`. -/
def Open (log : List Observation) (i : ℕ) : Prop :=
  (∀ j < i, ∃ d, .newCheckpoint j d ∈ consumption log) ∧ ∀ d, .newCheckpoint i d ∉ consumption log

/-- A proposal that its leader has signed. -/
def LeaderProposal (env : ProposerEnv) (cr : Crypto) (committee : CheckpointCommittee) (i : ℕ)
    (b : Digest) : Prop :=
  ∃ p : CheckpointTransaction, p.verifySignature cr committee = .ok () ∧
    p.author = env.leader i ∧ p.action = .propose i b

/-- A vote in iteration `i`. -/
def IsVote (i : ℕ) (action : CheckpointAction) : Prop :=
  (∃ b, action = .accept i b) ∨ action = .reject i

/-- What may be done after `log`. -/
def Admissible (env : ProposerEnv) (cr : Crypto) (committee : CheckpointCommittee)
    (log : List Observation) : Observation → Prop
  | .arrived (.newProposal i b) => LeaderProposal env cr committee i b
  | .arrived (.newCheckpoint _ _) => True
  | .consumed _ => True
  | .queued i _ => Open log i ∧ ∀ c, .queued i c ∉ log
  | .answered i b _ => Open log i ∧ .queued i b ∈ log
  | .submitted (.accept i b) => Open log i ∧ (∀ action, IsVote i action → .submitted action ∉ log) ∧
      first (arrivals log) i = some b ∧ .answered i b true ∈ log
  | .submitted (.reject i) => Open log i
  | .submitted (.propose _ _) => False

def isAccept (i : ℕ) : Observation → Bool
  | .submitted (.accept j _) => j = i
  | _ => false

def isQueued (i : ℕ) : Observation → Bool
  | .queued j _ => j = i
  | _ => false

/-- An honest proposer, over a run. -/
structure VotesInOrder (env : ProposerEnv) (cr : Crypto) (committee : CheckpointCommittee)
    (n : ProposerNode) : Prop where
  justified : Justified (Admissible env cr committee) n.log
  /-- One accept per iteration. -/
  accepted : ∀ i, n.log.countP (isAccept i) ≤ 1
  /-- One proposal to act on per iteration. -/
  queued : ∀ i, n.log.countP (isQueued i) ≤ 1
  /-- The log has all votes. -/
  submissions : n.log.filterMap Observation.submitted? = n.proposer.submitted
  /-- What arrives is consumed in its order. -/
  fifo : consumption n.log ++ n.fusioned = arrivals n.log
  /-- The loop never waits for room in its own channel. -/
  room : ∀ b, n.proposer.phase = .injecting b →
    ∃ n', n.step env cr committee (.loop .tick) = some n'

/-! ## The phases of an iteration -/

end ProposerNode

namespace Proposer

/-- Nothing has been sent to `tx_proposal_to_act_on` in this iteration. -/
def Unqueued (s : Proposer) : Prop :=
  match s.phase with
  | .start | .delay | .elect | .proposing | .injecting _ => True
  | .waiting => s.proposals s.currentIteration = none
  | _ => False

/-- No vote has been submitted in this iteration. -/
def Unvoted (s : Proposer) : Prop :=
  match s.phase with
  | .start | .delay | .elect | .proposing | .injecting _ | .acting _ | .validating _ => True
  | .waiting => s.proposalToActOn ≠ none ∨ s.proposals s.currentIteration = none
  | _ => False

/-- The loop runs. -/
def Alive (s : Proposer) : Prop := ∀ p, s.phase ≠ .panicked p

end Proposer

namespace ProposerNode

/-- How the state of the loop follows from what it has done. -/
structure Keeps (log : List Observation) (s : Proposer) : Prop where
  ordered : s.Ordered
  decided : s.Alive →
    ∀ j, (∃ d, .newCheckpoint j d ∈ consumption log) ↔ j < s.currentIteration
  stored : s.Alive → ∀ i, s.currentIteration ≤ i → s.proposals i = first (consumption log) i
  queuedPast : ∀ i b, .queued i b ∈ log → i ≤ s.currentIteration
  votedPast : ∀ i action, IsVote i action → .submitted action ∈ log → i ≤ s.currentIteration
  unqueued : s.Unqueued →
    s.proposalToActOn = none ∧ ∀ b, .queued s.currentIteration b ∉ log
  unvoted : s.Unvoted → ∀ action, IsVote s.currentIteration action → .submitted action ∉ log
  channel : ∀ b, s.proposalToActOn = some b → .queued s.currentIteration b ∈ log
  held : ∀ b, s.phase = .acting b ∨ s.phase = .validating b →
    s.proposalToActOn = none ∧ .queued s.currentIteration b ∈ log

structure Inv (env : ProposerEnv) (cr : Crypto) (committee : CheckpointCommittee)
    (n : ProposerNode) : Prop where
  justified : Justified (Admissible env cr committee) n.log
  fifo : consumption n.log ++ n.fusioned = arrivals n.log
  keeps : Keeps n.log n.proposer
  submissions : n.log.filterMap Observation.submitted? = n.proposer.submitted

/-! ## The log -/

variable {env : ProposerEnv} {cr : Crypto} {committee : CheckpointCommittee}
  {log : List Observation} {s : Proposer} {events : List CheckpointEvent} {i j : ℕ} {b : Digest}

theorem consumption_append (log l : List Observation) :
    consumption (log ++ l) = consumption log ++ l.filterMap Observation.consumed? :=
  List.filterMap_append

theorem arrivals_append (log l : List Observation) :
    arrivals (log ++ l) = arrivals log ++ l.filterMap Observation.arrived? :=
  List.filterMap_append

theorem first_append_proposal (events : List CheckpointEvent) (j : ℕ) (b : Digest) (i : ℕ) :
    first (events ++ [.newProposal j b]) i =
      (first events i).or (if j = i then some b else none) := by
  simp [first, List.findSome?_append]

theorem first_append_checkpoint (events : List CheckpointEvent) (j : ℕ) (d : Option Digest)
    (i : ℕ) : first (events ++ [.newCheckpoint j d]) i = first events i := by
  simp [first, List.findSome?_append]

theorem first_of_append {l : List CheckpointEvent} (h : first events i = some b) :
    first (events ++ l) i = some b := by
  unfold first at h ⊢
  rw [List.findSome?_append, h]
  rfl

theorem Keeps.isOpen (h : Keeps log s) (ha : s.Alive) : Open log s.currentIteration := by
  refine ⟨fun j hj => (h.decided ha j).mpr hj, ?_⟩
  intro d hd
  exact absurd ((h.decided ha _).mp ⟨d, hd⟩) (by omega)

/-! ## Steps of the loop -/

/-- Entries that record neither an event nor a proposal to act on nor a vote. -/
theorem Keeps.arrived (h : Keeps log s) (e : CheckpointEvent) : Keeps (log ++ [.arrived e]) s := by
  have hc : consumption (log ++ [.arrived e]) = consumption log := by
    rw [consumption_append]; exact List.append_nil _
  refine ⟨h.ordered, ?_, ?_, ?_, ?_, ?_, ?_, ?_, ?_⟩
  · rw [hc]; exact h.decided
  · rw [hc]; exact h.stored
  · simpa using h.queuedPast
  · simpa using h.votedPast
  · simpa using h.unqueued
  · simpa using h.unvoted
  · simpa using h.channel
  · simpa using h.held

/-- A step between phases. -/
theorem Keeps.goto (h : Keeps log s) {next : Phase} {resume : List ResumeTask}
    (ho : Proposer.Ordered { s with phase := next, resume })
    (ha : Proposer.Alive { s with phase := next, resume } → s.Alive)
    (hq : Proposer.Unqueued { s with phase := next, resume } → s.Unqueued)
    (hv : Proposer.Unvoted { s with phase := next, resume } → s.Unvoted)
    (hh : ∀ b, next = .acting b ∨ next = .validating b →
      s.phase = .acting b ∨ s.phase = .validating b) :
    Keeps log { s with phase := next, resume } where
  ordered := ho
  decided hl := h.decided (ha hl)
  stored hl := h.stored (ha hl)
  queuedPast := h.queuedPast
  votedPast := h.votedPast
  unqueued hu := h.unqueued (hq hu)
  unvoted hu := h.unvoted (hv hu)
  channel := h.channel
  held b hb := h.held b (hh b hb)

theorem Keeps.enter (h : Keeps log s) (hp : s.phase = .start) : Keeps log s.enter := by
  have halive : s.Alive := fun p => by rw [hp]; simp
  have hphase : s.enter.phase = .delay ∨ s.enter.phase = .elect := by
    simp only [Proposer.enter]
    split_ifs
    · exact .inl rfl
    · exact .inr rfl
  have hprop : ∀ i, s.currentIteration ≤ i → s.enter.proposals i = s.proposals i := by
    intro i hi
    simp only [Proposer.enter]
    split_ifs
    · exact Function.update_of_ne (by omega) _ _
    · rfl
  refine ⟨h.ordered.enter, fun _ => h.decided halive, fun _ i hi => ?_, h.queuedPast, h.votedPast,
    fun _ => h.unqueued ?_, fun _ => h.unvoted ?_, h.channel, fun b hb => ?_⟩
  · exact (hprop i hi).trans (h.stored halive i hi)
  · rw [Proposer.Unqueued, hp]; trivial
  · rw [Proposer.Unvoted, hp]; trivial
  · rcases hphase with hd | hd <;> rw [hd] at hb <;> simp at hb

/-- The channel is made with the proposal at hand. -/
theorem Keeps.await (h : Keeps log s) (hp : s.phase = .elect ∨ s.phase = .proposing)
    (broadcast : List CheckpointAction) :
    Keeps (log ++ (s.proposals s.currentIteration).toList.map (.queued s.currentIteration))
      { s.await with broadcast } := by
  have hun : s.Unqueued := by rcases hp with hp | hp <;> rw [Proposer.Unqueued, hp] <;> trivial
  have huv : s.Unvoted := by rcases hp with hp | hp <;> rw [Proposer.Unvoted, hp] <;> trivial
  have ha : s.Alive := fun p => by rcases hp with hp | hp <;> rw [hp] <;> simp
  have hc : consumption (log ++ (s.proposals s.currentIteration).toList.map
      (.queued s.currentIteration)) = consumption log := by
    rw [consumption_append]
    cases s.proposals s.currentIteration <;> exact List.append_nil _
  refine ⟨h.ordered.await broadcast, fun _ => ?_, fun _ => ?_, fun i b hb => ?_,
    fun i action hi hm => ?_, fun hu => ?_, fun _ action hi hm => ?_, fun b hb => ?_,
    fun b hb => (by simp [Proposer.await] at hb)⟩
  · rw [hc]; exact h.decided ha
  · rw [hc]; exact h.stored ha
  · rcases List.mem_append.mp hb with hb | hb
    · exact h.queuedPast i b hb
    · obtain ⟨c, -, hc⟩ := List.mem_map.mp hb
      cases hc
      exact le_rfl
  · exact h.votedPast i action hi (by simpa using hm)
  · have hnone : s.proposals s.currentIteration = none := hu
    refine ⟨hnone, fun b hb => (h.unqueued hun).2 b ?_⟩
    rw [hnone] at hb
    simpa [Proposer.await] using hb
  · exact h.unvoted huv action hi (by simpa using hm)
  · have hsome : s.proposals s.currentIteration = some b := hb
    rw [hsome]
    simp [Proposer.await]

theorem Keeps.inject (h : Keeps log s) (hp : s.phase = .injecting b) :
    Keeps (log ++ [.queued s.currentIteration b])
      { s with phase := .waiting, proposalToActOn := some b } := by
  have hheld : s.proposals s.currentIteration = some b := h.ordered.held b (by rw [hp]; rfl)
  have huv : s.Unvoted := by rw [Proposer.Unvoted, hp]; trivial
  have ha : s.Alive := fun p => by rw [hp]; simp
  have hc : consumption (log ++ [.queued s.currentIteration b]) = consumption log := by
    rw [consumption_append]; exact List.append_nil _
  refine ⟨⟨h.ordered.bound, h.ordered.current, fun c hc => ?_, fun c hc => (by cases hc),
    h.ordered.unique⟩, fun _ => ?_, fun _ => ?_, fun i c hi => ?_, fun i action hi hm => ?_,
    fun hu => ?_, fun _ action hi hm => ?_, fun c hc => ?_, fun c hc => (by simp at hc)⟩
  · cases hc; exact hheld
  · rw [hc]; exact h.decided ha
  · rw [hc]; exact h.stored ha
  · simp only [List.mem_append, List.mem_singleton, Observation.queued.injEq] at hi
    rcases hi with hi | ⟨rfl, rfl⟩
    · exact h.queuedPast i c hi
    · exact le_rfl
  · exact h.votedPast i action hi (by simpa using hm)
  · have hnone : s.proposals s.currentIteration = none := hu
    rw [hheld] at hnone
    cases hnone
  · exact h.unvoted huv action hi (by simpa using hm)
  · cases hc; simp

theorem Keeps.act (h : Keeps log s) (hp : s.phase = .waiting) (hb : s.proposalToActOn = some b) :
    Keeps log { s with phase := .acting b, proposalToActOn := none } := by
  have ha : s.Alive := fun p => by rw [hp]; simp
  have huv : s.Unvoted := by rw [Proposer.Unvoted, hp]; exact .inl (by rw [hb]; simp)
  refine ⟨⟨h.ordered.bound, h.ordered.current, fun c hc => (by cases hc), fun c hc => ?_,
    h.ordered.unique⟩, fun _ => h.decided ha, fun _ => h.stored ha, h.queuedPast, h.votedPast,
    fun hu => hu.elim, fun _ => h.unvoted huv, fun c hc => (by cases hc), fun c hc => ?_⟩
  · cases hc
    exact h.ordered.channel b hb
  · have hbc : b = c := by simpa using hc
    subst hbc
    exact ⟨rfl, h.channel b hb⟩

/-- One vote, after the answer that it rests on. -/
theorem Keeps.vote (h : Keeps log s) {action : CheckpointAction} {next : Phase}
    (answer : List Observation) (ho : Proposer.Ordered (s.submitVote action next)) (ha : s.Alive)
    (hn : next = .waiting ∧ s.proposalToActOn = none ∧ s.proposals s.currentIteration ≠ none ∨
      next = .repeating)
    (hact : IsVote s.currentIteration action)
    (hans : ∀ o ∈ answer, ∃ i b ok, o = .answered i b ok) :
    Keeps (log ++ (answer ++ [.submitted action])) (s.submitVote action next) := by
  have hmem : ∀ o ∈ log ++ (answer ++ [.submitted action]),
      o ∈ log ∨ (∃ i b ok, o = .answered i b ok) ∨ o = .submitted action := by
    intro o hm
    rcases List.mem_append.mp hm with hm | hm
    · exact .inl hm
    · rcases List.mem_append.mp hm with hm | hm
      · exact .inr (.inl (hans o hm))
      · exact .inr (.inr (List.mem_singleton.mp hm))
  have hold : ∀ {i b},
      .queued i b ∈ log ++ (answer ++ [.submitted action]) ↔ .queued i b ∈ log := by
    intro i b
    refine ⟨?_, fun hm => List.mem_append_left _ hm⟩
    intro hm
    rcases hmem _ hm with hm | ⟨_, _, _, hm⟩ | hm
    · exact hm
    · cases hm
    · cases hm
  have hc : consumption (log ++ (answer ++ [.submitted action])) = consumption log := by
    rw [consumption_append, List.filterMap_eq_nil_iff.mpr, List.append_nil]
    intro o hm
    rcases List.mem_append.mp hm with hm | hm
    · obtain ⟨i, b, ok, rfl⟩ := hans o hm
      rfl
    · rw [List.mem_singleton.mp hm]
      rfl
  refine ⟨ho, ?_, ?_, fun i b hi => h.queuedPast i b (hold.mp hi), ?_, ?_, ?_,
    fun b hb => hold.mpr (h.channel b hb), ?_⟩
  · intro _
    rw [hc]; exact h.decided ha
  · intro _
    rw [hc]; exact h.stored ha
  · intro i a hi hm
    rcases hmem _ hm with hm | ⟨_, _, _, hm⟩ | hm
    · exact h.votedPast i a hi hm
    · cases hm
    · cases hm
      rcases hi with ⟨b, rfl⟩ | rfl <;> rcases hact with ⟨c, hact⟩ | hact <;> cases hact <;>
        exact le_rfl
  · intro hu
    rcases hn with ⟨rfl, -, hprop⟩ | rfl
    · exact absurd hu hprop
    · exact hu.elim
  · intro hu
    rcases hn with ⟨rfl, hchan, hprop⟩ | rfl
    · exact hu.elim (fun hu => absurd hchan hu) (fun hu => absurd hu hprop)
    · exact hu.elim
  · intro b hb
    rcases hn with ⟨rfl, -, -⟩ | rfl <;> rcases hb with hb | hb <;> cases hb

/-! ## Events -/

/-- The decision of the current iteration. -/
theorem Keeps.leave (h : Keeps log s) (ha : s.Alive) (d : Option Digest) :
    Keeps (log ++ [.consumed (.newCheckpoint s.currentIteration d)]) (s.leave d) := by
  have hc : consumption (log ++ [.consumed (.newCheckpoint s.currentIteration d)]) =
      consumption log ++ [.newCheckpoint s.currentIteration d] := consumption_append ..
  have hnext : (s.leave d).currentIteration = s.currentIteration + 1 := rfl
  refine ⟨h.ordered.leave d, fun _ j => ?_, fun _ i hi => ?_, fun i b hi => ?_,
    fun i action hi hm => ?_, fun _ => ⟨rfl, fun b hb => ?_⟩, fun _ action hi hm => ?_,
    fun b hb => (by cases hb), fun b hb => (by simp [Proposer.leave] at hb)⟩
  · rw [hc, hnext, Nat.lt_succ_iff_lt_or_eq, ← h.decided ha j]
    constructor
    · rintro ⟨e, he⟩
      rcases List.mem_append.mp he with he | he
      · exact .inl ⟨e, he⟩
      · cases List.mem_singleton.mp he
        exact .inr rfl
    · rintro (⟨e, he⟩ | rfl)
      · exact ⟨e, List.mem_append_left _ he⟩
      · exact ⟨d, by simp⟩
  · rw [hc, first_append_checkpoint]
    exact h.stored ha i (by omega)
  · have := h.queuedPast i b (by simpa using hi)
    omega
  · have := h.votedPast i action hi (by simpa using hm)
    omega
  · have := h.queuedPast _ b (by simpa using hb)
    omega
  · have := h.votedPast _ action hi (by simpa using hm)
    omega

/-- A decision of another iteration: the assertion fails. -/
theorem Keeps.dead (h : Keeps log s) (p : Panic) {e : CheckpointEvent} :
    Keeps (log ++ [.consumed e]) (s.abort p) where
  ordered := h.ordered.goto (.inl rfl)
  decided ha := absurd rfl (ha p)
  stored ha := absurd rfl (ha p)
  queuedPast := by simpa [Proposer.abort] using h.queuedPast
  votedPast := by simpa [Proposer.abort] using h.votedPast
  unqueued hu := hu.elim
  unvoted hu := hu.elim
  channel := by simpa [Proposer.abort] using h.channel
  held b hb := by simp [Proposer.abort] at hb

/-- A proposal for iteration `j`; the loop goes on with these proposals. -/
theorem Keeps.received (h : Keeps log s) (ha : s.Alive) {c : Digest} {proposals : ℕ → Option Digest}
    {next : Phase} (ho : Proposer.Ordered { s with proposals, phase := next })
    (hst : ∀ i, s.currentIteration ≤ i →
      proposals i = (s.proposals i).or (if j = i then some c else none))
    (hq : Proposer.Unqueued { s with proposals, phase := next } → s.Unqueued)
    (hv : Proposer.Unvoted { s with proposals, phase := next } → s.Unvoted)
    (hh : ∀ b, ¬ (next = .acting b ∨ next = .validating b)) :
    Keeps (log ++ [.consumed (.newProposal j c)]) { s with proposals, phase := next } := by
  have hc : consumption (log ++ [.consumed (.newProposal j c)]) =
      consumption log ++ [.newProposal j c] := consumption_append ..
  refine ⟨ho, ?_, ?_, ?_, ?_, ?_, ?_, ?_, fun b hb => absurd hb (hh b)⟩
  · intro _ k
    rw [hc, ← h.decided ha k]
    simp
  · intro _ i hi
    rw [hc, first_append_proposal, ← h.stored ha i hi]
    exact hst i hi
  · simpa using h.queuedPast
  · simpa using h.votedPast
  · intro hu
    simpa using h.unqueued (hq hu)
  · intro hu
    simpa using h.unvoted (hv hu)
  · simpa using h.channel

theorem Keeps.proposal (h : Keeps log s) (ha : s.Alive) (hr : s.phase.Receives) (j : ℕ)
    (c : Digest) :
    Keeps (log ++ [.consumed (.newProposal j c)])
      (s.onEvent (s.phase = .waiting) (.newProposal j c)) := by
  have ho := h.ordered.onEvent (s.phase = .waiting) (.newProposal j c)
  have hh : ∀ b, ¬ (s.phase = .acting b ∨ s.phase = .validating b) := by
    rintro b (hp | hp) <;> rw [hp] at hr <;> exact hr
  have hnew : s.proposals j = none → ∀ i, Function.update s.proposals j (some c) i =
      (s.proposals i).or (if j = i then some c else none) := by
    intro hj i
    by_cases hi : j = i
    · subst hi
      rw [Function.update_self, hj, if_pos rfl]
      rfl
    · rw [Function.update_of_ne (Ne.symm hi), if_neg hi, Option.or_none]
  simp only [Proposer.onEvent] at ho ⊢
  split_ifs at ho ⊢ with hk hinj
  · -- the first proposal for this iteration, while waiting for it
    obtain ⟨hw, rfl⟩ := hinj
    have hwait : s.phase = .waiting := by simpa using hw
    refine h.received ha ho (fun i _ => hnew hk.2 i) (fun _ => ?_) (fun _ => ?_) (by simp)
    · rw [Proposer.Unqueued, hwait]; exact hk.2
    · rw [Proposer.Unvoted, hwait]; exact .inr hk.2
  · have hsame : s.phase = .waiting → Function.update s.proposals j (some c) s.currentIteration =
        s.proposals s.currentIteration := by
      intro hw
      exact Function.update_of_ne (fun hj => hinj ⟨by simpa using hw, hj.symm⟩) _ _
    refine h.received ha ho (fun i _ => hnew hk.2 i) ?_ ?_ hh
    · unfold Proposer.Unqueued
      cases hp : s.phase with
      | waiting => exact fun hu => (hsame hp).symm.trans hu
      | _ => exact id
    · unfold Proposer.Unvoted
      cases hp : s.phase with
      | waiting => exact Or.imp_right (hsame hp).symm.trans
      | _ => exact id
  · refine h.received ha ho ?_ id id hh
    intro i hi
    split_ifs with hji
    · subst hji
      cases hj : s.proposals j with
      | none => exact absurd ⟨hi, hj⟩ hk
      | some d => rfl
    · rw [Option.or_none]

/-! ## Every step -/

theorem alive_of {next : Phase} (hp : s.phase = next) (hn : ∀ p, next ≠ .panicked p) : s.Alive :=
  fun p => hp ▸ hn p

/-- A proposal to act on, the first of its iteration. -/
theorem Keeps.admit_queued (h : Keeps log s) (hj : Justified (Admissible env cr committee) log)
    (ha : s.Alive) (hu : s.Unqueued) :
    Justified (Admissible env cr committee) (log ++ [.queued s.currentIteration b]) :=
  hj.concat ⟨h.isOpen ha, (h.unqueued hu).2⟩

theorem Keeps.admit_reject (h : Keeps log s) (hj : Justified (Admissible env cr committee) log)
    (ha : s.Alive) :
    Justified (Admissible env cr committee) (log ++ [.submitted (.reject s.currentIteration)]) :=
  hj.concat (h.isOpen ha)

/-- An answer and the vote that follows from it. -/
theorem Keeps.admit_vote (h : Keeps log s) (hj : Justified (Admissible env cr committee) log)
    (hf : consumption log <+: arrivals log) (hp : s.phase = .validating b) (ok : Bool) :
    Justified (Admissible env cr committee) (log ++ [.answered s.currentIteration b ok,
      .submitted (if ok then .accept s.currentIteration b else .reject s.currentIteration)]) := by
  have ha : s.Alive := alive_of hp (by simp)
  have hopen : Open log s.currentIteration := h.isOpen ha
  have hstill : Open (log ++ [.answered s.currentIteration b ok]) s.currentIteration := by
    have hc : consumption (log ++ [.answered s.currentIteration b ok]) = consumption log := by
      rw [consumption_append]; exact List.append_nil _
    unfold Open at hopen ⊢
    rwa [hc]
  have hans : Justified (Admissible env cr committee)
      (log ++ [.answered s.currentIteration b ok]) :=
    hj.concat ⟨hopen, (h.held b (.inr hp)).2⟩
  rw [List.append_cons]
  apply hans.concat
  cases ok with
  | false => exact hstill
  | true =>
    have hun : s.Unvoted := by rw [Proposer.Unvoted, hp]; trivial
    have hfirst : first (consumption log) s.currentIteration = some b := by
      rw [← h.stored ha _ le_rfl]
      exact h.ordered.held b (by rw [hp]; rfl)
    refine ⟨hstill, fun action hi hm => ?_, ?_, by simp⟩
    · exact h.unvoted hun action hi (by simpa using hm)
    · obtain ⟨l, hl⟩ := hf
      rw [arrivals_append, ← hl, List.append_assoc]
      exact first_of_append hfirst

/-- **Step lemma.** -/
theorem Keeps.step (h : Keeps log s) (hj : Justified (Admissible env cr committee) log)
    (hf : consumption log <+: arrivals log) {input : Proposer.Input} {t : Proposer}
    (hs : s.step env input = some t) :
    Justified (Admissible env cr committee) (log ++ s.observe t input) ∧
      Keeps (log ++ s.observe t input) t := by
  have ho := h.ordered.step hs
  cases Proposer.step_effect hs with
  | enter hp =>
    simp only [Proposer.observe, hp, List.append_nil]
    exact ⟨hj, h.enter hp⟩
  | ask hp =>
    simp only [Proposer.observe, hp, reduceCtorEq, if_false, List.append_nil]
    refine ⟨hj, h.goto ho (fun _ => alive_of hp (by simp)) (fun _ => ?_) (fun _ => ?_) (by simp)⟩
    · rw [Proposer.Unqueued, hp]; trivial
    · rw [Proposer.Unvoted, hp]; trivial
  | await hp =>
    have hun : s.Unqueued := by rw [Proposer.Unqueued, hp]; trivial
    simp only [Proposer.observe, hp, Proposer.await, if_true]
    refine ⟨?_, h.await (.inl hp) s.broadcast⟩
    cases s.proposals s.currentIteration with
    | none => simpa using hj
    | some b => exact h.admit_queued hj (alive_of hp (by simp)) hun
  | inject hp _ =>
    have hun : s.Unqueued := by rw [Proposer.Unqueued, hp]; trivial
    simp only [Proposer.observe, hp]
    exact ⟨h.admit_queued hj (alive_of hp (by simp)) hun, h.inject hp⟩
  | trigger hp ht =>
    obtain ⟨resume, rfl⟩ := Proposer.triggerResume_eq ht
    simp only [Proposer.observe, hp, List.append_nil]
    refine ⟨hj, h.goto ho (fun _ => alive_of hp (by simp)) False.elim (fun _ => ?_)
      (fun c hc => ?_)⟩
    · rw [Proposer.Unvoted, hp]; trivial
    · exact .inl (by simpa [hp] using hc)
  | release hp ht =>
    obtain ⟨resume, rfl⟩ := Proposer.triggerResume_eq ht
    simp only [Proposer.observe, hp, List.append_nil]
    exact ⟨hj, h.goto ho (fun _ => alive_of hp (by simp)) False.elim False.elim (by simp)⟩
  | giveUp hp =>
    simp only [Proposer.observe, hp]
    have ha := alive_of hp (by simp)
    exact ⟨h.admit_reject hj ha, h.vote [] ho ha (.inr rfl) (.inr rfl) (by simp)⟩
  | delayOver hp =>
    simp only [Proposer.observe, List.append_nil]
    refine ⟨hj, h.goto ho (fun _ => alive_of hp (by simp)) (fun _ => ?_) (fun _ => ?_) (by simp)⟩
    · rw [Proposer.Unqueued, hp]; trivial
    · rw [Proposer.Unvoted, hp]; trivial
  | timeout hp =>
    simp only [Proposer.observe, List.append_nil]
    exact ⟨hj, h.goto ho (fun _ => alive_of hp (by simp)) False.elim False.elim (by simp)⟩
  | again hp =>
    simp only [Proposer.observe, List.append_nil]
    exact ⟨hj, h.goto ho (fun _ => alive_of hp (by simp)) False.elim False.elim (by simp)⟩
  | @receive e hr =>
    have ha : s.Alive := fun p hp => by rw [hp] at hr; exact hr
    refine ⟨hj.concat trivial, ?_⟩
    cases e with
    | newProposal j c => exact h.proposal ha hr j c
    | newCheckpoint j d =>
      simp only [Proposer.onEvent, Proposer.observe]
      split_ifs with hi
      · subst hi
        exact h.leave ha d
      · exact h.dead _
  | closed hr =>
    simp only [Proposer.observe, List.append_nil]
    exact ⟨hj, h.goto ho (fun ha => absurd rfl (ha _)) False.elim False.elim (by simp)⟩
  | act hp hb =>
    simp only [Proposer.observe, List.append_nil]
    exact ⟨hj, h.act hp hb⟩
  | propose hp =>
    have hun : s.Unqueued := by rw [Proposer.Unqueued, hp]; trivial
    simp only [Proposer.observe]
    refine ⟨?_, h.await (.inr hp) _⟩
    cases s.proposals s.currentIteration with
    | none => simpa using hj
    | some b => exact h.admit_queued hj (alive_of hp (by simp)) hun
  | @accept b hp =>
    have hadm := h.admit_vote hj hf hp true
    have hsome : s.proposals s.currentIteration = some b := h.ordered.held b (by rw [hp]; rfl)
    simp only [Proposer.observe, hp]
    exact ⟨hadm, h.vote [_] ho (alive_of hp (by simp))
      (.inl ⟨rfl, (h.held b (.inr hp)).1, by rw [hsome]; simp⟩) (.inl ⟨_, rfl⟩) (by simp)⟩
  | @reject b hp =>
    have hadm := h.admit_vote hj hf hp false
    have hsome : s.proposals s.currentIteration = some b := h.ordered.held b (by rw [hp]; rfl)
    simp only [Proposer.observe, hp]
    exact ⟨hadm, h.vote [_] ho (alive_of hp (by simp))
      (.inl ⟨rfl, (h.held b (.inr hp)).1, by rw [hsome]; simp⟩) (.inr rfl) (by simp)⟩
  | resume =>
    simp only [Proposer.observe, List.append_nil]
    exact ⟨hj, h.goto ho id id id (fun _ => id)⟩

theorem observe_arrived (s t : Proposer) (input : Proposer.Input) :
    (s.observe t input).filterMap Observation.arrived? = [] := by
  have hq : ∀ x : Option Digest, (x.toList.map (Observation.queued s.currentIteration)).filterMap
      Observation.arrived? = [] := by
    intro x
    cases x <;> rfl
  cases input with
  | tick =>
    simp only [Proposer.observe]
    cases s.phase with
    | elect =>
      simp only
      split_ifs
      · exact hq _
      · rfl
    | _ => rfl
  | validated ok =>
    simp only [Proposer.observe]
    cases s.phase <;> rfl
  | proposal => exact hq _
  | _ => rfl

/-- What the loop consumes comes from the head of the channel. -/
theorem take_consumed {n : ProposerNode} {input : Proposer.Input} {fusioned : List CheckpointEvent}
    (h : n.take input = some fusioned) (t : Proposer) :
    (n.proposer.observe t input).filterMap Observation.consumed? ++ fusioned = n.fusioned := by
  have hq : ∀ x : Option Digest,
      (x.toList.map (Observation.queued n.proposer.currentIteration)).filterMap
        Observation.consumed? = [] := by
    intro x
    cases x <;> rfl
  cases input with
  | event e =>
    simp only [take] at h
    split_ifs at h with he
    cases h
    obtain ⟨l, hl⟩ := List.head?_eq_some_iff.mp he
    rw [hl]
    rfl
  | closed =>
    simp only [take] at h
    split_ifs at h with he
    cases h
    exact he.1.symm
  | tick =>
    cases h
    simp only [Proposer.observe]
    cases n.proposer.phase with
    | elect =>
      simp only
      split_ifs
      · rw [hq]; rfl
      · rfl
    | _ => rfl
  | validated ok =>
    cases h
    simp only [Proposer.observe]
    cases n.proposer.phase <;> rfl
  | proposal =>
    cases h
    simp only [Proposer.observe]
    rw [hq]
    rfl
  | _ => cases h; rfl

/-- The log has the votes that the loop has submitted. -/
theorem submitted_observe {t : Proposer} {input : Proposer.Input} (h : s.step env input = some t) :
    t.submitted = s.submitted ++ (s.observe t input).filterMap Observation.submitted? := by
  have hq : ∀ x : Option Digest, (x.toList.map (Observation.queued s.currentIteration)).filterMap
      Observation.submitted? = [] := by
    intro x
    cases x <;> rfl
  have hevent : ∀ inject e, (s.onEvent inject e).submitted = s.submitted := by
    intro inject e
    cases e <;> simp only [Proposer.onEvent] <;> split_ifs <;> rfl
  cases Proposer.step_effect h with
  | await hp =>
    simp only [Proposer.observe, hp, Proposer.await, if_true]
    rw [hq, List.append_nil]
  | propose =>
    simp only [Proposer.observe]
    rw [hq, List.append_nil]
    rfl
  | trigger hp ht | release hp ht =>
    obtain ⟨resume, rfl⟩ := Proposer.triggerResume_eq ht
    simp [Proposer.observe, hp]
  | receive =>
    rw [hevent]
    exact (List.append_nil _).symm
  | enter hp | ask hp | inject hp =>
    simp [Proposer.observe, Proposer.enter, Observation.submitted?, hp]
  | giveUp hp | accept hp | reject hp =>
    simp only [Proposer.observe, hp]
    rfl
  | _ => exact (List.append_nil _).symm

/-! ## Every run -/

variable {n n' : ProposerNode} {msg : String} {e : CheckpointEvent}

theorem inv_new : Inv env cr committee new where
  justified := justified_nil
  fifo := rfl
  keeps := by
    refine ⟨Proposer.ordered_new, fun _ j => ?_, fun _ _ _ => rfl, ?_, ?_, ?_, ?_, ?_, ?_⟩
    · simp [new, consumption, Proposer.new]
    all_goals simp [new, Proposer.new]
  submissions := rfl

/-- The relay task forwards what it has checked. -/
theorem Inv.forward (h : Inv env cr committee n)
    (he : Admissible env cr committee n.log (.arrived e)) (hs : n.forward msg e = some n') :
    Inv env cr committee n' := by
  have hsend : n.forward msg e = some { n with relayStopped := some (.expect msg) } ∨
      n.forward msg e =
        some { n with fusioned := n.fusioned ++ [e], log := n.log ++ [.arrived e] } ∨
      n.forward msg e = none := by
    unfold ProposerNode.forward
    split
    · exact .inl rfl
    · split_ifs
      · exact .inr (.inl rfl)
      · exact .inr (.inr rfl)
  rcases hsend with hn | hn | hn <;> rw [hn] at hs <;> cases hs
  · exact ⟨h.justified, h.fifo, h.keeps, h.submissions⟩
  · refine ⟨h.justified.concat he, ?_, h.keeps.arrived e, ?_⟩
    · rw [consumption_append, arrivals_append, ← h.fifo]
      simp [Observation.consumed?, Observation.arrived?]
    · rw [List.filterMap_append]
      exact (List.append_nil _).trans h.submissions

/-- What the relay task makes of a message is a proposal that its leader has signed. -/
theorem leaderProposal_of_relay {v : Bytes} (h : relay env cr committee v = .ok (some e)) :
    ∃ i b, e = .newProposal i b ∧ LeaderProposal env cr committee i b := by
  unfold relay at h
  split at h
  · cases h
  · cases h
  · rename_i p _
    split at h
    · cases h
    · rename_i hv
      split at h
      · rename_i i b hact
        split_ifs at h with hauth
        · cases h
          exact ⟨i, b, rfl, p, hv, hauth, hact⟩
        · cases h
      · cases h

theorem Inv.step (h : Inv env cr committee n) {input : Input}
    (hs : n.step env cr committee input = some n') : Inv env cr committee n' := by
  cases input with
  | message v =>
    simp only [ProposerNode.step] at hs
    split_ifs at hs
    split at hs
    · cases hs; exact ⟨h.justified, h.fifo, h.keeps, h.submissions⟩
    · cases hs; exact h
    · rename_i hrel
      obtain ⟨i, b, rfl, hlp⟩ := leaderProposal_of_relay hrel
      have hadm : Admissible env cr committee n.log (.arrived (.newProposal i b)) := hlp
      exact h.forward hadm hs
  | decision i b =>
    simp only [ProposerNode.step] at hs
    split_ifs at hs
    have hadm : Admissible env cr committee n.log (.arrived (.newCheckpoint i b)) := trivial
    exact h.forward hadm hs
  | relayClosed msg =>
    simp only [ProposerNode.step] at hs
    split_ifs at hs
    cases hs
    exact ⟨h.justified, h.fifo, h.keeps, h.submissions⟩
  | loop i =>
    simp only [ProposerNode.step] at hs
    obtain ⟨fusioned, htake, hs⟩ := Option.bind_eq_some_iff.mp hs
    obtain ⟨t, ht, rfl⟩ := Option.map_eq_some_iff.mp hs
    obtain ⟨hj, hk⟩ := h.keeps.step h.justified ⟨_, h.fifo⟩ ht
    refine ⟨hj, ?_, hk, ?_⟩
    · rw [consumption_append, arrivals_append, observe_arrived, List.append_nil, ← h.fifo,
        List.append_assoc, take_consumed htake t]
    · rw [List.filterMap_append, h.submissions]
      exact (submitted_observe ht).symm
  | managerLost =>
    simp only [ProposerNode.step] at hs
    split at hs
    · cases hs
      exact ⟨h.justified, h.fifo, h.keeps.goto (h.keeps.ordered.goto (.inl rfl))
        (fun ha => absurd rfl (ha _)) False.elim False.elim (by simp), h.submissions⟩
    · cases hs
      exact ⟨h.justified, h.fifo, h.keeps.goto (h.keeps.ordered.goto (.inl rfl))
        (fun ha => absurd rfl (ha _)) False.elim False.elim (by simp), h.submissions⟩
    · cases hs

theorem inv (h : (machine env cr committee).Reachable n) : Inv env cr committee n :=
  Machine.invariant (fun _ h => h ▸ inv_new) (fun _ _ _ h hs => h.step hs) h

/-- **An honest proposer votes in order.**  Votes are submitted within their iteration, an accept
once, before any other vote, for the first proposal of the leader and after it has been validated;
one proposal is queued in an iteration, and there is room for it. -/
theorem honest_voting (h : (machine env cr committee).Reachable n) :
    VotesInOrder env cr committee n := by
  have hi := inv h
  refine ⟨hi.justified, ?_, ?_, hi.submissions, hi.fifo, ?_⟩
  · intro i
    apply hi.justified.countP_le_one
    intro pre e he hacc e' he'
    obtain ⟨b, rfl⟩ : ∃ b, e = .submitted (.accept i b) := by
      unfold isAccept at hacc
      split at hacc
      · rename_i j b
        exact ⟨b, by rw [of_decide_eq_true hacc]⟩
      · cases hacc
    by_contra hne
    unfold isAccept at hne
    split at hne
    · rename_i j c
      have hj : j = i := by simpa using hne
      exact he.2.1 (.accept j c) (.inl ⟨c, by rw [hj]⟩) he'
    · exact hne rfl
  · intro i
    apply hi.justified.countP_le_one
    intro pre e he hq e' he'
    obtain ⟨b, rfl⟩ : ∃ b, e = .queued i b := by
      unfold isQueued at hq
      split at hq
      · rename_i j b
        exact ⟨b, by rw [of_decide_eq_true hq]⟩
      · cases hq
    by_contra hne
    unfold isQueued at hne
    split at hne
    · rename_i j c
      have hj : j = i := by simpa using hne
      exact he.2 c (hj ▸ he')
    · exact hne rfl
  · intro b hb
    have hempty : n.proposer.proposalToActOn = none :=
      (hi.keeps.unqueued (by rw [Proposer.Unqueued, hb]; trivial)).1
    simp [ProposerNode.step, take, Proposer.step, hb, hempty]

/-! ## A vote -/

/-- A proposal arrives, is taken from the channel, acted on and found valid. -/
def sampleVote : List Input :=
  [.message (soleVote (.propose 0 .ones)), .loop .tick, .loop .tick,
    .loop (.event (.newProposal 0 .ones)), .loop .tick, .loop .act, .loop .tick,
    .loop (.validated true)]

theorem honest_voting_accept : ∃ n : ProposerNode,
    .submitted (.accept 0 .ones) ∈ n.log ∧
      VotesInOrder sampleFollower sampleCrypto soleCommittee n := by
  have hrun : (Machine.exec (step sampleFollower sampleCrypto soleCommittee) new sampleVote).map
      (·.log) = some [.arrived (.newProposal 0 .ones), .consumed (.newProposal 0 .ones),
        .queued 0 .ones, .answered 0 .ones true, .submitted (.accept 0 .ones)] := by
    decide +kernel
  obtain ⟨n, hn, hlog⟩ := Option.map_eq_some_iff.mp hrun
  exact ⟨n, by rw [hlog]; simp, honest_voting (Machine.reachable_exec (.init rfl) hn)⟩

end ProposerNode

end AccountabilityGadget
