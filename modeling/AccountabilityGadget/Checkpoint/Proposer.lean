import Mathlib.Logic.Function.Basic
import AccountabilityGadget.Checkpoint.Messages
import AccountabilityGadget.Lib.Machine

/-!
# The checkpoint proposer (`mynode/src/cpproposer.rs`, `cpleader.rs`)

* `relay` — the task that merges the extractor's events with the verified proposals of leaders.
* `Proposer.step` — one step of the proposer loop and of the tasks it spawns to resume consensus,
  from one await point to the next.  Which branch of a `select!` is taken, when a timer elapses
  and when another task answers is chosen by the `Input`.
* `Proposer.machine` — all runs of one proposer that is not restarted.
* `Ordered`, `ordered` — what is pending in an iteration is the first proposal for it, and what
  was accepted in an iteration is that proposal.
* `accept_unique` — at most one block is accepted in an iteration.

The leader schedule of `RandomLeaderElector` is a parameter: it comes from a third-party generator.
-/

set_option autoImplicit false

namespace AccountabilityGadget

open CheckpointTransaction (tryFrom)

structure ProposerEnv where
  name : PublicKey
  /-- `leader_election.get_leader`. -/
  leader : ℕ → PublicKey
  boycottProposals : Bool

/-- A message of the `proposals` topic: what the relay task forwards, if anything. -/
def relay (env : ProposerEnv) (cr : Crypto) (committee : CheckpointCommittee) (v : Bytes) :
    Except Panic (Option CheckpointEvent) :=
  match tryFrom cr v with
  | .error (.panic p) => .error p
  | .error (.reject _) => .error (.expect "failed to deserialize CheckpointTransaction!")
  | .ok p =>
    match p.verifySignature cr committee with
    | .error _ => .ok none
    | .ok () =>
      match p.action with
      | .propose i b => .ok (if p.author = env.leader i then some (.newProposal i b) else none)
      | _ => .ok none

/-- Where the proposer loop is waiting. -/
inductive Phase where
  /-- At the head of the iteration loop. -/
  | start
  /-- In the loop of the inter-checkpoint delay. -/
  | delay
  /-- The delay is over. -/
  | elect
  /-- For the answer to `get_current_proposal`. -/
  | proposing
  /-- In the loop of the checkpoint timeout. -/
  | waiting
  /-- For room in `tx_proposal_to_act_on`. -/
  | injecting (b : Digest)
  /-- For room in `tx_trigger_resume`, acting on a proposal. -/
  | acting (b : Digest)
  /-- For the answer to `validate_proposal`. -/
  | validating (b : Digest)
  /-- For room in `tx_trigger_resume`, after the timeout. -/
  | resuming
  /-- Before a `Reject` is submitted. -/
  | rejecting
  /-- In the loop that repeats the `Reject`. -/
  | repeating
  | panicked (p : Panic)
  deriving DecidableEq

/-- The phases in which events are received. -/
def Phase.Receives : Phase → Prop
  | delay | waiting | repeating => True
  | _ => False

/-- The proposal that the loop holds in its hands. -/
def Phase.carried : Phase → Option Digest
  | injecting b | acting b | validating b => some b
  | _ => none

/-- The task that resumes consensus in one iteration, with its channel of capacity one. -/
structure ResumeTask where
  queued : Bool
  senderAlive : Bool
  /-- `tx_trigger_resume_single` has been sent; the task is over. -/
  sent : Bool
  deriving DecidableEq

/-- The resume task: wait for a message or for the end of all senders, then resume consensus. -/
def ResumeTask.run (t : ResumeTask) : Option ResumeTask :=
  if t.sent then none
  else if t.queued ∨ ¬ t.senderAlive then some { t with queued := false, sent := true }
  else none

structure Proposer where
  phase : Phase
  currentIteration : ℕ
  lastCheckpoint : Option Digest
  proposals : ℕ → Option Digest
  /-- The content of the channel `tx_proposal_to_act_on`. -/
  proposalToActOn : Option Digest
  /-- One task for each iteration that was entered. -/
  resume : List ResumeTask
  /-- The votes signed and submitted. -/
  submitted : List CheckpointAction
  /-- The proposals signed and broadcast. -/
  broadcast : List CheckpointAction

namespace Proposer

def new : Proposer := ⟨.start, 0, none, fun _ => none, none, [], [], []⟩

/-- What happens next. -/
inductive Input where
  /-- The proposer runs to its next await point. -/
  | tick
  /-- The timer that it waits for has elapsed. -/
  | timer
  /-- `rx_checkpoint_events.recv()`. -/
  | event (e : CheckpointEvent)
  /-- `rx_checkpoint_events.recv()` finds the channel closed. -/
  | closed
  /-- `rx_proposal_to_act_on.recv()`. -/
  | act
  /-- The answer to `get_current_proposal`. -/
  | proposal (b : Digest)
  /-- The answer to `validate_proposal`. -/
  | validated (ok : Bool)
  /-- The resume task of iteration `j` runs. -/
  | resumeTask (j : ℕ)

/-- `continue 'iteration_loop` with the decision of the current iteration. -/
def leave (s : Proposer) (b : Option Digest) : Proposer :=
  { s with
    phase := .start
    currentIteration := s.currentIteration + 1
    lastCheckpoint := b
    proposalToActOn := none
    resume := s.resume.modify s.currentIteration fun t => { t with senderAlive := false } }

/-- The loop ends in a panic; its channels are dropped. -/
def abort (s : Proposer) (p : Panic) : Proposer :=
  { s with
    phase := .panicked p
    resume := s.resume.modify s.currentIteration fun t => { t with senderAlive := false } }

/-- The three matches on a received event; only the timeout loop injects a proposal at once. -/
def onEvent (inject : Bool) (s : Proposer) : CheckpointEvent → Proposer
  | .newCheckpoint i b =>
    if i = s.currentIteration then s.leave b else s.abort .assert
  | .newProposal i b =>
    if s.currentIteration ≤ i ∧ s.proposals i = none then
      let proposals := Function.update s.proposals i (some b)
      if inject ∧ i = s.currentIteration then { s with proposals, phase := .injecting b }
      else { s with proposals }
    else s

/-- Remove the proposal of the last iteration, pause consensus and spawn the resume task. -/
def enter (s : Proposer) : Proposer :=
  { s with
    phase := if s.lastCheckpoint ≠ none then .delay else .elect
    proposals := if 0 < s.currentIteration
      then Function.update s.proposals (s.currentIteration - 1) none else s.proposals
    resume := s.resume ++ [⟨false, true, false⟩] }

/-- Make the channel of proposals to act on, with the proposal at hand, and start the timeout. -/
def await (s : Proposer) : Proposer :=
  { s with phase := .waiting, proposalToActOn := s.proposals s.currentIteration }

/-- `tx_trigger_resume.send(())`, then go on in `next`; `none` while the channel is full. -/
def triggerResume (s : Proposer) (next : Phase) : Option Proposer :=
  match s.resume[s.currentIteration]? with
  | none => none
  | some t =>
    if t.sent then some { s with phase := next }
    else if t.queued then none
    else some { s with
      phase := next
      resume := s.resume.set s.currentIteration { t with queued := true } }

def submitVote (s : Proposer) (action : CheckpointAction) (next : Phase) : Proposer :=
  { s with phase := next, submitted := s.submitted ++ [action] }

/-- One step; `none` where the input cannot occur. -/
def step (env : ProposerEnv) (s : Proposer) : Input → Option Proposer
  | .tick =>
    match s.phase with
    | .start => some s.enter
    | .elect =>
      if env.leader s.currentIteration = env.name ∧ ¬ env.boycottProposals
      then some { s with phase := .proposing } else some s.await
    | .injecting b =>
      if s.proposalToActOn = none then some { s with phase := .waiting, proposalToActOn := some b }
      else none
    | .acting b => s.triggerResume (.validating b)
    | .resuming => s.triggerResume .rejecting
    | .rejecting => some (s.submitVote (.reject s.currentIteration) .repeating)
    | _ => none
  | .timer =>
    match s.phase with
    | .delay => some { s with phase := .elect }
    | .waiting => some { s with phase := .resuming }
    | .repeating => some { s with phase := .rejecting }
    | _ => none
  | .event e =>
    match s.phase with
    | .delay => some (s.onEvent false e)
    | .waiting => some (s.onEvent true e)
    | .repeating => some (s.onEvent false e)
    | _ => none
  | .closed =>
    match s.phase with
    | .delay | .waiting | .repeating =>
      some (s.abort (.expect "Error receiving checkpoint event!"))
    | _ => none
  | .act =>
    match s.phase, s.proposalToActOn with
    | .waiting, some b => some { s with phase := .acting b, proposalToActOn := none }
    | _, _ => none
  | .proposal b =>
    match s.phase with
    | .proposing =>
      some { s.await with broadcast := s.broadcast ++ [.propose s.currentIteration b] }
    | _ => none
  | .validated ok =>
    match s.phase with
    | .validating b =>
      if ok then some (s.submitVote (.accept s.currentIteration b) .waiting)
      else some (s.submitVote (.reject s.currentIteration) .waiting)
    | _ => none
  | .resumeTask j =>
    match s.resume[j]? with
    | none => none
    | some t => t.run.map fun t' => { s with resume := s.resume.set j t' }

/-- All runs of a proposer. -/
def machine (env : ProposerEnv) : Machine Proposer Input := .ofStep (· = new) (step env)

/-! ## What a step does -/

/-- The effects of a step, one for each way through the code. -/
inductive Effect (s : Proposer) : Input → Proposer → Prop where
  | enter : s.phase = .start → Effect s .tick s.enter
  | ask : s.phase = .elect → Effect s .tick { s with phase := .proposing }
  | await : s.phase = .elect → Effect s .tick s.await
  | inject {b : Digest} : s.phase = .injecting b → s.proposalToActOn = none →
      Effect s .tick { s with phase := .waiting, proposalToActOn := some b }
  | trigger {b : Digest} {s' : Proposer} : s.phase = .acting b →
      s.triggerResume (.validating b) = some s' → Effect s .tick s'
  | release {s' : Proposer} : s.phase = .resuming →
      s.triggerResume .rejecting = some s' → Effect s .tick s'
  | giveUp : s.phase = .rejecting →
      Effect s .tick (s.submitVote (.reject s.currentIteration) .repeating)
  | delayOver : s.phase = .delay → Effect s .timer { s with phase := .elect }
  | timeout : s.phase = .waiting → Effect s .timer { s with phase := .resuming }
  | again : s.phase = .repeating → Effect s .timer { s with phase := .rejecting }
  | receive {e : CheckpointEvent} : s.phase.Receives →
      Effect s (.event e) (s.onEvent (s.phase = .waiting) e)
  | closed : s.phase.Receives →
      Effect s .closed (s.abort (.expect "Error receiving checkpoint event!"))
  | act {b : Digest} : s.phase = .waiting → s.proposalToActOn = some b →
      Effect s .act { s with phase := .acting b, proposalToActOn := none }
  | propose {b : Digest} : s.phase = .proposing → Effect s (.proposal b)
      { s.await with broadcast := s.broadcast ++ [.propose s.currentIteration b] }
  | accept {b : Digest} : s.phase = .validating b →
      Effect s (.validated true) (s.submitVote (.accept s.currentIteration b) .waiting)
  | reject {b : Digest} : s.phase = .validating b →
      Effect s (.validated false) (s.submitVote (.reject s.currentIteration) .waiting)
  | resume {j : ℕ} {t t' : ResumeTask} : s.resume[j]? = some t → t.run = some t' →
      Effect s (.resumeTask j) { s with resume := s.resume.set j t' }

/-- **Every step has one of the listed effects.** -/
theorem step_effect {env : ProposerEnv} {s s' : Proposer} {i : Input}
    (h : step env s i = some s') : Effect s i s' := by
  cases i with
  | tick =>
    simp only [step] at h
    split at h
    · cases h; exact .enter ‹_›
    · split at h
      · cases h; exact .ask ‹_›
      · cases h; exact .await ‹_›
    · split at h
      · cases h; exact .inject ‹_› ‹_›
      · cases h
    · exact .trigger ‹_› h
    · exact .release ‹_› h
    · cases h; exact .giveUp ‹_›
    · cases h
  | timer =>
    simp only [step] at h
    split at h
    · cases h; exact .delayOver ‹_›
    · cases h; exact .timeout ‹_›
    · cases h; exact .again ‹_›
    · cases h
  | event e =>
    simp only [step] at h
    have hr : s.phase.Receives → s.onEvent (s.phase = .waiting) e = s' → Effect s (.event e) s' := by
      rintro hp rfl
      exact .receive hp
    split at h
    · rename_i hp; exact hr (by rw [hp]; trivial) (by simpa [hp] using h)
    · rename_i hp; exact hr (by rw [hp]; trivial) (by simpa [hp] using h)
    · rename_i hp; exact hr (by rw [hp]; trivial) (by simpa [hp] using h)
    · cases h
  | closed =>
    simp only [step] at h
    split at h
    · rename_i hp; cases h; exact .closed (by rw [hp]; trivial)
    · rename_i hp; cases h; exact .closed (by rw [hp]; trivial)
    · rename_i hp; cases h; exact .closed (by rw [hp]; trivial)
    · cases h
  | act =>
    simp only [step] at h
    split at h
    · cases h; exact .act ‹_› ‹_›
    · cases h
  | proposal b =>
    simp only [step] at h
    split at h
    · cases h; exact .propose ‹_›
    · cases h
  | validated ok =>
    simp only [step] at h
    split at h
    · split at h
      · rename_i hok; subst hok; cases h; exact .accept ‹_›
      · rename_i hok; rw [Bool.not_eq_true] at hok; subst hok; cases h; exact .reject ‹_›
    · cases h
  | resumeTask j =>
    simp only [step] at h
    split at h
    · cases h
    · rw [Option.map_eq_some_iff] at h
      obtain ⟨t', ht, rfl⟩ := h
      exact .resume ‹_› ht

theorem triggerResume_eq {s s' : Proposer} {next : Phase} (h : s.triggerResume next = some s') :
    ∃ resume, s' = { s with phase := next, resume } := by
  unfold triggerResume at h
  split at h
  · cases h
  · split_ifs at h
    · cases h; exact ⟨s.resume, rfl⟩
    · cases h; exact ⟨_, rfl⟩

/-! ## One block per iteration -/

/-- What is pending or accepted in the current iteration is the proposal stored for it. -/
structure Ordered (s : Proposer) : Prop where
  bound : ∀ i b, .accept i b ∈ s.submitted → i ≤ s.currentIteration
  current : ∀ b, .accept s.currentIteration b ∈ s.submitted →
    s.proposals s.currentIteration = some b
  channel : ∀ b, s.proposalToActOn = some b → s.proposals s.currentIteration = some b
  held : ∀ b, s.phase.carried = some b → s.proposals s.currentIteration = some b
  unique : ∀ i b b', .accept i b ∈ s.submitted → .accept i b' ∈ s.submitted → b = b'

theorem ordered_new : Ordered new where
  bound _ _ h := by cases h
  current _ h := by cases h
  channel _ h := by cases h
  held _ h := by cases h
  unique _ _ _ h := by cases h

/-- A step that only moves between phases that hold nothing. -/
theorem Ordered.goto {s : Proposer} (h : Ordered s) {next : Phase} {resume : List ResumeTask}
    (hn : next.carried = none ∨ next.carried = s.phase.carried) :
    Ordered { s with phase := next, resume } where
  bound := h.bound
  current := h.current
  channel := h.channel
  held b hb := by
    rcases hn with hn | hn
    · rw [hn] at hb; cases hb
    · exact h.held b (hn ▸ hb)
  unique := h.unique

theorem Ordered.enter {s : Proposer} (h : Ordered s) : Ordered s.enter := by
  have hp : s.enter.proposals s.currentIteration = s.proposals s.currentIteration := by
    simp only [Proposer.enter]
    split_ifs with hi
    · exact Function.update_of_ne (by omega) _ _
    · rfl
  refine ⟨h.bound, fun b hb => hp.trans (h.current b hb), fun b hb => hp.trans (h.channel b hb), ?_,
    h.unique⟩
  intro b hb
  simp only [Proposer.enter] at hb
  split_ifs at hb <;> cases hb

theorem Ordered.await {s : Proposer} (h : Ordered s) (broadcast : List CheckpointAction) :
    Ordered { s.await with broadcast } where
  bound := h.bound
  current := h.current
  channel _ hb := hb
  held _ hb := by cases hb
  unique := h.unique

theorem Ordered.leave {s : Proposer} (h : Ordered s) (b : Option Digest) : Ordered (s.leave b) where
  bound i c hc := (h.bound i c hc).trans (Nat.le_succ _)
  current c hc := absurd (h.bound _ c hc) (by simp [Proposer.leave])
  channel _ hc := by cases hc
  held _ hc := by cases hc
  unique := h.unique

/-- Storing the first proposal for an iteration. -/
theorem Ordered.store {s : Proposer} (h : Ordered s) {i : ℕ} {b : Digest} {next : Phase}
    (hi : s.proposals i = none)
    (hn : next.carried = s.phase.carried ∨ i = s.currentIteration ∧ next.carried = some b) :
    Ordered { s with proposals := Function.update s.proposals i (some b), phase := next } := by
  have hp : ∀ c, s.proposals s.currentIteration = some c →
      Function.update s.proposals i (some b) s.currentIteration = some c := by
    intro c hc
    rw [Function.update_of_ne (by rintro rfl; rw [hi] at hc; cases hc), hc]
  refine ⟨h.bound, fun c hc => hp c (h.current c hc), fun c hc => hp c (h.channel c hc), ?_,
    h.unique⟩
  intro c hc
  rcases hn with hn | ⟨rfl, hn⟩
  · exact hp c (h.held c (hn ▸ hc))
  · rw [show next.carried = some c from hc, Option.some.injEq] at hn
    rw [hn]
    exact Function.update_self _ _ _

theorem Ordered.onEvent {s : Proposer} (h : Ordered s) (inject : Bool) (e : CheckpointEvent) :
    Ordered (s.onEvent inject e) := by
  cases e with
  | newCheckpoint i b =>
    simp only [Proposer.onEvent]
    split_ifs
    · exact h.leave b
    · exact h.goto (.inl rfl)
  | newProposal i b =>
    simp only [Proposer.onEvent]
    split_ifs with hc hi
    · exact h.store hc.2 (.inr ⟨hi.2, rfl⟩)
    · exact h.store hc.2 (.inl rfl)
    · exact h

theorem Ordered.reject {s : Proposer} (h : Ordered s) {i : ℕ} {next : Phase}
    (hn : next.carried = none) : Ordered (s.submitVote (.reject i) next) where
  bound j b hb := h.bound j b (by simpa [submitVote] using hb)
  current b hb := h.current b (by simpa [submitVote] using hb)
  channel := h.channel
  held b hb := by rw [show next.carried = some b from hb] at hn; cases hn
  unique j b b' hb hb' := h.unique j b b' (by simpa [submitVote] using hb)
    (by simpa [submitVote] using hb')

theorem Ordered.accept {s : Proposer} (h : Ordered s) {b : Digest} {next : Phase}
    (hb : s.phase.carried = some b) (hn : next.carried = none) :
    Ordered (s.submitVote (.accept s.currentIteration b) next) := by
  have hcases : ∀ i c, .accept i c ∈ (s.submitVote (.accept s.currentIteration b) next).submitted →
      .accept i c ∈ s.submitted ∨ i = s.currentIteration ∧ c = b := by
    intro i c hc
    simpa [submitVote] using hc
  have hcur : ∀ c, .accept s.currentIteration c ∈
      (s.submitVote (.accept s.currentIteration b) next).submitted →
      s.proposals s.currentIteration = some c := by
    intro c hc
    rcases hcases _ c hc with hc | ⟨-, rfl⟩
    · exact h.current c hc
    · exact h.held c hb
  refine ⟨?_, hcur, h.channel, ?_, ?_⟩
  · intro i c hc
    rcases hcases i c hc with hc | ⟨rfl, -⟩
    · exact h.bound i c hc
    · exact le_rfl
  · intro c hc
    rw [show next.carried = some c from hc] at hn
    cases hn
  · intro i c c' hc hc'
    by_cases hi : i = s.currentIteration
    · subst hi
      exact Option.some.inj ((hcur c hc).symm.trans (hcur c' hc'))
    · rcases hcases i c hc with h1 | ⟨h1, -⟩
      · rcases hcases i c' hc' with h2 | ⟨h2, -⟩
        · exact h.unique i c c' h1 h2
        · exact absurd h2 hi
      · exact absurd h1 hi

/-- **Every step keeps the order of proposals and votes.** -/
theorem Ordered.step {env : ProposerEnv} {s s' : Proposer} {i : Input} (h : Ordered s)
    (hs : step env s i = some s') : Ordered s' := by
  cases step_effect hs with
  | enter => exact h.enter
  | ask => exact h.goto (.inl rfl)
  | await => exact h.await s.broadcast
  | @inject b hp =>
    refine ⟨h.bound, h.current, fun c hc => ?_, fun c hc => (by cases hc), h.unique⟩
    exact h.held c (by rw [hp]; exact hc)
  | trigger hp ht =>
    obtain ⟨resume, rfl⟩ := triggerResume_eq ht
    exact h.goto (.inr (by rw [hp]; rfl))
  | release hp ht =>
    obtain ⟨resume, rfl⟩ := triggerResume_eq ht
    exact h.goto (.inl rfl)
  | giveUp => exact h.reject rfl
  | delayOver => exact h.goto (.inl rfl)
  | timeout => exact h.goto (.inl rfl)
  | again => exact h.goto (.inl rfl)
  | receive => exact h.onEvent _ _
  | closed => exact h.goto (.inl rfl)
  | @act b _ hb =>
    refine ⟨h.bound, h.current, fun c hc => (by cases hc), fun c hc => ?_, h.unique⟩
    cases hc
    exact h.channel b hb
  | propose => exact h.await _
  | accept hp => exact h.accept (by rw [hp]; rfl) rfl
  | reject => exact h.reject rfl
  | resume => exact h.goto (.inr rfl)

/-- The order of proposals and votes holds in every state of every run. -/
theorem ordered {env : ProposerEnv} {s : Proposer} (h : (machine env).Reachable s) : Ordered s :=
  Machine.invariant (fun _ h => h ▸ ordered_new) (fun _ _ _ h hs => h.step hs) h

/-- Only proposals are broadcast. -/
theorem broadcast_propose {env : ProposerEnv} {s : Proposer} (h : (machine env).Reachable s) :
    ∀ action ∈ s.broadcast, ∃ i b, action = .propose i b := by
  have hevent : ∀ (s : Proposer) (inject : Bool) e, (s.onEvent inject e).broadcast = s.broadcast := by
    intro s inject e
    cases e <;> simp only [onEvent] <;> split_ifs <;> rfl
  refine Machine.invariant (P := fun s => ∀ action ∈ s.broadcast, ∃ i b, action = .propose i b)
    (fun s h => by subst h; simp [new]) (fun s i t ih hs => ?_) h
  cases step_effect hs with
  | trigger _ ht | release _ ht => obtain ⟨resume, rfl⟩ := triggerResume_eq ht; exact ih
  | receive => rw [hevent]; exact ih
  | @propose b =>
    intro action ha
    rcases List.mem_append.mp ha with ha | ha
    · exact ih action ha
    · exact ⟨_, _, List.mem_singleton.mp ha⟩
  | _ => exact ih

/-- **A proposer that is not restarted accepts one block per iteration.** -/
theorem accept_unique {env : ProposerEnv} {s : Proposer} (h : (machine env).Reachable s) {i : ℕ}
    {b b' : Digest} (hb : .accept i b ∈ s.submitted) (hb' : .accept i b' ∈ s.submitted) : b = b' :=
  (ordered h).unique i b b' hb hb'

end Proposer

/-- A proposer that is never the leader. -/
def sampleFollower : ProposerEnv := ⟨⟨Digest.ones.data⟩, fun _ => ⟨.zero⟩, false⟩

end AccountabilityGadget
