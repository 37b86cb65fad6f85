import AccountabilityGadget.Consensus.Aggregator
import AccountabilityGadget.Consensus.Wire
import AccountabilityGadget.Lib.Machine

/-!
# The consensus core (`consensus/src/core.rs`, `synchronizer.rs`)

Every handler of `Core` ends in the call of another handler or in the main loop, so the state holds
the call that runs next; one step runs one call.  Between two calls the other tasks of the node
take their steps: the two synchronizers hand suspended blocks back, the mempool answers, and other
users of the shared store write to it.  Round numbers are `u64` and wrap.

* `Core.makeVote` — the two safety rules.
* `Core.processBlock` — suspends a block without parent; otherwise stores it, commits the
  grandparent when the two rounds are consecutive, and votes.
* `Core.handleProposal`, `processTc`, `verifying` — checks, round changes and payload check of a
  proposal.  `handleTc` moves to the round after any certificate, unchecked.
* `Core.step` — one step, for messages of the network, answers and timers in any order;
  `Core.step_takes` — what it takes for each input to have its effect.
-/

set_option autoImplicit false

namespace AccountabilityGadget.Consensus

open Encoding

/-- The task of one authority. -/
structure Env where
  cr : BatchCrypto
  committee : Committee
  /-- `LeaderElector::get_leader`. -/
  leader : RoundNumber → PublicKey
  name : PublicKey
  boycottProposals : Bool

/-- `PayloadStatus`. -/
inductive PayloadStatus where
  | accept
  | reject
  | wait
  deriving DecidableEq

/-- The call that `Core` runs next. -/
inductive Call where
  /-- In `select!`. -/
  | idle
  | handleProposal (b : Block)
  /-- In `handle_proposal`, past the checks and the QC of the block. -/
  | processTc (b : Block)
  /-- In `handle_proposal`, waiting for the mempool. -/
  | verifying (b : Block)
  | processBlock (b : Block)
  | handleVote (v : Vote)
  | handleTimeout (t : Timeout)
  | handleTc (tc : TC)
  | generateProposal (tc : Option TC)
  | stopped (p : Panic)
  deriving DecidableEq

/-- What `Core` has done. -/
inductive Effect where
  /-- `Block::new`, `Vote::new`, `Timeout::new`: objects with a signature of the node. -/
  | propose (b : Block)
  | vote (b : Block)
  | timeout (t : Timeout)
  | store (b : Block)
  /-- `b0` goes to the commit channel: `b1` is its child and the parent of `b`. -/
  | commit (b0 b1 b : Block)
  /-- `MempoolDriver::cleanup`. -/
  | cleanup (digests : List Digest) (round : RoundNumber)
  | send (m : ConsensusMessage) (receiver : Option PublicKey)
  deriving DecidableEq

structure Core where
  round : RoundNumber
  lastVotedRound : RoundNumber
  highQc : QC
  aggregator : Aggregator
  /-- The shared store: what `bincode::deserialize` makes of the value of a key. -/
  store : Digest → Option (Except (Fault DecodeError) Block)
  /-- Blocks that the synchronizer holds until their parent is stored. -/
  pending : List Block
  /-- Blocks that the synchronizer of the mempool holds until their payload is stored. -/
  payloadPending : List Block
  /-- Before the main loop, in the call that makes the very first block. -/
  booting : Bool
  call : Call
  log : List Effect

namespace Core

/-- `run`: the leader of the first round makes the very first block. -/
def new (env : Env) : Core where
  round := 1
  lastVotedRound := 0
  highQc := .genesis
  aggregator := .new
  store _ := none
  pending := []
  payloadPending := []
  booting := env.name = env.leader 1
  call := if env.name = env.leader 1 then .generateProposal none else .idle
  log := []

def stop (s : Core) (p : Panic) : Core := { s with call := .stopped p }

/-- A call returns: the main loop logs an error, the leader that boots does not survive it. -/
def ret (s : Core) : ConsensusResult Unit → Core
  | .ok () => { s with call := .idle, booting := false }
  | .error _ =>
    if s.booting then s.stop (.expect "Failed to send the first block")
    else { s with call := .idle }

def logged (s : Core) (es : List Effect) : Core := { s with log := s.log ++ es }

variable (env : Env)

/-- `Synchronizer::transmit`. -/
def transmit (s : Core) (m : ConsensusMessage) : Option PublicKey → ConsensusResult Core
  | none => .ok (s.logged [.send m none])
  | some receiver =>
    if receiver ∈ env.committee.authorities then .ok (s.logged [.send m (some receiver)])
    else .error (.notInCommittee receiver)

def storeBlock (s : Core) (b : Block) : Core :=
  { s with
    store := Function.update s.store (b.digest env.cr) (some (.ok b))
    log := s.log ++ [.store b] }

/-! ## Safety module -/

def increaseLastVotedRound (s : Core) (target : RoundNumber) : Core :=
  { s with lastVotedRound := max s.lastVotedRound target }

/-- `safety_rule_2`. -/
def safetyRule2 (b : Block) : Except Panic Bool :=
  match b.tc with
  | none => .ok (b.qc.round + 1 = b.round)
  | some tc =>
    match tc.highQcRounds.max? with
    | none => .error (.expect "Empty TC")
    | some m => .ok (b.qc.round + 1 = b.round ∨ tc.round + 1 = b.round ∧ m ≤ b.qc.round)

def makeVote (s : Core) (b : Block) : Except Panic (Core × Option Vote) :=
  match safetyRule2 b with
  | .error p => .error p
  | .ok rule2 =>
    if s.lastVotedRound < b.round ∧ rule2 then
      .ok ((s.increaseLastVotedRound b.round).logged [.vote b], some (.new env.cr b env.name))
    else .ok (s, none)

/-! ## Pacemaker -/

def updateHighQc (s : Core) (qc : QC) : Core :=
  if s.highQc.round < qc.round then { s with highQc := qc } else s

def advanceRound (s : Core) (round : RoundNumber) : Core :=
  if round < s.round then s
  else { s with round := round + 1, aggregator := s.aggregator.cleanup (round + 1) }

def processQc (s : Core) (qc : QC) : Core := (s.advanceRound qc.round).updateHighQc qc

/-- "Make a new block if we are the next leader." -/
def proposeIfLeader (s : Core) (tc : Option TC) : Core :=
  if env.name = env.leader s.round then { s with call := .generateProposal tc } else s.ret (.ok ())

def localTimeoutRound (s : Core) : Core :=
  let s := s.increaseLastVotedRound s.round
  let timeout := Timeout.new env.cr s.highQc.round s.round env.name
  { s.logged [.timeout timeout, .send (.timeout timeout) none] with call := .handleTimeout timeout }

def handleVote (s : Core) (vote : Vote) : Core :=
  if vote.round < s.round then s.ret (.ok ())
  else
    match vote.verify env.cr env.committee with
    | .error e => s.ret (.error e)
    | .ok () =>
      match s.aggregator.addVote env.cr env.committee vote with
      | (aggregator, .error e) => { s with aggregator }.ret (.error e)
      | (aggregator, .ok none) => { s with aggregator }.ret (.ok ())
      | (aggregator, .ok (some qc)) => ({ s with aggregator }.processQc qc).proposeIfLeader env none

def handleTimeout (s : Core) (timeout : Timeout) : Core :=
  if timeout.round < s.round then s.ret (.ok ())
  else
    match timeout.verify env.cr env.committee with
    | .error e => s.ret (.error e)
    | .ok () =>
      match s.aggregator.addTimeout env.committee timeout with
      | (aggregator, .error e) => { s with aggregator }.ret (.error e)
      | (aggregator, .ok none) => { s with aggregator }.ret (.ok ())
      | (aggregator, .ok (some tc)) =>
        ({ s with aggregator }.advanceRound tc.round).proposeIfLeader env (some tc)

def handleTc (s : Core) (tc : TC) : Core := (s.advanceRound tc.round).proposeIfLeader env (some tc)

/-- The rest of `generate_proposal`, with the payload of the mempool. -/
def generateProposal (s : Core) (tc : Option TC) (payload : List Digest) : Core :=
  let block := Block.new env.cr s.highQc tc env.name s.round payload
  { s.logged [.propose block, .send (.propose block) none] with call := .processBlock block }

/-! ## Blocks -/

/-- `bincode::deserialize(&bytes)?`: an error is returned, a panic of the decoder is one of the
caller. -/
def deserialized (value : Except (Fault DecodeError) Block) :
    Except (Fault ConsensusError) Block :=
  match value with
  | .ok b => .ok b
  | .error (.reject _) => .error (.reject .serializationError)
  | .error (.panic p) => .error (.panic p)

def getParentBlock (s : Core) (b : Block) : Except (Fault ConsensusError) (Option Block) :=
  if b.qc.eq .genesis then .ok (some .genesis)
  else
    match s.store b.parent with
    | some value => (deserialized value).map some
    | none => .ok none

/-- `get_ancestors`; a missing parent makes the synchronizer keep the block (`wait`). -/
def getAncestors (s : Core) (b : Block) : Except (Fault ConsensusError) (Option (Block × Block)) :=
  match s.getParentBlock b with
  | .error e => .error e
  | .ok none => .ok none
  | .ok (some b1) =>
    match s.getParentBlock b1 with
    | .error e => .error e
    | .ok none => .error (.panic (.expect "We should have all ancestors of delivered blocks"))
    | .ok (some b0) => .ok (some (b0, b1))

/-- The synchronizer keeps one block for each digest. -/
def wait (s : Core) (b : Block) : Core :=
  if ∃ c ∈ s.pending, c.digest env.cr = b.digest env.cr then s
  else { s with pending := s.pending ++ [b] }

/-- The synchronizer of the mempool keeps one block for each digest. -/
def waitPayload (s : Core) (b : Block) : Core :=
  if ∃ c ∈ s.payloadPending, c.digest env.cr = b.digest env.cr then s
  else { s with payloadPending := s.payloadPending ++ [b] }

/-- "Check if we can commit the head of the 2-chain." -/
def commitHead (s : Core) (b0 b1 b : Block) : Core :=
  if b0.round + 1 = b1.round then s.logged [.commit b0 b1 b] else s

/-- "See if we can vote for this block." -/
def voteFor (s : Core) (b : Block) : Core :=
  match s.makeVote env b with
  | .error p => s.stop p
  | .ok (s, none) => s.ret (.ok ())
  | .ok (s, some vote) =>
    let nextLeader := env.leader (s.round + 1)
    if nextLeader = env.name then { s with call := .handleVote vote }
    else
      match s.transmit env (.vote vote) (some nextLeader) with
      | .error e => s.ret (.error e)
      | .ok s => s.ret (.ok ())

/-- `process_block`, once both ancestors are there. -/
def processDelivered (s : Core) (b0 b1 b : Block) : Core :=
  let s := (s.storeBlock env b).commitHead b0 b1 b
  let s := s.logged [.cleanup (b0.payload ++ b1.payload ++ b.payload) b.round]
  if b.round ≠ s.round then s.ret (.ok ()) else s.voteFor env b

def processBlock (s : Core) (b : Block) : Core :=
  match s.getAncestors b with
  | .error (.reject e) => s.ret (.error e)
  | .error (.panic p) => s.stop p
  | .ok none => (s.wait env b).ret (.ok ())
  | .ok (some (b0, b1)) => s.processDelivered env b0 b1 b

/-- `handle_proposal` up to the QC of the block. -/
def handleProposal (s : Core) (b : Block) : Core :=
  if b.author ≠ env.leader b.round then
    s.ret (.error (.wrongLeader (b.digest env.cr) b.author b.round))
  else
    match b.verify env.cr env.committee with
    | .error e => s.ret (.error e)
    | .ok () => { s.processQc b.qc with call := .processTc b }

/-- "Process the TC (if any)"; the mempool is asked next. -/
def processTc (s : Core) (b : Block) : Core :=
  match b.tc with
  | none => { s with call := .verifying b }
  | some tc => { s.advanceRound tc.round with call := .verifying b }

/-- The rest of `handle_proposal`, with the answer of the mempool. -/
def verifying (s : Core) (b : Block) : PayloadStatus → Core
  | .accept => { s with call := .processBlock b }
  | .reject => s.ret (.error .invalidPayload)
  | .wait => (s.waitPayload env b).ret (.ok ())

def handleSyncRequest (s : Core) (digest : Digest) (sender : PublicKey) : Core :=
  match s.store digest with
  | none => s.ret (.ok ())
  | some value =>
    match deserialized value with
    | .error (.reject e) => s.ret (.error e)
    | .error (.panic p) => s.stop p
    | .ok b =>
      match s.transmit env (.propose b) (some sender) with
      | .error e => s.ret (.error e)
      | .ok s => s.ret (.ok ())

/-! ## Steps -/

/-- The arms of `match message`. -/
def receive (s : Core) : ConsensusMessage → Core
  | .propose b => { s with call := .handleProposal b }
  | .vote v => { s with call := .handleVote v }
  | .timeout t => { s with call := .handleTimeout t }
  | .tc tc => { s with call := .handleTc tc }
  | .loopBack b => { s with call := .processBlock b }
  | .syncRequest digest sender => s.handleSyncRequest env digest sender

/-- The pending call runs; calls that wait for an answer do not. -/
def runCall (s : Core) : Option Core :=
  match s.call with
  | .handleProposal b => some (s.handleProposal env b)
  | .processTc b => some (s.processTc b)
  | .processBlock b => some (s.processBlock env b)
  | .handleVote v => some (s.handleVote env v)
  | .handleTimeout t => some (s.handleTimeout env t)
  | .handleTc tc => some (s.handleTc env tc)
  | .generateProposal _ => if env.boycottProposals then some (s.ret (.ok ())) else none
  | .idle | .verifying _ | .stopped _ => none

inductive Input where
  /-- The core channel yields a message of the network. -/
  | deliver (m : ConsensusMessage)
  /-- The synchronizer hands back a block whose parent is stored. -/
  | loopBack (b : Block)
  /-- The synchronizer of the mempool hands back a block, or gives it up. -/
  | payloadReady (b : Block)
  | payloadCancel (b : Block)
  | timer
  /-- A pause; the trigger to resume comes, or its sender is dropped. -/
  | pause (resumed : Bool)
  | next
  /-- The mempool answers `Verify`. -/
  | status (st : PayloadStatus)
  /-- The mempool answers `Get`. -/
  | payload (digests : List Digest)
  /-- Another user of the store writes to it. -/
  | storeWrite (d : Digest) (value : Bytes)
  deriving DecidableEq

def step (s : Core) : Input → Option Core
  | .deliver m => if s.call = .idle then some (s.receive env m) else none
  | .loopBack b =>
    if s.call = .idle ∧ b ∈ s.pending ∧ (s.store b.parent).isSome then
      some { s with pending := s.pending.erase b, call := .processBlock b }
    else none
  | .payloadReady b =>
    if s.call = .idle ∧ b ∈ s.payloadPending then
      some { s with payloadPending := s.payloadPending.erase b, call := .processBlock b }
    else none
  | .payloadCancel b => some { s with payloadPending := s.payloadPending.erase b }
  | .timer => if s.call = .idle then some (s.localTimeoutRound env) else none
  | .pause resumed =>
    if s.call = .idle then
      some (if resumed then s else s.stop (.expect "Failed to wait for trigger to resume!"))
    else none
  | .next => s.runCall env
  | .status st =>
    match s.call with
    | .verifying b => some (s.verifying env b st)
    | _ => none
  | .payload digests =>
    match s.call with
    | .generateProposal tc =>
      if env.boycottProposals then none else some (s.generateProposal env tc digests)
    | _ => none
  | .storeWrite d value =>
    some { s with store := Function.update s.store d (some (Block.tryFrom env.cr.toCrypto value)) }

/-- All runs of the core of one node. -/
def machine : Machine Core Input := .ofStep (· = new env) (step env)

/-! ## Inversion -/

/-- The calls that run. -/
inductive Runs (env : Env) (s : Core) : Core → Prop where
  | handleProposal {b : Block} : s.call = .handleProposal b → Runs env s (s.handleProposal env b)
  | processTc {b : Block} : s.call = .processTc b → Runs env s (s.processTc b)
  | processBlock {b : Block} : s.call = .processBlock b → Runs env s (s.processBlock env b)
  | handleVote {v : Vote} : s.call = .handleVote v → Runs env s (s.handleVote env v)
  | handleTimeout {t : Timeout} : s.call = .handleTimeout t → Runs env s (s.handleTimeout env t)
  | handleTc {tc : TC} : s.call = .handleTc tc → Runs env s (s.handleTc env tc)
  | boycott {tc : Option TC} : s.call = .generateProposal tc → env.boycottProposals = true →
      Runs env s (s.ret (.ok ()))

/-- What a sync request leads to. -/
inductive Serves (env : Env) (s : Core) (digest : Digest) (sender : PublicKey) : Core → Prop where
  | ret {r : ConsensusResult Unit} : Serves env s digest sender (s.ret r)
  | panic {p : Panic} : s.store digest = some (.error (.panic p)) →
      Serves env s digest sender (s.stop p)
  | send {b : Block} {u : Core} : s.store digest = some (.ok b) →
      s.transmit env (.propose b) (some sender) = .ok u →
      Serves env s digest sender (u.ret (.ok ()))

/-- The inputs, each with its guard and its effect. -/
inductive Takes (env : Env) (s : Core) : Input → Core → Prop where
  | deliver {m : ConsensusMessage} : s.call = .idle → Takes env s (.deliver m) (s.receive env m)
  | loopBack {b : Block} : b ∈ s.pending → Takes env s (.loopBack b)
      { s with pending := s.pending.erase b, call := .processBlock b }
  | payloadReady {b : Block} : b ∈ s.payloadPending → Takes env s (.payloadReady b)
      { s with payloadPending := s.payloadPending.erase b, call := .processBlock b }
  | payloadCancel {b : Block} : Takes env s (.payloadCancel b)
      { s with payloadPending := s.payloadPending.erase b }
  | timer : s.call = .idle → Takes env s .timer (s.localTimeoutRound env)
  | resume : s.call = .idle → Takes env s (.pause true) s
  | abandon : s.call = .idle → Takes env s (.pause false)
      (s.stop (.expect "Failed to wait for trigger to resume!"))
  | next {s' : Core} : Runs env s s' → Takes env s .next s'
  | status {b : Block} {st : PayloadStatus} : s.call = .verifying b →
      Takes env s (.status st) (s.verifying env b st)
  | payload {tc : Option TC} {digests : List Digest} : s.call = .generateProposal tc →
      env.boycottProposals = false →
      Takes env s (.payload digests) (s.generateProposal env tc digests)
  | storeWrite {d : Digest} {value : Bytes} : Takes env s (.storeWrite d value)
      { s with store := Function.update s.store d (some (Block.tryFrom env.cr.toCrypto value)) }

variable {env} {s s' : Core}

theorem deserialized_eq_ok {value : Except (Fault DecodeError) Block} {b : Block} :
    deserialized value = .ok b ↔ value = .ok b := by
  rcases value with (e | p) | c <;> simp [deserialized]

theorem deserialized_eq_panic {value : Except (Fault DecodeError) Block} {p : Panic} :
    deserialized value = .error (.panic p) ↔ value = .error (.panic p) := by
  rcases value with (e | q) | c <;> simp [deserialized]

theorem handleSyncRequest_serves {digest : Digest} {sender : PublicKey}
    (h : s.handleSyncRequest env digest sender = s') : Serves env s digest sender s' := by
  subst h
  unfold handleSyncRequest
  split
  · exact .ret
  · rename_i value hvalue
    split
    · exact .ret
    · rename_i hp
      rw [deserialized_eq_panic.mp hp] at hvalue
      exact .panic hvalue
    · rename_i b hb
      rw [deserialized_eq_ok.mp hb] at hvalue
      split
      · exact .ret
      · exact .send hvalue ‹_›

theorem runCall_runs (hs : s.runCall env = some s') : Runs env s s' := by
  unfold runCall at hs
  split at hs
  · cases hs; exact .handleProposal ‹_›
  · cases hs; exact .processTc ‹_›
  · cases hs; exact .processBlock ‹_›
  · cases hs; exact .handleVote ‹_›
  · cases hs; exact .handleTimeout ‹_›
  · cases hs; exact .handleTc ‹_›
  · split at hs <;> cases hs
    exact .boycott ‹_› ‹_›
  all_goals cases hs

/-- **What it takes to make a step.** -/
theorem step_takes {i : Input} (hs : s.step env i = some s') : Takes env s i s' := by
  cases i with
  | deliver m =>
    simp only [step, Option.ite_none_right_eq_some, Option.some.injEq] at hs
    obtain ⟨hidle, rfl⟩ := hs
    exact .deliver hidle
  | loopBack b =>
    simp only [step, Option.ite_none_right_eq_some, Option.some.injEq] at hs
    obtain ⟨⟨-, hmem, -⟩, rfl⟩ := hs
    exact .loopBack hmem
  | payloadReady b =>
    simp only [step, Option.ite_none_right_eq_some, Option.some.injEq] at hs
    obtain ⟨⟨-, hmem⟩, rfl⟩ := hs
    exact .payloadReady hmem
  | payloadCancel b =>
    cases hs
    exact .payloadCancel
  | timer =>
    simp only [step, Option.ite_none_right_eq_some, Option.some.injEq] at hs
    obtain ⟨hidle, rfl⟩ := hs
    exact .timer hidle
  | pause resumed =>
    simp only [step, Option.ite_none_right_eq_some, Option.some.injEq] at hs
    obtain ⟨hidle, rfl⟩ := hs
    cases resumed with
    | true => exact .resume hidle
    | false => exact .abandon hidle
  | next => exact .next (runCall_runs hs)
  | status st =>
    simp only [step] at hs
    split at hs <;> cases hs
    exact .status ‹_›
  | payload digests =>
    simp only [step] at hs
    split at hs
    · split at hs <;> cases hs
      rename_i hcall hboycott
      exact .payload hcall (Bool.eq_false_iff.mpr hboycott)
    · cases hs
  | storeWrite d value =>
    cases hs
    exact .storeWrite

end Core

end AccountabilityGadget.Consensus
