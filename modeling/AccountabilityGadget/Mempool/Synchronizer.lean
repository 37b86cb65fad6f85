import AccountabilityGadget.Lib.Machine
import AccountabilityGadget.Mempool.SharedStore
import AccountabilityGadget.StoreActor

/-!
# Blocks that wait for their payloads (`mempool/src/synchronizer.rs`)

`verify_payload` asks the store for each payload of a block; if some are missing it hands the block
to the task of the synchronizer and answers `Ok(false)`.  The task makes a waiter, which asks the
store to be notified of each missing payload, and sends the block back to the consensus when it has
all notifications.

* `Synchronizer.step` — the check of the core, the task, its waiters and the store, one step at a
  time; each of them talks to the others through its channel.
* `Synchronizer.Takes` — what a step does; `takes_of_step`.
* `Synchronizer.machine` — the runs on blocks of the committee.
-/

set_option autoImplicit false

namespace AccountabilityGadget.Mempool

open Consensus Notify

/-! ## The parties -/

/-- Where an answer of the store goes. -/
inductive Sender where
  /-- The read of a digest in `verify_payload`. -/
  | core (digest : Digest)
  /-- The notification that a waiter waits for. -/
  | waiter (id : ℕ) (digest : Digest)
  | other (n : ℕ)
  deriving DecidableEq

/-- A command of the rest of the program. -/
def Foreign (c : StoreCommand Sender) : Bool :=
  match c.sender? with
  | none | some (.other _) => true
  | _ => false

inductive SynchronizerMessage where
  | sync (missing : List Digest) (block : Block)
  | clean (round : RoundNumber)
  deriving DecidableEq

/-- Where `verify_payload` is. -/
inductive Verify where
  | idle
  /-- Before it sends the read of the first of the digests `rest`. -/
  | asking (block : Block) (rest missing : List Digest)
  /-- In `self.store.read(digest.to_vec()).await`. -/
  | reading (block : Block) (digest : Digest) (rest missing : List Digest)
  deriving DecidableEq

/-- A future that waits for `missing`: it has still to ask for `unsent`, and has no answer yet for
`awaited`. -/
structure Waiter where
  block : Block
  missing : List Digest
  unsent : List Digest
  awaited : List Digest
  deriving DecidableEq

/-- The value that is read for the core. -/
def valueFor (d : Digest) : Reply Sender Bytes → Option (Option Bytes)
  | .value (.core d') v => if d' = d then some v else none
  | _ => none

/-- A waiter is notified of a digest. -/
def Notifies (id : ℕ) (d : Digest) : Reply Sender Bytes → Bool
  | .notified (.waiter id' d') _ => id' = id ∧ d' = d
  | _ => false

def Verify.receive (replies : List (Reply Sender Bytes)) : Verify → Verify
  | .reading b d rest missing =>
    match replies.findSome? (valueFor d) with
    | some none => .asking b rest (missing.insert d)
    | some (some _) => .asking b rest missing
    | none => .reading b d rest missing
  | v => v

def Waiter.receive (replies : List (Reply Sender Bytes)) (id : ℕ) (w : Waiter) : Waiter :=
  { w with awaited := w.awaited.filter fun d => ¬ replies.any (Notifies id d) }

structure Synchronizer where
  store : StoreActor Sender
  /-- The channel of the store. -/
  commands : List (StoreCommand Sender)
  verify : Verify
  /-- What `verify_payload` has answered. -/
  answers : List (Block × Bool)
  inner : List SynchronizerMessage
  nextId : ℕ
  /-- The futures, by the channel that cancels them. -/
  waiting : ℕ → Option Waiter
  pending : Digest → Option (RoundNumber × ℕ)
  requests : List (Digest × RoundNumber × ℕ)
  /-- What went to the network. -/
  sent : List (MempoolMessage × Option PublicKey)
  /-- The blocks that went back to the consensus, with the waiters that sent them. -/
  loopBacks : List (ℕ × Block)
  stopped : Option Panic

namespace Synchronizer

structure Env where
  cr : BatchCrypto
  name : PublicKey
  authorities : List PublicKey
  syncRetryDelay : ℕ

inductive Input where
  /-- Another task sends a command to the store. -/
  | command (c : StoreCommand Sender)
  /-- The store handles a command. -/
  | store
  /-- The core receives a block to check. -/
  | verify (b : Block)
  /-- `verify_payload` goes on. -/
  | core
  /-- The core tells the synchronizer to clean up. -/
  | cleanup (round : RoundNumber)
  /-- The task takes the next message. -/
  | inner (now : ℕ)
  /-- A waiter sends `NotifyRead`. -/
  | notify (id : ℕ) (d : Digest)
  /-- A waiter has all notifications. -/
  | complete (id : ℕ)
  /-- A waiter is cancelled. -/
  | cancel (id : ℕ)
  | timer (now : ℕ)
  deriving DecidableEq

def new (db : Store) : Synchronizer where
  store := .new db
  commands := []
  verify := .idle
  answers := []
  inner := []
  nextId := 0
  waiting := fun _ => none
  pending := fun _ => none
  requests := []
  sent := []
  loopBacks := []
  stopped := none

/-! ## The store -/

/-- The answers of the store arrive. -/
def receive (s : Synchronizer) (replies : List (Reply Sender Bytes)) : Synchronizer :=
  { s with
    verify := s.verify.receive replies
    waiting := fun id => (s.waiting id).map (Waiter.receive replies id) }

/-- The state after the store has handled a command. -/
def served (s : Synchronizer) (c : StoreCommand Sender) (rest : List (StoreCommand Sender)) :
    Synchronizer :=
  { s with store := (s.store.handle c).1, commands := rest }.receive (s.store.handle c).2

/-! ## The task -/

variable (env : Env)

/-- A new entry and its waiter. -/
def enter (s : Synchronizer) (missing : List Digest) (block : Block) : Synchronizer :=
  { s with
    pending := Function.update s.pending (block.digest env.cr) (some (block.round, s.nextId))
    waiting := Function.update s.waiting s.nextId (some ⟨block, missing, missing, []⟩)
    nextId := s.nextId + 1 }

theorem enter_waiting (s : Synchronizer) (missing : List Digest) (block : Block) :
    (s.enter env missing block).waiting =
      Function.update s.waiting s.nextId (some ⟨block, missing, missing, []⟩) := rfl

theorem enter_pending (s : Synchronizer) (missing : List Digest) (block : Block) :
    (s.enter env missing block).pending =
      Function.update s.pending (block.digest env.cr) (some (block.round, s.nextId)) := rfl

/-- `SynchronizerMessage::Sync`, of a block that does not wait yet. -/
def register (s : Synchronizer) (now : ℕ) (missing : List Digest) (block : Block) : Synchronizer :=
  let s := s.enter env missing block
  let missing := missing.filter fun x => ¬ s.requests.any (·.1 = x)
  if missing = [] then s
  else
    let s := { s with requests := s.requests ++ missing.map fun x => (x, block.round, now) }
    if block.author ∈ env.authorities then
      { s with sent := s.sent ++ [(.payloadRequest missing env.name, some block.author)] }
    else { s with stopped := some (.expect "Failed to send payload sync request") }

def handleMessage (s : Synchronizer) (now : ℕ) : SynchronizerMessage → Synchronizer
  | .sync missing block =>
    if (s.pending (block.digest env.cr)).isSome then s else s.register env now missing block
  -- the channels that cancel the waiters go with the entries
  | .clean round => { s with
      pending := fun d => (s.pending d).filter fun e => round < e.1
      requests := s.requests.filter fun e => round < e.2.1 }

/-- The waiter has all notifications and sends its block back. -/
def deliver (s : Synchronizer) (id : ℕ) (block : Block) : Synchronizer :=
  { s with
    waiting := Function.update s.waiting id none
    pending := Function.update s.pending (block.digest env.cr) none
    requests := s.requests.filter fun e => e.1 ∉ block.payload
    loopBacks := s.loopBacks ++ [(id, block)] }

theorem deliver_pending (s : Synchronizer) (id : ℕ) (block : Block) :
    (s.deliver env id block).pending = Function.update s.pending (block.digest env.cr) none := rfl

/-- A waiter asks the store. -/
def notifyRead (s : Synchronizer) (id : ℕ) (w : Waiter) (d : Digest) : Synchronizer :=
  { s with
    commands := s.commands ++ [.notifyRead d.toBytes (.waiter id d)]
    waiting := Function.update s.waiting id
      (some { w with unsent := w.unsent.filter (· ≠ d), awaited := w.awaited ++ [d] }) }

theorem notifyRead_waiting (s : Synchronizer) (id : ℕ) (w : Waiter) (d : Digest) :
    (s.notifyRead id w d).waiting = Function.update s.waiting id
      (some { w with unsent := w.unsent.filter (· ≠ d), awaited := w.awaited ++ [d] }) := rfl

/-- The channel that cancels a waiter is gone: it is kept with the entry of the block. -/
def Cancelled (s : Synchronizer) (id : ℕ) (w : Waiter) : Prop :=
  (s.pending (w.block.digest env.cr)).map (·.2) ≠ some id

instance (s : Synchronizer) (id : ℕ) (w : Waiter) : Decidable (s.Cancelled env id w) :=
  inferInstanceAs (Decidable (_ ≠ _))

def onTimer (s : Synchronizer) (now : ℕ) : Synchronizer :=
  let retransmit := (s.requests.filter fun e => e.2.2 + env.syncRetryDelay < now).map (·.1)
  if retransmit = [] then s
  else { s with sent := s.sent ++ [(.payloadRequest retransmit env.name, none)] }

/-- A step of the task or of one of its waiters. -/
def stepTask (s : Synchronizer) : Input → Option Synchronizer
  | .inner now =>
    match s.inner with
    | [] => none
    | m :: rest => some ({ s with inner := rest }.handleMessage env now m)
  | .notify id d =>
    match s.waiting id with
    | none => none
    | some w => if d ∈ w.unsent then some (s.notifyRead id w d) else none
  | .complete id =>
    match s.waiting id with
    | none => none
    | some w => if w.unsent = [] ∧ w.awaited = [] then some (s.deliver env id w.block) else none
  | .cancel id =>
    match s.waiting id with
    | none => none
    | some w =>
      if s.Cancelled env id w then some { s with waiting := Function.update s.waiting id none }
      else none
  | .timer now => some (s.onTimer env now)
  | _ => none

/-- The check of the core. -/
def stepVerify (s : Synchronizer) : Option Synchronizer :=
  match s.verify with
  | .asking b (d :: rest) missing => some { s with
      verify := .reading b d rest missing
      commands := s.commands ++ [.read d.toBytes (.core d)] }
  | .asking b [] missing =>
    if missing = [] then some { s with verify := .idle, answers := s.answers ++ [(b, true)] }
    else some { s with
      verify := .idle
      inner := s.inner ++ [.sync missing b]
      answers := s.answers ++ [(b, false)] }
  | _ => none

def step (s : Synchronizer) : Input → Option Synchronizer
  | .command c => if Foreign c then some { s with commands := s.commands ++ [c] } else none
  | .store =>
    match s.commands with
    | [] => none
    | c :: rest => some (s.served c rest)
  | .verify b => if s.verify = .idle then some { s with verify := .asking b b.payload [] } else none
  | .core => s.stepVerify
  | .cleanup round =>
    if s.verify = .idle then some { s with inner := s.inner ++ [.clean round] } else none
  | i => if s.stopped.isSome then none else s.stepTask env i

/-- What a step does. -/
inductive Takes (s : Synchronizer) : Input → Synchronizer → Prop
  | command {c : StoreCommand Sender} : Foreign c = true →
      Takes s (.command c) { s with commands := s.commands ++ [c] }
  | store {c : StoreCommand Sender} {rest : List (StoreCommand Sender)} : s.commands = c :: rest →
      Takes s .store (s.served c rest)
  | verify {b : Block} : s.verify = .idle →
      Takes s (.verify b) { s with verify := .asking b b.payload [] }
  | core {s' : Synchronizer} : s.stepVerify = some s' → Takes s .core s'
  | cleanup {round : RoundNumber} : s.verify = .idle →
      Takes s (.cleanup round) { s with inner := s.inner ++ [.clean round] }
  | inner {now : ℕ} {m : SynchronizerMessage} {rest : List SynchronizerMessage} :
      s.inner = m :: rest → Takes s (.inner now) ({ s with inner := rest }.handleMessage env now m)
  | notify {id : ℕ} {d : Digest} {w : Waiter} : s.waiting id = some w → d ∈ w.unsent →
      Takes s (.notify id d) (s.notifyRead id w d)
  | complete {id : ℕ} {w : Waiter} : s.waiting id = some w → w.unsent = [] → w.awaited = [] →
      Takes s (.complete id) (s.deliver env id w.block)
  | cancel {id : ℕ} {w : Waiter} : s.waiting id = some w → s.Cancelled env id w →
      Takes s (.cancel id) { s with waiting := Function.update s.waiting id none }
  | timer {now : ℕ} : Takes s (.timer now) (s.onTimer env now)

variable {env} in
theorem takes_of_stepTask {s s' : Synchronizer} {i : Input} (h : s.stepTask env i = some s') :
    Takes env s i s' := by
  cases i with
  | inner now =>
    simp only [stepTask] at h
    split at h
    · cases h
    · rename_i m rest hm
      cases h
      exact .inner hm
  | notify id d =>
    simp only [stepTask] at h
    split at h
    · cases h
    · rename_i w hw
      split_ifs at h with hd
      cases h
      exact .notify hw hd
  | complete id =>
    simp only [stepTask] at h
    split at h
    · cases h
    · rename_i w hw
      split_ifs at h with hdone
      cases h
      exact .complete hw hdone.1 hdone.2
  | cancel id =>
    simp only [stepTask] at h
    split at h
    · cases h
    · rename_i w hw
      split_ifs at h with hc
      cases h
      exact .cancel hw hc
  | timer now =>
    cases h
    exact .timer
  | command _ | store | verify _ | core | cleanup _ => cases h

variable {env} in
theorem takes_of_step {s s' : Synchronizer} {i : Input} (h : s.step env i = some s') :
    Takes env s i s' := by
  cases i with
  | command c =>
    simp only [step] at h
    split_ifs at h with hc
    cases h
    exact .command hc
  | store =>
    simp only [step] at h
    split at h
    · cases h
    · rename_i c rest hc
      cases h
      exact .store hc
  | verify b =>
    simp only [step] at h
    split_ifs at h with hv
    cases h
    exact .verify hv
  | core => exact .core h
  | cleanup round =>
    simp only [step] at h
    split_ifs at h with hv
    cases h
    exact .cleanup hv
  | inner _ | notify _ _ | complete _ | cancel _ | timer _ =>
    simp only [step] at h
    split_ifs at h
    exact takes_of_stepTask h

/-- The blocks that are checked are of members of the committee, as those are that the consensus has
verified; `S` contains the strings that are hashed for them. -/
def Handed (S : Bytes → Prop) (b : Block) : Prop := S b.preimage ∧ b.author ∈ env.authorities

/-- All interleavings, from any database. -/
def machine (S : Bytes → Prop) : Machine Synchronizer Input :=
  (Machine.ofStep (fun s => ∃ db, s = new db) (step env)).restrict
    fun _ i => ∀ b, i = .verify b → Handed env S b

end Synchronizer

end AccountabilityGadget.Mempool
