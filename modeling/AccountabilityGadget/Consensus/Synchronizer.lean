import AccountabilityGadget.Consensus.Messages
import AccountabilityGadget.Lib.Machine
import AccountabilityGadget.StoreActor
import Mathlib.Data.Finset.Insert

/-!
# Blocks that wait for their parents (`consensus/src/synchronizer.rs`)

`get_parent_block` reads the parent of a block from the store; if it is missing, the block goes to
the task of the synchronizer.  The task makes a waiter, asks the other authorities for the parent
until it comes, and sends the block back to the core when the store has notified the waiter.

* `Synchronizer.step` — the core in `get_parent_block`, the task, its waiters and the store, one step
  at a time; each of them talks to the others through its channel.
* `Synchronizer.Takes` — what a step does; `takes_of_step`.
* `Synchronizer.machine` — the runs on blocks whose strings are in a set.
-/

set_option autoImplicit false

namespace AccountabilityGadget.Consensus

open Notify

/-! ## The parties -/

namespace Synchronizer

/-- Where an answer of the store goes. -/
inductive Asker where
  /-- The read of `get_parent_block`. -/
  | parent (digest : Digest)
  /-- The notification that a waiter waits for. -/
  | waiter (id : ℕ)
  | other (n : ℕ)
  deriving DecidableEq

/-- A command of the rest of the program. -/
def Foreign (c : StoreCommand Asker) : Bool :=
  match c.sender? with
  | none | some (.other _) => true
  | _ => false

/-- Where `get_parent_block` is. -/
inductive Lookup where
  | idle
  /-- In `self.store.read(parent.to_vec()).await`. -/
  | reading (block : Block)
  /-- In `self.inner_channel.send(block.clone()).await`. -/
  | missing (block : Block)
  deriving DecidableEq

/-- Where a waiter is. -/
inductive Phase where
  | created
  /-- In `store.notify_read(wait_on.to_vec()).await`. -/
  | asked
  | notified
  deriving DecidableEq

/-- A future of `waiter`; it waits on the parent of its block. -/
structure Waiter where
  deliver : Block
  phase : Phase
  deriving DecidableEq

/-- The value that is read for a digest. -/
def valueFor (d : Digest) : Reply Asker Bytes → Option (Option Bytes)
  | .value (.parent d') v => if d' = d then some v else none
  | _ => none

/-- A waiter is notified. -/
def Notifies (id : ℕ) : Reply Asker Bytes → Bool
  | .notified (.waiter id') _ => id' = id
  | _ => false

def Lookup.receive (replies : List (Reply Asker Bytes)) : Lookup → Lookup
  | .reading b =>
    match replies.findSome? (valueFor b.parent) with
    | some none => .missing b
    | some (some _) => .idle
    | none => .reading b
  | l => l

def Waiter.receive (replies : List (Reply Asker Bytes)) (id : ℕ) (w : Waiter) : Waiter :=
  if replies.any (Notifies id) then { w with phase := .notified } else w

end Synchronizer

structure Synchronizer where
  store : StoreActor Synchronizer.Asker
  /-- The channel of the store. -/
  commands : List (StoreCommand Synchronizer.Asker)
  lookup : Synchronizer.Lookup
  /-- The blocks for which `get_parent_block` has answered `Ok(None)`. -/
  suspended : List Block
  inner : List Block
  nextId : ℕ
  /-- The futures. -/
  waiting : ℕ → Option Synchronizer.Waiter
  pending : Finset Digest
  requests : List (Digest × ℕ)
  /-- What went to the network. -/
  sent : List (ConsensusMessage × Option PublicKey)
  /-- The blocks that went back to the core, with the waiters that sent them. -/
  loopBacks : List (ℕ × Block)

namespace Synchronizer

structure Env where
  cr : BatchCrypto
  name : PublicKey
  syncRetryDelay : ℕ

inductive Input where
  /-- Another task sends a command to the store. -/
  | command (c : StoreCommand Asker)
  /-- The store handles a command. -/
  | store
  /-- The core calls `get_parent_block`. -/
  | getParentBlock (b : Block)
  /-- `get_parent_block` has found nothing and goes on. -/
  | core
  /-- The task takes the next block. -/
  | inner (now : ℕ)
  /-- A waiter sends `NotifyRead`. -/
  | notify (id : ℕ)
  /-- A waiter is done. -/
  | complete (id : ℕ)
  /-- The timer of the task, with the order in which it goes through `requests`. -/
  | timer (now : ℕ) (order : List (Digest × ℕ))
  deriving DecidableEq

def new (db : Store) : Synchronizer where
  store := .new db
  commands := []
  lookup := .idle
  suspended := []
  inner := []
  nextId := 0
  waiting := fun _ => none
  pending := ∅
  requests := []
  sent := []
  loopBacks := []

/-! ## The store -/

/-- The answers of the store arrive. -/
def receive (s : Synchronizer) (replies : List (Reply Asker Bytes)) : Synchronizer :=
  { s with
    lookup := s.lookup.receive replies
    waiting := fun id => (s.waiting id).map (Waiter.receive replies id) }

/-- The state after the store has handled a command. -/
def served (s : Synchronizer) (c : StoreCommand Asker) (rest : List (StoreCommand Asker)) :
    Synchronizer :=
  { s with store := (s.store.handle c).1, commands := rest }.receive (s.store.handle c).2

/-! ## The task -/

variable (env : Env)

/-- What is asked of the other authorities. -/
def request (digest : Digest) : ConsensusMessage × Option PublicKey :=
  (.syncRequest digest env.name, none)

/-- A new waiter. -/
def enter (s : Synchronizer) (b : Block) : Synchronizer :=
  { s with
    pending := insert (b.digest env.cr) s.pending
    waiting := Function.update s.waiting s.nextId (some ⟨b, .created⟩)
    nextId := s.nextId + 1 }

/-- Ask for a digest, unless this has been done already. -/
def ask (s : Synchronizer) (now : ℕ) (parent : Digest) : Synchronizer :=
  if s.requests.any (·.1 = parent) then s
  else { s with
    requests := s.requests ++ [(parent, now)]
    sent := s.sent ++ [request env parent] }

/-- A block arrives on the inner channel. -/
def register (s : Synchronizer) (now : ℕ) (b : Block) : Synchronizer :=
  if b.digest env.cr ∈ s.pending then s else (s.enter env b).ask env now b.parent

/-- A waiter asks the store. -/
def notifyRead (s : Synchronizer) (id : ℕ) (w : Waiter) : Synchronizer :=
  { s with
    commands := s.commands ++ [.notifyRead w.deliver.parent.toBytes (.waiter id)]
    waiting := Function.update s.waiting id (some { w with phase := .asked }) }

/-- A waiter is done: its block goes back to the core. -/
def deliver (s : Synchronizer) (id : ℕ) (b : Block) : Synchronizer :=
  { s with
    waiting := Function.update s.waiting id none
    pending := s.pending.erase (b.digest env.cr)
    requests := s.requests.filter (·.1 ≠ b.parent)
    loopBacks := s.loopBacks ++ [(id, b)] }

def onTimer (s : Synchronizer) (now : ℕ) (order : List (Digest × ℕ)) : Synchronizer :=
  { s with sent := s.sent ++
      (order.filter fun e => e.2 + env.syncRetryDelay < now).map fun e => request env e.1 }

def step (s : Synchronizer) : Input → Option Synchronizer
  | .command c => if Foreign c then some { s with commands := s.commands ++ [c] } else none
  | .store =>
    match s.commands with
    | [] => none
    | c :: rest => some (s.served c rest)
  | .getParentBlock b =>
    if s.lookup = .idle then
      -- the parent of these is not read from the store
      if b.qc.eq .genesis then some s
      else some { s with
        lookup := .reading b
        commands := s.commands ++ [.read b.parent.toBytes (.parent b.parent)] }
    else none
  | .core =>
    match s.lookup with
    | .missing b => some { s with
        lookup := .idle
        suspended := s.suspended ++ [b]
        inner := s.inner ++ [b] }
    | _ => none
  | .inner now =>
    match s.inner with
    | [] => none
    | b :: rest => some ({ s with inner := rest }.register env now b)
  | .notify id =>
    match s.waiting id with
    | none => none
    | some w => if w.phase = .created then some (s.notifyRead id w) else none
  | .complete id =>
    match s.waiting id with
    | none => none
    | some w => if w.phase = .notified then some (s.deliver env id w.deliver) else none
  | .timer now order => if order.Perm s.requests then some (s.onTimer env now order) else none

/-- What a step does. -/
inductive Takes (s : Synchronizer) : Input → Synchronizer → Prop
  | command {c : StoreCommand Asker} : Foreign c = true →
      Takes s (.command c) { s with commands := s.commands ++ [c] }
  | store {c : StoreCommand Asker} {rest : List (StoreCommand Asker)} : s.commands = c :: rest →
      Takes s .store (s.served c rest)
  | genesis {b : Block} : b.qc.eq .genesis = true → Takes s (.getParentBlock b) s
  | read {b : Block} : Takes s (.getParentBlock b) { s with
      lookup := .reading b
      commands := s.commands ++ [.read b.parent.toBytes (.parent b.parent)] }
  | core {b : Block} : s.lookup = .missing b → Takes s .core { s with
      lookup := .idle
      suspended := s.suspended ++ [b]
      inner := s.inner ++ [b] }
  | inner {now : ℕ} {b : Block} {rest : List Block} : s.inner = b :: rest →
      Takes s (.inner now) ({ s with inner := rest }.register env now b)
  | notify {id : ℕ} {w : Waiter} : s.waiting id = some w → w.phase = .created →
      Takes s (.notify id) (s.notifyRead id w)
  | complete {id : ℕ} {w : Waiter} : s.waiting id = some w → w.phase = .notified →
      Takes s (.complete id) (s.deliver env id w.deliver)
  | timer {now : ℕ} {order : List (Digest × ℕ)} : order.Perm s.requests →
      Takes s (.timer now order) (s.onTimer env now order)

variable {env} in
theorem takes_of_step {s s' : Synchronizer} {i : Input} (h : s.step env i = some s') :
    Takes env s i s' := by
  cases i with
  | command c =>
    simp only [step] at h
    split_ifs at h with hc
    cases h
    exact .command hc
  | store =>
    simp only [step] at h
    split at h
    · cases h
    · rename_i c rest hc
      cases h
      exact .store hc
  | getParentBlock b =>
    simp only [step] at h
    split_ifs at h with hidle hgenesis <;> cases h
    · exact .genesis hgenesis
    · exact .read
  | core =>
    simp only [step] at h
    split at h
    · rename_i b hb
      cases h
      exact .core hb
    · cases h
  | inner now =>
    simp only [step] at h
    split at h
    · cases h
    · rename_i b rest hb
      cases h
      exact .inner hb
  | notify id =>
    simp only [step] at h
    split at h
    · cases h
    · rename_i w hw
      split_ifs at h with hp
      cases h
      exact .notify hw hp
  | complete id =>
    simp only [step] at h
    split at h
    · cases h
    · rename_i w hw
      split_ifs at h with hp
      cases h
      exact .complete hw hp
  | timer now order =>
    simp only [step] at h
    split_ifs at h with ho
    cases h
    exact .timer ho

/-- All interleavings, from any database; `S` contains the strings that are hashed for the blocks that
the core handles. -/
def machine (S : Bytes → Prop) : Machine Synchronizer Input :=
  (Machine.ofStep (fun s => ∃ db, s = new db) (step env)).restrict
    fun _ i => ∀ b, i = .getParentBlock b → S b.preimage

end Synchronizer

end AccountabilityGadget.Consensus
