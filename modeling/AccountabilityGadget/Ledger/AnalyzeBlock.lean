import AccountabilityGadget.Lib.Machine
import AccountabilityGadget.Mempool.SharedStore

/-!
# From committed blocks to the ledger (`mynode/src/mynode.rs`)

The task `analyze_block` walks from each committed block down to genesis, reading the ancestors
from the store, and then up again; of the blocks whose round it has not processed yet it reads the
payloads from the store and sends their transactions to the checkpoint extractor.  The mempool and
the consensus core write to the same store at the same time, so the task takes one step for each
read.

* `getParentBlock` — the parent of a block: genesis, or what the store has under its digest.
* `Node.analyze` — a step of the task; `Node.step`, `machine` — the task together with the mempool
  and the two effects of the consensus core that it sees.
-/

set_option autoImplicit false

namespace AccountabilityGadget.Ledger

open Encoding Consensus Mempool

/-- Where the loop of the task is. -/
inductive Phase where
  /-- In `self.commit.recv().await`. -/
  | waiting
  /-- Below the blocks `blks`, at `blk`. -/
  | walking (blks : List Block) (blk : Block)
  /-- Before the blocks `blks`, with these digests of the current block left. -/
  | processing (blks : List Block) (digests : List Digest)
  | stopped (p : Panic)
  deriving DecidableEq

structure Node where
  mempool : Mempool.Core
  /-- What the consensus core has committed. -/
  committed : List Block
  /-- The commit channel. -/
  commit : List Block
  smallestUnprocessedRound : RoundNumber
  phase : Phase
  /-- What went to the checkpoint extractor. -/
  ledger : List ByteVec

inductive Input where
  /-- The mempool core receives a message. -/
  | message (m : MempoolMessage)
  /-- The consensus asks for a payload; `made` is what the payload maker answers. -/
  | get (max : ℕ) (made : Option Payload)
  | cleanup (digests : List Digest)
  /-- The consensus core stores a block. -/
  | store (b : Block)
  /-- The consensus core commits a block. -/
  | commit (b : Block)
  /-- The task `analyze_block` takes a step. -/
  | analyze
  deriving DecidableEq

section

variable (cr : BatchCrypto)

/-- `Ok(None)` at genesis. -/
def getParentBlock (store : Store) (block : Block) : Except Panic (Option Block) :=
  if block.digest cr = Block.genesis.digest cr then .ok none
  else if block.qc.eq .genesis then .ok (some .genesis)
  else
    match store.read block.parent.toBytes with
    | some bytes =>
      (expect "Failed to get parent block!" (Block.tryFrom cr.toCrypto bytes)).map some
    | none => .error (.expect "Could not load parent block!?")

/-- The transactions of the payload stored under a digest. -/
def readPayload (store : Store) (digest : Digest) : Except Panic (List ByteVec) :=
  match store.read digest.toBytes with
  | some bytes =>
    (expect "Failed to deserialize payload" (Payload.tryFrom bytes)).map (·.transactions)
  | none => .error (.expect "Failed to retrieve payload (2)")

def storeBlock (store : Store) (block : Block) : Store :=
  store.write (block.digest cr).toBytes block.encode

namespace Node

def new : Node := ⟨.new .empty, [], [], 0, .waiting, []⟩

/-- One step of `analyze_block`, none while it waits for a commit or when it has panicked. -/
def analyze (n : Node) : Option Node :=
  match n.phase with
  | .waiting =>
    match n.commit with
    | [] => none
    | block :: rest => some { n with commit := rest, phase := .walking [] block }
  | .walking blks blk =>
    match getParentBlock cr n.mempool.store blk with
    | .error p => some { n with phase := .stopped p }
    | .ok none => some { n with phase := .processing (blk :: blks) [] }
    | .ok (some parent) => some { n with phase := .walking (blk :: blks) parent }
  | .processing blks (digest :: digests) =>
    match readPayload n.mempool.store digest with
    | .error p => some { n with phase := .stopped p }
    | .ok txs => some { n with ledger := n.ledger ++ txs, phase := .processing blks digests }
  | .processing [] [] => some { n with phase := .waiting }
  | .processing (block :: blks) [] =>
    if n.smallestUnprocessedRound ≤ block.round then
      some { n with
        smallestUnprocessedRound := block.round + 1
        phase := .processing blks block.payload }
    else some { n with phase := .processing blks [] }
  | .stopped _ => none

variable (parameters : Parameters) (authorities : List PublicKey)

def step (n : Node) : Input → Option Node
  | .message m => some { n with mempool := n.mempool.handle (.ofBatch cr parameters authorities) m }
  | .get max made =>
    some { n with mempool := (n.mempool.handleGet (.ofBatch cr parameters authorities) max made).1 }
  | .cleanup digests => some { n with mempool := n.mempool.cleanup digests }
  | .store b =>
    some { n with mempool := { n.mempool with store := storeBlock cr n.mempool.store b } }
  | .commit b => some { n with committed := n.committed ++ [b], commit := n.commit ++ [b] }
  | .analyze => n.analyze cr

end Node

/-- The runs of a node from an empty store. -/
def machine (parameters : Parameters) (authorities : List PublicKey) : Machine Node Input :=
  .ofStep (· = .new) (Node.step cr parameters authorities)

end

end AccountabilityGadget.Ledger
