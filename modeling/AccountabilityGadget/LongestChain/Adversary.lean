import AccountabilityGadget.Lib.History
import AccountabilityGadget.Lib.Machine
import AccountabilityGadget.LongestChain.Manager

/-!
# The adversarial node (`mynode/src/myadversarialnode.rs`)

* `AdversarialNode.step` — the main logic and the tree manager that it feeds and asks, interleaved
  in any order.
* `Closed` — what the node sends on the topic `lcblocks` has a public parent.
* `PassedOver` — a block of the tree that the watermark has reached and that is not public.
* `Orderly` — a condition on the arrivals: no hidden block comes to extend a passed-over one, and
  public blocks come after their parents.
* `Inv.hide`, `Inv.receive`, `Inv.manage`, `Inv.query` — in orderly runs the parent of a hidden block
  is above the watermark or public.
* `release_closed` — so every block that is sent has a public parent.

The queries of one response are a single step: between them the manager can take in checkpoints and
pending duplicates of blocks that it has, and both leave its blocks as they are.
-/

set_option autoImplicit false

namespace AccountabilityGadget

open Encoding

/-! ## Messages -/

inductive AdversarialGossipMsg where
  | hello (pk : PublicKey)
  | hiddenLcBlock (blk : LcBlock)
  deriving DecidableEq

namespace AdversarialGossipMsg

def encode : AdversarialGossipMsg → Bytes
  | hello pk => leBytes 4 0 ++ pk.encode
  | hiddenLcBlock blk => leBytes 4 1 ++ blk.encode

def decode (cr : Crypto) : Decoder (Fault DecodeError) AdversarialGossipMsg := do
  let variant ← uint 4
  if variant = 0 then
    let pk ← PublicKey.decode cr
    return hello pk
  else if variant = 1 then
    let blk ← LcBlock.decode
    return hiddenLcBlock blk
  else throw WireError.tag

/-- `bincode::deserialize`: trailing bytes are ignored. -/
def tryFrom (cr : Crypto) (value : Bytes) : Except (Fault DecodeError) AdversarialGossipMsg :=
  match (decode cr).run value with
  | .error e => .error e
  | .ok (m, _) => .ok m

theorem tryFrom_hidden (cr : Crypto) (blk : LcBlock) :
    tryFrom cr (hiddenLcBlock blk).encode = .ok (hiddenLcBlock blk) := by
  have hd : Inverts encode (decode cr) (hiddenLcBlock blk) := by
    intro rest
    rw [encode, List.append_assoc, decode, run_bind, run_uint (by decide)]
    simp only [one_ne_zero, if_true, if_false]
    rw [run_bind, LcBlock.decode_inverts]
    rfl
  have h := hd []
  rw [List.append_nil] at h
  rw [tryFrom, h]

end AdversarialGossipMsg

/-! ## The node -/

/-- Where the main logic is: a block has gone to the manager and its height is awaited. -/
inductive AdversaryPhase where
  | idle
  | hidden (blk : LcBlock)
  | inbound (blk : LcBlock)
  deriving DecidableEq

/-- The topic `lcblocks`, as this node sees it. -/
inductive Traffic where
  | received (blk : LcBlock)
  | sent (blk : LcBlock)
  deriving DecidableEq

structure AdversarialNode where
  adversaryLeader : PublicKey
  highestHonestBlock : ℕ
  phase : AdversaryPhase
  /-- The channel `tx_new_mined_blocks`. -/
  newMinedBlocks : List Bytes
  manager : Manager
  /-- What was sent to the other adversaries. -/
  advOutbound : List AdversarialGossipMsg
  /-- The blocks received from the adversaries; the code does not keep them. -/
  hidden : List LcBlock
  /-- The public blocks in their order; the code does not keep them either. -/
  traffic : List Traffic
  stopped : Option Panic

namespace AdversarialNode

def new (cr : Crypto) (name : PublicKey) : AdversarialNode where
  adversaryLeader := name
  highestHonestBlock := 0
  phase := .idle
  newMinedBlocks := []
  manager := .new cr
  advOutbound := []
  hidden := []
  traffic := []
  stopped := none

variable (cr : Crypto) (params : TreeParameters) (ord : HashOrder Digest) (s : AdversarialNode)

def stop (p : Panic) : AdversarialNode := { s with stopped := some p }

/-- `option.expect(msg)`. -/
def expectSome {α : Type} (msg : String) : Option α → Except Panic α
  | none => .error (.expect msg)
  | some a => .ok a

/-- A command to the manager; nobody answers when it has stopped. -/
def ask {α : Type} (answer : Except Panic α) : Except Panic α :=
  if s.manager.stopped = none then answer else .error (.expect "failed to recv command response!")

def getHeightOfBlock (d : Digest) : Except Panic (Option ℕ) :=
  s.ask (ok (s.manager.lcblocktree.height d))

def getCurrentTip : Except Panic Digest :=
  s.ask (s.manager.lcblocktree.leadingTipExtending ord (s.manager.latestCheckpoint cr))

def getParentOfBlock (d : Digest) : Except Panic (Option (Option Digest)) :=
  s.ask (ok (s.manager.lcblocktree.parent d))

def getBlock (d : Digest) : Except Panic (Option LcBlock) :=
  s.ask (ok (s.manager.lcblocktree.block d))

/-- `blk_tip = parent(blk_tip)` as often as `blk_tip_height` exceeds `blk_height`. -/
def walkDown : ℕ → Digest → Except Panic Digest
  | 0, blkTip => .ok blkTip
  | n + 1, blkTip => do
    let parent ← expectSome "failed to determine block parent!?" (← s.getParentOfBlock blkTip)
    match parent with
    | none => .error .unwrap
    | some p => walkDown n p

/-- The block that answers a new honest block of this height. -/
def respond (blkHeight : ℕ) : Except Panic (Option LcBlock) := do
  let blkTip ← s.getCurrentTip cr ord
  let blkTipHeight ← expectSome "failed to determine block height!?" (← s.getHeightOfBlock blkTip)
  if blkHeight ≤ blkTipHeight then
    let d ← s.walkDown (blkTipHeight - blkHeight) blkTip
    let blkAdv ← expectSome "failed to obtain block!?" (← s.getBlock d)
    return if blkAdv.isAdversarial then some blkAdv else none
  else return none

/-- A block from the local miner. -/
def onMined (v : Bytes) : AdversarialNode :=
  match expect "failed to deserialize inbound LcBlock!" (LcBlock.tryFrom v) with
  | .error p => s.stop p
  | .ok blk => { s with advOutbound := s.advOutbound ++ [.hiddenLcBlock blk] }

/-- A message of the topic `adversary`. -/
def onAdversary (v : Bytes) : AdversarialNode :=
  match expect "failed to deserialize inbound AdversarialGossipMsg!"
      (AdversarialGossipMsg.tryFrom cr v) with
  | .error p => s.stop p
  | .ok (.hello pk) => if pk.data < s.adversaryLeader.data then { s with adversaryLeader := pk } else s
  | .ok (.hiddenLcBlock blk) =>
    if s.manager.stopped = none then
      { s with
        newMinedBlocks := s.newMinedBlocks ++ [blk.encode]
        hidden := s.hidden ++ [blk]
        phase := .hidden blk }
    else s.stop (.expect "failed to deliver newly mined block!")

/-- A message of the topic `lcblocks`. -/
def onInbound (v : Bytes) : AdversarialNode :=
  match expect "failed to deserialize inbound LcBlock!" (LcBlock.tryFrom v) with
  | .error p => s.stop p
  | .ok blk =>
    if s.manager.stopped = none then
      { s with
        newMinedBlocks := s.newMinedBlocks ++ [v]
        traffic := s.traffic ++ [.received blk]
        phase := .inbound blk }
    else s.stop (.expect "failed to deliver block from the network!")

/-- The main logic asks for the height it waits for and, once it is known, acts on it. -/
def query : Option AdversarialNode :=
  match s.phase with
  | .idle => none
  | .hidden blk =>
    match s.getHeightOfBlock (blk.digest cr) with
    | .error p => some (s.stop p)
    | .ok none => some s
    | .ok (some blkHeight) => some
      { s with
        phase := .idle
        traffic := s.traffic ++ if blkHeight ≤ s.highestHonestBlock then [.sent blk] else [] }
  | .inbound blk =>
    match s.getHeightOfBlock (blk.digest cr) with
    | .error p => some (s.stop p)
    | .ok none => some s
    | .ok (some blkHeight) =>
      if ¬ blk.isAdversarial ∧ s.highestHonestBlock < blkHeight then
        match s.respond cr ord blkHeight with
        | .error p => some (s.stop p)
        | .ok blkAdv => some
          { s with
            phase := .idle
            traffic := s.traffic ++ (blkAdv.map Traffic.sent).toList
            highestHonestBlock := blkHeight }
      else some { s with phase := .idle }

inductive Input where
  | mined (v : Bytes)
  | adversary (v : Bytes)
  | inbound (v : Bytes)
  /-- The manager takes a block from its channel. -/
  | manage (ord : HashOrder Digest)
  | checkpoint (ord : HashOrder Digest) (e : CheckpointEvent)
  | query (ord : HashOrder Digest)

def step : Input → Option AdversarialNode
  | .mined v => if s.stopped = none ∧ s.phase = .idle then some (s.onMined v) else none
  | .adversary v => if s.stopped = none ∧ s.phase = .idle then some (s.onAdversary cr v) else none
  | .inbound v => if s.stopped = none ∧ s.phase = .idle then some (s.onInbound v) else none
  | .manage ord =>
    match s.newMinedBlocks with
    | [] => none
    | v :: newMinedBlocks =>
      if s.manager.stopped = none then
        some { s with newMinedBlocks, manager := s.manager.onMessage cr params ord v }
      else none
  | .checkpoint ord e =>
    if s.manager.stopped = none then
      some { s with manager := s.manager.onCheckpointEvent cr params ord e }
    else none
  | .query ord => if s.stopped = none then s.query cr ord else none

def machine (name : PublicKey) : Machine AdversarialNode Input :=
  .ofStep (fun s => s = new cr name) (step cr params)

/-! ## The public tree -/

def receivedBlock? : Traffic → Option LcBlock
  | .received blk => some blk
  | .sent _ => none

/-- All blocks that reached the node. -/
def blocks : List LcBlock := s.hidden ++ s.traffic.filterMap receivedBlock?

/-- Genesis, or a block of the traffic. -/
def Public (log : List Traffic) (d : Digest) : Prop :=
  d = LcBlock.genesisDigest cr ∨
    ∃ blk, (.received blk ∈ log ∨ .sent blk ∈ log) ∧ blk.digest cr = d

/-- Every block that was sent has a parent that was public before. -/
def Closed (log : List Traffic) : Prop :=
  ∀ pre blk post, log = pre ++ .sent blk :: post → ∀ p, blk.parent = some p → Public cr pre p

/-- A block of the tree that the watermark has reached and that is not public. -/
def PassedOver (d : Digest) : Prop :=
  s.manager.lcblocktree.Mem d ∧ s.manager.lcblocktree.heightOf d ≤ s.highestHonestBlock ∧
    ¬ Public cr s.traffic d

/-- The block is the one of this height on the leading chain, and adversarial. -/
def Leading (h : ℕ) (d : Digest) : Prop :=
  s.manager.lcblocktree.heightOf d = h ∧ s.manager.lcblocktree.adversarial d = true ∧
    ∃ tip, s.getCurrentTip cr ord = .ok tip ∧ s.manager.lcblocktree.Ext d tip

/-- No hidden block extends a passed-over one: neither the hidden block that arrives, nor, when an
honest block raises the watermark, one on top of a block that the watermark then passes over. Public
blocks come after their parents. -/
def Orderly : Input → Prop
  | .adversary v => ∀ blk p, AdversarialGossipMsg.tryFrom cr v = .ok (.hiddenLcBlock blk) →
    blk.parent = some p → ¬ s.PassedOver cr p
  | .inbound v => ∀ blk p, LcBlock.tryFrom v = .ok blk → blk.parent = some p →
    Public cr s.traffic p
  | .query ord => ∀ b, s.phase = .inbound b → b.isAdversarial = false →
    ∀ y ∈ s.hidden, ∀ p, y.parent = some p → s.highestHonestBlock < s.manager.lcblocktree.heightOf p →
      s.manager.lcblocktree.heightOf p ≤ s.manager.lcblocktree.heightOf (b.digest cr) →
      Public cr s.traffic p ∨ s.Leading cr ord (s.manager.lcblocktree.heightOf (b.digest cr)) p
  | _ => True

/-! ## The log -/

variable {cr params ord s} {t : AdversarialNode} {log : List Traffic} {blk : LcBlock} {d : Digest}

/-- One entry of the log, after the others: if it is a block that was sent, its parent is public. -/
def Allowed (cr : Crypto) (log : List Traffic) (e : Traffic) : Prop :=
  ∀ b, e = .sent b → ∀ p, b.parent = some p → Public cr log p

theorem closed_iff : Closed cr log ↔ Justified (Allowed cr) log := by
  constructor
  · rintro h pre e post he b rfl
    exact h pre b post he
  · intro h pre b post he
    exact h pre _ post he b rfl

theorem closed_concat {e : Traffic} : Closed cr (log ++ [e]) ↔
    Closed cr log ∧ ∀ b, e = .sent b → ∀ p, b.parent = some p → Public cr log p := by
  rw [closed_iff, closed_iff]
  exact justified_concat

theorem closed_nil : Closed cr [] := closed_iff.mpr justified_nil

theorem Public.append {l : List Traffic} (h : Public cr log d) : Public cr (log ++ l) d := by
  rcases h with h | ⟨b, hb, h⟩
  · exact .inl h
  · exact .inr ⟨b, hb.imp (List.mem_append_left _) (List.mem_append_left _), h⟩

/-! ## The queries -/

theorem ask_ok {α : Type} {x : Except Panic α} {a : α} (h : s.ask x = .ok a) :
    s.manager.stopped = none ∧ x = .ok a := by
  unfold ask at h
  split_ifs at h with hl
  exact ⟨hl, h⟩

theorem getHeightOfBlock_ok (hw : LcBlockTree.WellFormed cr s.manager.lcblocktree) {h : ℕ}
    (hh : s.getHeightOfBlock d = .ok (some h)) : s.manager.stopped = none ∧
      s.manager.lcblocktree.Mem d ∧ s.manager.lcblocktree.heightOf d = h := by
  obtain ⟨hl, hok⟩ := ask_ok hh
  have hht := ok_eq_some.mp hok
  have hm := LcBlockTree.mem_of_height hht
  rw [hw.height_eq hm, Except.ok.injEq] at hht
  exact ⟨hl, hm, hht⟩

theorem getHeightOfBlock_eq (hw : LcBlockTree.WellFormed cr s.manager.lcblocktree)
    (hl : s.manager.stopped = none) (hd : s.manager.lcblocktree.Mem d) :
    s.getHeightOfBlock d = .ok (some (s.manager.lcblocktree.heightOf d)) := by
  rw [getHeightOfBlock, ask, if_pos hl, hw.height_eq hd]
  rfl

theorem getCurrentTip_ok (hw : LcBlockTree.WellFormed cr s.manager.lcblocktree) {tip : Digest}
    (h : s.getCurrentTip cr ord = .ok tip) :
    s.manager.stopped = none ∧ s.manager.lcblocktree.Mem tip := by
  obtain ⟨hl, ht⟩ := ask_ok h
  obtain ⟨tip', ht', hm, -⟩ := hw.leadingTip_spec ord (hw.mem_of_leadingTip ht)
  rw [ht, Except.ok.injEq] at ht'
  exact ⟨hl, ht' ▸ hm⟩

/-- The walk follows the parents. -/
theorem walkDown_eq (hw : LcBlockTree.WellFormed cr s.manager.lcblocktree)
    (hl : s.manager.stopped = none) : ∀ {n : ℕ} {d : Digest}, s.manager.lcblocktree.Mem d →
      n ≤ s.manager.lcblocktree.heightOf d →
      s.walkDown n d = .ok (Ancestry.up s.manager.lcblocktree.parentOf n d)
  | 0, _, _, _ => rfl
  | n + 1, d, hd, hn => by
    have G := hw.graded
    obtain ⟨b, hb⟩ := LcBlockTree.mem_iff.mp hd
    cases hp : s.manager.lcblocktree.parentOf d with
    | none =>
      have := G.height_root d hd hp
      omega
    | some p =>
      have hh := G.height_parent d p hd hp
      have hbp : b.parent = some p := by
        rw [LcBlockTree.parentOf, hb] at hp
        exact hp
      have hask : s.getParentOfBlock d = .ok (some (some p)) := by
        rw [getParentOfBlock, ask, if_pos hl, LcBlockTree.parent, hb]
        simp only [hbp]
        rfl
      have hih := walkDown_eq hw hl (G.closed d p hd hp) (show n ≤ _ by omega)
      simp only [walkDown, hask, expectSome, Ancestry.up, hp, bind, Except.bind, hih]

/-- **The response is the block on the leading chain at the height of the new one**, if there is
such a block and it is adversarial. -/
theorem respond_eq (hw : LcBlockTree.WellFormed cr s.manager.lcblocktree) {tip : Digest} (h : ℕ)
    (ht : s.getCurrentTip cr ord = .ok tip) : ∃ b,
      s.manager.lcblocktree.lcblocks (Ancestry.up s.manager.lcblocktree.parentOf
        (s.manager.lcblocktree.heightOf tip - h) tip) = some b ∧
      s.respond cr ord h = .ok (if h ≤ s.manager.lcblocktree.heightOf tip ∧ b.isAdversarial
        then some b else none) := by
  have G := hw.graded
  obtain ⟨hl, hm⟩ := getCurrentTip_ok hw ht
  obtain ⟨b, hb⟩ := LcBlockTree.mem_iff.mp (G.mem_anc hm
    (Ancestry.up_anc (s.manager.lcblocktree.heightOf tip - h) tip))
  refine ⟨b, hb, ?_⟩
  have hheight := getHeightOfBlock_eq hw hl hm
  have hwalk := walkDown_eq hw hl hm
    (Nat.sub_le (s.manager.lcblocktree.heightOf tip) h)
  have hget : s.getBlock (Ancestry.up s.manager.lcblocktree.parentOf
      (s.manager.lcblocktree.heightOf tip - h) tip) = .ok (some b) := by
    rw [getBlock, ask, if_pos hl, LcBlockTree.block, hb]
    rfl
  simp only [respond, ht, hheight, hwalk, hget, expectSome, bind, Except.bind]
  by_cases hle : h ≤ s.manager.lcblocktree.heightOf tip
  · simp only [hle, if_true, true_and]; rfl
  · simp only [hle, if_false, false_and]; rfl

/-- A response is a block of the tree, at the height asked for. -/
theorem mem_of_respond (hw : LcBlockTree.WellFormed cr s.manager.lcblocktree) {h : ℕ}
    (hr : s.respond cr ord h = .ok (some blk)) :
    s.manager.lcblocktree.lcblocks (blk.digest cr) = some blk ∧
      s.manager.lcblocktree.heightOf (blk.digest cr) = h := by
  cases ht : s.getCurrentTip cr ord with
  | error p => simp only [respond, ht, bind, Except.bind] at hr; cases hr
  | ok tip =>
    obtain ⟨-, hm⟩ := getCurrentTip_ok hw ht
    obtain ⟨x, hx, he⟩ := respond_eq hw h ht
    rw [hr, Except.ok.injEq] at he
    split_ifs at he with hcond
    cases he
    have hup := hw.graded.height_up hm (s.manager.lcblocktree.heightOf tip - h)
    rw [hw.digest _ _ hx]
    exact ⟨hx, by omega⟩

/-- The adversarial block of this height on the leading chain is the response. -/
theorem respond_of_leading (hw : LcBlockTree.WellFormed cr s.manager.lcblocktree) {h : ℕ}
    (hd : s.Leading cr ord h d) :
    ∃ b, b.digest cr = d ∧ s.respond cr ord h = .ok (some b) := by
  obtain ⟨hh, hadv, tip, ht, hext⟩ := hd
  have G := hw.graded
  obtain ⟨-, hm⟩ := getCurrentTip_ok hw ht
  obtain ⟨b, hb, he⟩ := respond_eq hw h ht
  have hle : h ≤ s.manager.lcblocktree.heightOf tip := hh ▸ G.height_le hm hext
  have hup : Ancestry.Anc s.manager.lcblocktree.parentOf (Ancestry.up
      s.manager.lcblocktree.parentOf (s.manager.lcblocktree.heightOf tip - h) tip) tip :=
    Ancestry.up_anc _ _
  have hhup := G.height_up hm (s.manager.lcblocktree.heightOf tip - h)
  -- the leading chain has one block of each height
  have hdu : d = Ancestry.up s.manager.lcblocktree.parentOf
      (s.manager.lcblocktree.heightOf tip - h) tip :=
    G.eq_of_height (G.mem_anc hm hup) (G.anc_of_height_le hm hext hup (by omega)) (by omega)
  rw [← hdu] at hb
  have hbadv : b.isAdversarial = true := by
    rw [LcBlockTree.adversarial, hb] at hadv
    exact hadv
  exact ⟨b, hw.digest d b hb, by rw [he, if_pos ⟨hle, hbadv⟩]⟩

/-- **All that a query can do**: wait or stop, take a hidden block and send it if the watermark has
reached it, or take a public one and answer it if it raises the watermark. -/
theorem query_cases (hw : LcBlockTree.WellFormed cr s.manager.lcblocktree)
    (h : s.query cr ord = some t) :
    t = s ∨ (∃ p, t = s.stop p) ∨
    (∃ b, s.phase = .hidden b ∧ s.manager.lcblocktree.Mem (b.digest cr) ∧
      t = { s with
        phase := .idle
        traffic := s.traffic ++
          if s.manager.lcblocktree.heightOf (b.digest cr) ≤ s.highestHonestBlock then [.sent b]
          else [] }) ∨
    (∃ b, s.phase = .inbound b ∧ s.manager.lcblocktree.Mem (b.digest cr) ∧
      t = { s with phase := .idle }) ∨
    ∃ b blkAdv, s.phase = .inbound b ∧ s.manager.lcblocktree.Mem (b.digest cr) ∧
      b.isAdversarial = false ∧
      s.highestHonestBlock < s.manager.lcblocktree.heightOf (b.digest cr) ∧
      s.respond cr ord (s.manager.lcblocktree.heightOf (b.digest cr)) = .ok blkAdv ∧
      t = { s with
        phase := .idle
        traffic := s.traffic ++ (blkAdv.map Traffic.sent).toList
        highestHonestBlock := s.manager.lcblocktree.heightOf (b.digest cr) } := by
  unfold query at h
  split at h
  · cases h
  · rename_i b hphase
    split at h
    · cases h; exact .inr (.inl ⟨_, rfl⟩)
    · cases h; exact .inl rfl
    · rename_i n hn
      obtain ⟨-, hm, rfl⟩ := getHeightOfBlock_ok hw hn
      cases h
      exact .inr (.inr (.inl ⟨b, hphase, hm, rfl⟩))
  · rename_i b hphase
    split at h
    · cases h; exact .inr (.inl ⟨_, rfl⟩)
    · cases h; exact .inl rfl
    · rename_i n hn
      obtain ⟨-, hm, rfl⟩ := getHeightOfBlock_ok hw hn
      split at h
      · rename_i hc
        split at h
        · cases h; exact .inr (.inl ⟨_, rfl⟩)
        · rename_i blkAdv hr
          cases h
          exact .inr (.inr (.inr (.inr ⟨b, blkAdv, hphase, hm, by simpa using hc.1, hc.2, hr, rfl⟩)))
      · cases h
        exact .inr (.inr (.inr (.inl ⟨b, hphase, hm, rfl⟩)))

/-! ## The invariant -/

structure Inv (cr : Crypto) (s : AdversarialNode) : Prop where
  tree : LcBlockTree.WellFormed cr s.manager.lcblocktree
  within : LcBlockTree.Within s.blocks s.manager.lcblocktree
  queue : ∀ v ∈ s.newMinedBlocks, ∀ b, LcBlock.tryFrom v = .ok b → b ∈ s.blocks
  awaitsHidden : ∀ b, s.phase = .hidden b → b ∈ s.hidden
  awaitsInbound : ∀ b, s.phase = .inbound b → .received b ∈ s.traffic
  /-- All blocks are in the tree, but for the one whose height is awaited. -/
  filed : ∀ b ∈ s.blocks,
    s.manager.lcblocktree.Mem (b.digest cr) ∨ s.phase = .hidden b ∨ s.phase = .inbound b
  parents : ∀ b, .received b ∈ s.traffic → ∀ p, b.parent = some p → Public cr s.traffic p
  passed : ∀ y ∈ s.hidden, ∀ p, y.parent = some p → ¬ s.PassedOver cr p
  closed : Closed cr s.traffic

theorem inv_new (cr : Crypto) (name : PublicKey) : Inv cr (new cr name) where
  tree := LcBlockTree.wellFormed_new cr
  within := LcBlockTree.within_new _
  queue := fun _ h => (by cases h)
  awaitsHidden := fun _ h => (by cases h)
  awaitsInbound := fun _ h => (by cases h)
  filed := fun _ h => (by cases h)
  parents := fun _ h => (by cases h)
  passed := fun _ h => (by cases h)
  closed := closed_nil

theorem mem_blocks {b : LcBlock} : b ∈ s.blocks ↔ b ∈ s.hidden ∨ .received b ∈ s.traffic := by
  simp only [blocks, List.mem_append, List.mem_filterMap]
  refine or_congr Iff.rfl ⟨?_, fun h => ⟨_, h, rfl⟩⟩
  rintro ⟨e, he, hb⟩
  cases e with
  | received x => cases hb; exact he
  | sent x => cases hb

/-- A parent at or below the watermark is public. -/
theorem Inv.parent_public (hi : Inv cr s) (hc : LcBlockTree.NoCollision cr s.blocks) {b : LcBlock}
    (hb : b ∈ s.blocks) (hm : s.manager.lcblocktree.Mem (b.digest cr)) {p : Digest}
    (hp : b.parent = some p)
    (hle : s.manager.lcblocktree.heightOf (b.digest cr) ≤ s.highestHonestBlock + 1) :
    Public cr s.traffic p := by
  rcases mem_blocks.mp hb with hh | hr
  · obtain ⟨hpm, hheight⟩ := hi.tree.parent_of_mem (hc.unique hi.tree hi.within hb) hm hp
    by_contra hpub
    exact hi.passed b hh p hp ⟨hpm, by omega, hpub⟩
  · exact hi.parents b hr p hp

theorem Inv.stop (hi : Inv cr s) (p : Panic) : Inv cr (s.stop p) :=
  ⟨hi.tree, hi.within, hi.queue, hi.awaitsHidden, hi.awaitsInbound, hi.filed, hi.parents, hi.passed, hi.closed⟩

/-- The invariant is about the blocks of the tree only. -/
theorem Inv.of_tree (hi : Inv cr s) {m : Manager} (ht : m.lcblocktree = s.manager.lcblocktree)
    {vs : List Bytes} (hq : ∀ v ∈ vs, ∀ b, LcBlock.tryFrom v = .ok b → b ∈ s.blocks) :
    Inv cr { s with newMinedBlocks := vs, manager := m } :=
  ⟨ht ▸ hi.tree, fun d b h => hi.within d b (ht ▸ h), hq, hi.awaitsHidden, hi.awaitsInbound,
    fun b hb => ht ▸ hi.filed b hb, hi.parents,
    fun y hy p hp h => hi.passed y hy p hp (by rw [PassedOver, ← ht]; exact h), hi.closed⟩

theorem Inv.mem_of_idle (hi : Inv cr s) (hphase : s.phase = .idle) {b : LcBlock}
    (hb : b ∈ s.blocks) : s.manager.lcblocktree.Mem (b.digest cr) := by
  rcases hi.filed b hb with h | h | h
  · exact h
  · rw [hphase] at h; cases h
  · rw [hphase] at h; cases h

/-! ## Whole runs -/

theorem onCheckpointEvent_tree (m : Manager) (e : CheckpointEvent) :
    (m.onCheckpointEvent cr params ord e).lcblocktree = m.lcblocktree := by
  cases e with
  | newProposal i b => rfl
  | newCheckpoint i cp =>
    cases cp with
    | none => rfl
    | some cp =>
      obtain ⟨tips, logs, stopped, he⟩ := Manager.announce_frame cr params ord
        { m with
          checkpoints := m.checkpoints ++ [cp]
          checkpointsIterations := m.checkpointsIterations ++ [i] }
      rw [Manager.onCheckpointEvent, he]

theorem query_grows (h : s.query cr ord = some t) :
    (∃ l, t.traffic = s.traffic ++ l) ∧ ∀ b ∈ s.hidden, b ∈ t.hidden := by
  have hself : (∃ l, s.traffic = s.traffic ++ l) ∧ ∀ b ∈ s.hidden, b ∈ s.hidden :=
    ⟨⟨[], (List.append_nil _).symm⟩, fun _ hb => hb⟩
  unfold query at h
  split at h
  · cases h
  · split at h <;> cases h
    · exact hself
    · exact hself
    · exact ⟨⟨_, rfl⟩, hself.2⟩
  · split at h
    · cases h; exact hself
    · cases h; exact hself
    · split at h
      · split at h <;> cases h
        · exact hself
        · exact ⟨⟨_, rfl⟩, hself.2⟩
      · cases h; exact hself

/-- The log and the hidden blocks only grow. -/
theorem step_grows {i : Input} (h : s.step cr params i = some t) :
    (∃ l, t.traffic = s.traffic ++ l) ∧ ∀ b ∈ s.hidden, b ∈ t.hidden := by
  have hself : (∃ l, s.traffic = s.traffic ++ l) ∧ ∀ b ∈ s.hidden, b ∈ s.hidden :=
    ⟨⟨[], (List.append_nil _).symm⟩, fun _ hb => hb⟩
  cases i with
  | mined v =>
    simp only [step, Option.ite_none_right_eq_some, Option.some.injEq] at h
    obtain ⟨-, rfl⟩ := h
    unfold onMined
    split <;> exact hself
  | adversary v =>
    simp only [step, Option.ite_none_right_eq_some, Option.some.injEq] at h
    obtain ⟨-, rfl⟩ := h
    unfold onAdversary
    split
    · exact hself
    · split_ifs <;> exact hself
    · split_ifs
      · exact ⟨hself.1, fun b hb => List.mem_append_left _ hb⟩
      · exact hself
  | inbound v =>
    simp only [step, Option.ite_none_right_eq_some, Option.some.injEq] at h
    obtain ⟨-, rfl⟩ := h
    unfold onInbound
    split
    · exact hself
    · split_ifs
      · exact ⟨⟨_, rfl⟩, hself.2⟩
      · exact hself
  | manage ord =>
    simp only [step] at h
    split at h
    · cases h
    · split_ifs at h
      cases h
      exact hself
  | checkpoint ord e =>
    simp only [step, Option.ite_none_right_eq_some, Option.some.injEq] at h
    obtain ⟨-, rfl⟩ := h
    exact hself
  | query ord =>
    simp only [step, Option.ite_none_right_eq_some] at h
    exact query_grows h.2

theorem blocks_mono {i : Input} (h : s.step cr params i = some t) {b : LcBlock}
    (hb : b ∈ s.blocks) : b ∈ t.blocks := by
  obtain ⟨⟨l, hl⟩, hh⟩ := step_grows h
  rcases mem_blocks.mp hb with hb | hb
  · exact mem_blocks.mpr (.inl (hh b hb))
  · exact mem_blocks.mpr (.inr (hl ▸ List.mem_append_left _ hb))

theorem noCollision_mono {bs cs : List LcBlock} (hsub : ∀ b ∈ bs, b ∈ cs)
    (h : LcBlockTree.NoCollision cr cs) : LcBlockTree.NoCollision cr bs := by
  rintro x y ⟨b, hb, rfl⟩ ⟨b', hb', rfl⟩ he
  exact h _ _ ⟨b, hb.imp id (hsub b), rfl⟩ ⟨b', hb'.imp id (hsub b'), rfl⟩ he

/-! ## The steps -/

/-- **A hidden block arrives.** -/
theorem Inv.hide (hi : Inv cr s) (hidle : s.phase = .idle)
    (hk : ∀ p, blk.parent = some p → ¬ s.PassedOver cr p) :
    Inv cr { s with
      newMinedBlocks := s.newMinedBlocks ++ [blk.encode]
      hidden := s.hidden ++ [blk]
      phase := .hidden blk } := by
  have hmono : ∀ b ∈ s.blocks, b ∈ ({ s with hidden := s.hidden ++ [blk] } : AdversarialNode).blocks :=
    fun b hb => mem_blocks.mpr ((mem_blocks.mp hb).imp (List.mem_append_left _) id)
  have hnew : blk ∈ s.hidden ++ [blk] := by simp
  constructor
  case tree => exact hi.tree
  case within => exact fun d b h => (hi.within d b h).imp id (hmono b)
  case queue =>
    intro v hv b hb
    rcases List.mem_append.mp hv with hv | hv
    · exact hmono b (hi.queue v hv b hb)
    · rw [List.mem_singleton.mp hv, LcBlock.tryFrom_encode] at hb
      cases hb
      exact mem_blocks.mpr (.inl hnew)
  case awaitsHidden => intro b hb; cases hb; exact hnew
  case awaitsInbound => intro b hb; cases hb
  case filed =>
    intro b hb
    rcases mem_blocks.mp hb with hb | hb
    · rcases List.mem_append.mp hb with hb | hb
      · exact .inl (hi.mem_of_idle hidle (mem_blocks.mpr (.inl hb)))
      · exact .inr (.inl (by rw [List.mem_singleton.mp hb]))
    · exact .inl (hi.mem_of_idle hidle (mem_blocks.mpr (.inr hb)))
  case parents => exact hi.parents
  case passed =>
    intro y hy
    rcases List.mem_append.mp hy with hy | hy
    · exact hi.passed y hy
    · rw [List.mem_singleton.mp hy]; exact hk
  case closed => exact hi.closed

/-- **A public block arrives.** -/
theorem Inv.receive (hi : Inv cr s) (hidle : s.phase = .idle) {v : Bytes}
    (hv : LcBlock.tryFrom v = .ok blk)
    (hk : ∀ p, blk.parent = some p → Public cr s.traffic p) :
    Inv cr { s with
      newMinedBlocks := s.newMinedBlocks ++ [v]
      traffic := s.traffic ++ [.received blk]
      phase := .inbound blk } := by
  have hmono : ∀ b ∈ s.blocks,
      b ∈ ({ s with traffic := s.traffic ++ [.received blk] } : AdversarialNode).blocks :=
    fun b hb => mem_blocks.mpr ((mem_blocks.mp hb).imp id (List.mem_append_left _))
  have hnew : Traffic.received blk ∈ s.traffic ++ [.received blk] := by simp
  have hcase : ∀ {b}, Traffic.received b ∈ s.traffic ++ [.received blk] →
      .received b ∈ s.traffic ∨ b = blk := by
    intro b hb
    rcases List.mem_append.mp hb with hb | hb
    · exact .inl hb
    · cases List.mem_singleton.mp hb
      exact .inr rfl
  constructor
  case tree => exact hi.tree
  case within => exact fun d b h => (hi.within d b h).imp id (hmono b)
  case queue =>
    intro w hw b hb
    rcases List.mem_append.mp hw with hw | hw
    · exact hmono b (hi.queue w hw b hb)
    · rw [List.mem_singleton.mp hw, hv] at hb
      cases hb
      exact mem_blocks.mpr (.inr hnew)
  case awaitsHidden => intro b hb; cases hb
  case awaitsInbound => intro b hb; cases hb; exact hnew
  case filed =>
    intro b hb
    rcases mem_blocks.mp hb with hb | hb
    · exact .inl (hi.mem_of_idle hidle (mem_blocks.mpr (.inl hb)))
    · rcases hcase hb with hb | rfl
      · exact .inl (hi.mem_of_idle hidle (mem_blocks.mpr (.inr hb)))
      · exact .inr (.inr rfl)
  case parents =>
    intro b hb p hp
    rcases hcase hb with hb | rfl
    · exact (hi.parents b hb p hp).append
    · exact (hk p hp).append
  case passed =>
    rintro y hy p hp ⟨hm, hle, hpub⟩
    exact hi.passed y hy p hp ⟨hm, hle, fun h => hpub h.append⟩
  case closed => exact closed_concat.mpr ⟨hi.closed, fun b hb => by cases hb⟩

/-- **The manager takes in a block.**  If it is new, then its height is awaited, and no block that
reached the node extends it. -/
theorem Inv.manage (hi : Inv cr s) (hc : LcBlockTree.NoCollision cr s.blocks) {v : Bytes}
    {vs : List Bytes} (hv : s.newMinedBlocks = v :: vs) :
    Inv cr { s with newMinedBlocks := vs, manager := s.manager.onMessage cr params ord v } := by
  have hq : ∀ w ∈ vs, ∀ b, LcBlock.tryFrom w = .ok b → b ∈ s.blocks := fun w hw =>
    hi.queue w (hv ▸ List.mem_cons_of_mem _ hw)
  obtain ⟨-, -, ht | ⟨blk, hblk, ht⟩⟩ := s.manager.onMessage_cases cr params ord v
  · exact hi.of_tree ht hq
  · have hmem : blk ∈ s.blocks := hi.queue v (hv ▸ List.mem_cons_self) blk hblk
    have hf := hc.unique hi.tree hi.within hmem
    have hext := hi.tree.add_extends hf ht
    refine ⟨hi.tree.add hf ht, hi.within.add hmem ht, hq, hi.awaitsHidden, hi.awaitsInbound, ?_, hi.parents, ?_,
      hi.closed⟩
    · intro b hb
      exact (hi.filed b hb).imp hext.mem id
    · rintro y hy p hp ⟨hm, hle, hpub⟩
      by_cases hold : s.manager.lcblocktree.Mem p
      · rw [hext.heightOf hi.tree hold] at hle
        exact hi.passed y hy p hp ⟨hold, hle, hpub⟩
      have hyb : y ∈ s.blocks := mem_blocks.mpr (.inl hy)
      -- `p` is the block that is added, so its height was awaited
      have hpd : blk.digest cr = p := by
        obtain ⟨x, hx⟩ := LcBlockTree.mem_iff.mp hm
        rcases (LcBlockTree.lcblocks_add hf ht p x).mp hx with hx | ⟨-, hx⟩
        · exact absurd (LcBlockTree.mem_iff.mpr ⟨x, hx⟩) hold
        · exact hx
      have hblkphase : s.phase = .hidden blk := by
        rcases hi.filed blk hmem with h | h | h
        · exact absurd (hpd ▸ h) hold
        · exact h
        · exact absurd (.inr ⟨blk, .inl (hi.awaitsInbound blk h), hpd⟩) hpub
      -- and its child would be that block itself
      rcases hi.filed y hyb with h | h | h
      · exact hold (hi.tree.parent_of_mem (hc.unique hi.tree hi.within hyb) h hp).1
      · rw [hblkphase, AdversaryPhase.hidden.injEq] at h
        subst h
        obtain ⟨q, n, hq', hn, -⟩ := LcBlockTree.add_ok ht
        rw [hp, Option.some.injEq] at hq'
        subst hq'
        exact hold ((hi.tree.heights p).mp (by rw [hn]; rfl))
      · rw [hblkphase] at h; cases h

/-- **The main logic sends a block whose parent is public**, or none, and the watermark may rise. -/
theorem Inv.answer (hi : Inv cr s) {a : Option LcBlock} {w : ℕ}
    (hfiled : ∀ b ∈ s.blocks, s.manager.lcblocktree.Mem (b.digest cr))
    (hpub : ∀ b ∈ a, ∀ p, b.parent = some p → Public cr s.traffic p)
    (hrise : ∀ y ∈ s.hidden, ∀ p, y.parent = some p →
      s.highestHonestBlock < s.manager.lcblocktree.heightOf p →
      s.manager.lcblocktree.heightOf p ≤ w →
      Public cr (s.traffic ++ (a.map Traffic.sent).toList) p) :
    Inv cr { s with
      phase := .idle
      traffic := s.traffic ++ (a.map Traffic.sent).toList
      highestHonestBlock := w } := by
  have hreceived : ∀ b, .received b ∈ s.traffic ++ (a.map Traffic.sent).toList →
      .received b ∈ s.traffic := by
    intro b hb
    rcases List.mem_append.mp hb with hb | hb
    · exact hb
    · cases a <;> simp at hb
  have hmono : ∀ b ∈ s.blocks, b ∈ ({ s with
      traffic := s.traffic ++ (a.map Traffic.sent).toList } : AdversarialNode).blocks :=
    fun b hb => mem_blocks.mpr ((mem_blocks.mp hb).imp id (List.mem_append_left _))
  constructor
  case tree => exact hi.tree
  case within => exact fun d b h => (hi.within d b h).imp id (hmono b)
  case queue => exact fun v hv b hb => hmono b (hi.queue v hv b hb)
  case awaitsHidden => intro b hb; cases hb
  case awaitsInbound => intro b hb; cases hb
  case filed =>
    intro b hb
    exact .inl (hfiled b (mem_blocks.mpr ((mem_blocks.mp hb).imp id (hreceived b))))
  case parents => exact fun b hb p hp => (hi.parents b (hreceived b hb) p hp).append
  case passed =>
    rintro y hy p hp ⟨hm, hle, hnot⟩
    by_cases hlow : s.manager.lcblocktree.heightOf p ≤ s.highestHonestBlock
    · exact hi.passed y hy p hp ⟨hm, hlow, fun h => hnot h.append⟩
    · exact hnot (hrise y hy p hp (by omega) hle)
  case closed =>
    cases a with
    | none => exact (List.append_nil s.traffic).symm ▸ hi.closed
    | some b =>
      refine closed_concat.mpr ⟨hi.closed, ?_⟩
      rintro b' hb'
      cases hb'
      exact hpub b rfl

/-- **A query sends only blocks with public parents**, and passes over no parent of a hidden one. -/
theorem Inv.query (hi : Inv cr s) (hc : LcBlockTree.NoCollision cr s.blocks)
    (hk : s.Orderly cr (.query ord)) (h : s.query cr ord = some t) : Inv cr t := by
  have hfiled : ∀ {b}, (s.phase = .hidden b ∨ s.phase = .inbound b) →
      s.manager.lcblocktree.Mem (b.digest cr) →
      ∀ x ∈ s.blocks, s.manager.lcblocktree.Mem (x.digest cr) := by
    intro b hphase hm x hx
    rcases hi.filed x hx with h | h | h
    · exact h
    · rcases hphase with hphase | hphase <;> rw [hphase] at h <;> cases h
      exact hm
    · rcases hphase with hphase | hphase <;> rw [hphase] at h <;> cases h
      exact hm
  rcases query_cases hi.tree h with rfl | ⟨p, rfl⟩ | ⟨b, hphase, hm, rfl⟩ | ⟨b, hphase, hm, rfl⟩ |
    ⟨b, blkAdv, hphase, hm, hhonest, hlt, hr, rfl⟩
  · exact hi
  · exact hi.stop p
  · have hb : b ∈ s.blocks := mem_blocks.mpr (.inl (hi.awaitsHidden b hphase))
    by_cases hle : s.manager.lcblocktree.heightOf (b.digest cr) ≤ s.highestHonestBlock
    · rw [if_pos hle]
      refine hi.answer (a := some b) (hfiled (.inl hphase) hm) ?_ ?_
      · intro x hx p hp
        cases hx
        exact hi.parent_public hc hb hm hp (by omega)
      · intro y _ p _ hlt hle
        omega
    · rw [if_neg hle]
      refine hi.answer (a := none) (hfiled (.inl hphase) hm) (fun x hx => by cases hx) ?_
      intro y _ p _ hlt hle
      omega
  · have := hi.answer (a := none) (w := s.highestHonestBlock) (hfiled (.inr hphase) hm)
      (fun x hx => by cases hx) (fun y _ p _ hlt hle => by omega)
    simpa using this
  · refine hi.answer (hfiled (.inr hphase) hm) ?_ ?_
    · intro x hx p hp
      cases hx
      obtain ⟨hmem, hheight⟩ := mem_of_respond hi.tree hr
      have hxm : s.manager.lcblocktree.Mem (x.digest cr) := LcBlockTree.mem_iff.mpr ⟨x, hmem⟩
      obtain ⟨-, hp1⟩ := hi.tree.parent_of_mem (fun y hy => by
        rw [hmem, Option.some.injEq] at hy; exact hy.symm) hxm hp
      rcases hi.within _ x hmem with rfl | hx
      · cases hp
      rcases Nat.lt_or_ge s.highestHonestBlock (s.manager.lcblocktree.heightOf p) with hjump | hle
      · rcases mem_blocks.mp hx with hh | hrec
        · rcases hk b hphase hhonest x hh p hp hjump (by omega) with hpub | hlead
          · exact hpub
          · have := hlead.1
            omega
        · exact hi.parents x hrec p hp
      · exact hi.parent_public hc hx hxm hp (by omega)
    · intro y hy p hp hjump hle
      rcases hk b hphase hhonest y hy p hp hjump hle with hpub | hlead
      · exact hpub.append
      · obtain ⟨x, hx, he⟩ := respond_of_leading hi.tree hlead
        rw [hr, Except.ok.injEq] at he
        subst he
        exact .inr ⟨x, .inr (by simp), hx⟩

/-- **Step lemma.** -/
theorem Inv.step (hi : Inv cr s) (hc : LcBlockTree.NoCollision cr s.blocks) {i : Input}
    (hk : s.Orderly cr i) (h : s.step cr params i = some t) : Inv cr t := by
  cases i with
  | mined v =>
    simp only [AdversarialNode.step, Option.ite_none_right_eq_some, Option.some.injEq] at h
    obtain ⟨-, rfl⟩ := h
    unfold onMined
    split
    · exact hi.stop _
    · exact ⟨hi.tree, hi.within, hi.queue, hi.awaitsHidden, hi.awaitsInbound, hi.filed, hi.parents, hi.passed,
        hi.closed⟩
  | adversary v =>
    simp only [AdversarialNode.step, Option.ite_none_right_eq_some, Option.some.injEq] at h
    obtain ⟨⟨-, hidle⟩, rfl⟩ := h
    unfold onAdversary
    split
    · exact hi.stop _
    · split_ifs
      · exact ⟨hi.tree, hi.within, hi.queue, hi.awaitsHidden, hi.awaitsInbound, hi.filed, hi.parents, hi.passed,
          hi.closed⟩
      · exact hi
    · rename_i blk hblk
      split_ifs
      · exact hi.hide hidle fun p => hk blk p (expect_eq_ok.mp hblk)
      · exact hi.stop _
  | inbound v =>
    simp only [AdversarialNode.step, Option.ite_none_right_eq_some, Option.some.injEq] at h
    obtain ⟨⟨-, hidle⟩, rfl⟩ := h
    unfold onInbound
    split
    · exact hi.stop _
    · rename_i blk hblk
      split_ifs
      · have hv := expect_eq_ok.mp hblk
        exact hi.receive hidle hv fun p => hk blk p hv
      · exact hi.stop _
  | manage ord =>
    simp only [AdversarialNode.step] at h
    split at h
    · cases h
    · rename_i v vs hv
      split_ifs at h
      cases h
      exact hi.manage hc hv
  | checkpoint ord e =>
    simp only [AdversarialNode.step, Option.ite_none_right_eq_some, Option.some.injEq] at h
    obtain ⟨-, rfl⟩ := h
    exact hi.of_tree (onCheckpointEvent_tree _ e) hi.queue
  | query ord =>
    simp only [AdversarialNode.step, Option.ite_none_right_eq_some] at h
    exact hi.query hc hk h.2

/-- **Run lemma.** -/
theorem inv_of_reachable {name : PublicKey}
    (hr : ((machine cr params name).restrict fun s i => s.Orderly cr i).Reachable s)
    (hc : LcBlockTree.NoCollision cr s.blocks) : Inv cr s := by
  refine Machine.invariant (P := fun s => LcBlockTree.NoCollision cr s.blocks → Inv cr s) ?_ ?_ hr hc
  · rintro s rfl -
    exact inv_new cr name
  · rintro s i t ih ⟨hk, h⟩ hc
    have hcs := noCollision_mono (fun b => blocks_mono h) hc
    exact (ih hcs).step hcs hk h

/-- **As long as no hidden block comes to extend a passed-over one, the adversarial node keeps the
public tree closed.** -/
theorem release_closed (cr : Crypto) (params : TreeParameters) (name : PublicKey)
    (s : AdversarialNode)
    (hr : ((machine cr params name).restrict fun s i => s.Orderly cr i).Reachable s)
    (hc : LcBlockTree.NoCollision cr s.blocks) : Closed cr s.traffic :=
  (inv_of_reachable hr hc).closed

/-! ## Runs -/

instance (log : List Traffic) (d : Digest) : Decidable (Public cr log d) :=
  decidable_of_iff (d = LcBlock.genesisDigest cr ∨
      ∃ e ∈ log, (match e with | .received blk => blk | .sent blk => blk).digest cr = d) <| by
    refine or_congr Iff.rfl ⟨?_, ?_⟩
    · rintro ⟨⟨blk⟩ | ⟨blk⟩, he, h⟩
      · exact ⟨blk, .inl he, h⟩
      · exact ⟨blk, .inr he, h⟩
    · rintro ⟨blk, he | he, h⟩
      · exact ⟨_, he, h⟩
      · exact ⟨_, he, h⟩

instance (s : AdversarialNode) (d : Digest) : Decidable (s.PassedOver cr d) :=
  inferInstanceAs (Decidable ((s.manager.lcblocktree.lcblocks d).isSome = true ∧ _ ≤ _ ∧ ¬ _))

/-- The block of height `h` on the leading chain, by the parent steps from its tip. -/
def leading (cr : Crypto) (ord : HashOrder Digest) (s : AdversarialNode) (h : ℕ) (d : Digest) :
    Bool :=
  match s.getCurrentTip cr ord with
  | .error _ => false
  | .ok tip =>
    s.manager.lcblocktree.heightOf d == h && s.manager.lcblocktree.adversarial d &&
      Ancestry.up s.manager.lcblocktree.parentOf (s.manager.lcblocktree.heightOf tip - h) tip == d

theorem leading_sound {h : ℕ} (hl : leading cr ord s h d = true) : s.Leading cr ord h d := by
  unfold leading at hl
  split at hl
  · cases hl
  · rename_i tip ht
    simp only [Bool.and_eq_true, beq_iff_eq] at hl
    obtain ⟨⟨hh, hadv⟩, hup⟩ := hl
    exact ⟨hh, hadv, tip, ht, hup ▸ Ancestry.up_anc _ _⟩

def orderly (cr : Crypto) (s : AdversarialNode) : Input → Bool
  | .adversary v =>
    match AdversarialGossipMsg.tryFrom cr v with
    | .ok (.hiddenLcBlock blk) => blk.parent.all fun p => ¬ s.PassedOver cr p
    | _ => true
  | .inbound v =>
    match LcBlock.tryFrom v with
    | .ok blk => blk.parent.all fun p => Public cr s.traffic p
    | .error _ => true
  | .query ord =>
    match s.phase with
    | .inbound b => s.hidden.all fun y => y.parent.all fun p =>
        s.manager.lcblocktree.heightOf p ≤ s.highestHonestBlock ∨ Public cr s.traffic p ∨
          leading cr ord s (s.manager.lcblocktree.heightOf (b.digest cr)) p
    | _ => true
  | _ => true

theorem orderly_sound (s : AdversarialNode) (i : Input) (h : orderly cr s i = true) :
    s.Orderly cr i := by
  cases i with
  | mined v => trivial
  | manage ord => trivial
  | checkpoint ord e => trivial
  | adversary v =>
    intro blk p hblk hp
    simp only [orderly, hblk, hp, Option.all_some, decide_eq_true_eq] at h
    exact h
  | inbound v =>
    intro blk p hblk hp
    simp only [orderly, hblk, hp, Option.all_some, decide_eq_true_eq] at h
    exact h
  | query ord =>
    intro b hphase _ y hy p hp hlt _
    simp only [orderly, hphase, List.all_eq_true] at h
    have hyp := h y hy
    simp only [hp, Option.all_some, decide_eq_true_eq] at hyp
    rcases hyp with hle | hpub | hl
    · omega
    · exact .inl hpub
    · exact .inr (leading_sound hl)

open LcBlockTree (honestChild adversarialChild)

def honestGrandchild : LcBlock :=
  { honestChild with parent := some (honestChild.digest sampleCrypto), slot := 2 }

/-- A block of the hidden fork on `adversarialChild`. -/
def hiddenGrandchild : LcBlock :=
  { adversarialChild with parent := some (adversarialChild.digest sampleCrypto), slot := 2 }

/-- A public fork: an adversarial block, which leaves the watermark alone, and an honest one. -/
def publicChild : LcBlock := { adversarialChild with slot := 3 }

def publicGrandchild : LcBlock :=
  { honestChild with parent := some (publicChild.digest sampleCrypto), slot := 4 }

/-- A hidden block reaches the node, then its manager, then the main logic. -/
def hiddenInputs (blk : LcBlock) : List Input :=
  [.adversary (AdversarialGossipMsg.hiddenLcBlock blk).encode, .manage .stored, .query .stored]

def inboundInputs (blk : LcBlock) : List Input :=
  [.inbound blk.encode, .manage .stored, .query .stored]

/-- A hidden fork of two blocks, and an honest one that the node answers block by block. -/
def answerRun : List Input :=
  hiddenInputs adversarialChild ++ hiddenInputs hiddenGrandchild ++ inboundInputs honestChild ++
    inboundInputs honestGrandchild

def answerTraffic : List Traffic :=
  [.received honestChild, .sent adversarialChild, .received honestGrandchild,
    .sent hiddenGrandchild]

theorem answerRun_exec :
    (Machine.execIf (orderly sampleCrypto) (step sampleCrypto ⟨0, 0⟩)
      (new sampleCrypto ⟨.zero⟩) answerRun).map (fun s => (s.hidden, s.traffic)) =
    some ([adversarialChild, hiddenGrandchild], answerTraffic) := by
  decide +kernel

/-- Two answers, the second on top of the first. -/
theorem release_closed_answer : ∃ s, ((machine sampleCrypto ⟨0, 0⟩ ⟨.zero⟩).restrict
    fun s i => Orderly sampleCrypto s i).Reachable s ∧ s.traffic = answerTraffic ∧
      Closed sampleCrypto s.traffic := by
  obtain ⟨s, hs, he⟩ := Option.map_eq_some_iff.mp answerRun_exec
  obtain ⟨hh, ht⟩ := Prod.mk.inj he
  have hr : ((machine sampleCrypto ⟨0, 0⟩ ⟨.zero⟩).restrict
      fun s i => Orderly sampleCrypto s i).Reachable s :=
    Machine.reachable_execIf orderly_sound (.init rfl) hs
  have hc : LcBlockTree.NoCollision sampleCrypto s.blocks := by
    rw [blocks, hh, ht]
    exact LcBlockTree.noCollision_of_nodup (by decide +kernel)
  exact ⟨s, hr, ht, release_closed sampleCrypto ⟨0, 0⟩ ⟨.zero⟩ s hr hc⟩

/-- The watermark passes over `adversarialChild`, on which there is a hidden block already. -/
def jumpRun : List Input :=
  hiddenInputs adversarialChild ++ hiddenInputs hiddenGrandchild ++ inboundInputs publicChild ++
    inboundInputs publicGrandchild

/-- The hidden block comes once the watermark has passed over its parent. -/
def lateRun : List Input :=
  hiddenInputs adversarialChild ++ inboundInputs publicChild ++ inboundInputs publicGrandchild ++
    hiddenInputs hiddenGrandchild

def openTraffic : List Traffic :=
  [.received publicChild, .received publicGrandchild, .sent hiddenGrandchild]

theorem openTraffic_open : ¬ Closed sampleCrypto openTraffic := by
  intro hclosed
  have hpub := hclosed [.received publicChild, .received publicGrandchild] hiddenGrandchild [] rfl _
    rfl
  exact absurd hpub (by decide +kernel)

theorem jumpRun_exec :
    (Machine.exec (step sampleCrypto ⟨0, 0⟩) (new sampleCrypto ⟨.zero⟩) jumpRun).map (·.traffic) =
    some openTraffic := by
  decide +kernel

/-- The response is the hidden block on top of `adversarialChild`, which is never released. -/
theorem jumpRun_open : ∃ s,
    Machine.exec (step sampleCrypto ⟨0, 0⟩) (new sampleCrypto ⟨.zero⟩) jumpRun = some s ∧
    s.traffic = openTraffic ∧ ¬ Closed sampleCrypto s.traffic := by
  obtain ⟨s, hs, ht⟩ := Option.map_eq_some_iff.mp jumpRun_exec
  exact ⟨s, hs, ht, by rw [ht]; exact openTraffic_open⟩

theorem lateRun_exec :
    (Machine.exec (step sampleCrypto ⟨0, 0⟩) (new sampleCrypto ⟨.zero⟩) lateRun).map (·.traffic) =
    some openTraffic := by
  decide +kernel

/-- The hidden block is at the height of the watermark and released as it arrives. -/
theorem lateRun_open : ∃ s,
    Machine.exec (step sampleCrypto ⟨0, 0⟩) (new sampleCrypto ⟨.zero⟩) lateRun = some s ∧
    ¬ Closed sampleCrypto s.traffic := by
  obtain ⟨s, hs, ht⟩ := Option.map_eq_some_iff.mp lateRun_exec
  exact ⟨s, hs, by rw [ht]; exact openTraffic_open⟩

end AdversarialNode

end AccountabilityGadget
