import AccountabilityGadget.Lib.History
import AccountabilityGadget.Lib.Machine
import AccountabilityGadget.LongestChain.Adversary
import AccountabilityGadget.LongestChain.EarlyCheckpoint
import AccountabilityGadget.LongestChain.Miner

/-!
# A network of miners (`mynode/src/mynode.rs`)

Each node has a block-tree manager, which tells its miner the tips to mine on, and all of them share the
topic `lcblocks`.  What is published may arrive late, repeatedly, in any order or not at all.

* `MiningNetwork.step` — the miners, the managers and strangers in any order.
* `MiningNetwork.Orderly` — slots pass, and what reaches a manager fits its tree.
* `MiningNode.Sound` — what holds of one node, with a lemma for each of its steps.
* `mining_sound` — in every orderly run no manager stops, each miner stays on its own tree, and every
  block that it mines extends a published block of an earlier slot.
-/

set_option autoImplicit false

namespace AccountabilityGadget

open Encoding

/-! ## One node -/

structure MiningNode where
  manager : Manager
  miner : Miner
  /-- How many of the tips the miner has received. -/
  received : ℕ
  /-- What the manager has received of the topic. -/
  delivered : List Bytes

namespace LcBlockTree

/-- The tree has a block with this digest and slot. -/
def Filed (t : LcBlockTree) (tip : Digest × U64) : Prop :=
  ∃ blk, t.lcblocks tip.1 = some blk ∧ blk.slot = tip.2

variable {cr : Crypto} {t t' : LcBlockTree} {tip : Digest × U64}

theorem WellFormed.filed_genesis (hw : WellFormed cr t) : t.Filed (LcBlock.genesisDigest cr, 0) :=
  ⟨_, hw.genesis, rfl⟩

/-- **Heights grow no faster than slots**, if every block has a later slot than its parent. -/
theorem WellFormed.height_add_slot_le (hw : WellFormed cr t)
    (hslot : ∀ d p x y, t.lcblocks p = some x → t.lcblocks d = some y → y.parent = some p →
      x.slot < y.slot) {a d : Digest} (h : t.Ext a d) :
    ∀ {x y : LcBlock}, t.lcblocks a = some x → t.lcblocks d = some y →
      t.heightOf d + x.slot.val ≤ t.heightOf a + y.slot.val := by
  -- each step to a child adds one to the height and at least one to the slot
  induction h with
  | refl =>
    intro x y hx hy
    rw [hx, Option.some.injEq] at hy
    rw [hy]
  | @step d p hp _ ih =>
    intro x y hx hy
    have hd : t.Mem d := mem_iff.mpr ⟨y, hy⟩
    obtain ⟨z, hz⟩ := mem_iff.mp (hw.graded.closed d p hd hp)
    obtain ⟨y', hy', hyp⟩ := parentOf_eq_some.mp hp
    rw [hy, Option.some.injEq] at hy'
    have hlt : z.slot.val < y.slot.val := hslot d p z y hz hy (hy' ▸ hyp)
    have hle := ih hx hz
    have hh := hw.graded.height_parent d p hd hp
    omega

end LcBlockTree

namespace Manager

variable {cr : Crypto} {params : TreeParameters} {m : Manager} {bs bs' : List LcBlock}
  {known cps : List Digest}

/-- What a manager needs of an input: a message is a block on a block of its tree, and a decided block
is in the tree. -/
def Fits (m : Manager) (i : Input) : Prop :=
  (∀ ord v, i = .message ord v → ∃ b p, LcBlock.tryFrom v = .ok b ∧ b.parent = some p ∧
    m.lcblocktree.Mem p) ∧
  ∀ cp, i.checkpoint? = some cp → m.lcblocktree.Mem cp

/-- The tip that was sent last, or genesis. -/
def target (cr : Crypto) (m : Manager) : Digest × U64 :=
  m.tips.getLast?.getD (LcBlock.genesisDigest cr, 0)

theorem Serving.mono (hs : Serving cr bs known cps m) (hsub : ∀ b ∈ bs, b ∈ bs') :
    Serving cr bs' known cps m :=
  { hs with
    sound := ⟨hs.sound.tree, fun d b hb => (hs.sound.blocks d b hb).imp_right (hsub b),
      hs.sound.logs⟩ }

theorem Fits.inOrder {i : Input} (hs : Serving cr bs known cps m) (h : m.Fits i) :
    i.InOrder known := by
  cases i with
  | message ord v =>
    obtain ⟨b, p, hv, hp, hm⟩ := h.1 ord v rfl
    exact ⟨b, p, hv, hp, (hs.mem_iff p).mp hm⟩
  | checkpointEvent | command => trivial

theorem Fits.timely {i : Input} (hs : Serving cr bs known cps m) (h : m.Fits i) :
    i.Timely known := fun cp hcp => (hs.mem_iff cp).mp (h.2 cp hcp)

/-- **A live manager announces its leading tip, with the slot of that block.** -/
theorem announce_tips (hw : LcBlockTree.WellFormed cr m.lcblocktree) (params : TreeParameters)
    (hm : m.lcblocktree.Mem (m.latestCheckpoint cr)) (ord : HashOrder Digest) : ∃ tip blk,
      m.lcblocktree.leadingTipExtending ord (m.latestCheckpoint cr) = .ok tip ∧
      m.lcblocktree.lcblocks tip = some blk ∧
      (m.announce cr params ord).tips = m.tips ++ [(tip, blk.slot)] := by
  obtain ⟨tip, htip, hmem, -⟩ := hw.leadingTip_spec ord hm
  obtain ⟨blk, hb⟩ := LcBlockTree.mem_iff.mp hmem
  have hsend : m.sendTip cr ord = .ok { m with tips := m.tips ++ [(tip, blk.slot)] } := by
    simp only [sendTip, htip, LcBlockTree.block, hb, unwrap_ok, bind, Except.bind]
    rfl
  obtain ⟨m', hl⟩ := log_isOk (m := { m with tips := m.tips ++ [(tip, blk.slot)] }) hw params hm ord
  obtain ⟨logAva, acc, ava, -, -, -, rfl⟩ := log_ok hl
  exact ⟨tip, blk, htip, hb, by simp only [announce, hsend, hl]⟩

/-- What an input that fits does to the tree and to the tips. -/
structure Moves (cr : Crypto) (m : Manager) (i : Input) (m' : Manager) : Prop where
  covered : m.lcblocktree.Covered → m'.lcblocktree.Covered
  lcblocks : ∀ d b, m'.lcblocktree.lcblocks d = some b ↔
    m.lcblocktree.lcblocks d = some b ∨ i.block? = some b ∧ b.digest cr = d
  /-- A tip is sent unless nothing has changed. -/
  tips : m'.lcblocktree = m.lcblocktree ∧ m'.checkpoints = m.checkpoints ∧ m'.tips = m.tips ∨
    ∃ ord tip blk, m'.lcblocktree.leadingTipExtending ord (m'.latestCheckpoint cr) = .ok tip ∧
      m'.lcblocktree.lcblocks tip = some blk ∧ m'.tips = m.tips ++ [(tip, blk.slot)]

theorem Moves.refl {i : Input} (hi : i.block? = none) : Moves cr m i m :=
  ⟨id, fun d b => by simp [hi], .inl ⟨rfl, rfl, rfl⟩⟩

theorem Serving.moves (hs : Serving cr bs known cps m) (hc : LcBlockTree.NoCollision cr bs)
    (params : TreeParameters) {i : Input} (hi : ∀ b, i.block? = some b → b ∈ bs) (hfit : m.Fits i) :
    Moves cr m i (m.step cr params i) := by
  have hw := hs.sound.tree
  cases i with
  | message ord v =>
    obtain ⟨b, p, hv, hp, hm⟩ := hfit.1 ord v rfl
    have hblk : (Input.message ord v).block? = some b := by
      simp only [Input.block?, hv]
      rfl
    have hf := hc.unique hw hs.sound.blocks (hi b hblk)
    obtain ⟨t, ht⟩ := hw.add_isOk hp hm
    have hstep : m.step cr params (.message ord v) =
        ({ m with lcblocktree := t } : Manager).announce cr params ord := by
      rw [Manager.step, onMessage, hv, expect_ok]
      simp only [ht]
    have hlatest : t.Mem (m.latestCheckpoint cr) := (hw.add_extends hf ht).mem hs.mem_latest
    obtain ⟨tip, blk, htip, hb, htips⟩ :=
      announce_tips (m := { m with lcblocktree := t }) (hw.add hf ht) params hlatest ord
    obtain ⟨tips, logs, stopped, he⟩ := announce_frame cr params ord { m with lcblocktree := t }
    rw [hstep, he]
    rw [he] at htips
    refine ⟨fun hcov => hcov.add hw hf ht, ?_, .inr ⟨ord, tip, blk, htip, hb, htips⟩⟩
    intro d x
    rw [LcBlockTree.lcblocks_add hf ht, hblk, Option.some.injEq]
    constructor
    · rintro (hx | ⟨rfl, hx⟩)
      · exact .inl hx
      · exact .inr ⟨rfl, hx⟩
    · rintro (hx | ⟨rfl, hx⟩)
      · exact .inl hx
      · exact .inr ⟨rfl, hx⟩
  | checkpointEvent ord e =>
    cases e with
    | newProposal n b => exact .refl rfl
    | newCheckpoint n cp =>
      cases cp with
      | none => exact .refl rfl
      | some cp =>
        have hlatest : m.lcblocktree.Mem (({ m with
            checkpoints := m.checkpoints ++ [cp]
            checkpointsIterations := m.checkpointsIterations ++ [n] } : Manager).latestCheckpoint cr) := by
          simp only [latestCheckpoint, List.getLast?_concat, Option.getD_some]
          exact hfit.2 cp rfl
        obtain ⟨tip, blk, htip, hb, htips⟩ := announce_tips (m := { m with
            checkpoints := m.checkpoints ++ [cp]
            checkpointsIterations := m.checkpointsIterations ++ [n] }) hw params hlatest ord
        obtain ⟨tips, logs, stopped, he⟩ := announce_frame cr params ord { m with
            checkpoints := m.checkpoints ++ [cp]
            checkpointsIterations := m.checkpointsIterations ++ [n] }
        rw [Manager.step, onCheckpointEvent, he]
        rw [he] at htips
        exact ⟨id, fun d x => by simp [Input.block?], .inr ⟨ord, tip, blk, htip, hb, htips⟩⟩
  | command ord cmd =>
    obtain ⟨a, ha⟩ := hs.answers params ord cmd
    simp only [Manager.step, ha]
    exact .refl rfl

end Manager

/-- What holds of a node that has been handed blocks of `bs`. -/
structure MiningNode.Sound (cr : Crypto) (bs : List LcBlock) (n : MiningNode) : Prop where
  serving : ∃ known cps, Manager.Serving cr bs known cps n.manager
  covered : n.manager.lcblocktree.Covered
  /-- The tree is what has been delivered. -/
  files : ∀ d b, n.manager.lcblocktree.lcblocks d = some b ↔
    b.digest cr = d ∧ (b = .genesis ∨ ∃ v ∈ n.delivered, LcBlock.tryFrom v = .ok b)
  tips : ∀ tip ∈ n.manager.tips, n.manager.lcblocktree.Filed tip
  /-- The miner has been told the leading tip. -/
  target : n.manager.lcblocktree.leadingTipExtending .stored (n.manager.latestCheckpoint cr) =
    .ok (n.manager.target cr).1
  parent : ∃ slot, n.manager.lcblocktree.Filed (n.miner.currentParent, slot) ∧
    slot ≤ n.miner.acceptBlocksForSlot
  future : ∀ tip ∈ n.miner.blocksFromFutureSlots, n.manager.lcblocktree.Filed tip

namespace MiningNode

variable {cr : Crypto} {params : TreeParameters} {mining : MinerParameters} {bs bs' : List LcBlock}
  {n : MiningNode}

def new (cr : Crypto) : MiningNode := ⟨.new cr, .new cr, 0, []⟩

theorem sound_new (cr : Crypto) (bs : List LcBlock) : (new cr).Sound cr bs where
  serving := ⟨_, _, Manager.serving_new cr bs⟩
  covered := LcBlockTree.covered_new cr
  files := by
    intro d b
    show Function.update (fun _ => none) (LcBlock.genesisDigest cr) (some LcBlock.genesis) d =
      some b ↔ _
    by_cases hd : d = LcBlock.genesisDigest cr
    · subst hd
      rw [Function.update_self, Option.some.injEq]
      constructor
      · rintro rfl
        exact ⟨rfl, .inl rfl⟩
      · rintro ⟨-, rfl | ⟨v, hv, -⟩⟩
        · rfl
        · cases hv
    · rw [Function.update_of_ne hd]
      constructor
      · nofun
      · rintro ⟨rfl, rfl | ⟨v, hv, -⟩⟩
        · exact absurd rfl hd
        · cases hv
  tips := nofun
  target := by
    have hw := LcBlockTree.wellFormed_new cr
    obtain ⟨tip, htip, hm, -⟩ := hw.leadingTip_spec .stored hw.mem_genesis
    obtain ⟨b, hb⟩ := LcBlockTree.mem_iff.mp hm
    have hg : tip = LcBlock.genesisDigest cr := by
      by_contra hne
      rw [LcBlockTree.new] at hb
      simp only [Function.update_of_ne hne] at hb
      cases hb
    exact htip.trans (congrArg _ hg)
  parent := ⟨0, (LcBlockTree.wellFormed_new cr).filed_genesis, le_refl _⟩
  future := nofun

theorem Sound.tree (h : n.Sound cr bs) : LcBlockTree.WellFormed cr n.manager.lcblocktree := by
  obtain ⟨known, cps, hs⟩ := h.serving
  exact hs.sound.tree

theorem Sound.live (h : n.Sound cr bs) : n.manager.stopped = none := by
  obtain ⟨known, cps, hs⟩ := h.serving
  exact hs.live

theorem Sound.mem_latest (h : n.Sound cr bs) :
    n.manager.lcblocktree.Mem (n.manager.latestCheckpoint cr) := by
  obtain ⟨known, cps, hs⟩ := h.serving
  exact hs.mem_latest

theorem Sound.mono (h : n.Sound cr bs) (hsub : ∀ b ∈ bs, b ∈ bs') : n.Sound cr bs' := by
  obtain ⟨known, cps, hs⟩ := h.serving
  exact { h with serving := ⟨known, cps, hs.mono hsub⟩ }

/-! ## Its steps -/

def tick (mining : MinerParameters) (n : MiningNode) (tSlot : U64) (won : Bool) : MiningNode :=
  { n with miner := n.miner.tick mining tSlot won }

/-- The miner receives a tip. -/
def receive (n : MiningNode) (tip : Digest × U64) : MiningNode :=
  { n with miner := n.miner.receive tip, received := n.received + 1 }

/-- The manager takes an input. -/
def manage (cr : Crypto) (params : TreeParameters) (n : MiningNode) (i : Manager.Input) : MiningNode :=
  { n with
    manager := n.manager.step cr params i
    delivered := match i with
      | .message _ v => n.delivered ++ [v]
      | _ => n.delivered }

theorem Sound.receive (h : n.Sound cr bs) {tip : Digest × U64} (htip : tip ∈ n.manager.tips) :
    (n.receive tip).Sound cr bs := by
  have hfiled := h.tips tip htip
  unfold MiningNode.receive Miner.receive
  split_ifs with hs
  · exact { h with parent := ⟨tip.2, hfiled, hs⟩ }
  · refine { h with future := ?_ }
    intro x hx
    rcases List.mem_append.mp hx with hx | hx
    · exact h.future x hx
    · exact List.mem_singleton.mp hx ▸ hfiled

theorem Sound.tick (h : n.Sound cr bs) (mining : MinerParameters) {tSlot : U64}
    (hs : n.miner.acceptBlocksForSlot < tSlot) (won : Bool) : (n.tick mining tSlot won).Sound cr bs := by
  unfold MiningNode.tick Miner.tick
  rw [Miner.foldl_receive]
  refine { h with parent := ?_, future := ?_ }
  · cases hl : Latest.latest (fun tip => decide (tip.2 ≤ tSlot)) n.miner.blocksFromFutureSlots with
    | none =>
      obtain ⟨slot, hfiled, hle⟩ := h.parent
      exact ⟨slot, hfiled, hle.trans hs.le⟩
    | some tip =>
      have hslot := Latest.test_of_latest hl
      exact ⟨tip.2, h.future tip (Latest.mem_of_latest hl), of_decide_eq_true hslot⟩
  · intro tip htip
    exact h.future tip (List.mem_filter.mp htip).1

/-- **The manager takes in what fits.** -/
theorem Sound.manage (h : n.Sound cr bs) (hc : LcBlockTree.NoCollision cr bs)
    (params : TreeParameters) {i : Manager.Input} (hi : ∀ b, i.block? = some b → b ∈ bs)
    (hfit : n.manager.Fits i) : (n.manage cr params i).Sound cr bs := by
  obtain ⟨known, cps, hs⟩ := h.serving
  have hs' := hs.step hc params hi (hfit.inOrder hs) (hfit.timely hs)
  have hmoves := hs.moves hc params hi hfit
  have hsub : ∀ d b, n.manager.lcblocktree.lcblocks d = some b →
      (n.manager.step cr params i).lcblocktree.lcblocks d = some b := fun d b hb =>
    (hmoves.lcblocks d b).mpr (.inl hb)
  have hfiled : ∀ tip, n.manager.lcblocktree.Filed tip →
      (n.manager.step cr params i).lcblocktree.Filed tip := by
    rintro tip ⟨blk, hb, hslot⟩
    exact ⟨blk, hsub _ _ hb, hslot⟩
  refine ⟨⟨_, _, hs'⟩, hmoves.covered h.covered, ?_, ?_, ?_, ?_, fun tip ht => hfiled tip (h.future tip ht)⟩
  · intro d b
    refine (hmoves.lcblocks d b).trans ?_
    rw [h.files]
    cases i with
    | message ord v =>
      have hblk : (Manager.Input.message ord v).block? = some b ↔ LcBlock.tryFrom v = .ok b := by
        show (LcBlock.tryFrom v).toOption = some b ↔ _
        cases LcBlock.tryFrom v with
        | error e => exact ⟨nofun, nofun⟩
        | ok x => simp [Except.toOption]
      simp only [MiningNode.manage, List.mem_append, List.mem_singleton, or_and_right, exists_or,
        exists_eq_left, hblk]
      rw [and_comm (a := LcBlock.tryFrom v = .ok b), ← and_or_left, or_assoc]
    | checkpointEvent ord e => simp [MiningNode.manage, Manager.Input.block?]
    | command ord cmd => simp [MiningNode.manage, Manager.Input.block?]
  · intro tip htip
    rcases hmoves.tips with ⟨-, -, heq⟩ | ⟨ord, d, blk, -, hb, heq⟩
    · exact hfiled tip (h.tips tip (heq ▸ htip))
    · have htip : tip ∈ n.manager.tips ++ [(d, blk.slot)] := heq ▸ htip
      rcases List.mem_append.mp htip with htip | htip
      · exact hfiled tip (h.tips tip htip)
      · exact List.mem_singleton.mp htip ▸ ⟨blk, hb, rfl⟩
  · show (n.manager.step cr params i).lcblocktree.leadingTipExtending .stored
      ((n.manager.step cr params i).latestCheckpoint cr) =
        .ok ((n.manager.step cr params i).target cr).1
    rcases hmoves.tips with ⟨htree, hcps, heq⟩ | ⟨ord, d, blk, htip, -, heq⟩
    · rw [htree, Manager.target, heq, Manager.latestCheckpoint, hcps]
      exact h.target
    · rw [hs'.sound.tree.leadingTip_orderFree .stored ord (hs'.sound.tree.mem_of_leadingTip htip), htip,
        Manager.target, heq, List.getLast?_concat]
      rfl
  · obtain ⟨slot, hf, hle⟩ := h.parent
    exact ⟨slot, hfiled _ hf, hle⟩

/-- A miner that has ticked mines on a block of its own tree, of an earlier slot. -/
theorem Sound.exists_parent (h : n.Sound cr bs) {tSlot : U64}
    (hs : n.miner.acceptBlocksForSlot < tSlot) : ∃ parent,
      n.manager.lcblocktree.lcblocks n.miner.currentParent = some parent ∧
      parent.digest cr = n.miner.currentParent ∧ parent.slot < tSlot := by
  obtain ⟨slot, ⟨parent, hb, rfl⟩, hle⟩ := h.parent
  exact ⟨parent, hb, h.tree.digest _ _ hb, lt_of_le_of_lt hle hs⟩

end MiningNode

/-! ## The network -/

structure MiningNetwork (P : Type) where
  nodes : P → MiningNode
  /-- The topic `lcblocks`: what the miners have sent, and what others have. -/
  topic : List (Option P × Bytes)

namespace MiningNetwork

variable {P : Type}

/-- The blocks that have been published. -/
def blocks (topic : List (Option P × Bytes)) : List LcBlock :=
  topic.filterMap fun e => (LcBlock.tryFrom e.2).toOption

theorem mem_blocks {topic : List (Option P × Bytes)} {b : LcBlock} :
    b ∈ blocks topic ↔ ∃ e ∈ topic, LcBlock.tryFrom e.2 = .ok b := by
  simp only [blocks, List.mem_filterMap]
  refine exists_congr fun e => and_congr_right fun _ => ?_
  cases LcBlock.tryFrom e.2 with
  | error e => exact ⟨nofun, nofun⟩
  | ok x => simp [Except.toOption]

theorem blocks_append (topic topic' : List (Option P × Bytes)) :
    blocks (topic ++ topic') = blocks topic ++ blocks topic' := List.filterMap_append

inductive Input (P : Type) where
  | tick (p : P) (tSlot : U64) (won : Bool)
  /-- The miner receives the next tip. -/
  | tip (p : P)
  | manage (p : P) (i : Manager.Input)
  | stranger (v : Bytes)

variable (cr : Crypto) (params : TreeParameters) (mining : P → MinerParameters)
  (s : MiningNetwork P)

def new : MiningNetwork P := ⟨fun _ => .new cr, []⟩

/-- A message comes from the topic. -/
def Carries : Manager.Input → Prop
  | .message _ v => v ∈ s.topic.map Prod.snd
  | _ => True

instance (i : Manager.Input) : Decidable (s.Carries i) :=
  match i with
  | .message _ v => inferInstanceAs (Decidable (v ∈ s.topic.map Prod.snd))
  | .checkpointEvent _ _ | .command _ _ => inferInstanceAs (Decidable True)

/-- The clock of a node has passed to another slot; what reaches its manager fits the tree. -/
def Orderly : Input P → Prop
  | .tick p tSlot _ => (s.nodes p).miner.acceptBlocksForSlot < tSlot
  | .manage p i => (s.nodes p).manager.Fits i
  | .tip _ | .stranger _ => True

/-- A miner's entry of the topic, after the others: a block on a published block of an earlier slot,
and of a later slot than those that the miner has sent before. -/
def Mined (topic : List (Option P × Bytes)) (e : Option P × Bytes) : Prop :=
  ∀ p, e.1 = some p → ∃ b parent : LcBlock, e.2 = b.encode ∧ b.parent = some (parent.digest cr) ∧
    (parent = .genesis ∨ parent ∈ blocks topic) ∧ parent.slot < b.slot ∧
    ∀ v b', (some p, v) ∈ topic → LcBlock.tryFrom v = .ok b' → b'.slot < b.slot

structure Inv : Prop where
  nodes : ∀ p, (s.nodes p).Sound cr (blocks s.topic)
  mined : Justified (Mined cr) s.topic
  /-- A node can always take in its own blocks. -/
  own : ∀ p v b, (some p, v) ∈ s.topic → LcBlock.tryFrom v = .ok b →
    b.slot ≤ (s.nodes p).miner.acceptBlocksForSlot ∧
    ∃ q, b.parent = some q ∧ (s.nodes p).manager.lcblocktree.Mem q

theorem inv_new : Inv cr (new cr : MiningNetwork P) where
  nodes := fun _ => MiningNode.sound_new cr _
  mined := justified_nil
  own := nofun

/-- An entry of the topic. -/
def publish (e : Option P × Bytes) : MiningNetwork P := { s with topic := s.topic ++ [e] }

variable {cr s}

theorem Inv.publish (h : Inv cr s) {e : Option P × Bytes} (he : Mined cr s.topic e)
    (hown : ∀ p b, e.1 = some p → LcBlock.tryFrom e.2 = .ok b →
      b.slot ≤ (s.nodes p).miner.acceptBlocksForSlot ∧
      ∃ q, b.parent = some q ∧ (s.nodes p).manager.lcblocktree.Mem q) : Inv cr (s.publish e) where
  nodes := by
    intro q
    refine (h.nodes q).mono fun b hb => ?_
    show b ∈ blocks (s.topic ++ [e])
    rw [blocks_append]
    exact List.mem_append_left _ hb
  mined := h.mined.concat he
  own := by
    intro p v b hv hb
    rcases List.mem_append.mp hv with hv | hv
    · exact h.own p v b hv hb
    · obtain rfl := List.mem_singleton.mp hv
      exact hown p b rfl hb

/-- A message that is carried is published. -/
theorem Carries.published {i : Manager.Input} (h : s.Carries i) {b : LcBlock}
    (hb : i.block? = some b) : b ∈ blocks s.topic := by
  cases i with
  | message ord v =>
    obtain ⟨e, he, rfl⟩ := List.mem_map.mp h
    exact List.mem_filterMap.mpr ⟨e, he, hb⟩
  | checkpointEvent | command => cases hb

/-- What the miner of a node sends at a tick. -/
theorem Inv.mined_lcblk (h : Inv cr s) {p : P} {tSlot : U64} (mining : MinerParameters)
    (hs : (s.nodes p).miner.acceptBlocksForSlot < tSlot) :
    Mined cr s.topic (some p, ((s.nodes p).miner.lcblk mining tSlot).encode) := by
  rintro q ⟨⟩
  obtain ⟨parent, hb, hd, hlt⟩ := (h.nodes p).exists_parent hs
  obtain ⟨known, cps, hserving⟩ := (h.nodes p).serving
  refine ⟨_, parent, rfl, congrArg some hd.symm, hserving.sound.blocks _ _ hb, hlt, ?_⟩
  intro v b' hv hb'
  exact lt_of_le_of_lt (h.own p v b' hv hb').1 hs

/-- A published block has a later slot than its parent, if it is not a stranger's. -/
theorem Inv.slot_lt (h : Inv cr s) (hc : LcBlockTree.NoCollision cr (blocks s.topic))
    (hlate : ∀ v b x, (none, v) ∈ s.topic → LcBlock.tryFrom v = .ok b →
      (x = .genesis ∨ x ∈ blocks s.topic) → b.parent = some (x.digest cr) → x.slot < b.slot)
    {b x : LcBlock} (hb : b ∈ blocks s.topic) (hx : x = .genesis ∨ x ∈ blocks s.topic)
    (hp : b.parent = some (x.digest cr)) : x.slot < b.slot := by
  obtain ⟨⟨origin, v⟩, he, hv⟩ := mem_blocks.mp hb
  cases origin with
  | none => exact hlate v b x he hv hx hp
  | some p =>
    obtain ⟨pre, post, htopic⟩ := List.append_of_mem he
    obtain ⟨b', parent, rfl, hbp, hparent, hlt, -⟩ := h.mined _ _ _ htopic p rfl
    rw [LcBlock.tryFrom_encode, Except.ok.injEq] at hv
    subst hv
    have hparent : parent = .genesis ∨ parent ∈ blocks s.topic := by
      rw [htopic, blocks_append]
      exact hparent.imp_right (List.mem_append_left _)
    have hd : parent.digest cr = x.digest cr := Option.some.inj (hbp.symm.trans hp)
    have heq := LcBlock.encode_injective
      (hc _ _ ⟨parent, hparent, rfl⟩ ⟨x, hx, rfl⟩ hd)
    exact heq ▸ hlt

end MiningNetwork

namespace MiningNetwork

variable {P : Type} [DecidableEq P] (cr : Crypto) (params : TreeParameters)
  (mining : P → MinerParameters) (s : MiningNetwork P)

def turn (p : P) (n : MiningNode) : MiningNetwork P :=
  { s with nodes := Function.update s.nodes p n }

def step : Input P → Option (MiningNetwork P)
  | .tick p tSlot won =>
    let ticked := s.turn p ((s.nodes p).tick (mining p) tSlot won)
    some (if won then ticked.publish (some p, ((s.nodes p).miner.lcblk (mining p) tSlot).encode)
      else ticked)
  | .tip p => ((s.nodes p).manager.tips[(s.nodes p).received]?).map fun tip =>
      s.turn p ((s.nodes p).receive tip)
  | .manage p i =>
    if (s.nodes p).manager.stopped = none ∧ s.Carries i then
      some (s.turn p ((s.nodes p).manage cr params i))
    else none
  | .stranger v => some (s.publish (none, v))

/-- The orderly runs. -/
def machine : Machine (MiningNetwork P) (Input P) :=
  (Machine.ofStep (fun s => s = new cr) (step cr params mining)).restrict Orderly

variable {cr params mining s} {t : MiningNetwork P}

@[simp] theorem turn_self (p : P) (n : MiningNode) : (s.turn p n).nodes p = n :=
  Function.update_self ..

@[simp] theorem turn_of_ne {p q : P} (h : q ≠ p) (n : MiningNode) :
    (s.turn p n).nodes q = s.nodes q := Function.update_of_ne h ..

/-- What holds of the nodes holds of them after the turn of one, if it holds of that one. -/
theorem turn_cases {C : P → MiningNode → Prop} {p : P} {n : MiningNode} (hn : C p n)
    (h : ∀ q, C q (s.nodes q)) (q : P) : C q ((s.turn p n).nodes q) := by
  by_cases hq : q = p
  · subst hq
    rw [turn_self]
    exact hn
  · rw [turn_of_ne hq]
    exact h q

/-- A step of one node: its clock does not go back and its tree keeps its blocks. -/
theorem Inv.turned (h : Inv cr s) {p : P} {n : MiningNode} (hn : n.Sound cr (blocks s.topic))
    (hclock : (s.nodes p).miner.acceptBlocksForSlot ≤ n.miner.acceptBlocksForSlot)
    (hmem : ∀ d, (s.nodes p).manager.lcblocktree.Mem d → n.manager.lcblocktree.Mem d) :
    Inv cr (s.turn p n) where
  nodes := turn_cases (C := fun _ n => n.Sound cr (blocks s.topic)) hn h.nodes
  mined := h.mined
  own := by
    refine turn_cases (C := fun q n => ∀ v b, (some q, v) ∈ s.topic → LcBlock.tryFrom v = .ok b →
      b.slot ≤ n.miner.acceptBlocksForSlot ∧
      ∃ d, b.parent = some d ∧ n.manager.lcblocktree.Mem d) ?_ h.own
    intro v b hv hb
    obtain ⟨hle, d, hd, hm⟩ := h.own p v b hv hb
    exact ⟨hle.trans hclock, d, hd, hmem d hm⟩

/-- **Step lemma.** -/
theorem Inv.step {i : Input P} (h : Inv cr s) (hc : LcBlockTree.NoCollision cr (blocks s.topic))
    (hi : s.Orderly i) (hs : s.step cr params mining i = some t) : Inv cr t := by
  cases i with
  | tick p tSlot won =>
    have hturn := h.turned ((h.nodes p).tick (mining p) hi won) (p := p)
      (by rw [MiningNode.tick, Miner.tick, Miner.foldl_receive]; exact le_of_lt hi) fun _ hd => hd
    cases hs
    cases won with
    | false => exact hturn
    | true =>
      -- the block names the parent that the miner had before the tick
      refine hturn.publish (h.mined_lcblk (mining p) hi) ?_
      rintro q b ⟨⟩ hb
      rw [LcBlock.tryFrom_encode, Except.ok.injEq] at hb
      subst hb
      obtain ⟨parent, hb, -⟩ := (h.nodes p).exists_parent hi
      rw [turn_self, MiningNode.tick, Miner.tick, Miner.foldl_receive]
      exact ⟨le_refl _, _, rfl, LcBlockTree.mem_iff.mpr ⟨parent, hb⟩⟩
  | tip p =>
    obtain ⟨tip, htip, rfl⟩ := Option.map_eq_some_iff.mp hs
    refine h.turned ((h.nodes p).receive (List.mem_of_getElem? htip)) ?_ fun _ hd => hd
    rw [MiningNode.receive, Miner.receive]
    split_ifs <;> exact le_refl _
  | manage p i =>
    simp only [MiningNetwork.step, Option.ite_none_right_eq_some, Option.some.injEq] at hs
    obtain ⟨⟨-, hcarries⟩, rfl⟩ := hs
    obtain ⟨known, cps, hserving⟩ := (h.nodes p).serving
    refine h.turned ((h.nodes p).manage hc params (fun b => hcarries.published) hi) (le_refl _) ?_
    intro d hd
    obtain ⟨b, hb⟩ := LcBlockTree.mem_iff.mp hd
    have hmoves := hserving.moves hc params (fun b => hcarries.published) hi
    exact LcBlockTree.mem_iff.mpr ⟨b, (hmoves.lcblocks d b).mpr (.inl hb)⟩
  | stranger v =>
    cases hs
    refine h.publish ?_ ?_
    · intro p hp
      cases hp
    · intro p b hp
      cases hp

/-- The topic only grows. -/
theorem step_topic {i : Input P} (hs : s.step cr params mining i = some t) :
    ∃ l, t.topic = s.topic ++ l := by
  cases i with
  | tick p tSlot won =>
    cases hs
    cases won with
    | false => exact ⟨[], (List.append_nil _).symm⟩
    | true => exact ⟨_, rfl⟩
  | tip p =>
    obtain ⟨tip, -, rfl⟩ := Option.map_eq_some_iff.mp hs
    exact ⟨[], (List.append_nil _).symm⟩
  | manage p i =>
    simp only [MiningNetwork.step, Option.ite_none_right_eq_some, Option.some.injEq] at hs
    obtain ⟨-, rfl⟩ := hs
    exact ⟨[], (List.append_nil _).symm⟩
  | stranger v =>
    cases hs
    exact ⟨_, rfl⟩

/-- **Run lemma.** -/
theorem inv_reachable (hr : (machine cr params mining).Reachable s)
    (hc : LcBlockTree.NoCollision cr (blocks s.topic)) : Inv cr s := by
  refine Machine.invariant
    (P := fun s => LcBlockTree.NoCollision cr (blocks s.topic) → Inv cr s) ?_ ?_ hr hc
  · rintro s rfl -
    exact inv_new cr
  · rintro s i t ih ⟨hi, hs⟩ hct
    obtain ⟨l, hl⟩ := step_topic hs
    have hcs : LcBlockTree.NoCollision cr (blocks s.topic) := by
      refine AdversarialNode.noCollision_mono (fun b hb => ?_) hct
      rw [hl, blocks_append]
      exact List.mem_append_left _ hb
    exact (ih hcs).step hcs hi hs

/-- **Miners stay on their own trees, and time bounds the chains.**  In every orderly run every manager
is alive, its tree is genesis and what it has been handed, and it has told its miner its leading tip; the
miner is on a block of that tree; each block that it has sent extends genesis or a block published
before, of an earlier slot, is later than those it has sent before, and can be added to its own tree; and
if strangers respect the slots of parents too, heights grow no faster than slots in every tree. -/
theorem mining_sound (cr : Crypto) (params : TreeParameters) (mining : P → MinerParameters)
    (s : MiningNetwork P) (hr : (machine cr params mining).Reachable s)
    (hc : LcBlockTree.NoCollision cr (blocks s.topic)) :
    (∀ p, (s.nodes p).manager.stopped = none ∧
      (∀ d b, (s.nodes p).manager.lcblocktree.lcblocks d = some b ↔ b.digest cr = d ∧
        (b = .genesis ∨ ∃ v ∈ (s.nodes p).delivered, LcBlock.tryFrom v = .ok b)) ∧
      (∀ ord, (s.nodes p).manager.lcblocktree.leadingTipExtending ord
        ((s.nodes p).manager.latestCheckpoint cr) = .ok ((s.nodes p).manager.target cr).1) ∧
      (s.nodes p).manager.lcblocktree.Mem (s.nodes p).miner.currentParent) ∧
    (∀ pre p v post, s.topic = pre ++ (some p, v) :: post → ∃ b parent : LcBlock, v = b.encode ∧
      b.parent = some (parent.digest cr) ∧ (parent = .genesis ∨ parent ∈ blocks pre) ∧
      parent.slot < b.slot ∧
      (∀ v' b', (some p, v') ∈ pre → LcBlock.tryFrom v' = .ok b' → b'.slot < b.slot) ∧
      ∃ t, (s.nodes p).manager.lcblocktree.add cr b = .ok t) ∧
    ((∀ v b x, (none, v) ∈ s.topic → LcBlock.tryFrom v = .ok b →
        (x = .genesis ∨ x ∈ blocks s.topic) → b.parent = some (x.digest cr) → x.slot < b.slot) →
      ∀ p a d x y, (s.nodes p).manager.lcblocktree.lcblocks a = some x →
        (s.nodes p).manager.lcblocktree.lcblocks d = some y →
        (s.nodes p).manager.lcblocktree.Ext a d →
        (s.nodes p).manager.lcblocktree.heightOf d + x.slot.val ≤
          (s.nodes p).manager.lcblocktree.heightOf a + y.slot.val) := by
  have h := inv_reachable hr hc
  refine ⟨?_, ?_, ?_⟩
  · intro p
    have hn := h.nodes p
    refine ⟨hn.live, hn.files, ?_, ?_⟩
    · intro ord
      rw [hn.tree.leadingTip_orderFree ord .stored hn.mem_latest]
      exact hn.target
    · obtain ⟨slot, ⟨blk, hb, -⟩, -⟩ := hn.parent
      exact LcBlockTree.mem_iff.mpr ⟨blk, hb⟩
  · intro pre p v post htopic
    obtain ⟨b, parent, hv, hp, hparent, hlt, hlater⟩ := h.mined _ _ _ htopic p rfl
    refine ⟨b, parent, hv, hp, hparent, hlt, hlater, ?_⟩
    obtain ⟨-, q, hq, hm⟩ := h.own p v b (by simp [htopic])
      (by rw [show v = b.encode from hv, LcBlock.tryFrom_encode])
    exact (h.nodes p).tree.add_isOk hq hm
  · intro hlate p a d x y hx hy hext
    obtain ⟨known, cps, hserving⟩ := (h.nodes p).serving
    refine (h.nodes p).tree.height_add_slot_le ?_ hext hx hy
    intro d q x y hx hy hp
    have hblocks := hserving.sound.blocks
    rcases hblocks _ _ hy with rfl | hb
    · cases hp
    · refine h.slot_lt hc hlate hb (hblocks _ _ hx) ?_
      rw [hp, (h.nodes p).tree.digest _ _ hx]

/-! ## A run -/

/-- Digests that only tell lengths apart. -/
def lengthCrypto : Crypto :=
  { sampleCrypto with sha512 := fun bs => ⟨⟨leBytes 32 bs.length, length_leBytes _ _⟩⟩ }

/-- A block on genesis, for slot 1. -/
def firstBlock : LcBlock := (Miner.new lengthCrypto).lcblk Miner.sampleParameters 1

theorem length_firstBlock : 22000 < firstBlock.encode.length ∧ firstBlock.encode.length < 2 ^ 65 := by
  have htext := firstBlock.payload.text.length_lt
  have hdata : firstBlock.payload.data.bytes.length = 22000 := List.length_replicate
  rw [LcBlock.encode, List.length_append, List.length_append, List.length_append, encStr, encStr,
    List.length_append, List.length_append, hdata, length_leBytes, length_leBytes, length_leBytes]
  have hparent : (encOpt Digest.toBytes firstBlock.parent).length = 33 := by
    rw [show firstBlock.parent = some (LcBlock.genesisDigest lengthCrypto) from rfl, encOpt,
      List.length_append, length_leBytes, Digest.length_toBytes]
  omega

theorem noCollision_firstBlock : LcBlockTree.NoCollision lengthCrypto [firstBlock] := by
  have hlen := length_firstBlock
  have hgenesis : LcBlock.genesis.encode.length = 32 := by decide
  have hne : LcBlock.genesis.digest lengthCrypto ≠ firstBlock.digest lengthCrypto := by
    intro h
    have hbytes : leBytes 32 LcBlock.genesis.encode.length = leBytes 32 firstBlock.encode.length :=
      congrArg (fun d : Digest => d.data.bytes) h
    have heq := leBytes_inj (by omega) (by omega) hbytes
    omega
  rintro x y ⟨b, hb, rfl⟩ ⟨b', hb', rfl⟩ h
  rw [List.mem_singleton] at hb hb'
  rcases hb with rfl | rfl <;> rcases hb' with rfl | rfl
  · rfl
  · exact absurd h hne
  · exact absurd h.symm hne
  · rfl

def firstMining : Bool → MinerParameters := fun _ => Miner.sampleParameters

/-- One of two miners has sent its first block. -/
def firstSent : MiningNetwork Bool :=
  ((new lengthCrypto).turn false
    ((MiningNode.new lengthCrypto).tick Miner.sampleParameters 1 true)).publish
      (some false, firstBlock.encode)

theorem firstSent_reachable : (machine lengthCrypto ⟨0, 0⟩ firstMining).Reachable firstSent :=
  .step (i := .tick false 1 true) (.init rfl) ⟨show (0 : U64) < 1 by decide, rfl⟩

theorem noCollision_firstSent : LcBlockTree.NoCollision lengthCrypto (blocks firstSent.topic) := by
  have hblocks : blocks firstSent.topic = [firstBlock] := by
    show List.filterMap _ [(some false, firstBlock.encode)] = _
    simp only [List.filterMap_cons, List.filterMap_nil, LcBlock.tryFrom_encode, Except.toOption]
  rw [hblocks]
  exact noCollision_firstBlock

/-- Its own manager can take the block in. -/
theorem mining_sound_first : ∃ t,
    (firstSent.nodes false).manager.lcblocktree.add lengthCrypto firstBlock = .ok t := by
  obtain ⟨b, parent, hv, -, -, -, -, hadd⟩ := (mining_sound lengthCrypto ⟨0, 0⟩ firstMining firstSent
    firstSent_reachable noCollision_firstSent).2.1 [] false firstBlock.encode [] rfl
  rw [LcBlock.encode_injective hv]
  exact hadd

end MiningNetwork

end AccountabilityGadget
