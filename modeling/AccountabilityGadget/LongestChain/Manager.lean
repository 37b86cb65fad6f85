import AccountabilityGadget.Checkpoint.Messages
import AccountabilityGadget.LongestChain.LeadingTip

/-!
# The block-tree manager (`mynode/src/lcblocktreemanager.rs`)

* `Manager.onMessage`, `onCheckpointEvent`, `answer` — the three branches of its `select!`.
* `Manager.run` — the manager over a sequence of inputs; a panic stops it for good.
* `run_sound` — in every state the tree is well formed and every logged `LOGacc` is a prefix of the
  `LOGava` logged with it.
* `proposal_validates` — what the manager proposes it also accepts.
* `proposal_between` — the three statements about proposals and logs, together.

Every branch that scans the tips takes the enumeration order as an argument.
-/

set_option autoImplicit false

namespace AccountabilityGadget

/-- The fields of `CheckpointParameters` that the manager reads. -/
structure TreeParameters where
  proposeKDeep : ℕ
  lctreeLogavaKDeep : ℕ

/-- The heads of the two ledgers, with their honest height and their height. -/
structure LogLine where
  acc : ℕ × ℕ × Digest
  ava : ℕ × ℕ × Digest
  deriving DecidableEq

structure Manager where
  lcblocktree : LcBlockTree
  checkpoints : List Digest
  checkpointsIterations : List ℕ
  /-- What was sent on `tx_tip_mining`. -/
  tips : List (Digest × Encoding.U64)
  logs : List LogLine
  stopped : Option Panic

/-- `MyLcBlockTreeManagerCmd`, without the channel for the answer. -/
inductive ManagerCmd where
  | getCurrentProposal
  | validateProposal (digest : Digest)
  | getHeightOfBlock (digest : Digest)
  | getCurrentTip
  | getParentOfBlock (digest : Digest)
  | getBlock (digest : Digest)
  deriving DecidableEq

inductive ManagerAnswer where
  | digest (d : Digest)
  | valid (b : Bool)
  | height (h : Option ℕ)
  | parent (p : Option (Option Digest))
  | block (b : Option LcBlock)
  deriving DecidableEq

namespace Manager

def new (cr : Crypto) : Manager := ⟨.new cr, [], [], [], [], none⟩

variable (cr : Crypto) (params : TreeParameters) (ord : HashOrder Digest) (m : Manager)

/-- `checkpoints.last().unwrap_or(&genesis_digest)`. -/
def latestCheckpoint : Digest := m.checkpoints.getLast?.getD (LcBlock.genesisDigest cr)

/-- Tell the miner the tip to mine on. -/
def sendTip : Except Panic Manager := do
  let tip ← m.lcblocktree.leadingTipExtending ord (m.latestCheckpoint cr)
  let blk ← unwrap (m.lcblocktree.block tip)
  return { m with tips := m.tips ++ [(tip, blk.slot)] }

/-- The head of a log, as it is printed. -/
def head (which : String) (d : Digest) : Except Panic (ℕ × ℕ × Digest) := do
  let honest ← expect ("failed to obtain height_honest of " ++ which) (m.lcblocktree.heightHonest d)
  let height ← expect ("failed to obtain height of " ++ which) (m.lcblocktree.height d)
  return (honest, height, d)

/-- The higher of the latest checkpoint and the block `k` below its leading tip. -/
def higherKDeep (k : ℕ) : Except Panic Digest := do
  let tip ← m.lcblocktree.leadingTipExtending ord (m.latestCheckpoint cr)
  let deep ← m.lcblocktree.kDeep k tip
  expect "failed to compare blocks for unexpected reason!"
    (m.lcblocktree.higherOf (m.latestCheckpoint cr) deep)

/-- Log the heads of `LOGacc` and `LOGava`. -/
def log : Except Panic Manager := do
  let logAva ← m.higherKDeep cr ord params.lctreeLogavaKDeep
  let acc ← m.head "LOGacc" (m.latestCheckpoint cr)
  let ava ← m.head "LOGava" logAva
  return { m with logs := m.logs ++ [⟨acc, ava⟩] }

def stop (p : Panic) : Manager := { m with stopped := some p }

/-- What follows a change of the tree or of the checkpoints. -/
def announce : Manager :=
  match m.sendTip cr ord with
  | .error p => m.stop p
  | .ok m' =>
    match m'.log cr params ord with
    | .error p => m'.stop p
    | .ok m'' => m''

/-- A message of the `lcblocks` topic. -/
def onMessage (v : Bytes) : Manager :=
  match expect "failed to deserialize what is expected to be LcBlock!" (LcBlock.tryFrom v) with
  | .error p => m.stop p
  | .ok blk =>
    match m.lcblocktree.add cr blk with
    | .error e => m.stop (.expect ("Error when adding block to tree: " ++ e))
    | .ok lcblocktree => { m with lcblocktree }.announce cr params ord

/-- An event of the extractor. -/
def onCheckpointEvent : CheckpointEvent → Manager
  | .newCheckpoint i (some cp) =>
    { m with
      checkpoints := m.checkpoints ++ [cp]
      checkpointsIterations := m.checkpointsIterations ++ [i] }.announce cr params ord
  | .newCheckpoint _ none => m
  | .newProposal _ _ => m

/-- Both ancestry tests of a proposal; unknown blocks are rejected. -/
def validateProposal (digest : Digest) : Except Panic Bool := do
  let condition1 ← ok (m.lcblocktree.isPrefixOf (m.latestCheckpoint cr) digest)
  let tip ← m.lcblocktree.leadingTipExtending ord (m.latestCheckpoint cr)
  let condition2 ← ok (m.lcblocktree.isPrefixOf digest tip)
  match condition1, condition2 with
  | some c1, some c2 => return c1 && c2
  | _, _ => return false

/-- The answer to a command. -/
def answer : ManagerCmd → Except Panic ManagerAnswer
  | .getCurrentProposal => .digest <$> m.higherKDeep cr ord params.proposeKDeep
  | .validateProposal digest => .valid <$> m.validateProposal cr ord digest
  | .getHeightOfBlock digest => .height <$> ok (m.lcblocktree.height digest)
  | .getCurrentTip =>
    .digest <$> m.lcblocktree.leadingTipExtending ord (m.latestCheckpoint cr)
  | .getParentOfBlock digest => .parent <$> ok (m.lcblocktree.parent digest)
  | .getBlock digest => .block <$> ok (m.lcblocktree.block digest)

/-- One branch of the `select!`, with the order of the tips in it. -/
inductive Input where
  | message (ord : HashOrder Digest) (v : Bytes)
  | checkpointEvent (ord : HashOrder Digest) (e : CheckpointEvent)
  | command (ord : HashOrder Digest) (cmd : ManagerCmd)

def step : Input → Manager
  | .message ord v => m.onMessage cr params ord v
  | .checkpointEvent ord e => m.onCheckpointEvent cr params ord e
  | .command ord cmd =>
    match m.answer cr params ord cmd with
    | .error p => m.stop p
    | .ok _ => m

/-- A sequence of inputs; nothing happens after a panic. -/
def run : Manager → List Input → Manager
  | m, [] => m
  | m, i :: is => if m.stopped = none then run (m.step cr params i) is else m

/-- The block that an input carries. -/
def Input.block? : Input → Option LcBlock
  | .message _ v => (LcBlock.tryFrom v).toOption
  | _ => none

/-! ## The invariant -/

variable {cr params ord m}

/-- The tree is well formed, and each logged `LOGacc` is a prefix of its `LOGava`. -/
structure Sound (cr : Crypto) (bs : List LcBlock) (m : Manager) : Prop where
  tree : LcBlockTree.WellFormed cr m.lcblocktree
  blocks : LcBlockTree.Within bs m.lcblocktree
  logs : ∀ line ∈ m.logs, m.lcblocktree.Mem line.ava.2.2 ∧
    m.lcblocktree.Ext line.acc.2.2 line.ava.2.2

theorem sound_new (cr : Crypto) (bs : List LcBlock) : Sound cr bs (new cr) :=
  ⟨LcBlockTree.wellFormed_new cr, LcBlockTree.within_new bs, fun _ h => by cases h⟩

theorem sendTip_ok {m' : Manager} (h : m.sendTip cr ord = .ok m') :
    ∃ tips, m' = { m with tips } := by
  unfold sendTip at h
  cases ht : m.lcblocktree.leadingTipExtending ord (m.latestCheckpoint cr) with
  | error p => rw [ht] at h; cases h
  | ok tip =>
    simp only [ht, bind, Except.bind] at h
    cases hb : unwrap (m.lcblocktree.block tip) with
    | error p => rw [hb] at h; cases h
    | ok blk => rw [hb] at h; cases h; exact ⟨_, rfl⟩

theorem head_ok {which : String} {d : Digest} {x : ℕ × ℕ × Digest} (h : m.head which d = .ok x) :
    x.2.2 = d := by
  unfold head at h
  simp only [bind, Except.bind] at h
  split at h
  · cases h
  · split at h
    · cases h
    · cases h; rfl

/-- The block that `higherKDeep` returns is between the checkpoint and its leading tip. -/
theorem higherKDeep_ok (hw : LcBlockTree.WellFormed cr m.lcblocktree) {k : ℕ} {r : Digest}
    (h : m.higherKDeep cr ord k = .ok r) : ∃ tip,
      m.lcblocktree.leadingTipExtending ord (m.latestCheckpoint cr) = .ok tip ∧
      m.lcblocktree.isPrefixOf (m.latestCheckpoint cr) r = .ok true ∧
      m.lcblocktree.isPrefixOf r tip = .ok true := by
  unfold higherKDeep at h
  cases ht : m.lcblocktree.leadingTipExtending ord (m.latestCheckpoint cr) with
  | error p => rw [ht] at h; cases h
  | ok tip =>
    obtain ⟨tip', d, r', htip, hd, hr, h1, h2, -⟩ :=
      hw.higher_of_k_deep ord (hw.mem_of_leadingTip ht) k
    rw [htip, Except.ok.injEq] at ht
    subst ht
    simp only [htip, hd, hr, bind, Except.bind, expect_ok, Except.ok.injEq] at h
    subst h
    exact ⟨tip', rfl, h1, h2⟩

theorem log_ok {m' : Manager} (h : m.log cr params ord = .ok m') :
    ∃ logAva acc ava, m.higherKDeep cr ord params.lctreeLogavaKDeep = .ok logAva ∧
      acc.2.2 = m.latestCheckpoint cr ∧ ava.2.2 = logAva ∧
      m' = { m with logs := m.logs ++ [⟨acc, ava⟩] } := by
  unfold Manager.log at h
  cases hl : m.higherKDeep cr ord params.lctreeLogavaKDeep with
  | error p => rw [hl] at h; cases h
  | ok logAva =>
    simp only [hl, bind, Except.bind] at h
    cases ha : m.head "LOGacc" (m.latestCheckpoint cr) with
    | error p => rw [ha] at h; cases h
    | ok acc =>
      cases hv : m.head "LOGava" logAva with
      | error p => rw [ha, hv] at h; cases h
      | ok ava =>
        rw [ha, hv] at h
        cases h
        exact ⟨logAva, acc, ava, rfl, head_ok ha, head_ok hv, rfl⟩

theorem Sound.log {bs : List LcBlock} (hs : Sound cr bs m) {m' : Manager}
    (h : m.log cr params ord = .ok m') : Sound cr bs m' := by
  obtain ⟨logAva, acc, ava, hl, ha, hv, rfl⟩ := log_ok h
  obtain ⟨tip, -, h1, -⟩ := higherKDeep_ok hs.tree hl
  refine ⟨hs.tree, hs.blocks, ?_⟩
  intro line hline
  rcases List.mem_append.mp hline with hline | hline
  · exact hs.logs line hline
  · rw [List.mem_singleton] at hline
    subst hline
    rw [ha, hv]
    exact ⟨(LcBlockTree.mem_of_isPrefixOf h1).2, hs.tree.ext_of_isPrefixOf h1⟩

/-- Announcing changes neither the tree nor the checkpoints. -/
theorem announce_frame (cr : Crypto) (params : TreeParameters) (ord : HashOrder Digest)
    (m : Manager) :
    ∃ tips logs stopped, m.announce cr params ord = { m with tips, logs, stopped } := by
  unfold announce
  split
  · exact ⟨_, _, _, rfl⟩
  · rename_i m' ht
    obtain ⟨tips, rfl⟩ := sendTip_ok ht
    split
    · exact ⟨_, _, _, rfl⟩
    · rename_i m'' hl
      obtain ⟨logAva, acc, ava, -, -, -, rfl⟩ := log_ok hl
      exact ⟨_, _, _, rfl⟩

/-- A message changes the tree only, by one call of `add`. -/
theorem onMessage_cases (cr : Crypto) (params : TreeParameters) (ord : HashOrder Digest)
    (m : Manager) (v : Bytes) :
    (m.onMessage cr params ord v).checkpoints = m.checkpoints ∧
    (m.onMessage cr params ord v).checkpointsIterations = m.checkpointsIterations ∧
    ((m.onMessage cr params ord v).lcblocktree = m.lcblocktree ∨ ∃ blk,
      LcBlock.tryFrom v = .ok blk ∧
      m.lcblocktree.add cr blk = .ok (m.onMessage cr params ord v).lcblocktree) := by
  unfold onMessage
  split
  · exact ⟨rfl, rfl, .inl rfl⟩
  · rename_i blk hblk
    split
    · exact ⟨rfl, rfl, .inl rfl⟩
    · rename_i t' ha
      obtain ⟨tips, logs, stopped, he⟩ := announce_frame cr params ord { m with lcblocktree := t' }
      rw [he]
      exact ⟨rfl, rfl, .inr ⟨blk, expect_eq_ok.mp hblk, ha⟩⟩

theorem Sound.stop {bs : List LcBlock} (hs : Sound cr bs m) (p : Panic) : Sound cr bs (m.stop p) :=
  ⟨hs.tree, hs.blocks, hs.logs⟩

theorem Sound.announce {bs : List LcBlock} (hs : Sound cr bs m) (params : TreeParameters)
    (ord : HashOrder Digest) : Sound cr bs (m.announce cr params ord) := by
  unfold Manager.announce
  split
  · exact hs.stop _
  · rename_i m' ht
    obtain ⟨tips, rfl⟩ := sendTip_ok ht
    have hs' : Sound cr bs { m with tips } := ⟨hs.tree, hs.blocks, hs.logs⟩
    split
    · exact hs'.stop _
    · rename_i m'' hl
      exact hs'.log hl

theorem Sound.onMessage {bs : List LcBlock} (hc : LcBlockTree.NoCollision cr bs)
    (hs : Sound cr bs m) {v : Bytes} (hv : ∀ b, LcBlock.tryFrom v = .ok b → b ∈ bs) :
    Sound cr bs (m.onMessage cr params ord v) := by
  unfold Manager.onMessage
  split
  · exact hs.stop _
  · rename_i blk hblk
    have hb : blk ∈ bs := hv blk (expect_eq_ok.mp hblk)
    split
    · exact hs.stop _
    · rename_i t' ha
      have hf := hc.unique hs.tree hs.blocks hb
      have hext := hs.tree.add_extends hf ha
      refine Sound.announce ⟨hs.tree.add hf ha, hs.blocks.add hb ha, ?_⟩ _ _
      intro line hline
      obtain ⟨hm, he⟩ := hs.logs line hline
      exact ⟨hext.mem hm, hext.ext he⟩

theorem Sound.onCheckpointEvent {bs : List LcBlock} (hs : Sound cr bs m) (params : TreeParameters)
    (ord : HashOrder Digest) (e : CheckpointEvent) :
    Sound cr bs (m.onCheckpointEvent cr params ord e) := by
  cases e with
  | newProposal i b => exact hs
  | newCheckpoint i cp =>
    cases cp with
    | none => exact hs
    | some cp =>
      have hs' : Sound cr bs { m with
          checkpoints := m.checkpoints ++ [cp]
          checkpointsIterations := m.checkpointsIterations ++ [i] } :=
        ⟨hs.tree, hs.blocks, hs.logs⟩
      exact hs'.announce params ord

theorem Sound.step {bs : List LcBlock} (hc : LcBlockTree.NoCollision cr bs) (hs : Sound cr bs m)
    {i : Input} (hi : ∀ b, i.block? = some b → b ∈ bs) : Sound cr bs (m.step cr params i) := by
  cases i with
  | message ord v => exact hs.onMessage hc fun b hb => hi b (by simp [Input.block?, hb, Except.toOption])
  | checkpointEvent ord e => exact hs.onCheckpointEvent params ord e
  | command ord cmd =>
    simp only [Manager.step]
    split
    · exact hs.stop _
    · exact hs

/-- **The invariant holds after every sequence of inputs.** -/
theorem run_sound (params : TreeParameters) {bs : List LcBlock} (hc : LcBlockTree.NoCollision cr bs) :
    ∀ {is : List Input} {m : Manager}, Sound cr bs m → (∀ i ∈ is, ∀ b, i.block? = some b → b ∈ bs) →
      Sound cr bs (run cr params m is)
  | [], _, hs, _ => hs
  | i :: is, m, hs, hi => by
    rw [run]
    split
    · exact run_sound params hc (hs.step hc (hi i (by simp))) fun j hj => hi j (by simp [hj])
    · exact hs

/-- **What the manager proposes it also accepts.** -/
theorem Sound.proposal_validates {bs : List LcBlock} (hs : Sound cr bs m) (ord' : HashOrder Digest)
    {k : ℕ} {d : Digest} (h : m.higherKDeep cr ord k = .ok d) :
    m.validateProposal cr ord' d = .ok true := by
  obtain ⟨tip, ht, h1, h2⟩ := higherKDeep_ok hs.tree h
  have ht' := hs.tree.leadingTip_orderFree ord ord' (hs.tree.mem_of_leadingTip ht)
  rw [ht] at ht'
  simp only [validateProposal, h1, ← ht', h2, bind, Except.bind, ok]
  rfl

/-- An accepted proposal passes both ancestry tests. -/
theorem validateProposal_true {d : Digest} (h : m.validateProposal cr ord d = .ok true) :
    ∃ tip, m.lcblocktree.leadingTipExtending ord (m.latestCheckpoint cr) = .ok tip ∧
      m.lcblocktree.isPrefixOf (m.latestCheckpoint cr) d = .ok true ∧
      m.lcblocktree.isPrefixOf d tip = .ok true := by
  unfold validateProposal at h
  cases h1 : ok (m.lcblocktree.isPrefixOf (m.latestCheckpoint cr) d) with
  | error p => rw [h1] at h; cases h
  | ok c1 =>
    cases ht : m.lcblocktree.leadingTipExtending ord (m.latestCheckpoint cr) with
    | error p => rw [h1, ht] at h; cases h
    | ok tip =>
      cases h2 : ok (m.lcblocktree.isPrefixOf d tip) with
      | error p => simp only [h1, ht, h2, bind, Except.bind] at h; cases h
      | ok c2 =>
        simp only [h1, ht, h2, bind, Except.bind] at h
        cases c1 with
        | none => cases h
        | some b1 =>
          cases c2 with
          | none => cases h
          | some b2 =>
            have hb : (b1 && b2) = true := Except.ok.inj h
            rw [Bool.and_eq_true] at hb
            rw [hb.1] at h1
            rw [hb.2] at h2
            exact ⟨tip, rfl, ok_eq_some.mp h1, ok_eq_some.mp h2⟩

/-- A proposal is made whenever the latest checkpoint is known. -/
theorem Sound.proposal_exists {bs : List LcBlock} (hs : Sound cr bs m) (ord : HashOrder Digest)
    (k : ℕ) (hm : m.lcblocktree.Mem (m.latestCheckpoint cr)) : ∃ d, m.higherKDeep cr ord k = .ok d := by
  obtain ⟨tip, d, r, ht, hd, hr, -⟩ := hs.tree.higher_of_k_deep ord hm k
  exact ⟨r, by simp only [higherKDeep, ht, hd, hr, bind, Except.bind, expect_ok]⟩

/-- **Proposal and validation agree, and `LOGacc` is a prefix of `LOGava`.**  In every tree made by
calls of `add`, for every known checkpoint; and after every sequence of inputs of the manager. -/
theorem proposal_between (cr : Crypto) (params : TreeParameters) (bs : List LcBlock)
    (is : List Input) (hc : LcBlockTree.NoCollision cr bs)
    (his : ∀ i ∈ is, ∀ b, i.block? = some b → b ∈ bs) :
    (∀ (t : LcBlockTree) (c : Digest) (k : ℕ) (ord : HashOrder Digest),
      t = LcBlockTree.addAll cr (.new cr) bs → (t.lcblocks c).isSome →
      ∃ tip d r hc htip, t.leadingTipExtending ord c = .ok tip ∧ t.kDeep k tip = .ok d ∧
        t.higherOf c d = .ok r ∧ t.isPrefixOf c r = .ok true ∧ t.isPrefixOf r tip = .ok true ∧
        t.height c = .ok hc ∧ t.height tip = .ok htip ∧ t.height r = .ok (max hc (htip - k))) ∧
    (∀ m : Manager, m = run cr params (new cr) is →
      (∀ ord, (m.lcblocktree.lcblocks (m.latestCheckpoint cr)).isSome →
        ∃ d, m.answer cr params ord .getCurrentProposal = .ok (.digest d)) ∧
      (∀ ord ord' d, m.answer cr params ord .getCurrentProposal = .ok (.digest d) →
        m.answer cr params ord' (.validateProposal d) = .ok (.valid true)) ∧
      ∀ line ∈ m.logs, m.lcblocktree.isPrefixOf line.acc.2.2 line.ava.2.2 = .ok true) := by
  constructor
  · rintro t c k ord rfl hm
    have hw := LcBlockTree.wellFormed_addAll hc (LcBlockTree.wellFormed_new cr)
      (LcBlockTree.within_new bs) fun b hb => hb
    obtain ⟨tip, d, r, h1, h2, h3, h4, h5, h6, h7, h8⟩ := hw.higher_of_k_deep ord hm k
    exact ⟨tip, d, r, _, _, h1, h2, h3, h4, h5, h7, h8, h6⟩
  · rintro m rfl
    have hs := run_sound params hc (sound_new cr bs) his
    refine ⟨?_, ?_, ?_⟩
    · intro ord hm
      obtain ⟨d, hd⟩ := hs.proposal_exists ord params.proposeKDeep hm
      exact ⟨d, by simp only [answer, hd]; rfl⟩
    · intro ord ord' d hd
      cases hk : (run cr params (new cr) is).higherKDeep cr ord params.proposeKDeep with
      | error p => simp only [answer, hk] at hd; cases hd
      | ok d' =>
        simp only [answer, hk] at hd
        cases hd
        simp only [answer, hs.proposal_validates ord' hk]
        rfl
    · intro line hline
      obtain ⟨hm, he⟩ := hs.logs line hline
      exact hs.tree.isPrefixOf_true hm he

/-- A child of genesis. -/
def sampleChild : LcBlock where
  parent := some (LcBlock.genesisDigest sampleCrypto)
  payload := LcBlock.genesis.payload
  slot := 1

theorem noCollision_sampleChild : LcBlockTree.NoCollision sampleCrypto [sampleChild] :=
  LcBlockTree.noCollision_of_nodup (by decide +kernel)

/-- A manager that has received one block proposes, and accepts what it proposes. -/
theorem proposal_between_sampleChild :
    ∃ d, answer sampleCrypto ⟨0, 0⟩ .stored
        (run sampleCrypto ⟨0, 0⟩ (new sampleCrypto) [.message .stored sampleChild.encode])
        .getCurrentProposal = .ok (.digest d) ∧
      answer sampleCrypto ⟨0, 0⟩ .reversed
        (run sampleCrypto ⟨0, 0⟩ (new sampleCrypto) [.message .stored sampleChild.encode])
        (.validateProposal d) = .ok (.valid true) := by
  obtain ⟨h1, h2, -⟩ := (proposal_between sampleCrypto ⟨0, 0⟩ [sampleChild]
    [.message .stored sampleChild.encode] noCollision_sampleChild (by
      intro i hi b hb
      rw [List.mem_singleton] at hi
      subst hi
      rw [Input.block?, LcBlock.tryFrom_encode] at hb
      cases hb
      simp)).2 _ rfl
  obtain ⟨d, hd⟩ := h1 .stored (by decide +kernel)
  exact ⟨d, hd, h2 .stored .reversed d hd⟩

end Manager

end AccountabilityGadget
