import AccountabilityGadget.Ledger.Committed
import AccountabilityGadget.LongestChain.PrefixOrder

/-!
# Agreement of the whole gadget

Consensus core, ledger task, checkpoint extractor and block-tree manager of two honest authorities,
put together.

* `comparable_checkpoints` — genesis and the checkpoints of a ledger lie on one chain of blocks.
* `run_acc` — a manager logs as `LOGacc` only genesis and the checkpoints that it has consumed.
* `gadget_agreement` — the decisions of two honest authorities are prefixes of each other, and any
  two heads of `LOGacc` that their managers ever log lie on one chain.
-/

set_option autoImplicit false

namespace AccountabilityGadget

open Ancestry Consensus

/-- Genesis and the decided blocks. -/
def accBlocks (cr : Crypto) (evs : List CheckpointEvent) : List Digest :=
  LcBlock.genesisDigest cr :: checkpoints evs

section

variable {cr : Crypto} {committee : CheckpointCommittee} {ord : ℕ → VoteOrder} {t : LcBlockTree}
  {byz : Finset PublicKey} {L : List Bytes}

/-- A decided block that an honest authority accepted is in the tree. -/
theorem mem_of_checkpoint (hb : 3 * byz.card < committee.size)
    (hr : RespectsCheckpoints cr committee ord t byz L) {c : Digest}
    (hc : c ∈ checkpoints (Extractor.events ord cr committee L)) : t.Mem c := by
  obtain ⟨e, he, hd⟩ := List.mem_filterMap.mp hc
  cases e with
  | newProposal i b => cases hd
  | newCheckpoint i v =>
    cases hd
    exact (LcBlockTree.mem_of_isPrefixOf (decided_extends hb hr he)).2

/-- **Genesis and the checkpoints of a ledger lie on one chain.** -/
theorem comparable_checkpoints (hw : LcBlockTree.WellFormed cr t)
    (hb : 3 * byz.card < committee.size) (hr : RespectsCheckpoints cr committee ord t byz L)
    {c c' : Digest} (hc : c ∈ accBlocks cr (Extractor.events ord cr committee L))
    (hc' : c' ∈ accBlocks cr (Extractor.events ord cr committee L)) :
    t.isPrefixOf c c' = .ok true ∨ t.isPrefixOf c' c = .ok true := by
  have hmem : ∀ x ∈ accBlocks cr (Extractor.events ord cr committee L), t.Mem x := by
    intro x hx
    rcases List.mem_cons.mp hx with rfl | hx
    · exact hw.mem_genesis
    · exact mem_of_checkpoint hb hr hx
  have hchain : (accBlocks cr (Extractor.events ord cr committee L)).Pairwise t.Ext :=
    List.pairwise_cons.mpr ⟨fun x hx => hw.genesis_ext (hmem x (List.mem_cons_of_mem _ hx)),
      checkpoints_pairwise hw hb hr⟩
  have hcomp : Relation.SymmGen t.Ext c c' :=
    (hchain.imp .of_rel).forall_of_forall (fun _ _ => .inl .refl) hc hc'
  exact hcomp.imp (hw.isPrefixOf_true (hmem _ hc')) (hw.isPrefixOf_true (hmem _ hc))

end

/-! ## What a manager logs -/

section

variable {cr : Crypto} {params : TreeParameters} {ord : HashOrder Digest} {m : Manager}

/-- The head of `LOGacc` on each line is genesis or a checkpoint of the manager. -/
def Manager.AccLogged (cr : Crypto) (m : Manager) : Prop :=
  ∀ line ∈ m.logs, line.acc.2.2 ∈ LcBlock.genesisDigest cr :: m.checkpoints

theorem Manager.latestCheckpoint_mem :
    m.latestCheckpoint cr ∈ LcBlock.genesisDigest cr :: m.checkpoints := by
  unfold Manager.latestCheckpoint
  cases h : m.checkpoints.getLast? with
  | none => exact List.mem_cons_self
  | some c => exact List.mem_cons_of_mem _ (List.mem_of_getLast? h)

/-- Announcing logs at most one line, with the latest checkpoint. -/
theorem Manager.AccLogged.announce (h : m.AccLogged cr) :
    (m.announce cr params ord).AccLogged cr := by
  unfold Manager.announce
  split
  · exact h
  · rename_i m' ht
    obtain ⟨tips, rfl⟩ := Manager.sendTip_ok ht
    split
    · exact h
    · rename_i m'' hl
      obtain ⟨logAva, acc, ava, -, hacc, -, rfl⟩ := Manager.log_ok hl
      intro line hline
      rcases List.mem_append.mp hline with hline | hline
      · exact h line hline
      · rw [List.mem_singleton.mp hline]
        simp only [hacc]
        exact Manager.latestCheckpoint_mem

theorem Manager.AccLogged.step (h : m.AccLogged cr) (i : Manager.Input) :
    (m.step cr params i).AccLogged cr := by
  cases i with
  | message ord v =>
    simp only [Manager.step, Manager.onMessage]
    split
    · exact h
    · split
      · exact h
      · exact Manager.AccLogged.announce h
  | checkpointEvent ord e =>
    cases e with
    | newProposal i b => exact h
    | newCheckpoint i cp =>
      cases cp with
      | none => exact h
      | some cp =>
        refine Manager.AccLogged.announce fun line hline => ?_
        exact List.mem_cons.mpr ((List.mem_cons.mp (h line hline)).imp_right
          (List.mem_append_left _))
  | command ord cmd =>
    simp only [Manager.step]
    split <;> exact h

/-- **A manager logs as `LOGacc` only genesis and its checkpoints.** -/
theorem Manager.run_acc : ∀ (is : List Manager.Input) {m : Manager}, m.AccLogged cr →
    (Manager.run cr params m is).AccLogged cr
  | [], _, h => h
  | i :: is, m, h => by
    rw [Manager.run]
    split
    · exact Manager.run_acc is (h.step i)
    · exact h

/-- The heads of `LOGacc` of a manager that consumes an initial piece of a list of events. -/
theorem Manager.acc_mem {evs : List CheckpointEvent} {is : List Manager.Input}
    (his : is.filterMap Manager.Input.event? <+: evs) {line : LogLine}
    (hline : line ∈ (Manager.run cr params (.new cr) is).logs) :
    line.acc.2.2 ∈ accBlocks cr evs := by
  have hnew : (Manager.new cr).AccLogged cr := fun _ h => by cases h
  obtain ⟨is', hp, he⟩ := manager_checkpoints cr params is (.new cr)
  have hlogged : (Manager.run cr params (.new cr) is).AccLogged cr := Manager.run_acc is hnew
  have hmem := hlogged line hline
  rw [he] at hmem
  have hsub := checkpoints_prefix ((hp.filterMap Manager.Input.event?).trans his)
  exact List.mem_cons.mpr ((List.mem_cons.mp hmem).imp_right fun h => hsub.subset h)

end

/-! ## Two authorities -/

section

variable (cr : Crypto) (committee : CheckpointCommittee)

/-- What the extractor of an authority has sent for the transactions of its ledger task. -/
def Ledger.Node.decisions (ord : ℕ → VoteOrder) (n : Ledger.Node) : List CheckpointEvent :=
  Extractor.events ord cr committee (n.ledger.map fun tx => tx.bytes)

/-- The accepts that the authorities outside `byz` have put on the ledger extend the checkpoints
before them. -/
def Ledger.Node.Respects (ord : ℕ → VoteOrder) (t : LcBlockTree) (byz : Finset PublicKey)
    (n : Ledger.Node) : Prop :=
  RespectsCheckpoints cr committee ord t byz (n.ledger.map fun tx => tx.bytes)

/-- A manager that has consumed an initial piece of the decisions logs this head of `LOGacc`. -/
def Ledger.Node.LogsAcc (ord : ℕ → VoteOrder) (n : Ledger.Node) (c : Digest) : Prop :=
  ∃ (params : TreeParameters) (is : List Manager.Input),
    is.filterMap Manager.Input.event? <+: n.decisions cr committee ord ∧
      ∃ line ∈ (Manager.run cr params (.new cr) is).logs, line.acc.2.2 = c

end

theorem decisions_prefix {cr : Crypto} {committee : CheckpointCommittee} {ord ord' : ℕ → VoteOrder}
    {n n' : Ledger.Node} (h : n.ledger <+: n'.ledger) :
    n.decisions cr committee ord <+: n'.decisions cr committee ord' :=
  Extractor.events_prefix (h.map fun tx => tx.bytes)

/-- **Agreement of the gadget.**  In every fair run of a committee with less than a third of faulty
stake, with clean traffic, the decisions that the extractors of two honest authorities have sent are
prefixes of each other, whenever the payloads arrive and whatever the hash maps.  If moreover less than a third of the
checkpoint committee is Byzantine and the accepts of the others extend the last checkpoint, any two
heads of `LOGacc` that the two managers ever log lie on one chain of blocks. -/
theorem gadget_agreement (N : Network) (hN : N.committee.total < 2 ^ 31)
    (hf : 3 * Quorum.weight (fun a => (N.committee.stake a).toNat)
      (N.committee.voters ∩ N.faulty) < N.committee.total)
    (S : Bytes → Prop) (hS : N.cr.CollisionFree S) (hdefault : ∀ x, S x → N.cr.sha512 x ≠ .default)
    (hbase : N.cr.Base64RoundTrip) (σ : Network.Cores)
    (hr : ((N.machine.within (N.Tame S)).restrict (N.Fair S)).Reachable σ) (T : Ledger.Traffic)
    (hT : N.Carries σ T S) (p q : PublicKey) (n n' : Ledger.Node) (hp : N.Follower σ T p n)
    (hq : N.Follower σ T q n') (committee : CheckpointCommittee) (ord ord' : ℕ → VoteOrder) :
    (n.decisions N.cr.toCrypto committee ord <+: n'.decisions N.cr.toCrypto committee ord' ∨
      n'.decisions N.cr.toCrypto committee ord' <+: n.decisions N.cr.toCrypto committee ord) ∧
    ∀ (bs : List LcBlock) (byz : Finset PublicKey) (t : LcBlockTree),
      LcBlockTree.NoCollision N.cr.toCrypto bs →
      t = LcBlockTree.addAll N.cr.toCrypto (.new N.cr.toCrypto) bs →
      3 * byz.card < committee.size →
      n.Respects N.cr.toCrypto committee ord t byz →
      n'.Respects N.cr.toCrypto committee ord' t byz → ∀ c c',
      n.LogsAcc N.cr.toCrypto committee ord c → n'.LogsAcc N.cr.toCrypto committee ord' c' →
        t.isPrefixOf c c' = .ok true ∨ t.isPrefixOf c' c = .ok true := by
  obtain ⟨hinv, htame⟩ := Network.inv_of_reachable hN hr
  have hledgers := Network.ledgers_of_inv hN hf hS hdefault hbase hinv htame hT hp hq
  have hevents : n.decisions N.cr.toCrypto committee ord <+:
        n'.decisions N.cr.toCrypto committee ord' ∨
      n'.decisions N.cr.toCrypto committee ord' <+: n.decisions N.cr.toCrypto committee ord :=
    hledgers.imp decisions_prefix decisions_prefix
  refine ⟨hevents, ?_⟩
  rintro bs byz t hnc rfl hb hr hr' c c' ⟨params, is, his, line, hline, rfl⟩
    ⟨params', is', his', line', hline', rfl⟩
  have hw := LcBlockTree.wellFormed_addAll hnc (LcBlockTree.wellFormed_new N.cr.toCrypto)
    (LcBlockTree.within_new bs) fun b h => h
  -- both heads are among the checkpoints of the longer ledger
  rcases hevents with h | h
  · exact comparable_checkpoints hw hb hr' (Manager.acc_mem (his.trans h) hline)
      (Manager.acc_mem his' hline')
  · exact comparable_checkpoints hw hb hr (Manager.acc_mem his hline)
      (Manager.acc_mem (his'.trans h) hline')

/-- One authority has decided genesis, the other one has not started. -/
theorem gadget_agreement_voting : ∃ n : Ledger.Node,
    n.decisions sampleCrypto soleCommittee (fun _ => .stored) =
      [.newCheckpoint 0 (some (LcBlock.genesisDigest sampleCrypto))] ∧
    ∀ c c', n.LogsAcc sampleCrypto soleCommittee (fun _ => .stored) c →
      Ledger.Node.new.LogsAcc sampleCrypto soleCommittee (fun _ => .reversed) c' →
      (LcBlockTree.new sampleCrypto).isPrefixOf c c' = .ok true ∨
        (LcBlockTree.new sampleCrypto).isPrefixOf c' c = .ok true := by
  obtain ⟨σ, hr, h⟩ := Network.exists_votingCores
  obtain ⟨n, hn, hledger⟩ := Network.exists_votingNode (h keyA (by simp)).1
  have hnew : Network.sampleNetwork.Follower σ Network.votingTraffic keyB .new :=
    ⟨by decide +kernel, ⟨.default, [], .init rfl⟩, fun b hb => by cases hb⟩
  have hrespects : n.Respects sampleCrypto soleCommittee (fun _ => .stored) (.new sampleCrypto) ∅ := by
    intro tx htx a i b hv _
    rw [hledger] at htx ⊢
    rw [show tx = soleVote (.accept 0 (LcBlock.genesisDigest sampleCrypto)) by
      simpa [Network.votingPayload] using htx, validVote_soleVote (by decide)] at hv
    cases hv
    decide +kernel
  refine ⟨n, by rw [Ledger.Node.decisions, hledger]; decide +kernel, ?_⟩
  exact (gadget_agreement Network.sampleNetwork (by decide +kernel) (by decide +kernel)
    (· ∈ Network.votingStrings) Network.voting_collisionFree.1 Network.voting_collisionFree.2
    sampleCrypto_base64RoundTrip σ hr Network.votingTraffic
    (Network.votingTraffic_carries fun p hp => (h p hp).2) keyA keyB n .new hn hnew soleCommittee
    (fun _ => .stored) fun _ => .reversed).2 [] ∅ (.new sampleCrypto)
      (LcBlockTree.noCollision_of_nodup (by decide +kernel)) rfl (by decide +kernel) hrespects
      fun tx htx => by cases htx

end AccountabilityGadget
