import AccountabilityGadget.Ledger.Chain

/-!
# Two nodes that commit the same chain

* `Progress` — the walk is on the chain, and what has been sent is the ledger of the blocks below
  the smallest unprocessed round; `Accounted` — no committed block is lost.
* `Inv.step` — every step of a node in clean traffic keeps both.
* `ledger_eq` — a node that has processed a chain has sent its ledger.
* `ledger_agreement` — two nodes that commit the same chain send the same transactions.
* `disagreement` — two payloads with the same bytes and different transactions break it.
-/

set_option autoImplicit false

namespace AccountabilityGadget.Ledger

open Encoding Consensus Mempool

/-! ## What has been sent -/

section

variable (T : Traffic) (cr : BatchCrypto) (c : List Block)

/-- The blocks of the chain that are processed when `r` is the smallest unprocessed round. -/
def below (c : List Block) (r : RoundNumber) : List Block := c.filter (·.round < r)

/-- A block is that of the chain, up to what the digest leaves out. -/
def Same (b a : Block) : Prop := T.blocks b ∧ b.preimage = a.preimage

/-- The blocks of a phase that are still to be processed. -/
def Phase.inFlight : Phase → List Block
  | .walking blks blk => blk :: blks
  | .processing blks _ => blks
  | _ => []

/-- Where the task is on the chain, and what it has sent. -/
def Progress (n : Node) : Prop :=
  match n.phase with
  | .waiting => n.ledger = T.ledger cr (below c n.smallestUnprocessedRound)
  | .walking blks blk => n.ledger = T.ledger cr (below c n.smallestUnprocessedRound) ∧
      ∃ pre a seg post, c = pre ++ a :: (seg ++ post) ∧ Same T blk a ∧ List.Forall₂ (Same T) blks seg
  | .processing blks digests =>
      n.ledger ++ digests.flatMap (T.transactions cr) =
          T.ledger cr (below c n.smallestUnprocessedRound) ∧
        (∃ b, T.blocks b ∧ ∀ d ∈ digests, d ∈ b.payload) ∧
        ∃ pre seg post, c = pre ++ (seg ++ post) ∧ List.Forall₂ (Same T) blks seg ∧
          ∀ a ∈ pre, a.round < n.smallestUnprocessedRound
  | .stopped _ => True

/-- All that the core has committed is on the chain. -/
def Node.OnChain (n : Node) : Prop := ∀ b ∈ n.committed, ∃ a ∈ c, b.digest cr = a.digest cr

/-- No committed block is lost, unless the task has panicked. -/
def Accounted (n : Node) : Prop := (∃ p, n.phase = .stopped p) ∨
  ∀ b ∈ n.committed, b ∈ n.commit ∨ b ∈ n.phase.inFlight ∨ b.round < n.smallestUnprocessedRound

structure Inv (n : Node) : Prop where
  keyed : Keyed T cr n.mempool.store
  committed : ∀ b ∈ n.committed, T.blocks b
  commit : ∀ b ∈ n.commit, b ∈ n.committed
  progress : n.OnChain cr c → Progress T cr c n
  accounted : n.OnChain cr c → Accounted n

end

/-- Up to the next block of a growing sequence. -/
theorem below_append {pre post : List Block} {a : Block} {r : RoundNumber}
    (hsorted : (pre ++ a :: post).Pairwise fun a b => a.round < b.round)
    (hpre : ∀ b ∈ pre, b.round < r) (hr : r ≤ a.round) : below (pre ++ a :: post) r = pre := by
  obtain ⟨-, htail, -⟩ := List.pairwise_append.mp hsorted
  have hpost : ∀ b ∈ a :: post, ¬ b.round < r := by
    intro b hb
    rcases List.mem_cons.mp hb with rfl | hb
    · exact not_lt.mpr hr
    · exact not_lt.mpr (hr.trans ((List.pairwise_cons.mp htail).1 b hb).le)
  rw [below, List.filter_append, List.filter_eq_self.mpr (by simpa using hpre),
    List.filter_eq_nil_iff.mpr (by simpa using hpost), List.append_nil]

theorem below_succ {pre post : List Block} {a : Block}
    (hsorted : (pre ++ a :: post).Pairwise fun a b => a.round < b.round)
    (ha : a.round.val + 1 < 2 ^ 64) : below (pre ++ a :: post) (a.round + 1) = pre ++ [a] := by
  have hsucc : ∀ b : Block, b.round < a.round + 1 ↔ b.round ≤ a.round := by
    intro b
    have hval : (a.round + 1).val = a.round.val + 1 := by
      rw [Fin.val_add_one_of_lt']
      exact ha
    rw [Fin.lt_def, hval, Fin.le_def]
    omega
  obtain ⟨-, htail, hcross⟩ := List.pairwise_append.mp hsorted
  rw [below, List.filter_append, List.filter_cons_of_pos (by simp [hsucc]),
    List.filter_eq_self.mpr (fun b hb => by simpa [hsucc] using (hcross b hb a (by simp)).le),
    List.filter_eq_nil_iff.mpr fun b hb => by
      simpa [hsucc] using (List.pairwise_cons.mp htail).1 b hb]

section

variable {T : Traffic} {cr : BatchCrypto} {c : List Block} (hfree : cr.CollisionFree T.Hashed)
  (hdefault : ∀ x, T.Hashed x → cr.sha512 x ≠ .default) (hbase : cr.Base64RoundTrip)
  (hclean : T.Clean cr) (hc : Chain cr c) (hblocks : ∀ b ∈ c, T.blocks b)

include hfree hdefault hbase hclean hc hblocks

/-- Each step of the task keeps its place on the chain. -/
theorem Progress.analyze {n t : Node} (hs : Keyed T cr n.mempool.store)
    (hcommit : ∀ b ∈ n.commit, T.blocks b ∧ ∃ a ∈ c, b.digest cr = a.digest cr)
    (h : Progress T cr c n) (hstep : n.analyze cr = some t) : Progress T cr c t := by
  unfold Node.analyze at hstep
  unfold Progress at h
  split at hstep <;> rename_i hphase <;> rw [hphase] at h
  · -- a block arrives: it is on the chain
    split at hstep
    · cases hstep
    · rename_i block rest hlist
      cases hstep
      obtain ⟨hb, a, ha, hd⟩ := hcommit block (by simp [hlist])
      have hpre := hfree _ _ (.inr ⟨block, hb, rfl⟩) (.inr ⟨a, hblocks a ha, rfl⟩) hd
      obtain ⟨pre, post, hsplit⟩ := List.append_of_mem ha
      exact ⟨h, pre, a, [], post, hsplit, ⟨hb, hpre⟩, .nil⟩
  · -- one block down
    rename_i blks blk
    obtain ⟨hledger, pre, a, seg, post, hsplit, hsame, hseg⟩ := h
    split at hstep <;> rename_i hparent <;> cases hstep
    · trivial
    · obtain ⟨-, rfl⟩ | ⟨_, _, _, hr, -⟩ :=
        getParentBlock_chain hfree hdefault hbase hclean hc hblocks hs hsplit hsame.2 hparent
      · exact ⟨by simpa using hledger, ⟨.genesis, T.genesis, by simp⟩, [], a :: seg, post, hsplit,
          .cons hsame hseg, by simp⟩
      · cases hr
    · obtain ⟨hr, -⟩ | ⟨pre', a', parent, hr, rfl, hblock, hpre⟩ :=
        getParentBlock_chain hfree hdefault hbase hclean hc hblocks hs hsplit hsame.2 hparent
      · cases hr
      · cases hr
        exact ⟨hledger, pre', a', a :: seg, post, by simpa using hsplit, ⟨hblock, hpre⟩,
          .cons hsame hseg⟩
  · -- the next payload
    rename_i blks digest digests
    obtain ⟨hledger, ⟨b, hb, hdigests⟩, hrest⟩ := h
    split at hstep <;> rename_i hread <;> cases hstep
    · trivial
    · rw [readPayload_eq hfree hclean hs hb (hdigests digest (by simp)) hread]
      refine ⟨?_, ⟨b, hb, fun d hd => hdigests d (List.mem_cons_of_mem _ hd)⟩, hrest⟩
      rw [List.append_assoc, ← List.flatMap_cons]
      exact hledger
  · cases hstep
    exact (List.append_nil _).symm.trans h.1
  · -- one block up
    rename_i block blks
    obtain ⟨hledger, -, pre, seg, post, hsplit, hseg, hpre⟩ := h
    obtain ⟨a, seg, hsame, hrest, rfl⟩ := List.forall₂_cons_left_iff.mp hseg
    have hround : block.round = a.round := (Block.preimage_inj hsame.2).2.1
    have hsorted := hc.sorted
    rw [hsplit, List.cons_append] at hsorted
    have hsplit' : c = (pre ++ [a]) ++ (seg ++ post) := by simpa using hsplit
    split at hstep <;> rename_i hle <;> cases hstep
    · have hbound := hc.bounded a (by simp [hsplit])
      have hnext : below c (block.round + 1) = pre ++ [a] := by
        rw [hround, hsplit, List.cons_append, below_succ hsorted hbound]
      refine ⟨?_, ⟨block, hsame.1, fun d hd => hd⟩, pre ++ [a], seg, post, hsplit', hrest, ?_⟩
      · have hnow : below c n.smallestUnprocessedRound = pre := by
          rw [hsplit, List.cons_append, below_append hsorted hpre (hround ▸ hle)]
        rw [hnow] at hledger
        rw [hnext, Traffic.ledger, List.flatMap_append, List.flatMap_singleton,
          (Block.preimage_inj hsame.2).2.2.1]
        rw [List.flatMap_nil, List.append_nil] at hledger
        exact congrArg (· ++ _) hledger
      · intro b hb
        rw [← hnext, below, List.mem_filter, decide_eq_true_iff] at hb
        exact hb.2
    · refine ⟨by simpa using hledger, ⟨.genesis, T.genesis, by simp⟩, pre ++ [a], seg, post,
        hsplit', hrest, fun b hb => ?_⟩
      rcases List.mem_append.mp hb with hb | hb
      · exact hpre b hb
      · rw [List.mem_singleton.mp hb, ← hround]
        exact not_le.mp hle
  · cases hstep

end

/-- A committed block stays in sight until its round is behind. -/
theorem Accounted.analyze {T : Traffic} {cr : BatchCrypto} {c : List Block} (hc : Chain cr c)
    {n t : Node} (hp : Progress T cr c n) (h : Accounted n)
    (hstep : n.analyze cr = some t) : Accounted t := by
  unfold Node.analyze at hstep
  unfold Accounted at h
  unfold Progress at hp
  split at hstep <;> rename_i hphase <;> rw [hphase] at h hp <;>
    simp only [reduceCtorEq, exists_false, false_or, Phase.inFlight] at h
  · split at hstep <;> rename_i hlist <;> cases hstep
    right
    intro b hb
    have hb' := h b hb
    rw [hlist] at hb'
    simpa [Phase.inFlight, or_assoc, or_left_comm] using hb'
  · split at hstep <;> cases hstep
    · exact .inl ⟨_, rfl⟩
    · exact .inr h
    · exact .inr fun b hb => (h b hb).imp_right (.imp_left (List.mem_cons_of_mem _))
  · split at hstep <;> cases hstep
    · exact .inl ⟨_, rfl⟩
    · exact .inr h
  · cases hstep
    exact .inr h
  · rename_i block blks
    obtain ⟨-, -, pre, seg, post, hsplit, hseg, -⟩ := hp
    obtain ⟨a, seg, hsame, -, rfl⟩ := List.forall₂_cons_left_iff.mp hseg
    have hbound : block.round.val + 1 < 2 ^ 64 := by
      rw [(Block.preimage_inj hsame.2).2.1]
      exact hc.bounded a (by simp [hsplit])
    split at hstep <;> rename_i hle <;> cases hstep <;>
      refine .inr fun b hb => (h b hb).imp_right fun hb => ?_
    · have hlt : block.round < block.round + 1 := by
        rw [Fin.lt_def, Fin.val_add_one_of_lt' hbound]
        omega
      rcases hb with hb | hb
      · rcases List.mem_cons.mp hb with rfl | hb
        · exact .inr hlt
        · exact .inl hb
      · exact .inr (hb.trans (lt_of_le_of_lt hle hlt))
    · rcases hb with hb | hb
      · rcases List.mem_cons.mp hb with rfl | hb
        · exact .inr (not_le.mp hle)
        · exact .inl hb
      · exact .inr hb
  · cases hstep

/-! ## Runs -/

section

variable {T : Traffic} {cr : BatchCrypto} {c : List Block} {parameters : Parameters}
  {authorities : List PublicKey}

/-- The inputs write only the traffic to the store. -/
theorem Keyed.step {n t : Node} {i : Input} (hs : Keyed T cr n.mempool.store)
    (ha : T.Allows cr parameters authorities n i) (h : n.step cr parameters authorities i = some t) :
    Keyed T cr t.mempool.store := by
  have hpayload : ∀ p, T.payloads p → Keyed T cr
      (Core.withPayload (.ofBatch cr parameters authorities) n.mempool.store p) :=
    fun p hp => hs.write (.inl ⟨p, hp, rfl, rfl⟩)
  cases i with
  | message m =>
    cases h
    rw [(n.mempool.handle_frame _ m).1]
    cases hm : Core.admits (.ofBatch cr parameters authorities) n.mempool.queue.length m with
    | none => exact hs
    | some p => exact hpayload p (ha p hm)
  | get max made =>
    cases h
    obtain hstore | ⟨p, hp, hstore⟩ := n.mempool.store_handleGet (.ofBatch cr parameters authorities)
      max made
    · exact hstore ▸ hs
    · exact hstore ▸ hpayload p (ha p hp)
  | cleanup digests => cases h; exact hs
  | store b => cases h; exact hs.write (.inr ⟨b, ha, rfl, rfl⟩)
  | commit b => cases h; exact hs
  | analyze =>
    have hmempool : t.mempool = n.mempool := by
      simp only [Node.step, Node.analyze] at h
      split at h <;> (try split at h) <;> cases h <;> rfl
    exact hmempool ▸ hs

variable (hfree : cr.CollisionFree T.Hashed)
  (hdefault : ∀ x, T.Hashed x → cr.sha512 x ≠ .default) (hbase : cr.Base64RoundTrip)
  (hclean : T.Clean cr) (hc : Chain cr c) (hblocks : ∀ b ∈ c, T.blocks b)

include hfree hdefault hbase hclean hc hblocks

theorem Inv.step {n t : Node} {i : Input} (h : Inv T cr c n) (ha : T.Allows cr parameters authorities n i)
    (hstep : n.step cr parameters authorities i = some t) : Inv T cr c t := by
  have hkeyed := h.keyed.step ha hstep
  cases i with
  | commit b =>
    cases hstep
    have hmono : ∀ b', b' ∈ n.committed → b' ∈ n.committed ++ [b] :=
      fun _ => List.mem_append_left _
    refine ⟨hkeyed, ?_, ?_, fun hon => h.progress fun b' hb' => hon b' (hmono b' hb'), ?_⟩
    · intro b' hb'
      rcases List.mem_append.mp hb' with hb' | hb'
      · exact h.committed b' hb'
      · exact List.mem_singleton.mp hb' ▸ ha
    · intro b' hb'
      exact List.mem_append.mpr ((List.mem_append.mp hb').imp_left (h.commit b'))
    · intro hon
      apply (h.accounted fun b' hb' => hon b' (hmono b' hb')).imp_right
      intro hacc b' hb'
      rcases List.mem_append.mp hb' with hb' | hb'
      · exact (hacc b' hb').imp_left (List.mem_append_left _)
      · exact .inl (List.mem_append_right _ hb')
  | analyze =>
    obtain ⟨hcommitted, hcommit⟩ : t.committed = n.committed ∧ ∀ b ∈ t.commit, b ∈ n.commit := by
      simp only [Node.step, Node.analyze] at hstep
      split at hstep <;> (try split at hstep) <;> cases hstep <;> simp_all
    have hon : t.OnChain cr c → n.OnChain cr c := fun hon b hb => hon b (hcommitted ▸ hb)
    refine ⟨hkeyed, fun b hb => h.committed b (hcommitted ▸ hb),
      fun b hb => hcommitted ▸ h.commit b (hcommit b hb), ?_, ?_⟩
    · intro ht
      exact (h.progress (hon ht)).analyze hfree hdefault hbase hclean hc hblocks h.keyed
        (fun b hb => ⟨h.committed b (h.commit b hb), hon ht b (h.commit b hb)⟩) hstep
    · intro ht
      exact (h.accounted (hon ht)).analyze hc (h.progress (hon ht)) hstep
  | _ =>
    cases hstep
    exact ⟨hkeyed, h.committed, h.commit, h.progress, h.accounted⟩

theorem inv {n : Node}
    (h : (T.machine cr parameters authorities).Reachable n) : Inv T cr c n := by
  refine Machine.invariant ?_ ?_ h
  · rintro s rfl
    exact ⟨keyed_empty, by simp [Node.new], by simp [Node.new], fun _ => by
      simp [Progress, Node.new, below, Traffic.ledger], fun _ => .inr (by simp [Node.new])⟩
  · intro s i t hs hst
    exact hs.step hfree hdefault hbase hclean hc hblocks hst.1 hst.2

end

/-- The core of the node has committed the chain, and the task has processed it: all that was
committed is on the chain, the last block among it. -/
structure Node.Commits (cr : BatchCrypto) (c : List Block) (n : Node) : Prop where
  onChain : n.OnChain cr c
  top : ∃ b ∈ n.committed, ∃ a ∈ c.getLast?, b.digest cr = a.digest cr
  empty : n.commit = []
  waiting : n.phase = .waiting

/-- No block of a growing sequence is above the last one. -/
theorem below_last {c : List Block} {a : Block} {r : RoundNumber}
    (hsorted : c.Pairwise fun a b => a.round < b.round) (ha : a ∈ c.getLast?) (hr : a.round < r) :
    below c r = c := by
  obtain ⟨pre, rfl⟩ := List.getLast?_eq_some_iff.mp ha
  refine List.filter_eq_self.mpr fun b hb => decide_eq_true ?_
  rcases List.mem_append.mp hb with hb | hb
  · exact ((List.pairwise_append.mp hsorted).2.2 b hb a (by simp)).trans hr
  · exact List.mem_singleton.mp hb ▸ hr

/-- **What a node has sent when it has processed a chain.** -/
theorem ledger_eq {T : Traffic} {cr : BatchCrypto} {parameters : Parameters}
    {authorities : List PublicKey} {c : List Block} (hfree : cr.CollisionFree T.Hashed)
    (hdefault : ∀ x, T.Hashed x → cr.sha512 x ≠ .default) (hbase : cr.Base64RoundTrip)
    (hclean : T.Clean cr) (hc : Chain cr c) (hblocks : ∀ b ∈ c, T.blocks b) {n : Node}
    (h : (T.machine cr parameters authorities).Reachable n)
    (hn : n.Commits cr c) : n.ledger = T.ledger cr c := by
  have hinv := inv hfree hdefault hbase hclean hc hblocks h
  have hprogress := hinv.progress hn.onChain
  have hacc := hinv.accounted hn.onChain
  unfold Progress at hprogress
  unfold Accounted at hacc
  rw [hn.waiting] at hprogress hacc
  simp only [reduceCtorEq, exists_false, false_or, Phase.inFlight, hn.empty, List.not_mem_nil] at hacc
  obtain ⟨b, hb, a, ha, hd⟩ := hn.top
  have hpre : b.preimage = a.preimage := hfree _ _ (.inr ⟨b, hinv.committed b hb, rfl⟩)
    (.inr ⟨a, hblocks a (List.mem_of_mem_getLast? ha), rfl⟩) hd
  have hround : a.round < n.smallestUnprocessedRound :=
    (Block.preimage_inj hpre).2.1 ▸ hacc b hb
  rwa [below_last hc.sorted ha hround] at hprogress

/-! ## Split payloads -/

/-- One node receives the payload and commits a block that lists it. -/
theorem exists_single {T : Traffic} {cr : BatchCrypto} {parameters : Parameters}
    (authorities : List PublicKey) {p : Payload} (hp : T.payloads p)
    (hsize : p.size ≤ parameters.maxPayloadSize) {b : Block} (hb : T.blocks b)
    (hqc : b.qc.eq .genesis = true) (hpayload : b.payload = [p.digest cr.toCrypto])
    (hround : 0 < b.round) (hne : b.digest cr ≠ Block.genesis.digest cr) :
    ∃ n, (T.machine cr parameters authorities).Reachable n ∧
      n.Commits cr [.genesis, b] ∧ n.ledger = p.transactions := by
  have hrun : Machine.exec (Node.step cr parameters authorities) .new
      [.message (.payload p), .commit b, .analyze, .analyze, .analyze, .analyze, .analyze,
        .analyze, .analyze] = some
      { mempool := (Core.new .empty).handle (.ofBatch cr parameters authorities) (.payload p)
        committed := [b], commit := [], smallestUnprocessedRound := b.round + 1, phase := .waiting
        ledger := p.transactions } := by
    have hstore : ((Core.new .empty).handle (.ofBatch cr parameters authorities)
        (.payload p)).store = Core.withPayload (.ofBatch cr parameters authorities) .empty p := by
      have hadmits : Core.admits (.ofBatch cr parameters authorities) 0 (.payload p) = some p :=
        if_pos hsize
      rw [(Core.handle_frame _ _ _).1]
      exact congrArg (Option.elim · _ _) hadmits
    have hparent : ∀ s, getParentBlock cr s b = .ok (some .genesis) := fun s => by
      rw [getParentBlock, if_neg hne, if_pos hqc]
    have htop : ∀ s, getParentBlock cr s .genesis = .ok none := fun s => by
      rw [getParentBlock, if_pos rfl]
    have hread : readPayload (Core.withPayload (.ofBatch cr parameters authorities) .empty p)
        (p.digest cr.toCrypto) = .ok p.transactions := by
      have hvalue : (Core.withPayload (.ofBatch cr parameters authorities) .empty p).read
          (p.digest cr.toCrypto).toBytes = some p.encode := Store.read_write_self ..
      rw [readPayload, hvalue]
      simp only [Payload.tryFrom_encode]
      rfl
    have hone : (1 : RoundNumber) ≤ b.round := Fin.one_le_of_ne_zero hround.ne'
    have hgenesis : Block.genesis.round = 0 := rfl
    have hnone : Block.genesis.payload = [] := rfl
    simp [Machine.exec, Node.step, Node.analyze, Node.new, hstore, hparent, htop, hread, hpayload,
      hone, hgenesis, hnone]
  refine ⟨_, Machine.reachable_exec_restrict ?_ (.init rfl) hrun, ⟨?_, ?_, rfl, rfl⟩, rfl⟩
  · have hmessage : ∀ q, MempoolMessage.payload p = .ownPayload q ∨
        MempoolMessage.payload p = .payload q → T.payloads q := by
      rintro q (h | h) <;> cases h
      exact hp
    intro i hi n
    simp only [List.mem_cons, List.not_mem_nil, or_false, or_self] at hi
    rcases hi with rfl | rfl | rfl
    · exact Traffic.allows_message hmessage
    · exact hb
    · trivial
  · simp [Node.OnChain]
  · simp

/-- **Two payloads with the same bytes split into different transactions**: one node receives the
one and a second node the other, and both commit the block that lists their digest. -/
theorem disagreement {T : Traffic} {cr : BatchCrypto} {parameters : Parameters}
    {authorities : List PublicKey} {p q : Payload} (hp : T.payloads p) (hq : T.payloads q)
    (hpre : p.preimage = q.preimage) (hne : p.transactions ≠ q.transactions)
    (hsize : p.size ≤ parameters.maxPayloadSize) {b : Block} (hb : T.blocks b)
    (hqc : b.qc.eq .genesis = true) (hpayload : b.payload = [p.digest cr.toCrypto])
    (hround : 0 < b.round) (hgenesis : b.digest cr ≠ Block.genesis.digest cr) :
    ∃ n n', (T.machine cr parameters authorities).Reachable n ∧
      (T.machine cr parameters authorities).Reachable n' ∧
      n.Commits cr [.genesis, b] ∧ n'.Commits cr [.genesis, b] ∧ n.ledger ≠ n'.ledger := by
  have hdigest : q.digest cr.toCrypto = p.digest cr.toCrypto := congrArg cr.sha512 hpre.symm
  have hsize' : q.size ≤ parameters.maxPayloadSize := by
    rwa [← q.length_preimage, ← hpre, p.length_preimage]
  obtain ⟨n, hn, hcn, hln⟩ := exists_single authorities hp hsize hb hqc hpayload
    hround hgenesis
  obtain ⟨n', hn', hcn', hln'⟩ := exists_single authorities hq hsize' hb hqc
    (hdigest ▸ hpayload) hround hgenesis
  exact ⟨n, n', hn, hn', hcn, hcn', by rw [hln, hln']; exact hne⟩

/-! ## Two nodes -/

/-- A block that lists a payload of two bytes. -/
def lowerBlock : Block :=
  .new sampleBatch .genesis none keyA 1 [harmless.digest sampleBatch.toCrypto]

def upperBlock : Block :=
  .new sampleBatch ⟨lowerBlock.digest sampleBatch, 1, []⟩ none keyA 2 []

/-- The same two bytes as two transactions. -/
def halved : Payload := ⟨[⟨[1], by decide⟩, ⟨[2], by decide⟩], by decide⟩

def sampleTraffic (payloads : List Payload) : Traffic where
  payloads p := p ∈ payloads
  blocks b := b ∈ [Block.genesis, lowerBlock, upperBlock]
  genesis := by simp
  fits b hb := by
    have hdec : ∀ b ∈ [Block.genesis, lowerBlock, upperBlock],
        b.qc.votes = [] ∧ b.tc = none ∧ b.payload.length ≤ 1 := by decide +kernel
    obtain ⟨hvotes, htc, hpayload⟩ := hdec b hb
    exact ⟨by simp [hvotes], by simp [htc], by omega⟩

/-- Neither split hashes to anything that is hashed otherwise, nor to the default digest. -/
theorem sampleTraffic_collisionFree (payloads : List Payload)
    (h : ∀ p ∈ payloads, p.preimage = [1, 2]) :
    sampleBatch.CollisionFree (sampleTraffic payloads).Hashed ∧
      ∀ x, (sampleTraffic payloads).Hashed x → sampleBatch.sha512 x ≠ .default := by
  have hmem : ∀ x, (sampleTraffic payloads).Hashed x →
      x ∈ [1, 2] :: [Block.genesis, lowerBlock, upperBlock].map Block.preimage := by
    rintro x (⟨p, hp, rfl⟩ | ⟨b, hb, rfl⟩)
    · exact List.mem_cons.mpr (.inl (h p hp))
    · exact List.mem_cons_of_mem _ (List.mem_map_of_mem hb)
  have hfree : ∀ x ∈ [1, 2] :: [Block.genesis, lowerBlock, upperBlock].map Block.preimage,
      sampleBatch.sha512 x ≠ .default ∧
        ∀ y ∈ [1, 2] :: [Block.genesis, lowerBlock, upperBlock].map Block.preimage,
          sampleBatch.sha512 x = sampleBatch.sha512 y → x = y := by
    decide +kernel
  exact ⟨fun x y hx hy => (hfree x (hmem x hx)).2 y (hmem y hy), fun x hx => (hfree x (hmem x hx)).1⟩

/-- With one of the splits the traffic is clean. -/
theorem sampleTraffic_clean : (sampleTraffic [harmless]).Clean sampleBatch where
  unsplit p q hp hq _ := by rw [List.mem_singleton.mp hp, List.mem_singleton.mp hq]
  apart p b hp _ hpre := by
    have hlen := congrArg List.length hpre
    rw [List.mem_singleton.mp hp, b.length_preimage] at hlen
    have htwo : harmless.preimage.length = 2 := rfl
    omega
  listed b b' hb hb' := by
    have hdec : ∀ b ∈ [Block.genesis, lowerBlock, upperBlock],
        ∀ b' ∈ [Block.genesis, lowerBlock, upperBlock], b'.digest sampleBatch ∉ b.payload := by
      decide +kernel
    exact hdec b hb b' hb'

theorem chain_lower : Chain sampleBatch [.genesis, lowerBlock] where
  first := ⟨.genesis, _, rfl, rfl⟩
  linked := by
    simp only [List.isChain_cons_cons, List.isChain_singleton, and_true]
    decide +kernel
  bounded := by decide +kernel

theorem chain_upper : Chain sampleBatch [.genesis, lowerBlock, upperBlock] where
  first := ⟨.genesis, _, rfl, rfl⟩
  linked := by
    simp only [List.isChain_cons_cons, List.isChain_singleton, and_true]
    decide +kernel
  bounded := by decide +kernel

/-- A node that commits both blocks. -/
def steadyRun : List Input :=
  [.message (.payload harmless), .store lowerBlock, .commit lowerBlock] ++
    List.replicate 7 .analyze ++ [.store upperBlock, .commit upperBlock] ++
    List.replicate 8 .analyze

/-- A node that commits the upper block only, and whose own mempool made the payload. -/
def skippingRun : List Input :=
  [.store lowerBlock, .message (.ownPayload harmless), .message (.payload harmless),
    .commit upperBlock] ++ List.replicate 9 .analyze

theorem sampleTraffic_allows : ∀ i ∈ steadyRun ++ skippingRun, ∀ n,
    (sampleTraffic [harmless]).Allows sampleBatch .default [] n i := by
  intro i hi n
  have hcases : ∀ i ∈ steadyRun ++ skippingRun, i ∈ [Input.message (.payload harmless),
      .message (.ownPayload harmless), .store lowerBlock, .store upperBlock, .commit lowerBlock,
      .commit upperBlock, .analyze] := by
    decide +kernel
  have hi := hcases i hi
  simp only [List.mem_cons, List.not_mem_nil, or_false] at hi
  rcases hi with rfl | rfl | rfl | rfl | rfl | rfl | rfl
  · exact Traffic.allows_message (by rintro p (h | h) <;> cases h; exact List.mem_singleton_self _)
  · exact Traffic.allows_message (by rintro p (h | h) <;> cases h; exact List.mem_singleton_self _)
  all_goals simp [Traffic.Allows, sampleTraffic]

/-- **Ledger agreement**: two nodes that commit the same chain send the same transactions to their
checkpoint extractors, whatever payloads of clean traffic their mempools received and when. -/
theorem ledger_agreement (T : Traffic) (cr : BatchCrypto) (parameters parameters' : Parameters)
    (authorities authorities' : List PublicKey) (hfree : cr.CollisionFree T.Hashed)
    (hdefault : ∀ x, T.Hashed x → cr.sha512 x ≠ .default) (hbase : cr.Base64RoundTrip)
    (hclean : T.Clean cr) (c : List Block) (hc : Chain cr c) (hblocks : ∀ b ∈ c, T.blocks b)
    (n n' : Node) (h : (T.machine cr parameters authorities).Reachable n)
    (h' : (T.machine cr parameters' authorities').Reachable n')
    (hn : n.Commits cr c) (hn' : n'.Commits cr c) : n.ledger = n'.ledger := by
  rw [ledger_eq hfree hdefault hbase hclean hc hblocks h hn,
    ledger_eq hfree hdefault hbase hclean hc hblocks h' hn']

/-- A commit of the upper block by the whole chain, and a commit of it alone. -/
theorem ledger_agreement_skipping : ∃ n n' : Node,
    (n.committed = [lowerBlock, upperBlock] ∧ n'.committed = [upperBlock]) ∧
      n.ledger = harmless.transactions ∧ n.ledger = n'.ledger := by
  have hsteady : ((Machine.exec (Node.step sampleBatch .default []) .new steadyRun).any fun n =>
      decide (n.committed = [lowerBlock, upperBlock] ∧ n.commit = [] ∧ n.phase = .waiting ∧
        n.ledger = harmless.transactions)) = true := by
    decide +kernel
  have hskipping : ((Machine.exec (Node.step sampleBatch .default []) .new skippingRun).any fun n =>
      decide (n.committed = [upperBlock] ∧ n.commit = [] ∧ n.phase = .waiting)) = true := by
    decide +kernel
  rw [Option.any_eq_true] at hsteady hskipping
  obtain ⟨n, hn, h⟩ := hsteady
  obtain ⟨n', hn', h'⟩ := hskipping
  obtain ⟨hcommitted, hempty, hwaiting, hledger⟩ := of_decide_eq_true h
  obtain ⟨hcommitted', hempty', hwaiting'⟩ := of_decide_eq_true h'
  obtain ⟨hfree, hdefault⟩ := sampleTraffic_collisionFree [harmless] (by decide)
  refine ⟨n, n', ⟨hcommitted, hcommitted'⟩, hledger,
    ledger_agreement (sampleTraffic [harmless]) sampleBatch .default .default [] [] hfree hdefault
      sampleCrypto_base64RoundTrip sampleTraffic_clean [.genesis, lowerBlock, upperBlock] chain_upper
      (fun b hb => hb) n n'
      (Machine.reachable_exec_restrict
        (fun i hi => sampleTraffic_allows i (List.mem_append_left _ hi)) (.init rfl) hn)
      (Machine.reachable_exec_restrict
        (fun i hi => sampleTraffic_allows i (List.mem_append_right _ hi)) (.init rfl) hn')
      ⟨?_, ?_, hempty, hwaiting⟩ ⟨?_, ?_, hempty', hwaiting'⟩⟩
  · rw [Node.OnChain, hcommitted]
    simp
  · rw [hcommitted]
    simp
  · rw [Node.OnChain, hcommitted']
    simp
  · rw [hcommitted']
    simp

/-- The traffic of a payload and of the same bytes as two transactions: no hash collides, no key is
shared with a block, and two nodes that commit the same chain send different transactions. -/
theorem ledgers_differ_halved :
    sampleBatch.CollisionFree (sampleTraffic [harmless, halved]).Hashed ∧
      harmless.size ≤ Parameters.default.maxPayloadSize ∧
      halved.size ≤ Parameters.default.maxPayloadSize ∧ Chain sampleBatch [.genesis, lowerBlock] ∧
      ∃ n n' : Node,
        ((sampleTraffic [harmless, halved]).machine sampleBatch .default []).Reachable n ∧
        ((sampleTraffic [harmless, halved]).machine sampleBatch .default []).Reachable n' ∧
        n.Commits sampleBatch [.genesis, lowerBlock] ∧
        n'.Commits sampleBatch [.genesis, lowerBlock] ∧ n.ledger ≠ n'.ledger := by
  refine ⟨(sampleTraffic_collisionFree _ (by decide)).1, by decide, by decide, chain_lower, ?_⟩
  exact disagreement (p := harmless) (q := halved) (List.mem_cons_self ..) (by simp [sampleTraffic])
    rfl (by decide) (by decide) (by simp [sampleTraffic]) rfl rfl (by decide) (by decide +kernel)

end AccountabilityGadget.Ledger
