import AccountabilityGadget.Consensus.Agreement
import AccountabilityGadget.Ledger.Agreement
import AccountabilityGadget.Checkpoint.LogAcc

/-!
# The chain that the honest cores commit

* `Network.committed_chain` — in every fair run all blocks that honest cores commit are on one chain
  from genesis.
* `ledger_on_chain` — what a node has sent is at any time an initial piece of the ledger of
  a chain that its commits are on.
* `Follower` — the ledger task of an honest authority, fed by its core.
* `ledgers_comparable` — of two of them, one has sent a prefix of what the other has.
-/

set_option autoImplicit false

namespace AccountabilityGadget

open Encoding Consensus

namespace Consensus.Network

open TwoChain

variable {N : Network} {S : Bytes → Prop} {σ : Cores}

/-- Blocks with the given ballots. -/
theorem exists_blocks {l : List (TwoChain.Ballot Digest)} (hl : ∀ x ∈ l, ∃ p, (N.record σ).voted p x) :
    ∃ bs : List Block, bs.map N.ballot = l ∧ ∀ b ∈ bs, ∃ p, N.Honest p ∧ .vote b ∈ (σ p).log := by
  induction l with
  | nil => exact ⟨[], rfl, fun _ hb => by cases hb⟩
  | cons x l ih =>
    obtain ⟨bs, hbs, hvoted⟩ := ih fun y hy => hl y (List.mem_cons_of_mem _ hy)
    obtain ⟨p, hp, b, hb, rfl⟩ := hl x List.mem_cons_self
    refine ⟨b :: bs, by rw [List.map_cons, hbs], ?_⟩
    intro b' hb'
    rcases List.mem_cons.mp hb' with rfl | hb'
    · exact ⟨p, hp, hb⟩
    · exact hvoted b' hb'

/-- The blocks along a path of ballots, after genesis, are a chain. -/
theorem chain_of_path {l : List (TwoChain.Ballot Digest)} {d : Digest} {r : ℕ} {bs : List Block}
    (hpath : (N.record σ).Path N.root l d r) (hbs : bs.map N.ballot = l) (hr : r + 1 < 2 ^ 64) :
    Ledger.Chain N.cr (.genesis :: bs) where
  first := ⟨.genesis, bs, rfl, rfl⟩
  linked := by
    rw [List.isChain_cons]
    constructor
    · intro b hb
      obtain ⟨hparent, hpos⟩ := hpath.head (N.ballot b) (by
        rw [← hbs, List.head?_map, Option.mem_def, Option.mem_def.mp hb]
        rfl)
      exact ⟨hparent, hpos⟩
    · have hchain := hpath.isChain
      rw [← hbs, List.isChain_map] at hchain
      exact hchain.imp fun a b hab => ⟨hab.1, hab.2⟩
  bounded b hb := by
    rcases List.mem_cons.mp hb with rfl | hb
    · decide
    · have hle : b.round.val ≤ r := hpath.le (N.ballot b) (hbs ▸ List.mem_map_of_mem hb)
      omega

section

variable (hN : N.committee.total < 2 ^ 31)
  (hf : 3 * Quorum.weight (fun a => (N.committee.stake a).toNat)
    (N.committee.voters ∩ N.faulty) < N.committee.total)
  (hS : N.cr.CollisionFree S) (hdefault : ∀ x, S x → N.cr.sha512 x ≠ .default)
  (hgenesis : S Block.genesis.preimage) (hinv : N.Inv S σ) (htame : N.Tame S σ)

include hN hf hS hdefault hgenesis hinv htame

/-- No honest core votes for a block with the digest of genesis. -/
theorem ballot_ne_root {p : PublicKey} {x : TwoChain.Ballot Digest} (h : (N.record σ).voted p x) :
    x.block ≠ N.root := by
  have hbelow := (lawful hN hf hS hdefault hinv htame).below p x h
  obtain ⟨hp, b, hb, rfl⟩ := h
  intro hroot
  have hpre := hS _ _ (known_of_log hinv hp (.inr hb)).block hgenesis hroot
  have hround : b.round = 0 := (Block.preimage_inj hpre).2.1
  change b.qc.round.val < b.round.val at hbelow
  rw [hround] at hbelow
  exact Nat.not_lt_zero _ hbelow

/-- The chain of the honest cores, with the votes that certify its blocks. -/
theorem committed_chain_of_inv : ∃ c, Ledger.Chain N.cr c ∧
    (∀ b ∈ c, b = .genesis ∨ (∃ p, N.Honest p ∧ .store b ∈ (σ p).log) ∧
      (N.record σ).Certified (N.electorate hN hf) (b.digest N.cr) b.round) ∧
    ∀ p, N.Honest p → ∀ b0 b1 b, .commit b0 b1 b ∈ (σ p).log →
      ∃ a ∈ c, b0.digest N.cr = a.digest N.cr := by
  have hL := lawful hN hf hS hdefault hinv htame
  have hroot : ∀ p x, (N.record σ).voted p x → x.block ≠ N.root :=
    fun p x => ballot_ne_root hN hf hS hdefault hgenesis hinv htame
  have hbound : ∀ {d r}, (N.record σ).Committed (N.electorate hN hf) d r → r + 1 < 2 ^ 64 := by
    rintro d r ⟨p, x, ⟨-, b, -, rfl⟩, -, -, -, hround⟩
    exact hround ▸ b.round.isLt
  obtain ⟨l, d, r, hpath, htop, hall⟩ := hL.exists_spine hroot
    (n := 2 ^ 64 - 1) fun d r h => by have := hbound h; omega
  obtain ⟨bs, hbs, hvoted⟩ := exists_blocks hpath.voted
  have hvalid : (N.record σ).Valid (N.electorate hN hf) N.root d r := by
    rcases htop with rfl | htop
    · -- a path to round 0 is that of the root
      rcases hpath.last with ⟨-, hd, -⟩ | ⟨l', x, rfl, -, hround⟩
      · exact .inl ⟨hd, rfl⟩
      · obtain ⟨p, hx⟩ := hpath.voted x (by simp)
        have hlt := hL.below p x hx
        omega
    · exact hL.valid_of_committed htop
  have hr : r + 1 < 2 ^ 64 := by
    rcases htop with rfl | htop
    · decide
    · exact hbound htop
  refine ⟨.genesis :: bs, chain_of_path hpath hbs hr, ?_, ?_⟩
  · intro b hb
    refine (List.mem_cons.mp hb).imp_right fun hb => ?_
    obtain ⟨p, hp, hvote⟩ := hvoted b hb
    exact ⟨⟨p, hp, (hinv.chained p hp).voted b hvote⟩,
      hL.certified_of_mem_path hpath hvalid _ (hbs ▸ List.mem_map_of_mem hb)⟩
  · intro p hp b0 b1 b hcommit
    have hcommitted := committed_of_linked hN hf hS hdefault hinv htame hp
      ((hinv.chained p hp).linked _ _ _ hcommit)
    rcases hall _ _ hcommitted with hg | ⟨x, hx, hblock⟩
    · exact ⟨.genesis, List.mem_cons_self, hg⟩
    · rw [← hbs] at hx
      obtain ⟨a, ha, rfl⟩ := List.mem_map.mp hx
      exact ⟨a, List.mem_cons_of_mem _ ha, hblock.symm⟩

end

end Consensus.Network

/-! ## The ledger of a node at any time -/

namespace Ledger

open Mempool

/-- The blocks below a round are an initial piece of the chain. -/
theorem below_initial (r : RoundNumber) : ∀ {c : List Block},
    c.Pairwise (fun a b => a.round < b.round) → below c r <+: c
  | [], _ => List.nil_prefix
  | a :: c, h => by
    obtain ⟨ha, hc⟩ := List.pairwise_cons.mp h
    by_cases hr : a.round < r
    · rw [below, List.filter_cons_of_pos (by simpa using hr)]
      exact (List.prefix_cons_inj a).mpr (below_initial r hc)
    · have hrest : ∀ b ∈ a :: c, ¬ b.round < r := by
        intro b hb
        rcases List.mem_cons.mp hb with rfl | hb
        · exact hr
        · exact not_lt.mpr ((not_lt.mp hr).trans (ha b hb).le)
      rw [below, List.filter_eq_nil_iff.mpr (by simpa using hrest)]
      exact List.nil_prefix

/-- The ledger of an initial piece of a chain is an initial piece of the ledger. -/
theorem ledger_below {T : Traffic} {cr : BatchCrypto} {c : List Block} (hc : Chain cr c)
    (r : RoundNumber) : T.ledger cr (below c r) <+: T.ledger cr c := by
  obtain ⟨rest, hrest⟩ := below_initial r hc.sorted
  exact ⟨T.ledger cr rest, by rw [Traffic.ledger, Traffic.ledger, ← List.flatMap_append, hrest]; rfl⟩

/-- A task that has not panicked has sent an initial piece of the ledger of its chain. -/
theorem Progress.initial {T : Traffic} {cr : BatchCrypto} {c : List Block} (hc : Chain cr c) {n : Node}
    (h : Progress T cr c n) (hn : ∀ p, n.phase ≠ .stopped p) : n.ledger <+: T.ledger cr c := by
  have hbelow := ledger_below (T := T) hc n.smallestUnprocessedRound
  unfold Progress at h
  split at h
  · exact h ▸ hbelow
  · exact h.1 ▸ hbelow
  · exact (h.1 ▸ List.prefix_append _ _).trans hbelow
  · rename_i p hp
    exact absurd hp (hn p)

/-- Nothing is sent on the way to a panic, and commits are never withdrawn. -/
theorem step_frame {cr : BatchCrypto} {parameters : Parameters} {authorities : List PublicKey}
    {n t : Node} {i : Input} (h : n.step cr parameters authorities i = some t) :
    n.committed ⊆ t.committed ∧ ∀ p, t.phase = .stopped p → t.ledger = n.ledger := by
  cases i with
  | commit b => cases h; exact ⟨List.subset_append_left _ _, fun _ _ => rfl⟩
  | analyze =>
    simp only [Node.step, Node.analyze] at h
    split at h <;> (try split at h) <;> cases h <;>
      first
        | exact ⟨List.Subset.refl _, fun _ _ => rfl⟩
        | exact ⟨List.Subset.refl _, fun _ hp => by cases hp⟩
  | _ => cases h; exact ⟨List.Subset.refl _, fun _ _ => rfl⟩

section

variable {T : Traffic} {cr : BatchCrypto} {c : List Block} {parameters : Parameters}
  {authorities : List PublicKey} (hfree : cr.CollisionFree T.Hashed)
  (hdefault : ∀ x, T.Hashed x → cr.sha512 x ≠ .default) (hbase : cr.Base64RoundTrip)
  (hclean : T.Clean cr) (hc : Chain cr c) (hblocks : ∀ b ∈ c, T.blocks b)

include hfree hdefault hbase hclean hc hblocks

/-- **At any time a node has sent an initial piece of the ledger of its chain**, whether or not it
has panicked since. -/
theorem ledger_on_chain {n : Node} (h : (T.machine cr parameters authorities).Reachable n)
    (hon : n.OnChain cr c) : n.ledger <+: T.ledger cr c := by
  suffices hinv : Inv T cr c n ∧ (n.OnChain cr c → n.ledger <+: T.ledger cr c) from hinv.2 hon
  refine Machine.invariant
    (P := fun n => Inv T cr c n ∧ (n.OnChain cr c → n.ledger <+: T.ledger cr c)) ?_ ?_ h
  · rintro n rfl
    have hnew : (T.machine cr parameters authorities).Reachable .new := .init rfl
    exact ⟨inv hfree hdefault hbase hclean hc hblocks hnew, fun _ => List.nil_prefix⟩
  · intro n i t hn hstep
    have ht := hn.1.step hfree hdefault hbase hclean hc hblocks hstep.1 hstep.2
    obtain ⟨hcommitted, hstopped⟩ := step_frame hstep.2
    refine ⟨ht, fun hont => ?_⟩
    by_cases hp : ∃ p, t.phase = .stopped p
    · obtain ⟨p, hp⟩ := hp
      rw [hstopped p hp]
      exact hn.2 fun b hb => hont b (hcommitted hb)
    · exact (ht.progress hont).initial hc fun p h => hp ⟨p, h⟩

end

end Ledger

/-! ## The nodes of a committee -/

namespace Consensus.Network

variable (N : Network) (σ : Cores) (T : Ledger.Traffic)

/-- The ledger task of an honest authority has received on its commit channel only what the
authority's core has committed. -/
structure Follower (p : PublicKey) (n : Ledger.Node) : Prop where
  honest : N.Honest p
  reachable : ∃ parameters authorities, (T.machine N.cr parameters authorities).Reachable n
  committed : ∀ b0 ∈ n.committed, ∃ b1 b, .commit b0 b1 b ∈ (σ p).log

/-- The traffic is that of the honest cores, and what is hashed for it lies in `S`. -/
structure Carries (S : Bytes → Prop) : Prop where
  blocks : ∀ p, N.Honest p → ∀ b, .store b ∈ (σ p).log → T.blocks b
  hashed : ∀ x, T.Hashed x → S x
  clean : T.Clean N.cr

variable {N σ T}

/-- What a follower has sent is an initial piece of the ledger of a chain with all commits. -/
theorem ledger_of_chain {S : Bytes → Prop} (hS : N.cr.CollisionFree S)
    (hdefault : ∀ x, S x → N.cr.sha512 x ≠ .default) (hbase : N.cr.Base64RoundTrip)
    (hT : N.Carries σ T S) {c : List Block} (hc : Ledger.Chain N.cr c)
    (hstored : ∀ b ∈ c, b = .genesis ∨ ∃ p, N.Honest p ∧ .store b ∈ (σ p).log)
    (hcommits : ∀ p, N.Honest p → ∀ b0 b1 b, .commit b0 b1 b ∈ (σ p).log →
      ∃ a ∈ c, b0.digest N.cr = a.digest N.cr) {p : PublicKey} {n : Ledger.Node}
    (h : N.Follower σ T p n) : n.ledger <+: T.ledger N.cr c := by
  obtain ⟨parameters, authorities, hr⟩ := h.reachable
  have hblocks : ∀ b ∈ c, T.blocks b := by
    intro b hb
    rcases hstored b hb with rfl | ⟨q, hq, hlog⟩
    · exact T.genesis
    · exact hT.blocks q hq b hlog
  refine Ledger.ledger_on_chain (fun x y hx hy => hS x y (hT.hashed x hx) (hT.hashed y hy))
    (fun x hx => hdefault x (hT.hashed x hx)) hbase hT.clean hc hblocks hr ?_
  intro b hb
  obtain ⟨b1, b', hlog⟩ := h.committed b hb
  exact hcommits p h.honest b b1 b' hlog

/-- The ledgers of two followers are initial pieces of that of one chain. -/
theorem ledgers_of_inv {S : Bytes → Prop} (hN : N.committee.total < 2 ^ 31)
    (hf : 3 * Quorum.weight (fun a => (N.committee.stake a).toNat)
      (N.committee.voters ∩ N.faulty) < N.committee.total)
    (hS : N.cr.CollisionFree S) (hdefault : ∀ x, S x → N.cr.sha512 x ≠ .default)
    (hbase : N.cr.Base64RoundTrip) (hinv : N.Inv S σ) (htame : N.Tame S σ) (hT : N.Carries σ T S)
    {p q : PublicKey} {n n' : Ledger.Node} (hp : N.Follower σ T p n) (hq : N.Follower σ T q n') :
    n.ledger <+: n'.ledger ∨ n'.ledger <+: n.ledger := by
  have hgenesis : S Block.genesis.preimage := hT.hashed _ (.inr ⟨_, T.genesis, rfl⟩)
  obtain ⟨c, hc, hblocks, hcommits⟩ :=
    committed_chain_of_inv hN hf hS hdefault hgenesis hinv htame
  have hstored : ∀ b ∈ c, b = .genesis ∨ ∃ p, N.Honest p ∧ .store b ∈ (σ p).log :=
    fun b hb => (hblocks b hb).imp_right And.left
  exact List.prefix_or_prefix_of_prefix (ledger_of_chain hS hdefault hbase hT hc hstored hcommits hp)
    (ledger_of_chain hS hdefault hbase hT hc hstored hcommits hq)

/-! ### A block with a payload -/

/-- A payload of one transaction, the accept of genesis in iteration 0. -/
def votingPayload : Mempool.Payload :=
  ⟨[⟨soleVote (.accept 0 (LcBlock.genesisDigest sampleCrypto)), by decide +kernel⟩], by decide⟩

def voting1 : Block :=
  .new sampleBatch .genesis none keyA 1 [votingPayload.digest sampleBatch.toCrypto]

def voting2 : Block := sampleBlock (sampleQc voting1) 2

def voting3 : Block := sampleBlock (sampleQc voting2) 3

/-- The leader makes a block with a payload and votes for it; the other authority handles it. -/
def votingRound (b : Block) : List (PublicKey × Core.Input) :=
  [(keyA, .payload b.payload), (keyA, .next), (keyA, .next), (keyB, .deliver (.propose b)),
    (keyB, .next), (keyB, .next), (keyB, .status .accept), (keyB, .next)]

/-- What is hashed on the way to the commit of `voting1`. -/
def votingStrings : List Bytes :=
  votingPayload.preimage :: Block.genesis.preimage ::
    [voting1, voting2, voting3].flatMap fun b => [b.preimage, b.votePreimage sampleBatch]

def votingFair (σ : Cores) (l : PublicKey × Core.Input) : Bool :=
  match l.2 with
  | .deliver (.propose b) => b.signatures.all fun u => votingStrings.contains u.2.2 &&
      (σ u.1).log.any fun e => (e.signed sampleBatch).contains u.2.2
  | .deliver _ | .storeWrite _ _ => false
  | _ => true

def votingTame (σ : Cores) : Bool :=
  [keyA, keyB].all fun p => (σ p).round ≠ 0 &&
    (σ p).log.all fun e => (e.signed sampleBatch).all votingStrings.contains

/-- The two cores after three rounds. -/
def votingCores : Option Cores :=
  Machine.execIf votingFair (fun σ l => (sampleNetwork.step σ l).filter votingTame)
    (fun p => Core.new (sampleNetwork.env p)) ([voting1, voting2, voting3].flatMap votingRound)

def votingBlocks : List Block := [.genesis, voting1, voting2, voting3]

/-- Both cores have committed the first block, and stored only the three. -/
def votingDone (σ : Cores) : Bool :=
  [keyA, keyB].all fun p => (σ p).log.contains (.commit voting1 voting2 voting3) &&
    (σ p).log.all fun e =>
      match e with
      | .store b => votingBlocks.contains b
      | _ => true

theorem voting_fair {σ : Cores} {l : PublicKey × Core.Input} (h : votingFair σ l = true) :
    sampleNetwork.Fair (· ∈ votingStrings) σ l := by
  obtain ⟨p, i⟩ := l
  cases i with
  | deliver m =>
    cases m with
    | propose b =>
      simp only [votingFair, List.all_eq_true, Bool.and_eq_true, List.any_eq_true,
        List.contains_iff_mem] at h
      refine fun u hu => ⟨(h u hu).1, fun _ _ => ?_⟩
      obtain ⟨e, he, hx⟩ := (h u hu).2
      exact ⟨e, he, u.2.2, hx, rfl⟩
    | _ => cases h
  | storeWrite d v => cases h
  | _ => trivial

theorem voting_tame {σ : Cores} (h : votingTame σ = true) :
    sampleNetwork.Tame (· ∈ votingStrings) σ := by
  intro p hp
  simp only [votingTame, List.all_eq_true, Bool.and_eq_true, List.contains_iff_mem,
    decide_eq_true_eq] at h
  exact h p (mem_keys_of_honest hp)

/-- The run of the two cores. -/
theorem exists_votingCores : ∃ σ : Cores,
    ((sampleNetwork.machine.within (sampleNetwork.Tame (· ∈ votingStrings))).restrict
      (sampleNetwork.Fair (· ∈ votingStrings))).Reachable σ ∧
    ∀ p ∈ [keyA, keyB], .commit voting1 voting2 voting3 ∈ (σ p).log ∧
      ∀ b, .store b ∈ (σ p).log → b ∈ votingBlocks := by
  have hrun : (votingCores.any votingDone) = true := by decide +kernel
  rw [Option.any_eq_true] at hrun
  obtain ⟨σ, hσ, h⟩ := hrun
  refine ⟨σ, Machine.reachable_execIf_within (fun _ _ => voting_fair) (fun _ => voting_tame)
    (.init ⟨rfl, voting_tame (by decide +kernel)⟩) hσ, fun p hp => ?_⟩
  simp only [votingDone, List.all_eq_true, Bool.and_eq_true, List.contains_iff_mem] at h
  exact ⟨(h p hp).1, fun b hb => by simpa using (h p hp).2 _ hb⟩

/-- What is hashed has neither a collision nor the default digest. -/
theorem voting_collisionFree : sampleBatch.CollisionFree (· ∈ votingStrings) ∧
    ∀ x ∈ votingStrings, sampleBatch.sha512 x ≠ .default := by
  have hfree : ∀ x ∈ votingStrings, sampleBatch.sha512 x ≠ .default ∧
      ∀ y ∈ votingStrings, sampleBatch.sha512 x = sampleBatch.sha512 y → x = y := by
    decide +kernel
  exact ⟨fun x y hx hy => (hfree x hx).2 y hy, fun x hx => (hfree x hx).1⟩

theorem genesis_mem_votingBlocks : Block.genesis ∈ votingBlocks := List.mem_cons_self

theorem votingBlocks_fit (b : Block) (hb : b ∈ votingBlocks) : b.Fits := by
  have hdec : ∀ b ∈ votingBlocks,
      b.qc.votes.length ≤ 1 ∧ b.tc = none ∧ b.payload.length ≤ 1 := by decide +kernel
  obtain ⟨hvotes, htc, hpayload⟩ := hdec b hb
  exact ⟨by omega, by simp [htc], by omega⟩

def votingTraffic : Ledger.Traffic where
  payloads p := p = votingPayload
  blocks b := b ∈ votingBlocks
  genesis := genesis_mem_votingBlocks
  fits := votingBlocks_fit

theorem votingTraffic_carries {σ : Cores} (h : ∀ p ∈ [keyA, keyB], ∀ b, .store b ∈ (σ p).log →
    b ∈ votingBlocks) : sampleNetwork.Carries σ votingTraffic (· ∈ votingStrings) where
  blocks p hp b hb := h p (mem_keys_of_honest hp) b hb
  hashed := by
    have hblocks : ∀ b ∈ votingBlocks, b.preimage ∈ votingStrings := by decide +kernel
    rintro x (⟨p, rfl, rfl⟩ | ⟨b, hb, rfl⟩)
    · exact List.mem_cons_self
    · exact hblocks b hb
  clean :=
    { unsplit := by
        rintro p q rfl rfl -
        rfl
      apart := by
        have hdec : ∀ b ∈ votingBlocks, votingPayload.preimage ≠ b.preimage := by decide +kernel
        rintro p b rfl hb
        exact hdec b hb
      listed := by
        have hdec : ∀ b ∈ votingBlocks, ∀ b' ∈ votingBlocks,
            b'.digest sampleBatch ∉ b.payload := by decide +kernel
        exact fun b b' hb hb' => hdec b hb b' hb' }

/-- A node that receives the payload and processes the commit of `voting1`. -/
def votingNode : Option Ledger.Node :=
  Machine.exec (Ledger.Node.step sampleBatch .default []) .new
    ([.message (.payload votingPayload), .commit voting1] ++ List.replicate 7 .analyze)

/-- Such a node has sent the transaction. -/
theorem exists_votingNode {σ : Cores} (h : .commit voting1 voting2 voting3 ∈ (σ keyA).log) :
    ∃ n, sampleNetwork.Follower σ votingTraffic keyA n ∧
      n.ledger = votingPayload.transactions := by
  have hrun : (votingNode.any fun n => decide (n.committed = [voting1] ∧
      n.ledger = votingPayload.transactions)) = true := by decide +kernel
  rw [Option.any_eq_true] at hrun
  obtain ⟨n, hn, hdone⟩ := hrun
  obtain ⟨hcommitted, hledger⟩ := of_decide_eq_true hdone
  have hallows : ∀ i ∈ [Ledger.Input.message (.payload votingPayload), .commit voting1] ++
      List.replicate 7 .analyze, ∀ n, votingTraffic.Allows sampleBatch .default [] n i := by
    intro i hi n
    have hcases : i = .message (.payload votingPayload) ∨ i = .commit voting1 ∨ i = .analyze := by
      simpa [or_assoc] using hi
    rcases hcases with rfl | rfl | rfl
    · exact Ledger.Traffic.allows_message (by rintro p (h | h) <;> cases h; rfl)
    · simp [Ledger.Traffic.Allows, votingTraffic, votingBlocks]
    · trivial
  refine ⟨n, ⟨by decide +kernel, ⟨.default, [],
    Machine.reachable_exec_restrict hallows (.init rfl) hn⟩, ?_⟩, hledger⟩
  intro b hb
  rw [hcommitted, List.mem_singleton] at hb
  exact hb ▸ ⟨_, _, h⟩

/-! ### Agreement -/

/-- **The honest cores commit one chain.**  In every fair run without overflow of a round number
there is a chain from genesis, made of blocks that honest cores have stored, with all the blocks
that honest cores have committed. -/
theorem committed_chain (N : Network) (hN : N.committee.total < 2 ^ 31)
    (hf : 3 * Quorum.weight (fun a => (N.committee.stake a).toNat)
      (N.committee.voters ∩ N.faulty) < N.committee.total)
    (S : Bytes → Prop) (hS : N.cr.CollisionFree S) (hdefault : ∀ x, S x → N.cr.sha512 x ≠ .default)
    (hgenesis : S Block.genesis.preimage) (σ : Cores)
    (hr : ((N.machine.within (N.Tame S)).restrict (N.Fair S)).Reachable σ) :
    ∃ c, Ledger.Chain N.cr c ∧
      (∀ b ∈ c, b = .genesis ∨ ∃ p, N.Honest p ∧ .store b ∈ (σ p).log) ∧
      ∀ p, N.Honest p → ∀ b0 b1 b, .commit b0 b1 b ∈ (σ p).log →
        ∃ a ∈ c, b0.digest N.cr = a.digest N.cr := by
  obtain ⟨hinv, htame⟩ := inv_of_reachable hN hr
  obtain ⟨c, hc, hstored, hcommits⟩ :=
    committed_chain_of_inv hN hf hS hdefault hgenesis hinv htame
  exact ⟨c, hc, fun b hb => (hstored b hb).imp_right And.left, hcommits⟩

/-- Two cores that commit a block of a chain above genesis. -/
theorem committed_chain_voting : ∃ σ : Cores,
    (∀ p ∈ [keyA, keyB], .commit voting1 voting2 voting3 ∈ (σ p).log) ∧
      ∃ c, Ledger.Chain sampleBatch c ∧
        (∀ b ∈ c, b = .genesis ∨ ∃ p, sampleNetwork.Honest p ∧ .store b ∈ (σ p).log) ∧
        ∀ p, sampleNetwork.Honest p → ∀ b0 b1 b, .commit b0 b1 b ∈ (σ p).log →
          ∃ a ∈ c, b0.digest sampleBatch = a.digest sampleBatch := by
  obtain ⟨σ, hr, h⟩ := exists_votingCores
  exact ⟨σ, fun p hp => (h p hp).1, committed_chain sampleNetwork (by decide +kernel)
    (by decide +kernel) (· ∈ votingStrings) voting_collisionFree.1 voting_collisionFree.2
    (by decide +kernel) σ hr⟩

/-- **Ledgers do not fork.**  In every fair run of a committee with less than a third of faulty stake,
with clean traffic, of the ledgers of two followers at any time one is a prefix of the other. -/
theorem ledgers_comparable (N : Network) (hN : N.committee.total < 2 ^ 31)
    (hf : 3 * Quorum.weight (fun a => (N.committee.stake a).toNat)
      (N.committee.voters ∩ N.faulty) < N.committee.total)
    (S : Bytes → Prop) (hS : N.cr.CollisionFree S) (hdefault : ∀ x, S x → N.cr.sha512 x ≠ .default)
    (hbase : N.cr.Base64RoundTrip) (σ : Cores)
    (hr : ((N.machine.within (N.Tame S)).restrict (N.Fair S)).Reachable σ) (T : Ledger.Traffic)
    (hT : N.Carries σ T S) (p q : PublicKey) (n n' : Ledger.Node) (hp : N.Follower σ T p n)
    (hq : N.Follower σ T q n') : n.ledger <+: n'.ledger ∨ n'.ledger <+: n.ledger := by
  obtain ⟨hinv, htame⟩ := inv_of_reachable hN hr
  exact ledgers_of_inv hN hf hS hdefault hbase hinv htame hT hp hq

/-- A node that has sent a transaction, and one that has not started. -/
theorem ledgers_comparable_voting : ∃ n n' : Ledger.Node,
    n.ledger = votingPayload.transactions ∧ n'.ledger = [] ∧
      (n.ledger <+: n'.ledger ∨ n'.ledger <+: n.ledger) := by
  obtain ⟨σ, hr, h⟩ := exists_votingCores
  obtain ⟨n, hn, hledger⟩ := exists_votingNode (h keyA (by simp)).1
  have hnew : sampleNetwork.Follower σ votingTraffic keyB .new :=
    ⟨by decide +kernel, ⟨.default, [], .init rfl⟩, fun b hb => by cases hb⟩
  exact ⟨n, .new, hledger, rfl, ledgers_comparable sampleNetwork (by decide +kernel)
    (by decide +kernel) (· ∈ votingStrings) voting_collisionFree.1 voting_collisionFree.2
    sampleCrypto_base64RoundTrip σ hr votingTraffic
    (votingTraffic_carries fun p hp => (h p hp).2) keyA keyB n .new hn hnew⟩

end Consensus.Network

end AccountabilityGadget
