import AccountabilityGadget.Ledger.Committed
import AccountabilityGadget.Mempool.Available

/-!
# The payloads of the committed chain are available

An honest authority runs its core together with its mempool, and both write to one store.

* `Deployment.machine` — the nodes of the honest authorities, each with core and mempool, in any
  order of their steps.
* `Deployment.cores_reachable` — their cores make a run of the network: what a mempool writes is a
  write by another user of the store.
* `Deployment.replica_reachable` — each node makes a run of its own.
* `Deployment.chain_available` — for every block on the chain of the honest cores, honest
  authorities with more than a third of the stake have stored what the block lists.
-/

set_option autoImplicit false

namespace AccountabilityGadget.Consensus

open Mempool

/-- What the honest authorities run: their cores, and mempools with these parameters. -/
structure Deployment extends Network where
  maxPayloadSize : PublicKey → ℕ
  parameters : PublicKey → Parameters
  authorities : List PublicKey

namespace Deployment

abbrev Replicas := PublicKey → Replica

/-- The cores of the nodes. -/
def cores (ρ : Replicas) : Network.Cores := fun p => (ρ p).consensus

variable (D : Deployment) (S : Bytes → Prop)

def setup (p : PublicKey) : Setup :=
  ⟨D.env p, D.maxPayloadSize p, D.parameters p, D.authorities⟩

def step (ρ : Replicas) (l : PublicKey × Replica.Input) : Option Replicas :=
  if D.Honest l.1 then ((ρ l.1).step (D.setup l.1) l.2).map (Function.update ρ l.1) else none

/-- All interleavings of the honest nodes. -/
def machine : Machine Replicas (PublicKey × Replica.Input) :=
  .ofStep (· = fun p => Replica.new (D.setup p)) D.step

/-- The network is fair to the cores, and nobody sends a payload whose bytes read as a block. -/
structure Fair (ρ : Replicas) (l : PublicKey × Replica.Input) : Prop where
  served : (ρ l.1).Served l.2
  core : ∀ i, l.2 = .consensus i → D.toNetwork.Fair S (cores ρ) (l.1, i)
  payloads : ∀ p ∈ l.2.payloads, ∀ b, Block.tryFrom D.cr.toCrypto p.encode ≠ .ok b

/-- The runs in which no round number overflows and honest cores sign strings in `S`. -/
def FairRun (ρ : Replicas) : Prop :=
  ((D.machine.within fun ρ => D.Tame S (cores ρ)).restrict (D.Fair S)).Reachable ρ

variable {D S} {ρ ρ' : Replicas}

theorem step_some {l : PublicKey × Replica.Input} (hs : D.step ρ l = some ρ') : D.Honest l.1 ∧
    ∃ r, (ρ l.1).step (D.setup l.1) l.2 = some r ∧ ρ' = Function.update ρ l.1 r := by
  unfold Deployment.step at hs
  split at hs
  · rename_i hp
    obtain ⟨r, hr, rfl⟩ := Option.map_eq_some_iff.mp hs
    exact ⟨hp, r, hr, rfl⟩
  · cases hs

theorem cores_update (p : PublicKey) (r : Replica) :
    cores (Function.update ρ p r) = Function.update (cores ρ) p r.consensus := by
  funext q
  by_cases hq : q = p
  · subst hq
    rw [cores, Function.update_self, Function.update_self]
  · rw [cores, Function.update_of_ne hq, Function.update_of_ne hq]
    rfl

/-- **The cores of the nodes make a fair run of the network.** -/
theorem cores_reachable (hr : D.FairRun S ρ) :
    ((D.toNetwork.machine.within (D.Tame S)).restrict (D.toNetwork.Fair S)).Reachable (cores ρ) := by
  refine Machine.Reachable.project ?_ ?_ hr
  · rintro ρ ⟨rfl, htame⟩
    exact ⟨rfl, htame⟩
  · rintro ρ ⟨p, i⟩ ρ' - ⟨hfair, hs, htame⟩
    obtain ⟨hp, r, hr, rfl⟩ := step_some hs
    rcases Replica.step_core hr with hsame | ⟨j, hj, hcase⟩
    · left
      rw [cores_update, hsame]
      exact Function.update_eq_self ..
    · right
      refine ⟨(p, j), ?_, ?_, htame⟩
      · rcases hcase with rfl | ⟨a, rfl⟩ | ⟨q, hq, rfl⟩
        · exact hfair.core j rfl
        · cases a <;> trivial
        · exact hfair.payloads q hq
      · show (if D.Honest p then _ else none) = some _
        rw [if_pos hp, cores_update]
        exact congrArg (Option.map _) hj

/-- **Each node makes a run of core and mempool.** -/
theorem replica_reachable (hr : D.FairRun S ρ) (p : PublicKey) :
    ((Replica.machine (D.setup p)).restrict Replica.Served).Reachable (ρ p) := by
  refine Machine.Reachable.project (f := fun ρ : Replicas => ρ p) ?_ ?_ hr
  · rintro ρ ⟨rfl, -⟩
    rfl
  · rintro ρ ⟨q, i⟩ ρ' - ⟨hfair, hs, -⟩
    obtain ⟨-, r, hr, rfl⟩ := step_some hs
    by_cases hq : p = q
    · subst hq
      exact .inr ⟨i, hfair.served, by rw [Function.update_self]; exact hr⟩
    · exact .inl (Function.update_of_ne hq ..)

/-! ## Availability -/

/-- Honest voters of a quorum have more than a third of the stake. -/
theorem weight_honest {N : Network} (hN : N.committee.total < 2 ^ 31)
    (hf : 3 * Quorum.weight (fun a => (N.committee.stake a).toNat)
      (N.committee.voters ∩ N.faulty) < N.committee.total) {Q : Finset PublicKey}
    (hQ : (N.electorate hN hf).IsQuorum Q) :
    N.committee.total < 3 * Quorum.weight (fun a => (N.committee.stake a).toNat) (Q \ N.faulty) := by
  have hthreshold : N.committee.quorumThreshold.toNat = 2 * N.committee.total / 3 + 1 :=
    Committee.quorumThreshold_toNat hN
  have hweight : N.committee.quorumThreshold.toNat ≤
      Quorum.weight (fun a => (N.committee.stake a).toNat) Q := hQ.weight
  have hsub : Q ∩ N.faulty ⊆ N.committee.voters ∩ N.faulty :=
    Finset.inter_subset_inter_right hQ.subset
  have hmono := Quorum.weight_mono (w := fun a => (N.committee.stake a).toNat) hsub
  have hsplit := Quorum.weight_sdiff (w := fun a => (N.committee.stake a).toNat)
    (Finset.inter_subset_left : Q ∩ N.faulty ⊆ Q)
  rw [Finset.sdiff_inter_self_left] at hsplit
  omega

/-- **The payloads of the committed chain are available.**  In every fair run of the nodes of a
committee with less than a third of faulty stake there is a chain with all blocks that honest cores
have committed, such that for each of its blocks after genesis honest authorities with more than a
third of the stake have stored what the block lists. -/
theorem chain_available (D : Deployment) (hN : D.committee.total < 2 ^ 31)
    (hf : 3 * Quorum.weight (fun a => (D.committee.stake a).toNat)
      (D.committee.voters ∩ D.faulty) < D.committee.total)
    (S : Bytes → Prop) (hS : D.cr.CollisionFree S) (hdefault : ∀ x, S x → D.cr.sha512 x ≠ .default)
    (hgenesis : S Block.genesis.preimage) (ρ : Replicas) (hr : D.FairRun S ρ) :
    ∃ c, Ledger.Chain D.cr c ∧
      (∀ p, D.Honest p → ∀ b0 b1 b, .commit b0 b1 b ∈ (ρ p).consensus.log →
        ∃ a ∈ c, b0.digest D.cr = a.digest D.cr) ∧
      ∀ a ∈ c, a = .genesis ∨ ∃ Q : Finset PublicKey,
        D.committee.total < 3 * Quorum.weight (fun a => (D.committee.stake a).toNat) Q ∧
          ∀ q ∈ Q, D.Honest q ∧ ∀ d ∈ a.payload, (ρ q).Holds D.cr d := by
  obtain ⟨hinv, htame⟩ := Network.inv_of_reachable hN (cores_reachable hr)
  obtain ⟨c, hc, hblocks, hcommits⟩ :=
    Network.committed_chain_of_inv hN hf hS hdefault hgenesis hinv htame
  refine ⟨c, hc, hcommits, fun a ha => (hblocks a ha).imp_right ?_⟩
  rintro ⟨⟨p, hp, hstored⟩, Q, hQ, hvoted⟩
  refine ⟨Q \ D.faulty, weight_honest hN hf hQ, ?_⟩
  intro q hq
  obtain ⟨hqQ, hqF⟩ := Finset.mem_sdiff.mp hq
  obtain ⟨-, ⟨hq, b, hb, rfl⟩, hblock, -⟩ := hvoted q hqQ hqF
  refine ⟨hq, fun d hd => ?_⟩
  -- the block that it has voted for lists the same
  have hknown := Network.known_of_log hinv hp (.inl hstored)
  have hknown' := Network.known_of_log hinv hq (.inr hb)
  have hpayload := (Block.preimage_inj (hS _ _ hknown'.block hknown.block hblock)).2.2.1
  exact (Replica.inv_reachable (replica_reachable hr q)).holds (.inr (.inr hb)) d (hpayload ▸ hd)

/-! ### Two nodes -/

open Network

def sampleDeployment : Deployment where
  toNetwork := sampleNetwork
  maxPayloadSize := fun _ => 500
  parameters := fun _ => .default
  authorities := [keyA, keyB]

/-- The leader asks its mempool for a payload, makes a block and votes for it; the other node checks
the payloads of the block and votes as well. -/
def deployedRound (b : Block) : List (PublicKey × Replica.Input) :=
  [(keyA, .serve none false), (keyA, .answer), (keyA, .consensus .next), (keyA, .serve none false),
    (keyA, .consensus .next), (keyB, .consensus (.deliver (.propose b))),
    (keyB, .consensus .next), (keyB, .consensus .next), (keyB, .serve none false), (keyB, .answer),
    (keyB, .consensus .next), (keyB, .serve none false)]

/-- Both mempools get the payload first. -/
def deployedRun : List (PublicKey × Replica.Input) :=
  (keyA, .message (.ownPayload votingPayload)) :: (keyB, .message (.payload votingPayload)) ::
    [voting1, voting2, voting3].flatMap deployedRound

def deployedFair (ρ : Replicas) (l : PublicKey × Replica.Input) : Bool :=
  match l.2 with
  | .consensus (.payloadReady _) => false
  | .consensus i => votingFair (cores ρ) (l.1, i)
  | i => i.payloads.all (· = votingPayload)

theorem votingPayload_unreadable (b : Block) :
    Block.tryFrom sampleBatch.toCrypto votingPayload.encode ≠ .ok b := by
  have hnone : (Block.tryFrom sampleBatch.toCrypto votingPayload.encode).toOption = none := by
    decide +kernel
  intro h
  rw [h] at hnone
  cases hnone

theorem deployed_fair {ρ : Replicas} {l : PublicKey × Replica.Input}
    (h : deployedFair ρ l = true) : sampleDeployment.Fair (· ∈ votingStrings) ρ l := by
  obtain ⟨p, i⟩ := l
  have hpayloads : (∀ q ∈ i.payloads, q = votingPayload) →
      ∀ q ∈ i.payloads, ∀ b, Block.tryFrom sampleBatch.toCrypto q.encode ≠ .ok b := by
    intro hall q hq b
    rw [hall q hq]
    exact votingPayload_unreadable b
  cases i with
  | consensus i =>
    have hfair : sampleNetwork.Fair (· ∈ votingStrings) (cores ρ) (p, i) := by
      cases i with
      | payloadReady b => cases h
      | _ => exact voting_fair h
    refine ⟨?_, ?_, hpayloads (fun q hq => by cases hq)⟩
    · cases i with
      | payloadReady b => cases h
      | deliver m =>
        cases m with
        | loopBack b => cases h
        | _ => trivial
      | _ => trivial
    · intro j hj
      cases hj
      exact hfair
  | _ =>
    simp only [deployedFair, List.all_eq_true, decide_eq_true_eq] at h
    exact ⟨trivial, fun j hj => (by cases hj), hpayloads h⟩

/-- Both nodes store the payload of the first block, which the leader commits. -/
theorem chain_available_deployed : ∃ ρ : Replicas, sampleDeployment.FairRun (· ∈ votingStrings) ρ ∧
    .commit voting1 voting2 voting3 ∈ (ρ keyA).consensus.log ∧
    ∃ c, Ledger.Chain sampleBatch c ∧
      (∀ p, sampleNetwork.Honest p → ∀ b0 b1 b, .commit b0 b1 b ∈ (ρ p).consensus.log →
        ∃ a ∈ c, b0.digest sampleBatch = a.digest sampleBatch) ∧
      ∀ a ∈ c, a = .genesis ∨ ∃ Q : Finset PublicKey,
        sampleCommittee.total < 3 * Quorum.weight (fun a => (sampleCommittee.stake a).toNat) Q ∧
          ∀ q ∈ Q, sampleNetwork.Honest q ∧ ∀ d ∈ a.payload, (ρ q).Holds sampleBatch d := by
  have hrun : ((Machine.execIf deployedFair
      (fun ρ l => (sampleDeployment.step ρ l).filter fun ρ => votingTame (cores ρ))
      (fun p => Replica.new (sampleDeployment.setup p)) deployedRun).any fun ρ =>
        (ρ keyA).consensus.log.contains (.commit voting1 voting2 voting3)) = true := by
    decide +kernel
  rw [Option.any_eq_true] at hrun
  obtain ⟨ρ, hexec, hcommit⟩ := hrun
  have hr : sampleDeployment.FairRun (· ∈ votingStrings) ρ :=
    Machine.reachable_execIf_within (fun _ _ => deployed_fair) (fun _ => voting_tame)
      (.init ⟨rfl, voting_tame (by decide +kernel)⟩) hexec
  exact ⟨ρ, hr, List.contains_iff_mem.mp hcommit,
    chain_available sampleDeployment (by decide +kernel) (by decide +kernel) (· ∈ votingStrings)
      voting_collisionFree.1 voting_collisionFree.2 (by decide +kernel) ρ hr⟩

end Deployment

end AccountabilityGadget.Consensus
