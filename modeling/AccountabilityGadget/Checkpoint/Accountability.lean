import AccountabilityGadget.Checkpoint.Tally
import AccountabilityGadget.Checkpoint.Proposer

/-!
# Accountable safety of checkpoints

Two ledgers, possibly conflicting, that give different checkpoints for one iteration identify more
than a third of the committee as having signed contradictory votes, and no authority that ran the
proposer is among them.

* `decided_accepts` — a decided block has valid accepts of more than two thirds of the committee.
* `Honest` — an authority whose valid transactions are those of one run of the proposer.
* `accountable_safety` — the double voters of two conflicting checkpoints.
-/

set_option autoImplicit false

namespace AccountabilityGadget

variable (cr : Crypto) (committee : CheckpointCommittee)

/-- The ledger holds a valid `Accept(i, b)` of `a`. -/
def HasAccept (L : List Bytes) (i : ℕ) (b : Digest) (a : PublicKey) : Prop :=
  ∃ tx ∈ L, validVote cr committee tx = some (a, .accept i b)

/-- `a` ran the proposer without restarting, and what carries its valid signature in the ledger
was signed in that run. -/
def Honest (L : List Bytes) (a : PublicKey) : Prop :=
  ∃ (env : ProposerEnv) (s : Proposer), env.name = a ∧ (Proposer.machine env).Reachable s ∧
    ∀ tx ∈ L, ∀ action, validVote cr committee tx = some (a, action) →
      action ∈ s.submitted ∨ action ∈ s.broadcast

variable {cr committee}

/-- **More than two thirds of the committee accepted a decided block.** -/
theorem decided_accepts {ord : ℕ → VoteOrder} {L : List Bytes} {i : ℕ} {b : Digest}
    (h : .newCheckpoint i (some b) ∈ Extractor.events ord cr committee L) :
    ∃ A ⊆ committee.voters, 2 * committee.size < 3 * A.card ∧
      ∀ a ∈ A, HasAccept cr committee L i b a := by
  obtain ⟨pre, seg, post, rfl, hd⟩ := Extractor.events_segment h
  refine ⟨_, Finset.filter_subset _ _, hd.accepted, ?_⟩
  intro a ha
  obtain ⟨tx, htx, hv⟩ := exists_accept ha
  exact ⟨tx, by simp [htx], hv⟩

/-- **An honest authority does not accept two blocks in one iteration.** -/
theorem Honest.accept_unique {L : List Bytes} {a : PublicKey} (h : Honest cr committee L a)
    {i : ℕ} {b b' : Digest} (hb : HasAccept cr committee L i b a)
    (hb' : HasAccept cr committee L i b' a) : b = b' := by
  obtain ⟨env, s, -, hr, hs⟩ := h
  have hsub : ∀ c, HasAccept cr committee L i c a → .accept i c ∈ s.submitted := by
    rintro c ⟨tx, htx, hv⟩
    rcases hs tx htx _ hv with h | h
    · exact h
    · obtain ⟨j, d, hj⟩ := Proposer.broadcast_propose hr _ h
      cases hj
  exact Proposer.accept_unique hr (hsub b hb) (hsub b' hb')

/-- **Accountable safety.** -/
theorem accountable_safety (cr : Crypto) (committee : CheckpointCommittee) (ord ord' : ℕ → VoteOrder)
    (L L' : List Bytes) (i : ℕ) (b b' : Digest)
    (h : .newCheckpoint i (some b) ∈ Extractor.events ord cr committee L)
    (h' : .newCheckpoint i (some b') ∈ Extractor.events ord' cr committee L') (hne : b ≠ b') :
    ∃ S : Finset PublicKey, committee.size < 3 * S.card ∧ ∀ a ∈ S, 0 < committee.stake a ∧
      HasAccept cr committee L i b a ∧ HasAccept cr committee L' i b' a ∧
      ¬ Honest cr committee (L ++ L') a := by
  obtain ⟨A, hA, hcA, hacc⟩ := decided_accepts h
  obtain ⟨B, hB, hcB, hacc'⟩ := decided_accepts h'
  refine ⟨A ∩ B, Quorum.card_inter_third CheckpointCommittee.card_voters_le hA hB hcA hcB, ?_⟩
  intro a ha
  rw [Finset.mem_inter] at ha
  refine ⟨CheckpointCommittee.mem_voters.mp (hA ha.1), hacc a ha.1, hacc' a ha.2, fun hh => hne ?_⟩
  obtain ⟨tx, htx, hv⟩ := hacc a ha.1
  obtain ⟨tx', htx', hv'⟩ := hacc' a ha.2
  exact hh.accept_unique ⟨tx, List.mem_append_left _ htx, hv⟩
    ⟨tx', List.mem_append_right _ htx', hv'⟩

/-- One authority that accepts two blocks in iteration 0, each on a ledger of its own. -/
theorem accountable_safety_double_vote :
    ∃ S : Finset PublicKey, soleCommittee.size < 3 * S.card ∧ ∀ a ∈ S, 0 < soleCommittee.stake a ∧
      HasAccept sampleCrypto soleCommittee [soleVote (.accept 0 .default)] 0 .default a ∧
      HasAccept sampleCrypto soleCommittee [soleVote (.accept 0 .ones)] 0 .ones a ∧
      ¬ Honest sampleCrypto soleCommittee
        ([soleVote (.accept 0 .default)] ++ [soleVote (.accept 0 .ones)]) a :=
  accountable_safety sampleCrypto soleCommittee (fun _ => .stored) (fun _ => .reversed)
    [soleVote (.accept 0 .default)] [soleVote (.accept 0 .ones)] 0 .default .ones
    (by decide +kernel) (by decide +kernel) (by decide)

end AccountabilityGadget
