import AccountabilityGadget.Consensus.Sound

/-!
# Which blocks take effect

`handle_proposal` checks the leader, the author's signature and the certificates of a block before
`process_block` stores it, votes for it or commits on account of it.  Three other ways lead to
`process_block`: the two synchronizers, with blocks that were checked before, the leader's own
blocks, and a `LoopBack` message, which the inbound task forwards from the network like any other.

* `Verified` — a block that passes the checks of `handle_proposal`.
* `only_verified` — in runs whose `LoopBack` messages of the network carry verified blocks, and
  whose `TC` messages verify wherever the node makes a block of them, only verified blocks take
  effect.
* `unverified_block_stored` — a core stores and votes for a block of the wrong author without a
  signature.
-/

set_option autoImplicit false

namespace AccountabilityGadget.Consensus

open Encoding

/-- The checks of `handle_proposal`. -/
structure Verified (env : Env) (b : Block) : Prop where
  leader : b.author = env.leader b.round
  signature : env.cr.verify b.signature (b.digest env.cr) b.author = true
  qc : b.qc.eq .genesis = true ∨ b.qc.verify env.cr env.committee = .ok ()
  tc : ∀ tc, b.tc = some tc → tc.verify env.cr env.committee = .ok ()

/-- The blocks that an effect stores, votes for, or commits on account of. -/
def Effect.blocks : Effect → List Block
  | .store b | .vote b => [b]
  | .commit _ b1 b => [b1, b]
  | _ => []

/-- Every block that took effect is verified. -/
def OnlyVerified (env : Env) (s : Core) : Prop := ∀ e ∈ s.log, ∀ b ∈ e.blocks, Verified env b

/-- `LoopBack` messages of the network carry verified blocks, a `TC` message verifies unless the
node makes no block of it, and nobody else stores a block that is not verified. -/
def Clean (env : Env) (s : Core) : Core.Input → Prop
  | .deliver (.loopBack b) => Verified env b
  | .deliver (.tc tc) => env.name = env.leader (nextRound s.round tc.round) →
    env.boycottProposals = true ∨ tc.verify env.cr env.committee = .ok ()
  | .storeWrite _ value => ∀ b, Block.tryFrom env.cr.toCrypto value = .ok b → Verified env b
  | _ => True

/-- Evidence: that the object verifies. -/
def Evidence.verified (env : Env) : Evidence where
  sig d v := env.cr.verify v.2 d v.1 = true
  timeoutSig r v := env.cr.verify v.2.1 (env.cr.sha512 (timeoutPreimage r v.2.2)) v.1 = true
  vote v := env.cr.verify v.signature (v.digest env.cr) v.author = true
  timeout t := env.cr.verify t.signature (t.digest env.cr) t.author = true
  qc qc := qc.eq .genesis = true ∨ qc.verify env.cr env.committee = .ok ()
  tc tc := tc.verify env.cr env.committee = .ok ()
  block b := env.cr.verify b.signature (b.digest env.cr) b.author = true

variable {env : Env} {s : Core} {b : Block}

theorem known_verified : Known env (.verified env) b ↔ Verified env b :=
  ⟨fun h => ⟨h.leader, h.block, h.qc, h.tc⟩, fun h => ⟨h.leader, h.signature, h.qc, h.tc⟩⟩

/-- A certificate with the votes of a quorum, which verify one by one, verifies. -/
theorem verify_qc (hc : env.committee.total < 2 ^ 32)
    (hbatch : ∀ d votes, (∀ v ∈ votes, env.cr.verify v.2 d v.1 = true) →
      env.cr.verifyBatch d votes = true) {qc : QC} {v : Vote} (hhash : qc.hash = v.hash)
    (hround : qc.round = v.round) (hq : Quorate env.committee (qc.votes.map Prod.fst))
    (hvotes : ∀ u ∈ qc.votes, env.cr.verify u.2 (v.digest env.cr) u.1 = true) :
    qc.verify env.cr env.committee = .ok () := by
  have hd : qc.digest env.cr = v.digest env.cr := by
    unfold QC.digest Vote.digest QC.preimage Vote.preimage
    rw [hhash, hround]
  refine (QC.verify_eq_ok hc).mpr ⟨hq, ?_⟩
  rw [hd]
  exact hbatch _ _ hvotes

/-- A certificate assembled from votes that verify one by one verifies. -/
theorem closed_verified (hc : env.committee.total < 2 ^ 32)
    (hbatch : ∀ d votes, (∀ v ∈ votes, env.cr.verify v.2 d v.1 = true) →
      env.cr.verifyBatch d votes = true) : (Evidence.verified env).Closed env where
  genesis := .inl (by decide)
  vote _ h := h
  timeout _ h := h
  qc _ _ _ hhash hround hq hvotes := .inr (verify_qc hc hbatch hhash hround hq hvotes)
  tc _ hq hvotes := (TC.verify_eq_ok hc).mpr ⟨hq, hvotes⟩

theorem effectSigned_verified (hsign : ∀ d, env.cr.verify (env.cr.sign env.name d) d env.name = true)
    (e : Effect) : EffectSigned env (.verified env) e := by
  cases e with
  | propose b =>
    intro ha hs
    show env.cr.verify b.signature (b.digest env.cr) b.author = true
    rw [hs, ha]
    exact hsign _
  | vote b => exact hsign _
  | timeout t =>
    intro ha hs
    show env.cr.verify t.signature (t.digest env.cr) t.author = true
    rw [hs, ha]
    exact hsign _
  | _ => trivial

theorem inputKnown_verified {i : Core.Input} (h : Clean env s i) :
    InputKnown env (.verified env) s.round i := by
  cases i with
  | deliver m =>
    cases m with
    | propose b =>
      intro hl hv
      obtain ⟨-, hsig, hqc, htc⟩ := Block.verify_eq_ok.mp hv
      exact ⟨hl, hsig, hqc, htc⟩
    | vote v => exact fun hv => (Vote.verify_eq_ok.mp hv).2
    | timeout t => exact fun hv => (Timeout.verify_eq_ok.mp hv).2
    | tc tc =>
      intro hl
      apply (h hl).imp id
      intro hv t ht
      cases ht
      exact hv
    | loopBack b => exact known_verified.mpr h
    | syncRequest d sender => trivial
  | storeWrite d v => exact fun b hb => known_verified.mpr (h b hb)
  | _ => trivial

/-! ## A node to run -/

/-- Two authorities, of which the first alone is a quorum. -/
def sampleCommittee : Committee := .new [(keyA, 4), (keyB, 1)]

/-- The first authority leads every round. -/
def sampleEnv (name : PublicKey) : Env := ⟨sampleBatch, sampleCommittee, fun _ => keyA, name, false⟩

/-- **Only verified blocks take effect**, in every run with clean inputs. -/
theorem only_verified (env : Env) (hc : env.committee.total < 2 ^ 32)
    (hsign : ∀ d, env.cr.verify (env.cr.sign env.name d) d env.name = true)
    (hbatch : ∀ d votes, (∀ v ∈ votes, env.cr.verify v.2 d v.1 = true) →
      env.cr.verifyBatch d votes = true)
    (s : Core) (hr : ((Core.machine env).restrict (Clean env)).Reachable s) :
    OnlyVerified env s := by
  have hclosed := closed_verified hc hbatch
  have hsound : Sound env (.verified env) s := by
    refine Machine.invariant ?_ ?_ hr
    · intro s h
      rw [show s = Core.new env from h]
      exact sound_new hclosed
    · intro s i s' h hs
      exact h.step hclosed (inputKnown_verified hs.1) hs.2 fun e _ => effectSigned_verified hsign e
  intro e he b hb
  have hknown := hsound.held.log e he
  cases e with
  | store c => rw [List.mem_singleton.mp hb]; exact known_verified.mp hknown
  | vote c => rw [List.mem_singleton.mp hb]; exact known_verified.mp hknown
  | commit b0 b1 c =>
    rcases List.mem_cons.mp hb with rfl | hb
    · exact known_verified.mp hknown.1
    · rw [List.mem_singleton.mp hb]; exact known_verified.mp hknown.2
  | _ => cases hb

/-- The leader makes two blocks and votes for them. -/
def leaderRun : List Core.Input := [.payload [], .next, .next, .payload [], .next]

/-- The leader of all rounds commits genesis on account of its first two blocks. -/
theorem only_verified_leaderRun : ∃ s : Core,
    (∃ b1 b, .commit .genesis b1 b ∈ s.log) ∧ OnlyVerified (sampleEnv keyA) s := by
  have hrun : ((Machine.exec (Core.step (sampleEnv keyA)) (Core.new (sampleEnv keyA))
      leaderRun).any fun s =>
        s.log.any fun | .commit b0 _ _ => decide (b0 = .genesis) | _ => false) = true := by
    decide +kernel
  rw [Option.any_eq_true] at hrun
  obtain ⟨s, hs, h⟩ := hrun
  obtain ⟨e, he, h⟩ := List.any_eq_true.mp h
  refine ⟨s, ?_, only_verified (sampleEnv keyA) (by decide +kernel) (sampleCrypto_verify_sign keyA)
    sampleBatch_verifyBatch s (Machine.reachable_exec_restrict (fun i hi s => ?_) (.init rfl) hs)⟩
  · cases e with
    | commit b0 b1 b =>
      rw [of_decide_eq_true h] at he
      exact ⟨b1, b, he⟩
    | _ => cases h
  · simp only [leaderRun, List.mem_cons, List.not_mem_nil, or_false] at hi
    rcases hi with rfl | rfl | rfl | rfl | rfl <;> trivial

/-! ## A block that nobody checked -/

/-- A block of the wrong author, with the default signature. -/
def unsignedBlock : Block := ⟨.genesis, none, keyB, 1, [], .default⟩

/-- **A `LoopBack` message of the network makes a core store and vote for an unverified block.** -/
theorem unverified_block_stored :
    ¬ ∀ s, (Core.machine (sampleEnv keyB)).Reachable s → OnlyVerified (sampleEnv keyB) s := by
  intro h
  have hrun : ((Machine.exec (Core.step (sampleEnv keyB)) (Core.new (sampleEnv keyB))
      [.deliver (.loopBack unsignedBlock), .next]).any fun s =>
        decide (.vote unsignedBlock ∈ s.log)) = true := by
    decide +kernel
  rw [Option.any_eq_true] at hrun
  obtain ⟨s, hs, hv⟩ := hrun
  rw [decide_eq_true_eq] at hv
  have hb := h s (Machine.reachable_exec (.init rfl) hs) _ hv unsignedBlock (by simp [Effect.blocks])
  exact absurd hb.leader (by decide)

end AccountabilityGadget.Consensus
