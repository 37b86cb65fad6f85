import AccountabilityGadget.Consensus.Chain
import AccountabilityGadget.Consensus.Pacemaker
import AccountabilityGadget.Lib.History

/-!
# The ancestors of stored blocks

`process_block` stores a block only on top of its parent, and takes it for granted that the parent
has its parent there too.  Two blocks with one digest may differ in the round of their certificate,
by which the block of genesis is told from others, and each of them may replace the other.

* `Core.booting_step` — only the leader of the first round boots, and only once.
* `Core.Stops`, `Core.step_stopped` — all ways to stop.
* `Grounded` — what was there when a block was stored; `Rooted` — every stored block was on the log
  of stored blocks, and those are grounded in it.
* `Rooted.step` — kept by every step, as long as others write neither blocks nor over blocks.
-/

set_option autoImplicit false

namespace AccountabilityGadget.Consensus

open Encoding

variable {env : Env} {s s' : Core} {b b0 b1 : Block} {p : Panic}

namespace Core

/-! ## The boot phase -/

/-- Only the return of a call ends the boot phase, and nothing starts it. -/
theorem booting_ret {r : ConsensusResult Unit} (h : (s.ret r).booting = true) :
    s.booting = true := by
  cases r with
  | ok u => cases h
  | error e =>
    dsimp only [ret] at h
    split at h
    · assumption
    · exact h

theorem booting_transmit {m : ConsensusMessage} {receiver : Option PublicKey}
    (h : s.transmit env m receiver = .ok s') : s'.booting = s.booting := by
  unfold transmit at h
  split at h
  · cases h
    rfl
  · split at h <;> cases h
    rfl

@[simp] theorem booting_advanceRound (r : RoundNumber) :
    (s.advanceRound r).booting = s.booting := by
  unfold advanceRound
  split <;> rfl

@[simp] theorem booting_processQc (qc : QC) : (s.processQc qc).booting = s.booting := by
  unfold processQc updateHighQc
  split <;> simp

@[simp] theorem booting_commitHead (b0 b1 b : Block) :
    (s.commitHead b0 b1 b).booting = s.booting := by
  unfold commitHead
  split <;> rfl

@[simp] theorem booting_wait (b : Block) : (s.wait env b).booting = s.booting := by
  unfold wait
  split <;> rfl

theorem booting_proposeIfLeader {tc : Option TC} (h : (s.proposeIfLeader env tc).booting = true) :
    s.booting = true := by
  unfold proposeIfLeader at h
  split at h
  · exact h
  · exact booting_ret h

theorem booting_voteFor (h : (s.voteFor env b).booting = true) : s.booting = true := by
  unfold voteFor at h
  cases hm : s.makeVote env b with
  | error q =>
    rw [hm] at h
    exact h
  | ok r =>
    rw [hm] at h
    rcases makeVote_cases hm with rfl | ⟨-, -, rfl⟩
    · exact booting_ret h
    · dsimp only at h
      split at h
      · exact h
      · split at h
        · have hb := booting_ret h
          exact hb
        · rename_i ht
          have hb := booting_ret h
          rw [booting_transmit ht] at hb
          exact hb

theorem booting_processBlock (h : (s.processBlock env b).booting = true) : s.booting = true := by
  unfold processBlock at h
  split at h
  · exact booting_ret h
  · exact h
  · exact (booting_wait b).symm.trans (booting_ret h)
  · rename_i b0 b1 _
    have hb : (((s.storeBlock env b).commitHead b0 b1 b).logged
        [.cleanup (b0.payload ++ b1.payload ++ b.payload) b.round]).booting = true := by
      unfold processDelivered at h
      dsimp only at h
      split at h
      · exact booting_ret h
      · exact booting_voteFor h
    change ((s.storeBlock env b).commitHead b0 b1 b).booting = true at hb
    rw [booting_commitHead] at hb
    exact hb

theorem booting_handleVote {v : Vote} (h : (s.handleVote env v).booting = true) :
    s.booting = true := by
  unfold handleVote at h
  split at h
  · exact booting_ret h
  · split at h
    · exact booting_ret h
    · split at h
      · have hb := booting_ret h
        exact hb
      · have hb := booting_ret h
        exact hb
      · have hb := booting_proposeIfLeader h
        rw [booting_processQc] at hb
        exact hb

theorem booting_handleTimeout {t : Timeout} (h : (s.handleTimeout env t).booting = true) :
    s.booting = true := by
  unfold handleTimeout at h
  split at h
  · exact booting_ret h
  · split at h
    · exact booting_ret h
    · split at h
      · have hb := booting_ret h
        exact hb
      · have hb := booting_ret h
        exact hb
      · have hb := booting_proposeIfLeader h
        rw [booting_advanceRound] at hb
        exact hb

theorem booting_runCall (hs : s.Runs env s') (h : s'.booting = true) : s.booting = true := by
  cases hs with
  | handleProposal =>
    unfold handleProposal at h
    split at h
    · exact booting_ret h
    · split at h
      · exact booting_ret h
      · exact (booting_processQc _).symm.trans h
  | processTc =>
    unfold processTc at h
    split at h
    · exact h
    · exact (booting_advanceRound _).symm.trans h
  | processBlock => exact booting_processBlock h
  | handleVote => exact booting_handleVote h
  | handleTimeout => exact booting_handleTimeout h
  | @handleTc tc => exact (booting_advanceRound tc.round).symm.trans (booting_proposeIfLeader h)
  | boycott => exact booting_ret h

/-- **A core past the boot phase never boots again.** -/
theorem booting_step {i : Input} (hs : s.step env i = some s') (h : s'.booting = true) :
    s.booting = true := by
  cases step_takes hs with
  | @deliver m =>
    cases m with
    | syncRequest d sender =>
      generalize hu : s.receive env (.syncRequest d sender) = u at h
      cases handleSyncRequest_serves hu with
      | ret => exact booting_ret h
      | panic => exact h
      | send _ ht => cases h
    | _ => exact h
  | next hrun => exact booting_runCall hrun h
  | @status b st =>
    cases st with
    | accept => exact h
    | reject => exact booting_ret (r := .error .invalidPayload) h
    | wait => cases h
  | _ => exact h

/-! ## Panics -/

/-- The ways in which a step stops. -/
inductive Stops (env : Env) (s : Core) (i : Input) : Panic → Prop where
  | boot : s.booting = true → Stops env s i (.expect "Failed to send the first block")
  | resume : i = .pause false → Stops env s i (.expect "Failed to wait for trigger to resume!")
  /-- The decoder panics on what is stored. -/
  | request {d : Digest} {sender : PublicKey} {p : Panic} : i = .deliver (.syncRequest d sender) →
      s.store d = some (.error (.panic p)) → Stops env s i p
  | ancestors {b : Block} {p : Panic} : i = .next → s.call = .processBlock b →
      s.getAncestors b = .error (.panic p) → Stops env s i p
  | vote {b : Block} {p : Panic} : i = .next → s.call = .processBlock b → b.round = s.round →
      safetyRule2 b = .error p → Stops env s i p

/-- `make_vote` stops at a timeout certificate without votes. -/
theorem safetyRule2_error (h : safetyRule2 b = .error p) :
    p = .expect "Empty TC" ∧ ∃ tc, b.tc = some tc ∧ tc.votes = [] := by
  unfold safetyRule2 at h
  split at h
  · cases h
  · rename_i tc htc
    split at h
    · rename_i hmax
      cases h
      refine ⟨rfl, tc, htc, ?_⟩
      simpa [TC.highQcRounds] using List.max?_eq_none_iff.mp hmax
    · cases h

/-- What the return of a call stops with. -/
def BootPanic (s : Core) (p : Panic) : Prop :=
  s.booting = true ∧ p = .expect "Failed to send the first block"

theorem BootPanic.stops (h : s.BootPanic p) (i : Input) : Stops env s i p := by
  obtain ⟨hb, rfl⟩ := h
  exact .boot hb

theorem stopped_ret {r : ConsensusResult Unit} (h : (s.ret r).call = .stopped p) :
    s.BootPanic p := by
  cases r with
  | ok u => cases h
  | error e =>
    dsimp only [ret] at h
    split at h <;> cases h
    exact ⟨‹_›, rfl⟩

theorem not_stopped_proposeIfLeader (tc : Option TC) :
    (s.proposeIfLeader env tc).call ≠ .stopped p := by
  unfold proposeIfLeader
  split <;> exact fun h => by cases h

theorem stopped_voteFor (h : (s.voteFor env b).call = .stopped p) :
    s.BootPanic p ∨ safetyRule2 b = .error p := by
  unfold voteFor at h
  cases hm : s.makeVote env b with
  | error q =>
    rw [hm] at h
    cases h
    unfold makeVote at hm
    split at hm
    · rename_i hrule
      cases hm
      exact .inr hrule
    · split at hm <;> cases hm
  | ok r =>
    rw [hm] at h
    rcases makeVote_cases hm with rfl | ⟨-, -, rfl⟩
    · exact .inl (stopped_ret h)
    · dsimp only at h
      split at h
      · cases h
      · split at h
        · have hb := stopped_ret h
          exact .inl hb
        · rename_i ht
          refine .inl ((stopped_ret h).imp_left fun hb => ?_)
          rw [booting_transmit ht] at hb
          exact hb

theorem stopped_processBlock (hcall : s.call = .processBlock b)
    (h : (s.processBlock env b).call = .stopped p) : Stops env s .next p := by
  unfold processBlock at h
  split at h
  · exact (stopped_ret h).stops _
  · rename_i q ha
    cases h
    exact .ancestors rfl hcall ha
  · have hboot := stopped_ret h
    unfold BootPanic at hboot
    rw [booting_wait] at hboot
    exact BootPanic.stops hboot _
  · rename_i c0 c1 _
    unfold processDelivered at h
    dsimp only at h
    have hround : ((s.storeBlock env b).commitHead c0 c1 b).round = s.round := by
      unfold commitHead
      split <;> rfl
    -- neither storing nor committing a block ends the boot phase
    have hboot : ∀ {q}, (((s.storeBlock env b).commitHead c0 c1 b).logged
        [.cleanup (c0.payload ++ c1.payload ++ b.payload) b.round]).BootPanic q →
          Stops env s .next q := by
      rintro q ⟨hb, hq⟩
      have hs := (booting_commitHead c0 c1 b).symm.trans hb
      exact BootPanic.stops (s := s) ⟨hs, hq⟩ _
    split_ifs at h with hr
    · exact hboot (stopped_ret h)
    · rcases stopped_voteFor h with hp | hp
      · exact hboot hp
      · exact .vote rfl hcall ((not_not.mp hr).trans hround) hp

theorem stopped_handleProposal (h : (s.handleProposal env b).call = .stopped p) :
    s.BootPanic p := by
  unfold handleProposal at h
  split at h
  · exact stopped_ret h
  · split at h
    · exact stopped_ret h
    · cases h

theorem stopped_handleVote {v : Vote} (h : (s.handleVote env v).call = .stopped p) :
    s.BootPanic p := by
  unfold handleVote at h
  split at h
  · exact stopped_ret h
  · split at h
    · exact stopped_ret h
    · split at h
      · have hb := stopped_ret h
        exact hb
      · have hb := stopped_ret h
        exact hb
      · exact absurd h (not_stopped_proposeIfLeader _)

theorem stopped_handleTimeout {t : Timeout} (h : (s.handleTimeout env t).call = .stopped p) :
    s.BootPanic p := by
  unfold handleTimeout at h
  split at h
  · exact stopped_ret h
  · split at h
    · exact stopped_ret h
    · split at h
      · have hb := stopped_ret h
        exact hb
      · have hb := stopped_ret h
        exact hb
      · exact absurd h (not_stopped_proposeIfLeader _)

theorem stopped_runCall (hs : s.Runs env s') (hp : s'.call = .stopped p) : Stops env s .next p := by
  cases hs with
  | handleProposal => exact (stopped_handleProposal hp).stops _
  | processTc =>
    unfold processTc at hp
    split at hp <;> cases hp
  | processBlock hcall => exact stopped_processBlock hcall hp
  | handleVote => exact (stopped_handleVote hp).stops _
  | handleTimeout => exact (stopped_handleTimeout hp).stops _
  | handleTc => exact absurd hp (not_stopped_proposeIfLeader _)
  | boycott => exact (stopped_ret hp).stops _

/-- **A step that stops does so in one of these ways.** -/
theorem step_stopped {i : Input} (hs : s.step env i = some s') (hp : s'.call = .stopped p) :
    s.call = .stopped p ∨ Stops env s i p := by
  cases step_takes hs with
  | @deliver m =>
    cases m with
    | syncRequest d sender =>
      generalize hu : s.receive env (.syncRequest d sender) = u at hp
      cases handleSyncRequest_serves hu with
      | ret => exact .inr ((stopped_ret hp).stops _)
      | panic hstore =>
        cases hp
        exact .inr (.request rfl hstore)
      | send _ ht => cases hp
    | _ => cases hp
  | loopBack | payloadReady | timer | payload => cases hp
  | payloadCancel | resume | storeWrite => exact .inl hp
  | abandon =>
    cases hp
    exact .inr (.resume rfl)
  | next hrun => exact .inr (stopped_runCall hrun hp)
  | @status b st =>
    cases st with
    | accept => cases hp
    | reject => exact .inr ((stopped_ret (r := .error .invalidPayload) hp).stops _)
    | wait => cases hp

theorem getParentBlock_panic (h : s.getParentBlock b = .error (.panic p)) :
    s.store b.parent = some (.error (.panic p)) := by
  unfold getParentBlock at h
  split at h
  · cases h
  · split at h
    · rename_i value hvalue
      cases hd : deserialized value with
      | ok c =>
        rw [hd] at h
        cases h
      | error e =>
        rw [hd] at h
        cases h
        rw [hvalue, deserialized_eq_panic.mp hd]
    · cases h

/-- The decoder panics on one of the ancestors, or the parent is there without its own parent. -/
theorem getAncestors_panic (h : s.getAncestors b = .error (.panic p)) :
    s.getParentBlock b = .error (.panic p) ∨ ∃ b1, s.getParentBlock b = .ok (some b1) ∧
      (s.getParentBlock b1 = .error (.panic p) ∨ s.getParentBlock b1 = .ok none) := by
  unfold getAncestors at h
  split at h
  · rename_i he
    cases h
    exact .inl he
  · cases h
  · rename_i b1 hb1
    split at h
    · rename_i he
      cases h
      exact .inr ⟨b1, hb1, .inl he⟩
    · rename_i hb0
      exact .inr ⟨b1, hb1, .inr hb0⟩
    · cases h

/-- With the certificate of genesis, nothing is read. -/
theorem getAncestors_genesis (h : b.qc.eq .genesis = true) :
    s.getAncestors b = .ok (some (.genesis, .genesis)) := by
  have h1 : s.getParentBlock b = .ok (some .genesis) := if_pos h
  have h0 : s.getParentBlock .genesis = .ok (some .genesis) := if_pos (by decide)
  unfold getAncestors
  rw [h1]
  simp only [h0]

end Core

/-! ## Closure under parents -/

/-- A block is stored on top of genesis, or on top of a block stored before. -/
def Grounded (env : Env) (pre : List Effect) (e : Effect) : Prop :=
  ∀ b, e = .store b → b.qc.eq .genesis = true ∨ ∃ c, .store c ∈ pre ∧ c.digest env.cr = b.qc.hash

structure Rooted (env : Env) (s : Core) : Prop where
  keyed : ∀ d b, s.store d = some (.ok b) → b.digest env.cr = d ∧ .store b ∈ s.log
  kept : ∀ b, .store b ∈ s.log → ∃ c, s.store (b.digest env.cr) = some (.ok c)
  grounded : AccountabilityGadget.Justified (Grounded env) s.log
  committed : ∀ b0 b1 b, .commit b0 b1 b ∈ s.log → b0 = .genesis ∨ .store b0 ∈ s.log
  faults : ∀ d p, s.store d = some (.error (.panic p)) → p = .slice

/-- Other users of the store write no blocks, and not under the key of a stored block. -/
def OwnBlocks (env : Env) (s : Core) : Core.Input → Prop
  | .storeWrite d value =>
    (∀ b, Block.tryFrom env.cr.toCrypto value ≠ .ok b) ∧ ∀ b, s.store d ≠ some (.ok b)
  | _ => True

namespace Rooted

/-- **A stored block has the certificate of genesis, or its parent is stored.** -/
theorem parent (h : Rooted env s) (hb : .store b ∈ s.log) :
    b.qc.eq .genesis = true ∨
      ∃ c, s.store b.qc.hash = some (.ok c) ∧ c.digest env.cr = b.qc.hash := by
  obtain ⟨pre, post, hlog⟩ := List.append_of_mem hb
  apply (h.grounded pre _ post hlog b rfl).imp id
  rintro ⟨c, hc, hd⟩
  have hmem : .store c ∈ s.log := by
    rw [hlog]
    exact List.mem_append_left _ hc
  obtain ⟨c', hc'⟩ := h.kept c hmem
  rw [hd] at hc'
  exact ⟨c', hc', (h.keyed _ _ hc').1⟩

/-- The parent of a delivered block is read. -/
theorem getParentBlock (h : Rooted env s) (hb : .store b ∈ s.log) :
    ∃ c, s.getParentBlock b = .ok (some c) := by
  unfold Core.getParentBlock
  rcases h.parent hb with hg | ⟨c, hc, -⟩
  · exact ⟨_, if_pos hg⟩
  · split
    · exact ⟨_, rfl⟩
    · rw [Block.parent, hc]
      exact ⟨c, rfl⟩

/-- **The ancestors of delivered blocks are there**: only the decoder can panic, on a value that is
no block and has the digest of the parent. -/
theorem getAncestors (h : Rooted env s) (ha : s.getAncestors b = .error (.panic p)) :
    s.store b.parent = some (.error (.panic p)) := by
  rcases Core.getAncestors_panic ha with hp | ⟨b1, hb1, hb0⟩
  · exact Core.getParentBlock_panic hp
  · have hread : ∃ c, s.getParentBlock b1 = .ok (some c) := by
      rcases Core.getParentBlock_some hb1 with ⟨-, rfl⟩ | ⟨-, hstore⟩
      · exact ⟨_, rfl⟩
      · exact h.getParentBlock (h.keyed _ _ hstore).2
    obtain ⟨c, hc⟩ := hread
    rw [hc] at hb0
    rcases hb0 with hb0 | hb0 <;> cases hb0

theorem getAncestors_ne (h : Rooted env s) : s.getAncestors b ≠
    .error (.panic (.expect "We should have all ancestors of delivered blocks")) := by
  intro ha
  cases h.faults _ _ (h.getAncestors ha)

/-- So the core does not stop for want of an ancestor. -/
theorem not_stopped (h : Rooted env s) {i : Core.Input} (hs : s.step env i = some s')
    (hcall : s.call ≠ .stopped (.expect "We should have all ancestors of delivered blocks")) :
    s'.call ≠ .stopped (.expect "We should have all ancestors of delivered blocks") := by
  intro hstop
  generalize hp : Panic.expect "We should have all ancestors of delivered blocks" = p at *
  cases (Core.step_stopped hs hstop).resolve_left hcall with
  | boot | resume => simp at hp
  | request _ hstore =>
    cases h.faults _ _ hstore
    cases hp
  | ancestors _ _ ha =>
    subst hp
    exact h.getAncestors_ne ha
  | vote _ _ _ hrule =>
    obtain ⟨rfl, -⟩ := Core.safetyRule2_error hrule
    simp at hp

/-- Neither a stored nor a committed block is new. -/
theorem same (h : Rooted env s) (hstore : s'.store = s.store) {es : List Effect}
    (hlog : s'.log = s.log ++ es) (hes : ∀ e ∈ es, e.Quiet) : Rooted env s' := by
  have hold : ∀ e, ¬ e.Quiet → e ∈ s'.log → e ∈ s.log := by
    intro e hne he
    rw [hlog] at he
    exact (List.mem_append.mp he).resolve_right fun he => hne (hes e he)
  have hsub : s.log ⊆ s'.log := by rw [hlog]; exact List.subset_append_left _ _
  refine ⟨?_, ?_, ?_, ?_, ?_⟩
  · intro d b hb
    rw [hstore] at hb
    exact (h.keyed d b hb).imp id fun hmem => hsub hmem
  · intro b hb
    rw [hstore]
    exact h.kept b (hold _ id hb)
  · rw [hlog]
    apply h.grounded.append
    rintro pre e post hsplit b rfl
    have hmem : .store b ∈ es := by simp [hsplit]
    exact (hes _ hmem).elim
  · intro b0 b1 b hc
    exact (h.committed b0 b1 b (hold _ id hc)).imp id fun hmem => hsub hmem
  · rw [hstore]
    exact h.faults

/-- Somebody else writes to the store. -/
theorem storeWrite (h : Rooted env s) {d : Digest} {value : Bytes}
    (hvalue : ∀ b, Block.tryFrom env.cr.toCrypto value ≠ .ok b)
    (hd : ∀ b, s.store d ≠ some (.ok b)) : Rooted env
      { s with store := Function.update s.store d (some (Block.tryFrom env.cr.toCrypto value)) } := by
  refine { h with keyed := ?_, kept := ?_, faults := ?_ }
  · intro k b hb
    dsimp only at hb
    by_cases hk : k = d
    · rw [hk, Function.update_self, Option.some.injEq] at hb
      exact absurd hb (hvalue b)
    · rw [Function.update_of_ne hk] at hb
      exact h.keyed k b hb
  · intro b hb
    obtain ⟨c, hc⟩ := h.kept b hb
    refine ⟨c, ?_⟩
    dsimp only
    rw [Function.update_of_ne, hc]
    rintro rfl
    exact hd c hc
  · intro k p hp
    dsimp only at hp
    by_cases hk : k = d
    · rw [hk, Function.update_self, Option.some.injEq] at hp
      exact Block.tryFrom_panic hp
    · rw [Function.update_of_ne hk] at hp
      exact h.faults k p hp

/-- A block is processed. -/
theorem processed (h : Rooted env s) (ha : s.getAncestors b = .ok (some (b0, b1)))
    (hp : Core.Processed env s b0 b1 b s') : Rooted env s' := by
  obtain ⟨hstore, es, hlog, hes⟩ := hp
  obtain ⟨h1, h0⟩ := Core.getAncestors_some ha
  have hsub : s.log ⊆ s'.log := by rw [hlog]; exact List.subset_append_left _ _
  have hmem : .store b ∈ s'.log := by rw [hlog]; simp
  have hnew : ∀ e ∈ es, ∀ c, e ≠ .store c := by
    rintro e he c rfl
    rcases hes _ he with hq | hq | ⟨hq, -⟩
    · exact hq
    · cases hq
    · cases hq
  have hold : ∀ c, .store c ∈ s'.log → .store c ∈ s.log ∨ c = b := by
    intro c hc
    rw [hlog] at hc
    rcases List.mem_append.mp hc with hc | hc
    · exact .inl hc
    · rcases List.mem_cons.mp hc with hc | hc
      · cases hc
        exact .inr rfl
      · exact absurd rfl (hnew _ hc c)
  refine ⟨?_, ?_, ?_, ?_, ?_⟩
  · intro d c hc
    rw [hstore] at hc
    by_cases hd : d = b.digest env.cr
    · rw [hd, Function.update_self] at hc
      cases hc
      exact ⟨hd.symm, hmem⟩
    · rw [Function.update_of_ne hd] at hc
      exact (h.keyed d c hc).imp id fun hl => hsub hl
  · intro c hc
    rw [hstore]
    by_cases hd : c.digest env.cr = b.digest env.cr
    · exact ⟨b, by rw [hd, Function.update_self]⟩
    · rw [Function.update_of_ne hd]
      rcases hold c hc with hc | rfl
      · exact h.kept c hc
      · exact absurd rfl hd
  · rw [hlog]
    apply h.grounded.append
    rintro pre e post hsplit c rfl
    rcases List.cons_eq_append_iff.mp hsplit with ⟨rfl, hpost⟩ | ⟨pre', rfl, hpost⟩
    · cases hpost
      apply (Core.getParentBlock_some h1).imp And.left
      rintro ⟨-, hparent⟩
      obtain ⟨hd, hl⟩ := h.keyed _ _ hparent
      exact ⟨b1, List.mem_append_left _ hl, hd⟩
    · exact absurd rfl (hnew _ (by rw [hpost]; simp) c)
  · intro c0 c1 c hc
    rw [hlog] at hc
    rcases List.mem_append.mp hc with hc | hc
    · exact (h.committed c0 c1 c hc).imp id fun hl => hsub hl
    · rcases List.mem_cons.mp hc with hc | hc
      · cases hc
      · rcases hes _ hc with hq | hq | ⟨hq, -⟩
        · exact hq.elim
        · cases hq
        · cases hq
          apply (Core.getParentBlock_some h0).imp And.right
          rintro ⟨-, hparent⟩
          exact hsub (h.keyed _ _ hparent).2
  · intro d p hp
    rw [hstore] at hp
    by_cases hd : d = b.digest env.cr
    · rw [hd, Function.update_self] at hp
      cases hp
    · rw [Function.update_of_ne hd] at hp
      exact h.faults d p hp

/-- **Step lemma.** -/
theorem step (h : Rooted env s) {i : Core.Input} (hi : OwnBlocks env s i)
    (hs : s.step env i = some s') : Rooted env s' := by
  rcases Core.step_cases hs with ⟨hstore, es, hlog, hes⟩ | ⟨d, v, rfl, -⟩ | ⟨b, b0, b1, -, ha, hp⟩
  · exact h.same hstore hlog hes
  · cases hs
    exact h.storeWrite hi.1 hi.2
  · exact h.processed ha hp

end Rooted

theorem rooted_new : Rooted env (Core.new env) where
  keyed d b hb := by cases hb
  kept b hb := by cases hb
  grounded := justified_nil
  committed b0 b1 b hc := by cases hc
  faults d p hp := by cases hp

end AccountabilityGadget.Consensus
