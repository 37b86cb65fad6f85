import AccountabilityGadget.Consensus.Pacemaker
import AccountabilityGadget.Consensus.Verified

/-!
# One block a round

`generate_proposal` runs at boot, and when a certificate moves the core into a round that it leads.
Votes and timeouts of earlier rounds are dropped before they make a certificate; `handle_tc` has no
such check, and proposes even where `advance_round` has returned early.

* `Core.proposedRounds` — the rounds of the blocks that a core has signed.
* `Steady` — a step that takes in no certificate of the last round number, and no message `TC` of an
  earlier round while the core leads its round and has signed its block for it.
* `proposes_once` — a core whose steps are steady signs one block a round at most.
* `stale_tc_equivocates` — with any stale `TC` a leader signs a second block for its round.
-/

set_option autoImplicit false

namespace AccountabilityGadget.Consensus

def Effect.proposedRound? : Effect → Option RoundNumber
  | .propose b => some b.round
  | _ => none

def Core.proposedRounds (s : Core) : List RoundNumber := s.log.filterMap Effect.proposedRound?

/-- What the step takes in is no certificate of the last round number, and no message `TC` of an
earlier round at a leader that has made its block. -/
structure Steady (env : Env) (s : Core) (i : Core.Input) : Prop where
  last : i = .next → s.certificate env ≠ some lastRound
  stale : ∀ tc, i = .next → s.call = .handleTc tc → tc.round < s.round →
    env.name = env.leader s.round → env.boycottProposals = true ∨ s.round ∉ s.proposedRounds

structure ProposesOnce (env : Env) (s : Core) : Prop where
  past : ∀ r ∈ s.proposedRounds, r ≤ s.round
  nodup : s.proposedRounds.Nodup
  /-- A block that is about to be made is the first one of its round. -/
  first : ∀ tc, s.call = .generateProposal tc →
    env.boycottProposals = true ∨ s.round ∉ s.proposedRounds

variable {env : Env} {s s' : Core} {i : Core.Input}

namespace Core

theorem proposedRounds_logged (es : List Effect) :
    (s.logged es).proposedRounds = s.proposedRounds ++ es.filterMap Effect.proposedRound? :=
  List.filterMap_append

/-- Only the call of `generate_proposal` makes blocks. -/
theorem proposedRounds_step (hs : s.step env i = some s')
    (hcall : ∀ tc, s.call ≠ .generateProposal tc) : s'.proposedRounds = s.proposedRounds := by
  obtain ⟨es, hlog, hw⟩ := step_writes hs
  suffices hes : es.filterMap Effect.proposedRound? = [] by
    rw [proposedRounds, hlog, List.filterMap_append, hes, List.append_nil]
    rfl
  cases hw with
  | nothing => rfl
  | send hm => rfl
  | timeout ht => rfl
  | propose hb hc => exact absurd hc (hcall _)
  | process hc ha hcommit hvote =>
    rcases hcommit with rfl | ⟨-, rfl⟩ <;>
      rcases hvote with rfl | ⟨-, -, -, rfl | ⟨m, r, -, rfl⟩⟩ <;> rfl

/-- `generate_proposal` waits for the mempool, gives up, or makes its block. -/
theorem step_generateProposal {tc : Option TC} (hcall : s.call = .generateProposal tc)
    (hs : s.step env i = some s') :
    s'.call = s.call ∧ s'.log = s.log ∧ s'.round = s.round ∨ s' = s.ret (.ok ()) ∨
      ∃ digests, env.boycottProposals = false ∧ s' = s.generateProposal env tc digests := by
  cases i with
  | payloadCancel b => cases hs; exact .inl ⟨rfl, rfl, rfl⟩
  | storeWrite d v => cases hs; exact .inl ⟨rfl, rfl, rfl⟩
  | next =>
    simp only [step, runCall, hcall] at hs
    split at hs <;> cases hs
    exact .inr (.inl rfl)
  | payload digests =>
    simp only [step, hcall] at hs
    split at hs <;> cases hs
    rename_i hboycott
    exact .inr (.inr ⟨digests, Bool.eq_false_iff.mpr hboycott, rfl⟩)
  | _ => simp [step, hcall] at hs

end Core

namespace ProposesOnce

/-- A certificate that is not of an earlier round moves the core to a round without a block. -/
theorem first_of_certificate (h : ProposesOnce env s) {r : RoundNumber} (hr : s.round ≤ r)
    (hlast : r ≠ lastRound) : nextRound s.round r ∉ s.proposedRounds := by
  intro hmem
  have hlt : r < nextRound s.round r := (nextRound_lt (nextRound_ne_zero hlast)).2
  exact absurd ((h.past _ hmem).trans hr) (not_le.mpr hlt)

/-- A call that starts `generate_proposal` has moved the core, or the round is still without a
block. -/
theorem first_step (h : ProposesOnce env s) (hi : Steady env s i) (hs : s.step env i = some s')
    (hcall : ∀ tc, s.call ≠ .generateProposal tc) {tc : Option TC}
    (hcall' : s'.call = .generateProposal tc) :
    env.boycottProposals = true ∨ s'.round ∉ s.proposedRounds := by
  have hmoved : ∀ {r}, i = .next → s.certificate env = some r → s.round ≤ r →
      s'.round = nextRound s.round r → s'.round ∉ s.proposedRounds := by
    intro r hnext hc hr hround
    rw [hround]
    exact h.first_of_certificate hr fun hl => hi.last hnext (hl ▸ hc)
  cases Core.step_starts hs hcall' with
  | before hc => exact absurd hc (hcall _)
  | assembleQc hnext hc hle hv hqc hp =>
    have hcert := Core.certificate_handleVote hc hle hv hqc
    obtain ⟨votes, -, rfl⟩ := Aggregator.addVote_eq_some hqc
    exact .inr (hmoved hnext hcert hle (hp.round.trans (Core.round_processQc _)))
  | assembleTc hnext hc hle hv htc hp =>
    have hcert := Core.certificate_handleTimeout hc hle hv htc
    obtain ⟨votes, -, rfl⟩ := Aggregator.addTimeout_eq_some htc
    exact .inr (hmoved hnext hcert hle (hp.round.trans (Core.round_advanceRound _)))
  | @receiveTc tc' hnext hc hp hleader =>
    have hround : s'.round = nextRound s.round tc'.round :=
      hp.round.trans (Core.round_advanceRound _)
    by_cases hle : s.round ≤ tc'.round
    · exact .inr (hmoved hnext (Core.certificate_handleTc hc) hle hround)
    · -- `advance_round` has returned early
      rw [nextRound, if_pos (not_le.mp hle)] at hround
      rw [hround] at hleader ⊢
      exact hi.stale tc' hnext hc (not_le.mp hle) hleader

/-- **Step lemma.** -/
theorem step (h : ProposesOnce env s) (hi : Steady env s i) (hs : s.step env i = some s') :
    ProposesOnce env s' := by
  by_cases hcall : ∃ tc, s.call = .generateProposal tc
  · obtain ⟨tc, hcall⟩ := hcall
    rcases Core.step_generateProposal hcall hs with ⟨hc, hlog, hr⟩ | rfl | ⟨digests, hboycott, rfl⟩
    · have hsame : s'.proposedRounds = s.proposedRounds := by rw [Core.proposedRounds, hlog]; rfl
      refine ⟨?_, by rw [hsame]; exact h.nodup, ?_⟩
      · rw [hsame, hr]
        exact h.past
      · rw [hc, hsame, hr]
        exact h.first
    · exact ⟨h.past, h.nodup, fun tc hc => by cases hc⟩
    · have hfirst : s.round ∉ s.proposedRounds :=
        (h.first tc hcall).resolve_left (by rw [hboycott]; exact Bool.false_ne_true)
      have hmade : (s.generateProposal env tc digests).proposedRounds =
          s.proposedRounds ++ [s.round] := Core.proposedRounds_logged _
      refine ⟨?_, ?_, fun tc hc => by cases hc⟩
      · intro r hr
        rw [hmade] at hr
        rcases List.mem_append.mp hr with hr | hr
        · exact h.past r hr
        · rw [List.mem_singleton.mp hr]
          exact le_refl _
      · rw [hmade, ← List.concat_eq_append]
        exact h.nodup.concat hfirst
  · have hcall : ∀ tc, s.call ≠ .generateProposal tc := fun tc hc => hcall ⟨tc, hc⟩
    have hsame := Core.proposedRounds_step hs hcall
    refine ⟨?_, by rw [hsame]; exact h.nodup, ?_⟩
    · rw [hsame]
      exact fun r hr => (h.past r hr).trans (Core.round_le_step hi.last hs)
    · intro tc hc
      rw [hsame]
      exact h.first_step hi hs hcall hc

end ProposesOnce

theorem proposesOnce_new : ProposesOnce env (Core.new env) where
  past r hr := by cases hr
  nodup := List.nodup_nil
  first tc _ := .inr (by simp [Core.proposedRounds, Core.new])

/-- **An honest leader signs one block a round at most**, in every run of steady steps. -/
theorem proposes_once (env : Env) (s : Core)
    (hr : ((Core.machine env).restrict (Steady env)).Reachable s) : s.proposedRounds.Nodup := by
  have h : ProposesOnce env s := by
    refine Machine.invariant ?_ ?_ hr
    · intro s h0
      rw [show s = Core.new env from h0]
      exact proposesOnce_new
    · intro s i s' h hs
      exact h.step hs.1 hs.2
  exact h.nodup

/-! ## A leader that hands its votes on -/

/-- The second authority leads the second round, the first one leads the others. -/
def relayEnv : Env := { sampleEnv keyA with leader := fun r => if r = 2 then keyB else keyA }

/-- `Steady`, as a check. -/
def steadyCheck (env : Env) (s : Core) (i : Core.Input) : Bool :=
  i ≠ .next || (s.certificate env ≠ some lastRound && match s.call with
    | .handleTc tc => !(tc.round < s.round && env.name = env.leader s.round) ||
        env.boycottProposals || !s.proposedRounds.contains s.round
    | _ => true)

theorem steady_of_check (h : steadyCheck env s i = true) : Steady env s i := by
  unfold steadyCheck at h
  constructor
  · rintro rfl
    simp only [ne_eq, not_true_eq_false, decide_false, Bool.false_or, Bool.and_eq_true,
      decide_eq_true_eq] at h
    exact h.1
  · rintro tc rfl hc hlt hl
    simp only [hc, ne_eq, not_true_eq_false, decide_false, Bool.false_or, Bool.and_eq_true,
      decide_eq_true_eq, hlt, hl, Bool.not_eq_true', Bool.or_eq_true, decide_true, Bool.true_and,
      Bool.not_true] at h
    exact h.2.imp id fun h hmem => by simp [hmem] at h

/-- The leader makes the block of round 1, and that of round 3 on a certificate of round 2. -/
theorem proposes_once_relay : ∃ s : Core, s.proposedRounds = [1, 3] ∧ s.proposedRounds.Nodup := by
  have hrun : ((Machine.execIf (steadyCheck relayEnv) (Core.step relayEnv) (Core.new relayEnv)
      [.payload [], .next, .deliver (.tc ⟨2, []⟩), .next, .payload []]).any fun s =>
        decide (s.proposedRounds = [1, 3])) = true := by
    decide +kernel
  rw [Option.any_eq_true] at hrun
  obtain ⟨s, hs, h⟩ := hrun
  exact ⟨s, of_decide_eq_true h, proposes_once relayEnv s
    (Machine.reachable_execIf (fun _ _ => steady_of_check) (.init rfl) hs)⟩

/-- **A stale `TC` makes a leader sign two blocks for one round.** -/
theorem stale_tc_equivocates :
    ¬ ∀ (env : Env) (s : Core), (Core.machine env).Reachable s → s.proposedRounds.Nodup := by
  intro h
  have hrun : ((Machine.exec (Core.step relayEnv) (Core.new relayEnv)
      [.payload [], .next, .deliver (.tc ⟨0, []⟩), .next, .payload [.default]]).any fun s =>
        decide (s.proposedRounds = [1, 1])) = true := by
    decide +kernel
  rw [Option.any_eq_true] at hrun
  obtain ⟨s, hs, htwice⟩ := hrun
  have hnodup := h relayEnv s (Machine.reachable_exec (.init rfl) hs)
  rw [of_decide_eq_true htwice] at hnodup
  exact absurd hnodup (by decide)

end AccountabilityGadget.Consensus
