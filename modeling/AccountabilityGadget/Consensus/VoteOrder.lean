import AccountabilityGadget.Consensus.Agreement
import AccountabilityGadget.Consensus.Pacemaker

/-!
# Votes and timeouts in the order of the log

Timeouts carry no certificate, only the round of the highest one.  They report the truth about the
votes of an honest core: the log keeps votes and timeouts in an order in which each of them agrees
with all those before.

* `Effect.Before` — what an entry of the log requires of the later ones.
* `Core.writes_inOrder` — the step lemma: what a step of an orderly core appends is in order.
* `signs_in_order` — every log is in order, every timeout is above the certificate that it reports,
  and every vote is for the current round, above the highest certificate.
-/

set_option autoImplicit false

namespace AccountabilityGadget.Consensus

open Network (block1 block2)

/-- What an entry requires of a later one: votes are for later rounds than the votes and timeouts
before, and timeouts report the certificates of the votes before. -/
def Effect.Before : Effect → Effect → Prop
  | .vote c, .vote b => c.round < b.round
  | .timeout t, .vote b => t.round < b.round
  | .vote c, .timeout t => c.qc.round ≤ t.highQcRound
  | _, _ => True

/-- The network sends no `LoopBack` message. -/
def OwnLoopBack (_ : Core) (i : Core.Input) : Prop := ∀ b, i ≠ .deliver (.loopBack b)

/-- The runs whose rounds do not overflow, without `LoopBack` messages of the network. -/
def Core.ownRuns (env : Env) : Machine Core Core.Input :=
  ((Core.machine env).within (·.round ≠ 0)).restrict OwnLoopBack

/-- The effects that the step appends to the log. -/
def Core.Appends (s s' : Core) (es : List Effect) : Prop := s'.log = s.log ++ es

structure SignsInOrder (env : Env) (s : Core) : Prop where
  order : s.log.Pairwise Effect.Before
  timeout : ∀ t, .timeout t ∈ s.log → t.highQcRound < t.round
  /-- What the next step votes for. -/
  vote : ∀ i s' es b, s.step env i = some s' → s.Appends s' es → .vote b ∈ es →
    b.qc.round ≤ s.highQc.round ∧ s.highQc.round < b.round ∧ b.round = s.round

/-- Every block may be voted for, as far as timeout certificates are concerned. -/
def anyTc (_ : TC) : Prop := True

variable {env : Env} {s s' : Core} {b : Block} {t : Timeout} {es : List Effect}

theorem mem_votes (h : .vote b ∈ s.log) : b ∈ s.view.votes := List.mem_filterMap.mpr ⟨_, h, rfl⟩

theorem mem_timeouts (h : .timeout t ∈ s.log) : t ∈ s.view.timeouts :=
  List.mem_filterMap.mpr ⟨_, h, rfl⟩

namespace Core.Writes

/-- A vote is for the block of the pending call and for the current round. -/
theorem of_vote (hw : Writes env s es) (hb : .vote b ∈ es) :
    s.call = .processBlock b ∧ b.round = s.round ∧ s.lastVotedRound < b.round := by
  cases hw with
  | nothing => simp at hb
  | send hm => simp at hb
  | timeout ht => simp at hb
  | propose hp hc hb' => simp at hb
  | @process b0 b1 b' cs vs hc ha hcommit hvote =>
    have hvs : .vote b ∈ vs := by
      rcases hcommit with rfl | ⟨-, rfl⟩ <;> simpa using hb
    rcases hvote with rfl | ⟨hr, hlast, -, hvs'⟩
    · cases hvs
    · obtain rfl : b = b' := by
        rcases hvs' with rfl | ⟨m, r, -, rfl⟩ <;> simpa using hvs
      exact ⟨hc, hr, hlast⟩

theorem of_timeout (hw : Writes env s es) (ht : .timeout t ∈ es) :
    t = .new env.cr s.highQc.round s.round env.name := by
  cases hw with
  | nothing => simp at ht
  | send hm => simp at ht
  | timeout hnew =>
    obtain rfl : t = _ := by simpa using ht
    exact hnew
  | propose hp hc hb => simp at ht
  | process hc ha hcommit hvote =>
    rcases hcommit with rfl | ⟨-, rfl⟩ <;>
      rcases hvote with rfl | ⟨-, -, -, rfl | ⟨m, r, -, rfl⟩⟩ <;> simp at ht

/-- One step signs one vote or one timeout at most. -/
theorem pairwise (hw : Writes env s es) : es.Pairwise Effect.Before := by
  cases hw with
  | process hc ha hcommit hvote =>
    rcases hcommit with rfl | ⟨-, rfl⟩ <;>
      rcases hvote with rfl | ⟨-, -, -, rfl | ⟨m, r, -, rfl⟩⟩ <;> simp [Effect.Before]
  | _ => simp [Effect.Before]

end Core.Writes

namespace Core

/-- **Step lemma**: new votes and timeouts agree with the earlier ones. -/
theorem writes_inOrder (h : Ordered anyTc s.view) (hw : Writes env s es) :
    ∀ e ∈ s.log, ∀ e' ∈ es, e.Before e' := by
  intro e he e' he'
  cases e' with
  | vote b =>
    obtain ⟨-, -, hlast⟩ := hw.of_vote he'
    cases e with
    | vote c => exact lt_of_le_of_lt (h.voteLast c (mem_votes he)) hlast
    | timeout t => exact lt_of_le_of_lt (h.timeoutLast t (mem_timeouts he)) hlast
    | _ => trivial
  | timeout t =>
    cases e with
    | vote c =>
      rw [hw.of_timeout he']
      exact h.voteQc c (mem_votes he)
    | _ => trivial
  | _ => cases e <;> trivial

/-- What a core votes for is above its highest certificate. -/
theorem vote_above (h : Orderly env anyTc s) (hw : Writes env s es) (hb : .vote b ∈ es) :
    b.qc.round ≤ s.highQc.round ∧ s.highQc.round < b.round ∧ b.round = s.round := by
  obtain ⟨hcall, hround, -⟩ := hw.of_vote hb
  have hfit : CallFit env anyTc s.view s.call := h.call
  rw [hcall] at hfit
  refine ⟨hfit.qc, ?_, hround⟩
  rw [hround]
  exact h.view.high

end Core

/-- An orderly core whose log is in order. -/
structure InOrder (env : Env) (s : Core) : Prop where
  orderly : Orderly env anyTc s
  order : s.log.Pairwise Effect.Before
  timeout : ∀ t, .timeout t ∈ s.log → t.highQcRound < t.round

theorem InOrder.step (h : InOrder env s) {i : Core.Input} (hi : OwnLoopBack s i)
    (hs : s.step env i = some s') (hne : s'.round ≠ 0) : InOrder env s' := by
  obtain ⟨es, hlog, hw⟩ := Core.step_writes hs
  have hfit : InputFit env anyTc i := by
    cases i with
    | deliver m =>
      cases m with
      | propose b => exact fun _ _ _ => trivial
      | loopBack b => exact hi b rfl
      | _ => trivial
    | _ => trivial
  refine ⟨h.orderly.step hfit hs hne, ?_, ?_⟩
  · rw [hlog, List.pairwise_append]
    exact ⟨h.order, hw.pairwise, Core.writes_inOrder h.orderly.view hw⟩
  · intro t ht
    rw [hlog] at ht
    rcases List.mem_append.mp ht with ht | ht
    · exact h.timeout t ht
    · rw [hw.of_timeout ht]
      exact h.orderly.view.high

theorem InOrder.signs (h : InOrder env s) : SignsInOrder env s where
  order := h.order
  timeout := h.timeout
  vote i s' es b hs hes hb := by
    obtain ⟨es', hlog, hw⟩ := Core.step_writes hs
    obtain rfl : es = es' := List.append_cancel_left (hes.symm.trans hlog)
    exact Core.vote_above h.orderly hw hb

theorem inOrder_new : InOrder env (Core.new env) where
  orderly := orderly_new
  order := List.Pairwise.nil
  timeout t ht := by cases ht

/-- **Votes and timeouts of an honest core are consistent**, in every run without overflow whose
`LoopBack` messages come from the node's own synchronizers. -/
theorem signs_in_order (env : Env) (s : Core) (hr : (Core.ownRuns env).Reachable s) :
    SignsInOrder env s := by
  have h : InOrder env s := by
    refine Machine.invariant ?_ ?_ hr
    · intro s h0
      rw [show s = Core.new env from h0.1]
      exact inOrder_new
    · intro s i s' h hs
      exact h.step hs.1 hs.2.1 hs.2.2
  exact h.signs

/-! ## A follower -/

/-- A follower votes for the first block, times out, and votes for the second one. -/
def followerRun : List Core.Input :=
  [.deliver (.propose block1), .next, .next, .status .accept, .next, .timer, .next,
    .deliver (.propose block2), .next, .next, .status .accept, .next]

/-- Anything but a message of the node's own synchronizers. -/
def notLoopBack : Core.Input → Bool
  | .deliver (.loopBack _) => false
  | _ => true

theorem signs_in_order_follower : ∃ s : Core,
    (.vote block1 ∈ s.log ∧ .timeout (.new sampleBatch 0 1 keyB) ∈ s.log ∧
      .vote block2 ∈ s.log) ∧ SignsInOrder (sampleEnv keyB) s := by
  have hrun : ((Machine.execIf (fun _ => notLoopBack)
      (fun s i => (Core.step (sampleEnv keyB) s i).filter (·.round ≠ 0))
      (Core.new (sampleEnv keyB)) followerRun).any fun s =>
        decide (.vote block1 ∈ s.log ∧ .timeout (.new sampleBatch 0 1 keyB) ∈ s.log ∧
          .vote block2 ∈ s.log)) = true := by
    decide +kernel
  rw [Option.any_eq_true] at hrun
  obtain ⟨s, hs, h⟩ := hrun
  refine ⟨s, of_decide_eq_true h, signs_in_order (sampleEnv keyB) s ?_⟩
  refine Machine.reachable_execIf_within ?_ ?_ (.init ⟨rfl, by decide⟩) hs
  · rintro s i hi b rfl
    cases hi
  · intro s hs
    exact of_decide_eq_true hs

end AccountabilityGadget.Consensus
