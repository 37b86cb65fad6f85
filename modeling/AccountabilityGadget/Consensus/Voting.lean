import AccountabilityGadget.Consensus.Sound

/-!
# The order of votes and timeouts of one core

What the safety rules of a core depend on is its `View`: the current round, the last voted round,
the round of the highest certificate, the votes and timeouts so far, and the suspended blocks.
Every handler acts on the view by moving to a later round (`advance`), raising the highest
certificate (`raise`), voting, timing out, or suspending a block.

* `Ordered` — the rounds of votes and timeouts are ordered as agreement needs them: one vote a
  round, each above its certificate, and timeouts that report the certificates of earlier votes.
* `Justified` — a vote for a block that skips rounds has a known timeout certificate, or the block
  is the core's own: `handle_tc` does not verify, but then the certificate of the block is at least
  as high as those of all earlier votes (`Dominates`).
* `Orderly.step` — kept by every step that does not overflow the round number.
-/

set_option autoImplicit false

namespace AccountabilityGadget.Consensus

open Encoding

def Effect.vote? : Effect → Option Block
  | .vote b => some b
  | _ => none

def Effect.timeout? : Effect → Option Timeout
  | .timeout t => some t
  | _ => none

structure View where
  round : RoundNumber
  lastVotedRound : RoundNumber
  highRound : RoundNumber
  votes : List Block
  timeouts : List Timeout
  held : List Block

namespace View

def advance (v : View) (round : RoundNumber) : View := { v with round := nextRound v.round round }

def raise (v : View) (round : RoundNumber) : View := { v with highRound := max v.highRound round }

def vote (v : View) (b : Block) : View :=
  { v with lastVotedRound := max v.lastVotedRound b.round, votes := v.votes ++ [b] }

def timeout (v : View) (t : Timeout) : View :=
  { v with lastVotedRound := max v.lastVotedRound t.round, timeouts := v.timeouts ++ [t] }

end View

/-- The view of a core. -/
def Core.view (s : Core) : View where
  round := s.round
  lastVotedRound := s.lastVotedRound
  highRound := s.highQc.round
  votes := s.log.filterMap Effect.vote?
  timeouts := s.log.filterMap Effect.timeout?
  held := s.pending ++ s.payloadPending

/-! ## Invariant -/

variable {G : TC → Prop} {v : View} {b c : Block}

/-- The certificate of `b` is at least as high as those of the votes for earlier rounds. -/
def Dominates (v : View) (b : Block) : Prop :=
  ∀ c ∈ v.votes, c.round < b.round → c.qc.round ≤ b.qc.round

/-- A block that may be voted for: the core knows its certificate, and either its timeout
certificate or that it dominates the votes so far. -/
structure Fit (G : TC → Prop) (v : View) (b : Block) : Prop where
  qc : b.qc.round ≤ v.highRound
  tc : (∀ tc, b.tc = some tc → G tc) ∨ b.round ≤ v.round ∧ Dominates v b

/-- Why a vote for `b` was safe. -/
def Justified (G : TC → Prop) (v : View) (b : Block) : Prop :=
  b.qc.round + 1 = b.round ∨
    ∃ tc, b.tc = some tc ∧ tc.round + 1 = b.round ∧ (∀ u ∈ tc.votes, u.2.2 ≤ b.qc.round) ∧
      (G tc ∨ Dominates v b)

structure Ordered (G : TC → Prop) (v : View) : Prop where
  voteLast : ∀ b ∈ v.votes, b.round ≤ v.lastVotedRound
  timeoutLast : ∀ t ∈ v.timeouts, t.round ≤ v.lastVotedRound
  voteQc : ∀ b ∈ v.votes, b.qc.round ≤ v.highRound
  high : v.highRound < v.round
  unique : ∀ b ∈ v.votes, ∀ c ∈ v.votes, b.round = c.round → b = c
  timeout : ∀ b ∈ v.votes, ∀ t ∈ v.timeouts, b.round ≤ t.round → b.qc.round ≤ t.highQcRound
  below : ∀ b ∈ v.votes, b.qc.round < b.round
  justified : ∀ b ∈ v.votes, Justified G v b
  held : ∀ b ∈ v.held, Fit G v b

/-! ### Rounds -/

theorem val_succ {r : RoundNumber} (h : r + 1 ≠ 0) : (r + 1).val = r.val + 1 := by
  have hv : (r + 1).val = (r.val + 1) % 2 ^ 64 := by
    rw [Fin.val_add]
    rfl
  have hne : (r + 1).val ≠ 0 := fun h0 => h (Fin.ext h0)
  have := r.isLt
  omega

/-- Unless the round number overflows, rounds only grow and pass the argument. -/
theorem nextRound_lt {current round : RoundNumber} (h : nextRound current round ≠ 0) :
    current ≤ nextRound current round ∧ round < nextRound current round := by
  unfold nextRound at h ⊢
  split_ifs at h ⊢ with hlt
  · exact ⟨le_refl _, hlt⟩
  · have hv := val_succ h
    rw [Fin.lt_def, not_lt] at hlt
    rw [Fin.le_def, Fin.lt_def]
    omega

/-- `u64::MAX`, which has no next round. -/
def lastRound : RoundNumber := Fin.last _

theorem nextRound_ne_zero {current round : RoundNumber} (h : round ≠ lastRound) :
    nextRound current round ≠ 0 := by
  unfold nextRound
  split_ifs with hlt
  · exact ne_of_gt (lt_of_le_of_lt (Fin.zero_le _) hlt)
  · intro h0
    apply h
    exact add_right_cancel (h0.trans (by decide : (0 : RoundNumber) = lastRound + 1))

namespace Fit

theorem mono {v' : View} (h : Fit G v b) (hq : v.highRound ≤ v'.highRound)
    (hr : v.round ≤ v'.round) (hvotes : v'.votes = v.votes) : Fit G v' b where
  qc := h.qc.trans hq
  tc := h.tc.imp id fun h => ⟨h.1.trans hr, fun c hc => h.2 c (hvotes ▸ hc)⟩

/-- A vote for the current round does not disturb the blocks that wait. -/
theorem vote (h : Fit G v b) (hc : c.round = v.round) : Fit G (v.vote c) b where
  qc := h.qc
  tc := h.tc.imp id fun ⟨hr, hd⟩ => ⟨hr, fun d hd' hlt => by
    rcases List.mem_append.mp hd' with hd' | hd'
    · exact hd d hd' hlt
    · rw [List.mem_singleton.mp hd', hc] at hlt
      exact absurd hlt (not_lt.mpr hr)⟩

end Fit

namespace Ordered

theorem advance (h : Ordered G v) {round : RoundNumber} (hne : (v.advance round).round ≠ 0) :
    Ordered G (v.advance round) :=
  have hle : v.round ≤ (v.advance round).round := (nextRound_lt hne).1
  { h with
    high := lt_of_lt_of_le h.high hle
    held := fun b hb => (h.held b hb).mono (le_refl _) hle rfl }

theorem raise (h : Ordered G v) {round : RoundNumber} (hlt : round < v.round) :
    Ordered G (v.raise round) :=
  have hle : v.highRound ≤ (v.raise round).highRound := le_max_left _ _
  { h with
    voteQc := fun b hb => (h.voteQc b hb).trans hle
    high := max_lt h.high hlt
    held := fun b hb => (h.held b hb).mono hle (le_refl _) rfl }

theorem timeout_own (h : Ordered G v) {t : Timeout} (hq : t.highQcRound = v.highRound) :
    Ordered G (v.timeout t) :=
  have hle : v.lastVotedRound ≤ (v.timeout t).lastVotedRound := le_max_left _ _
  { h with
    voteLast := fun b hb => (h.voteLast b hb).trans hle
    timeoutLast := fun u hu => by
      rcases List.mem_append.mp hu with hu | hu
      · exact (h.timeoutLast u hu).trans hle
      · rw [List.mem_singleton.mp hu]
        exact le_max_right _ _
    timeout := fun b hb u hu hr => by
      rcases List.mem_append.mp hu with hu | hu
      · exact h.timeout b hb u hu hr
      · rw [List.mem_singleton.mp hu, hq]
        exact h.voteQc b hb
    held := fun b hb => (h.held b hb).mono (le_refl _) (le_refl _) rfl }

theorem hold (h : Ordered G v) {held : List Block} (hheld : ∀ c ∈ held, Fit G v c) :
    Ordered G { v with held := held } :=
  { h with held := fun c hc => (hheld c hc).mono (le_refl _) (le_refl _) rfl }

/-- **A vote by the two safety rules keeps the order.** -/
theorem vote_safe (h : Ordered G v) (hb : Fit G v b) (hround : b.round = v.round)
    (hlast : v.lastVotedRound < b.round)
    (hrule : b.qc.round + 1 = b.round ∨ ∃ tc, b.tc = some tc ∧ tc.round + 1 = b.round ∧
      ∀ u ∈ tc.votes, u.2.2 ≤ b.qc.round) : Ordered G (v.vote b) := by
  have hle : v.lastVotedRound ≤ (v.vote b).lastVotedRound := le_max_left _ _
  have hbelow : b.qc.round < b.round := hround ▸ lt_of_le_of_lt hb.qc h.high
  -- the new vote is for a later round than all votes before
  have hlater : ∀ c ∈ v.votes, c.round < b.round := fun c hc =>
    lt_of_le_of_lt (h.voteLast c hc) hlast
  have hdom : ∀ c, c.round ≤ b.round → Dominates v c → Dominates (v.vote b) c := by
    intro c hcb hc d hd hlt
    rcases List.mem_append.mp hd with hd | hd
    · exact hc d hd hlt
    · rw [List.mem_singleton.mp hd] at hlt
      exact absurd hlt (not_lt.mpr hcb)
  have hjust : ∀ c, c.round ≤ b.round → Justified G v c → Justified G (v.vote b) c :=
    fun c hcb => Or.imp id fun ⟨tc, h1, h2, h3, h4⟩ => ⟨tc, h1, h2, h3, h4.imp id (hdom c hcb)⟩
  have hb' : Justified G v b := by
    rcases hrule with hcons | ⟨tc, htc, hr, hmax⟩
    · exact .inl hcons
    · exact .inr ⟨tc, htc, hr, hmax, hb.tc.imp (fun hG => hG tc htc) And.right⟩
  refine
    { h with
      voteLast := fun c hc => ?_
      timeoutLast := fun t ht => (h.timeoutLast t ht).trans hle
      voteQc := fun c hc => ?_
      unique := fun c hc d hd heq => ?_
      timeout := fun c hc t ht hr => ?_
      below := fun c hc => ?_
      justified := fun c hc => ?_
      held := fun c hc => (h.held c hc).vote hround }
  · rcases List.mem_append.mp hc with hc | hc
    · exact (h.voteLast c hc).trans hle
    · rw [List.mem_singleton.mp hc]
      exact le_max_right _ _
  · rcases List.mem_append.mp hc with hc | hc
    · exact h.voteQc c hc
    · rw [List.mem_singleton.mp hc]
      exact hb.qc
  · rcases List.mem_append.mp hc with hc | hc <;> rcases List.mem_append.mp hd with hd | hd
    · exact h.unique c hc d hd heq
    · rw [List.mem_singleton.mp hd] at heq
      exact absurd heq (ne_of_lt (hlater c hc))
    · rw [List.mem_singleton.mp hc] at heq
      exact absurd heq.symm (ne_of_lt (hlater d hd))
    · rw [List.mem_singleton.mp hc, List.mem_singleton.mp hd]
  · rcases List.mem_append.mp hc with hc | hc
    · exact h.timeout c hc t ht hr
    · -- a timeout forbids votes for its round and for those before
      rw [List.mem_singleton.mp hc] at hr
      exact absurd (h.timeoutLast t ht) (not_le.mpr (lt_of_lt_of_le hlast hr))
  · rcases List.mem_append.mp hc with hc | hc
    · exact h.below c hc
    · rw [List.mem_singleton.mp hc]
      exact hbelow
  · rcases List.mem_append.mp hc with hc | hc
    · exact hjust c (le_of_lt (hlater c hc)) (h.justified c hc)
    · rw [List.mem_singleton.mp hc]
      exact hjust b (le_refl _) hb'

end Ordered

/-! ## Handlers and the view -/

namespace Core

variable {env : Env} {s s' : Core}

@[simp] theorem view_ret (r : ConsensusResult Unit) : (s.ret r).view = s.view := by
  cases r with
  | ok u => rfl
  | error e => dsimp only [ret]; split <;> rfl

@[simp] theorem view_proposeIfLeader (tc : Option TC) :
    (s.proposeIfLeader env tc).view = s.view := by
  unfold proposeIfLeader
  split
  · rfl
  · exact view_ret _

@[simp] theorem view_advanceRound (r : RoundNumber) :
    (s.advanceRound r).view = s.view.advance r := by
  unfold advanceRound View.advance nextRound view
  split <;> simp_all

@[simp] theorem view_updateHighQc (qc : QC) :
    (s.updateHighQc qc).view = s.view.raise qc.round := by
  unfold updateHighQc View.raise view
  split
  · rename_i h
    simp [max_eq_right (le_of_lt h)]
  · rename_i h
    simp [max_eq_left (not_lt.mp h)]

/-- Effects other than votes and timeouts do not show in the view. -/
theorem view_logged {es : List Effect} (hv : es.filterMap Effect.vote? = [])
    (ht : es.filterMap Effect.timeout? = []) : (s.logged es).view = s.view := by
  simp [view, logged, List.filterMap_append, hv, ht]

theorem view_transmit {m : ConsensusMessage} {receiver : Option PublicKey}
    (h : s.transmit env m receiver = .ok s') : s'.view = s.view := by
  cases receiver with
  | none => cases h; exact view_logged rfl rfl
  | some r =>
    dsimp only [transmit] at h
    split at h
    · cases h; exact view_logged rfl rfl
    · cases h

@[simp] theorem view_commitHead (b0 b1 b : Block) : (s.commitHead b0 b1 b).view = s.view := by
  unfold commitHead
  split
  · exact view_logged rfl rfl
  · rfl

@[simp] theorem view_storeBlock (b : Block) : (s.storeBlock env b).view = s.view := by
  simp [view, storeBlock, List.filterMap_append, Effect.vote?, Effect.timeout?]

/-- The rules that `make_vote` checks. -/
theorem safetyRule2_true {b : Block} (h : safetyRule2 b = .ok true) :
    b.qc.round + 1 = b.round ∨ ∃ tc, b.tc = some tc ∧ tc.round + 1 = b.round ∧
      ∀ u ∈ tc.votes, u.2.2 ≤ b.qc.round := by
  unfold safetyRule2 at h
  split at h
  · simp only [Except.ok.injEq, decide_eq_true_eq] at h
    exact .inl h
  · rename_i tc htc
    split at h
    · cases h
    · rename_i m hm
      simp only [Except.ok.injEq, decide_eq_true_eq] at h
      refine h.imp id fun ⟨hr, hle⟩ => ⟨tc, htc, hr, fun u hu => ?_⟩
      have hmem : u.2.2 ∈ tc.highQcRounds := List.mem_map_of_mem hu
      exact ((List.max?_eq_some_iff.mp hm).2 _ hmem).trans hle

theorem view_voted (b : Block) :
    ((s.increaseLastVotedRound b.round).logged [.vote b]).view = s.view.vote b := by
  simp [view, logged, increaseLastVotedRound, View.vote, List.filterMap_append, Effect.vote?,
    Effect.timeout?]

theorem view_generateProposal (tc : Option TC) (payload : List Digest) :
    (s.generateProposal env tc payload).view = s.view := by
  show (s.logged [.propose _, .send (.propose _) none]).view = s.view
  exact view_logged rfl rfl

theorem view_localTimeoutRound : (s.localTimeoutRound env).view =
    s.view.timeout (.new env.cr s.highQc.round s.round env.name) := by
  simp [view, logged, localTimeoutRound, increaseLastVotedRound, View.timeout,
    List.filterMap_append, Effect.vote?, Effect.timeout?, Timeout.new]

end Core

/-! ## Steps -/

/-- The block of the pending call is fit for a vote, once the call has verified it. -/
def CallFit (env : Env) (G : TC → Prop) (v : View) : Call → Prop
  | .handleProposal b => b.verify env.cr env.committee = .ok () → ∀ tc, b.tc = some tc → G tc
  | .processTc b | .verifying b | .processBlock b => Fit G v b
  | _ => True

/-- The timeout certificates of proposals are known once they verify; the network does not send
`LoopBack` messages. -/
def InputFit (env : Env) (G : TC → Prop) : Core.Input → Prop
  | .deliver (.propose b) => b.verify env.cr env.committee = .ok () → ∀ tc, b.tc = some tc → G tc
  | .deliver (.loopBack _) => False
  | _ => True

structure Orderly (env : Env) (G : TC → Prop) (s : Core) : Prop where
  view : Ordered G s.view
  call : CallFit env G s.view s.call

variable {env : Env} {s s' : Core}

theorem Fit.weaken {G' : TC → Prop} (h : Fit G v b) (hG : ∀ tc, G tc → G' tc) : Fit G' v b :=
  ⟨h.qc, h.tc.imp (fun ht tc htc => hG tc (ht tc htc)) id⟩

theorem Orderly.weaken {G' : TC → Prop} (h : Orderly env G s) (hG : ∀ tc, G tc → G' tc) :
    Orderly env G' s where
  view :=
    { h.view with
      justified := fun b hb => (h.view.justified b hb).imp id
        fun ⟨tc, h1, h2, h3, h4⟩ => ⟨tc, h1, h2, h3, h4.imp (hG tc) id⟩
      held := fun b hb => (h.view.held b hb).weaken hG }
  call := by
    have hc := h.call
    cases hcall : s.call <;> rw [hcall] at hc <;> simp only [CallFit] at hc ⊢
    case handleProposal b => exact fun hv tc htc => hG tc (hc hv tc htc)
    all_goals exact hc.weaken hG

namespace Ordered

theorem stop (h : Ordered G s.view) (p : Panic) : Orderly env G (s.stop p) := ⟨h, trivial⟩

theorem ret (h : Ordered G s.view) (r : ConsensusResult Unit) : Orderly env G (s.ret r) := by
  refine ⟨by rw [Core.view_ret]; exact h, ?_⟩
  cases r with
  | ok u => trivial
  | error e => dsimp only [Core.ret]; split <;> trivial

theorem withAggregator (h : Ordered G s.view) (a : Aggregator) :
    Ordered G { s with aggregator := a }.view := h

theorem proposeIfLeader (h : Ordered G s.view) (tc : Option TC) :
    Orderly env G (s.proposeIfLeader env tc) := by
  unfold Core.proposeIfLeader
  split
  · exact ⟨h, trivial⟩
  · exact h.ret _

theorem advanceRound (h : Ordered G s.view) {r : RoundNumber}
    (hne : (s.advanceRound r).view.round ≠ 0) : Ordered G (s.advanceRound r).view := by
  rw [Core.view_advanceRound] at hne ⊢
  exact h.advance hne

theorem processQc (h : Ordered G s.view) {qc : QC} (hne : (s.processQc qc).view.round ≠ 0) :
    Ordered G (s.processQc qc).view := by
  unfold Core.processQc at hne ⊢
  rw [Core.view_updateHighQc, Core.view_advanceRound] at hne ⊢
  exact (h.advance hne).raise (nextRound_lt hne).2

theorem handleVote (h : Ordered G s.view) (vote : Vote)
    (hne : (s.handleVote env vote).view.round ≠ 0) : Orderly env G (s.handleVote env vote) := by
  unfold Core.handleVote at hne ⊢
  split_ifs at hne ⊢
  · exact h.ret _
  · split at hne
    · exact h.ret _
    · split at hne
      · exact (h.withAggregator _).ret _
      · exact (h.withAggregator _).ret _
      · rename_i aggregator qc _
        rw [Core.view_proposeIfLeader] at hne
        exact ((h.withAggregator aggregator).processQc hne).proposeIfLeader none

theorem handleTimeout (h : Ordered G s.view) (timeout : Timeout)
    (hne : (s.handleTimeout env timeout).view.round ≠ 0) :
    Orderly env G (s.handleTimeout env timeout) := by
  unfold Core.handleTimeout at hne ⊢
  split_ifs at hne ⊢
  · exact h.ret _
  · split at hne
    · exact h.ret _
    · split at hne
      · exact (h.withAggregator _).ret _
      · exact (h.withAggregator _).ret _
      · rename_i aggregator tc _
        rw [Core.view_proposeIfLeader] at hne
        exact ((h.withAggregator aggregator).advanceRound hne).proposeIfLeader _

theorem handleTc (h : Ordered G s.view) (tc : TC) (hne : (s.handleTc env tc).view.round ≠ 0) :
    Orderly env G (s.handleTc env tc) := by
  unfold Core.handleTc at hne ⊢
  rw [Core.view_proposeIfLeader] at hne
  exact (h.advanceRound hne).proposeIfLeader _

theorem voteFor (h : Ordered G s.view) (hb : Fit G s.view b) (hr : b.round = s.round) :
    Orderly env G (s.voteFor env b) := by
  unfold Core.voteFor
  cases hm : s.makeVote env b with
  | error p => exact h.stop p
  | ok r =>
    rcases Core.makeVote_cases hm with rfl | ⟨hlast, hrule, rfl⟩
    · exact h.ret _
    · have hv : Ordered G ((s.increaseLastVotedRound b.round).logged [.vote b]).view := by
        rw [Core.view_voted]
        exact h.vote_safe hb hr hlast (Core.safetyRule2_true hrule)
      dsimp only
      split_ifs
      · exact ⟨hv, trivial⟩
      · split
        · exact hv.ret _
        · rename_i ht
          rw [← Core.view_transmit ht] at hv
          exact hv.ret _

theorem wait (h : Ordered G s.view) (hb : Fit G s.view b) : Ordered G (s.wait env b).view := by
  unfold Core.wait
  split
  · exact h
  · show Ordered G { s.view with held := s.pending ++ [b] ++ s.payloadPending }
    apply h.hold
    intro c hc
    simp only [List.mem_append, List.mem_singleton, or_assoc] at hc
    rcases hc with hc | rfl | hc
    · exact h.held c (List.mem_append_left _ hc)
    · exact hb
    · exact h.held c (List.mem_append_right _ hc)

theorem waitPayload (h : Ordered G s.view) (hb : Fit G s.view b) :
    Ordered G (s.waitPayload env b).view := by
  unfold Core.waitPayload
  split
  · exact h
  · show Ordered G { s.view with held := s.pending ++ (s.payloadPending ++ [b]) }
    apply h.hold
    intro c hc
    simp only [List.mem_append, List.mem_singleton] at hc
    rcases hc with hc | hc | rfl
    · exact h.held c (List.mem_append_left _ hc)
    · exact h.held c (List.mem_append_right _ hc)
    · exact hb

theorem processBlock (h : Ordered G s.view) (hb : Fit G s.view b) :
    Orderly env G (s.processBlock env b) := by
  unfold Core.processBlock
  split
  · exact h.ret _
  · exact h.stop _
  · exact (h.wait hb).ret _
  · rename_i b0 b1 _
    unfold Core.processDelivered
    have hview : (((s.storeBlock env b).commitHead b0 b1 b).logged
        [.cleanup (b0.payload ++ b1.payload ++ b.payload) b.round]).view = s.view := by
      rw [Core.view_logged rfl rfl, Core.view_commitHead, Core.view_storeBlock]
    dsimp only
    split_ifs with hr
    · exact Ordered.ret (by rw [hview]; exact h) _
    · exact Ordered.voteFor (by rw [hview]; exact h) (by rw [hview]; exact hb) (not_not.mp hr)

theorem handleProposal (h : Ordered G s.view)
    (hb : b.verify env.cr env.committee = .ok () → ∀ tc, b.tc = some tc → G tc)
    (hne : (s.handleProposal env b).view.round ≠ 0) : Orderly env G (s.handleProposal env b) := by
  unfold Core.handleProposal at hne ⊢
  split_ifs at hne ⊢
  · exact h.ret _
  · split at hne
    · exact h.ret _
    · rename_i hverify
      refine ⟨h.processQc hne, ?_, .inl (hb hverify)⟩
      show b.qc.round ≤ (s.processQc b.qc).view.highRound
      unfold Core.processQc
      rw [Core.view_updateHighQc]
      exact le_max_right _ _

theorem processTc (h : Ordered G s.view) (hb : Fit G s.view b)
    (hne : (s.processTc b).view.round ≠ 0) : Orderly env G (s.processTc b) := by
  unfold Core.processTc at hne ⊢
  split at hne
  · exact ⟨h, hb⟩
  · rename_i tc _
    have hview := Core.view_advanceRound (s := s) tc.round
    refine ⟨h.advanceRound hne, ?_⟩
    show Fit G (s.advanceRound tc.round).view b
    change (s.advanceRound tc.round).view.round ≠ 0 at hne
    rw [hview] at hne ⊢
    exact hb.mono (le_refl _) (nextRound_lt hne).1 rfl

theorem verifying (h : Ordered G s.view) (hb : Fit G s.view b) (st : PayloadStatus) :
    Orderly env G (s.verifying env b st) := by
  cases st with
  | accept => exact ⟨h, hb⟩
  | reject => exact h.ret (.error .invalidPayload)
  | wait => exact (h.waitPayload hb).ret (.ok ())

/-- The own block dominates all votes so far: its certificate is the highest one. -/
theorem generateProposal (h : Ordered G s.view) (tc : Option TC) (payload : List Digest) :
    Orderly env G (s.generateProposal env tc payload) := by
  refine ⟨by rw [Core.view_generateProposal]; exact h, ?_⟩
  show Fit G (s.generateProposal env tc payload).view
    (.new env.cr s.highQc tc env.name s.round payload)
  rw [Core.view_generateProposal]
  exact ⟨le_refl _, .inr ⟨le_refl _, fun c hc _ => h.voteQc c hc⟩⟩

theorem handleSyncRequest (h : Ordered G s.view) (d : Digest) (sender : PublicKey) :
    Orderly env G (s.handleSyncRequest env d sender) := by
  generalize hu : s.handleSyncRequest env d sender = u
  cases Core.handleSyncRequest_serves hu with
  | ret => exact h.ret _
  | panic => exact h.stop _
  | send _ ht =>
    rw [← Core.view_transmit ht] at h
    exact h.ret _

theorem erase (h : Ordered G s.view) {held : List Block} (hsub : ∀ c ∈ held, c ∈ s.view.held) :
    Ordered G { s.view with held := held } :=
  h.hold fun c hc => h.held c (hsub c hc)

end Ordered

theorem Orderly.runCall (h : Orderly env G s) (hs : s.Runs env s')
    (hne : s'.view.round ≠ 0) : Orderly env G s' := by
  have hc := h.call
  cases hs with
  | handleProposal hcall => rw [hcall] at hc; exact h.view.handleProposal hc hne
  | processTc hcall => rw [hcall] at hc; exact h.view.processTc hc hne
  | processBlock hcall => rw [hcall] at hc; exact h.view.processBlock hc
  | handleVote => exact h.view.handleVote _ hne
  | handleTimeout => exact h.view.handleTimeout _ hne
  | handleTc => exact h.view.handleTc _ hne
  | boycott => exact h.view.ret _

/-- **Every step that does not overflow the round number keeps the order.** -/
theorem Orderly.step (h : Orderly env G s) {i : Core.Input} (hi : InputFit env G i)
    (hs : s.step env i = some s') (hne : s'.round ≠ 0) : Orderly env G s' := by
  have hc := h.call
  cases Core.step_takes hs with
  | @deliver m =>
    cases m with
    | propose b => exact ⟨h.view, hi⟩
    | vote v => exact ⟨h.view, trivial⟩
    | timeout t => exact ⟨h.view, trivial⟩
    | tc tc => exact ⟨h.view, trivial⟩
    | loopBack b => exact hi.elim
    | syncRequest d sender => exact h.view.handleSyncRequest d sender
  | @loopBack b hmem =>
    have hb : Fit G s.view b := h.view.held b (List.mem_append_left _ hmem)
    have hview : Ordered G { s.view with held := s.pending.erase b ++ s.payloadPending } :=
      h.view.erase fun c hc =>
        List.mem_append.mpr ((List.mem_append.mp hc).imp List.mem_of_mem_erase id)
    exact ⟨hview, hb.mono (le_refl _) (le_refl _) rfl⟩
  | @payloadReady b hmem =>
    have hb : Fit G s.view b := h.view.held b (List.mem_append_right _ hmem)
    have hview : Ordered G { s.view with held := s.pending ++ s.payloadPending.erase b } :=
      h.view.erase fun c hc =>
        List.mem_append.mpr ((List.mem_append.mp hc).imp id List.mem_of_mem_erase)
    exact ⟨hview, hb.mono (le_refl _) (le_refl _) rfl⟩
  | @payloadCancel b =>
    have hview : Ordered G { s.view with held := s.pending ++ s.payloadPending.erase b } :=
      h.view.erase fun c hc =>
        List.mem_append.mpr ((List.mem_append.mp hc).imp id List.mem_of_mem_erase)
    refine ⟨hview, ?_⟩
    show CallFit env G { s.view with held := s.pending ++ s.payloadPending.erase b } s.call
    cases hcall : s.call <;> rw [hcall] at hc <;> simp only [CallFit] at hc ⊢
    case handleProposal b => exact hc
    all_goals exact hc.mono (le_refl _) (le_refl _) rfl
  | timer =>
    refine ⟨?_, trivial⟩
    rw [Core.view_localTimeoutRound]
    exact h.view.timeout_own rfl
  | resume => exact h
  | abandon => exact h.view.stop _
  | next hrun => exact h.runCall hrun hne
  | status hcall =>
    rw [hcall] at hc
    exact h.view.verifying hc _
  | payload => exact h.view.generateProposal _ _
  | storeWrite => exact ⟨h.view, h.call⟩

theorem orderly_new : Orderly env G (Core.new env) := by
  refine ⟨⟨?_, ?_, ?_, ?_, ?_, ?_, ?_, ?_, ?_⟩, ?_⟩
  · intro b hb
    cases hb
  · intro t ht
    cases ht
  · intro b hb
    cases hb
  · show (0 : RoundNumber) < 1
    decide
  · intro b hb
    cases hb
  · intro b hb
    cases hb
  · intro b hb
    cases hb
  · intro b hb
    cases hb
  · intro b hb
    cases hb
  · unfold Core.new
    dsimp only
    split <;> trivial

end AccountabilityGadget.Consensus
