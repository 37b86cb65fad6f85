import AccountabilityGadget.Consensus.Equivocation
import AccountabilityGadget.Consensus.Voting

/-!
# The timer of the core (`consensus/src/timer.rs`, `consensus/src/core.rs`)

`advance_round` and `local_timeout_round` reset the timer, and a pause moves its deadline by the time
that it has taken.  Before it makes a block, `generate_proposal` sleeps.

* `TimedCore.step` — a core with its timer and a clock; every step is one of the core, or none
  (`core_reachable`).
* `Inv` — the deadline in terms of the time that the core has not been paused.
* `timeouts_keep_pace` — a timeout is signed after `timeout_delay` of that time in its round, and never
  more often.
-/

set_option autoImplicit false

namespace AccountabilityGadget.Consensus

/-- A `Sleep` that ends at `deadline`, in milliseconds. -/
structure Timer where
  duration : ℕ
  deadline : ℕ

namespace Timer

def new (duration now : ℕ) : Timer := ⟨duration, now + duration⟩

def reset (t : Timer) (now : ℕ) : Timer := { t with deadline := now + t.duration }

def delay (t : Timer) (d : ℕ) : Timer := { t with deadline := t.deadline + d }

end Timer

/-- The delays of `Parameters`. -/
structure Delays where
  timeoutDelay : ℕ
  minBlockDelay : ℕ

structure TimedCore where
  core : Core
  timer : Timer
  /-- `Instant::now()`. -/
  now : ℕ
  /-- `instant_pause_started`. -/
  paused : Option ℕ
  /-- How long the core has not been paused. -/
  active : ℕ
  /-- `active` at the last reset of the timer, and at the last step of the core's own. -/
  reset : ℕ
  ran : ℕ
  /-- The rounds so far, and the timeouts and blocks signed, each with the value of `active`. -/
  entered : List (RoundNumber × ℕ)
  timeouts : List (RoundNumber × ℕ)
  blocks : List (RoundNumber × ℕ)

namespace TimedCore

inductive Input where
  | wait (d : ℕ)
  | pause
  /-- The trigger to resume comes, or its sender is dropped. -/
  | resume (sent : Bool)
  | core (i : Core.Input)

/-- Steps of other tasks. -/
def IsForeign : Core.Input → Bool
  | .payloadCancel _ | .storeWrite _ _ => true
  | _ => false

variable (env : Env) (delays : Delays)

/-- `run` resets the timer first. -/
def new (now : ℕ) : TimedCore :=
  ⟨.new env, .new delays.timeoutDelay now, now, none, 0, 0, 0, [(1, 0)], [], []⟩

/-- What the core waits for besides its channels. -/
def Ready (s : TimedCore) : Core.Input → Prop
  | .pause _ => False
  | .timer => s.paused = none ∧ s.timer.deadline ≤ s.now
  | .payload _ => s.paused = none ∧ s.ran + delays.minBlockDelay ≤ s.active
  | .payloadCancel _ | .storeWrite _ _ => True
  | _ => s.paused = none

instance (s : TimedCore) (i : Core.Input) : Decidable (s.Ready delays i) :=
  match i with
  | .pause _ => inferInstanceAs (Decidable False)
  | .timer => inferInstanceAs (Decidable (s.paused = none ∧ s.timer.deadline ≤ s.now))
  | .payload _ => inferInstanceAs (Decidable (s.paused = none ∧ s.ran + delays.minBlockDelay ≤ s.active))
  | .payloadCancel _ | .storeWrite _ _ => inferInstanceAs (Decidable True)
  | .deliver _ | .loopBack _ | .payloadReady _ | .next | .status _ =>
    inferInstanceAs (Decidable (s.paused = none))

/-- A step of the core: it resets the timer when it moves to another round, and in
`local_timeout_round`. -/
def after (s : TimedCore) (i : Core.Input) (core : Core) : TimedCore :=
  let resets := i = .timer ∨ core.round ≠ s.core.round
  { s with
    core
    timer := if resets then s.timer.reset s.now else s.timer
    reset := if resets then s.active else s.reset
    ran := if IsForeign i then s.ran else s.active
    entered := if core.round ≠ s.core.round then s.entered ++ [(core.round, s.active)] else s.entered
    timeouts := if i = .timer then s.timeouts ++ [(s.core.round, s.active)] else s.timeouts
    blocks := match i with
      | .payload _ => s.blocks ++ [(s.core.round, s.active)]
      | _ => s.blocks }

def step (s : TimedCore) : Input → Option TimedCore
  | .wait d => some { s with
      now := s.now + d
      active := if s.paused.isSome then s.active else s.active + d }
  | .pause =>
    if s.paused = none ∧ s.core.call = .idle then some { s with paused := some s.now } else none
  | .resume sent =>
    match s.paused with
    | none => none
    | some t => (s.core.step env (.pause sent)).map fun core =>
        if sent then { s with core, timer := s.timer.delay (s.now - t), paused := none }
        else { s with core }
  | .core i => if s.Ready delays i then (s.core.step env i).map (s.after i) else none

/-- The runs of a core that starts at any time. -/
def machine : Machine TimedCore Input := .ofStep (fun s => ∃ now, s = new env delays now)
  (step env delays)

/-! ## Inversion -/

/-- What a step does. -/
inductive Takes (s : TimedCore) : Input → TimedCore → Prop
  | wait {d : ℕ} : s.paused = none → Takes s (.wait d) { s with now := s.now + d, active := s.active + d }
  | waitPaused {d t : ℕ} : s.paused = some t → Takes s (.wait d) { s with now := s.now + d }
  | pause : s.paused = none → s.core.call = .idle → Takes s .pause { s with paused := some s.now }
  | resume {t : ℕ} {core : Core} : s.paused = some t → s.core.step env (.pause true) = some core →
      Takes s (.resume true) { s with core, timer := s.timer.delay (s.now - t), paused := none }
  | abandon {t : ℕ} {core : Core} : s.paused = some t → s.core.step env (.pause false) = some core →
      Takes s (.resume false) { s with core }
  | core {i : Core.Input} {core : Core} : s.Ready delays i → s.core.step env i = some core →
      Takes s (.core i) (s.after i core)

variable {env delays} {s s' : TimedCore}

theorem takes_of_step {i : Input} (h : s.step env delays i = some s') : Takes env delays s i s' := by
  cases i with
  | wait d =>
    cases h
    cases hp : s.paused with
    | none =>
      have hwait : Takes env delays s (.wait d)
        { s with now := s.now + d, active := s.active + d } := .wait hp
      simpa [hp] using hwait
    | some t =>
      have hwait : Takes env delays s (.wait d) { s with now := s.now + d } := .waitPaused hp
      simpa [hp] using hwait
  | pause =>
    simp only [step] at h
    split_ifs at h with hp
    cases h
    exact .pause hp.1 hp.2
  | resume sent =>
    simp only [step] at h
    split at h
    · cases h
    · rename_i t hp
      obtain ⟨core, hcore, rfl⟩ := Option.map_eq_some_iff.mp h
      cases sent with
      | true => exact .resume hp hcore
      | false => exact .abandon hp hcore
  | core i =>
    simp only [step] at h
    split_ifs at h with hi
    obtain ⟨core, hcore, rfl⟩ := Option.map_eq_some_iff.mp h
    exact .core hi hcore

/-- A timed run is a run of the core. -/
theorem core_reachable (h : (machine env delays).Reachable s) :
    (Core.machine env).Reachable s.core := by
  refine Machine.Reachable.project ?_ ?_ h
  · rintro s ⟨now, rfl⟩
    rfl
  · intro s i t _ hs
    cases takes_of_step hs with
    | wait | waitPaused | pause => exact .inl rfl
    | resume _ hcore | abandon _ hcore | core _ hcore => exact .inr ⟨_, hcore⟩

/-! ## Invariant -/

/-- What is known about an event and the rounds before it. -/
def InRound (s : TimedCore) (delay : ℕ) (x : RoundNumber × ℕ) : Prop :=
  ∃ y ∈ s.entered, y.1 = x.1 ∧ y.2 + delay ≤ x.2

structure Inv (delays : Delays) (s : TimedCore) : Prop where
  duration : s.timer.duration = delays.timeoutDelay
  /-- The deadline, seen from now or from the begin of the pause. -/
  deadline : s.timer.deadline + s.active = s.paused.getD s.now + s.reset + delays.timeoutDelay
  paused : ∀ t, s.paused = some t → t ≤ s.now
  reset : s.reset ≤ s.active
  ran : s.ran ≤ s.active
  /-- The core has entered its round before. -/
  round : ∃ a, (s.core.round, a) ∈ s.entered ∧ a ≤ s.reset ∧ a ≤ s.ran
  timeouts : ∀ x ∈ s.timeouts, s.InRound delays.timeoutDelay x
  apart : s.timeouts.Pairwise fun x y => x.2 + delays.timeoutDelay ≤ y.2
  before : ∀ x ∈ s.timeouts, x.2 ≤ s.reset
  count : s.timeouts.length * delays.timeoutDelay ≤ s.reset
  blocks : ∀ x ∈ s.blocks, s.InRound delays.minBlockDelay x
  signed : s.core.view.timeouts.map Timeout.round = s.timeouts.map Prod.fst
  proposed : s.core.proposedRounds = s.blocks.map Prod.fst

theorem inv_new (now : ℕ) : Inv delays (new env delays now) where
  duration := rfl
  deadline := by
    show now + delays.timeoutDelay + 0 = now + 0 + delays.timeoutDelay
    omega
  paused := nofun
  reset := le_refl _
  ran := le_refl _
  round := ⟨0, List.mem_cons_self, le_refl _, le_refl _⟩
  timeouts := nofun
  apart := .nil
  before := nofun
  count := by
    show 0 * _ ≤ _
    omega
  blocks := nofun
  signed := rfl
  proposed := rfl

/-- A step that leaves the rounds and the log of the core alone. -/
theorem Inv.frame (h : Inv delays s) (hround : s'.core.round = s.core.round)
    (hlog : s'.core.log = s.core.log) (hduration : s'.timer.duration = s.timer.duration)
    (hdeadline : s'.timer.deadline + s'.active =
      s'.paused.getD s'.now + s'.reset + delays.timeoutDelay)
    (hpaused : ∀ t, s'.paused = some t → t ≤ s'.now) (hactive : s.active ≤ s'.active)
    (hreset : s'.reset = s.reset) (hran : s'.ran = s.ran) (hentered : s'.entered = s.entered)
    (htimeouts : s'.timeouts = s.timeouts) (hblocks : s'.blocks = s.blocks) : Inv delays s' where
  duration := hduration.trans h.duration
  deadline := hdeadline
  paused := hpaused
  reset := hreset ▸ h.reset.trans hactive
  ran := hran ▸ h.ran.trans hactive
  round := by
    rw [hround, hentered, hreset, hran]
    exact h.round
  timeouts := by
    rw [htimeouts]
    unfold InRound
    rw [hentered]
    exact h.timeouts
  apart := htimeouts ▸ h.apart
  before := by
    rw [htimeouts, hreset]
    exact h.before
  count := by
    rw [htimeouts, hreset]
    exact h.count
  blocks := by
    rw [hblocks]
    unfold InRound
    rw [hentered]
    exact h.blocks
  signed := by
    show (s'.core.log.filterMap _).map _ = _
    rw [hlog, htimeouts]
    exact h.signed
  proposed := by
    show s'.core.log.filterMap _ = _
    rw [hlog, hblocks]
    exact h.proposed

end TimedCore

namespace Core

variable {env : Env} {s s' : Core}

theorem timeouts_voteFor (b : Block) : (s.voteFor env b).view.timeouts = s.view.timeouts := by
  unfold voteFor
  cases hm : s.makeVote env b with
  | error p => rfl
  | ok r =>
    rcases makeVote_cases hm with rfl | ⟨-, -, rfl⟩
    · rw [view_ret]
    · dsimp only
      split
      · show (Core.view ((s.increaseLastVotedRound b.round).logged [.vote b])).timeouts = _
        rw [view_voted]
        rfl
      · split
        · rw [view_ret, view_voted]
          rfl
        · rename_i ht
          rw [view_ret, view_transmit ht, view_voted]
          rfl

theorem timeouts_processBlock (b : Block) : (s.processBlock env b).view.timeouts = s.view.timeouts := by
  have hlogged : ∀ (u : Core) (digests : List Digest) (round : RoundNumber),
      (u.logged [.cleanup digests round]).view = u.view := fun u _ _ => view_logged rfl rfl
  unfold processBlock
  split
  · rw [view_ret]
  · rfl
  · rw [view_ret]
    unfold wait
    split <;> rfl
  · unfold processDelivered
    dsimp only
    split
    · rw [view_ret, hlogged, view_commitHead, view_storeBlock]
    · rw [timeouts_voteFor, hlogged, view_commitHead, view_storeBlock]

theorem timeouts_runCall (hs : s.Runs env s') : s'.view.timeouts = s.view.timeouts := by
  have hlog : s'.log = s.log → s'.view.timeouts = s.view.timeouts := fun h =>
    congrArg (List.filterMap Effect.timeout?) h
  cases hs with
  | processBlock => exact timeouts_processBlock _
  | handleProposal | processTc | handleVote | handleTimeout | boycott => exact hlog (by simp)
  | handleTc => exact hlog (by simp [handleTc])

/-- Only `local_timeout_round` signs timeouts. -/
theorem timeouts_step {i : Input} (hs : s.step env i = some s') (hi : i ≠ .timer) :
    s'.view.timeouts = s.view.timeouts := by
  cases step_takes hs with
  | timer => exact absurd rfl hi
  | next hrun => exact timeouts_runCall hrun
  | payload => rw [view_generateProposal]
  | @status b st =>
    cases st with
    | accept => rfl
    | reject => simp [verifying]
    | wait =>
      rw [verifying, view_ret, waitPayload]
      split <;> rfl
  | @deliver m =>
    cases m with
    | syncRequest d sender =>
      generalize hu : s.receive env (.syncRequest d sender) = u
      cases handleSyncRequest_serves hu with
      | ret => rw [view_ret]
      | panic => rfl
      | send _ ht => rw [view_ret, view_transmit ht]
    | _ => rfl
  | _ => rfl

/-- Only with the answer of the mempool does `generate_proposal` sign a block. -/
theorem proposedRounds_kept {i : Input} (hs : s.step env i = some s') (hi : ∀ ds, i ≠ .payload ds) :
    s'.proposedRounds = s.proposedRounds := by
  by_cases hcall : ∃ tc, s.call = .generateProposal tc
  · obtain ⟨tc, hcall⟩ := hcall
    have hlog : s'.log = s.log → s'.proposedRounds = s.proposedRounds := fun h =>
      congrArg (List.filterMap Effect.proposedRound?) h
    cases i with
    | payload ds => exact absurd rfl (hi ds)
    | payloadCancel b | storeWrite d v =>
      cases hs
      rfl
    | next =>
      simp only [step, runCall, hcall] at hs
      split at hs <;> cases hs
      exact hlog (log_ret _)
    | deliver m | loopBack b | payloadReady b | timer | pause r | status st =>
      simp [step, hcall] at hs
  · exact proposedRounds_step hs fun tc htc => hcall ⟨tc, htc⟩

theorem proposedRounds_payload {ds : List Digest} (hs : s.step env (.payload ds) = some s') :
    s'.proposedRounds = s.proposedRounds ++ [s.round] := by
  cases step_takes hs with
  | payload => exact proposedRounds_logged _

end Core

namespace TimedCore

variable {env : Env} {delays : Delays} {s s' : TimedCore}

theorem InRound.mono {delay : ℕ} {x : RoundNumber × ℕ} (h : s.InRound delay x)
    (hentered : s.entered ⊆ s'.entered) : s'.InRound delay x := by
  obtain ⟨y, hy, heq, hle⟩ := h
  exact ⟨y, hentered hy, heq, hle⟩

/-- The timer is ready when the core has not been paused for long enough. -/
theorem Inv.deadline_le_iff (h : Inv delays s) (hp : s.paused = none) :
    s.timer.deadline ≤ s.now ↔ s.reset + delays.timeoutDelay ≤ s.active := by
  have hdeadline := h.deadline
  rw [hp, Option.getD_none] at hdeadline
  omega

/-- The core moves to another round only while it is not paused. -/
theorem paused_of_moved {i : Core.Input} {core : Core} (hi : s.Ready delays i)
    (hs : s.core.step env i = some core) (hmoved : i = .timer ∨ core.round ≠ s.core.round) :
    s.paused = none ∧ IsForeign i = false := by
  rcases hmoved with rfl | hmoved
  · exact ⟨hi.1, rfl⟩
  · rcases Core.step_round hs with hround | ⟨rfl, -⟩
    · exact absurd hround hmoved
    · exact ⟨hi, rfl⟩

theorem Inv.after {i : Core.Input} {core : Core} (h : Inv delays s) (hi : s.Ready delays i)
    (hs : s.core.step env i = some core) : Inv delays (s.after i core) := by
  have hentered : s.entered ⊆ (s.after i core).entered := by
    show s.entered ⊆ if core.round ≠ s.core.round then _ else _
    split_ifs
    · exact List.subset_append_left ..
    · exact List.Subset.refl _
  have hreset : s.reset ≤ (s.after i core).reset := by
    show s.reset ≤ if _ then s.active else s.reset
    split_ifs
    · exact h.reset
    · exact le_refl _
  have hran : s.ran ≤ (s.after i core).ran := by
    show s.ran ≤ if _ then s.ran else s.active
    split_ifs
    · exact le_refl _
    · exact h.ran
  obtain ⟨a, hmem, hareset, haran⟩ := h.round
  refine ⟨?_, ?_, h.paused, ?_, ?_, ?_, ?_, ?_, ?_, ?_, ?_, ?_, ?_⟩
  · show (if _ then s.timer.reset s.now else s.timer).duration = _
    split_ifs <;> exact h.duration
  · show (if _ then s.timer.reset s.now else s.timer).deadline + s.active =
      s.paused.getD s.now + (if _ then s.active else s.reset) + delays.timeoutDelay
    by_cases hmoved : i = .timer ∨ core.round ≠ s.core.round
    · rw [if_pos hmoved, if_pos hmoved, (paused_of_moved hi hs hmoved).1, ← h.duration]
      show s.now + s.timer.duration + s.active = s.now + s.active + s.timer.duration
      omega
    · rw [if_neg hmoved, if_neg hmoved]
      exact h.deadline
  · show (if _ then s.active else s.reset) ≤ s.active
    split_ifs
    · exact le_refl _
    · exact h.reset
  · show (if _ then s.ran else s.active) ≤ s.active
    split_ifs
    · exact h.ran
    · exact le_refl _
  · by_cases hmoved : core.round ≠ s.core.round
    · refine ⟨s.active, ?_, ?_, ?_⟩
      · show (core.round, s.active) ∈ if core.round ≠ s.core.round then _ else _
        rw [if_pos hmoved]
        exact List.mem_append_right _ List.mem_cons_self
      · show s.active ≤ if i = .timer ∨ core.round ≠ s.core.round then s.active else s.reset
        rw [if_pos (.inr hmoved)]
      · show s.active ≤ if IsForeign i = true then s.ran else s.active
        rw [(paused_of_moved hi hs (.inr hmoved)).2]
        exact le_refl _
    · refine ⟨a, hentered ?_, hareset.trans hreset, haran.trans hran⟩
      show (core.round, a) ∈ s.entered
      rw [not_not.mp hmoved]
      exact hmem
  · have hold : ∀ x ∈ s.timeouts, (s.after i core).InRound delays.timeoutDelay x :=
      fun x hx => (h.timeouts x hx).mono hentered
    show ∀ x ∈ (if i = .timer then _ else s.timeouts), (s.after i core).InRound _ x
    split_ifs with htimer
    · subst htimer
      intro x hx
      rcases List.mem_append.mp hx with hx | hx
      · exact hold x hx
      · obtain rfl := List.mem_singleton.mp hx
        have hdue := (h.deadline_le_iff hi.1).mp hi.2
        exact ⟨_, hentered hmem, rfl, by omega⟩
    · exact hold
  · show (if i = .timer then s.timeouts ++ [(s.core.round, s.active)] else s.timeouts).Pairwise _
    split_ifs with htimer
    · subst htimer
      have hdue := (h.deadline_le_iff hi.1).mp hi.2
      refine List.pairwise_append.mpr ⟨h.apart, List.pairwise_singleton .., ?_⟩
      intro x hx y hy
      rw [List.mem_singleton.mp hy]
      have hx := h.before x hx
      omega
    · exact h.apart
  · show ∀ x ∈ (if i = .timer then s.timeouts ++ [(s.core.round, s.active)] else s.timeouts),
      x.2 ≤ (s.after i core).reset
    split_ifs with htimer
    · subst htimer
      intro x hx
      show x.2 ≤ s.active
      rcases List.mem_append.mp hx with hx | hx
      · exact (h.before x hx).trans h.reset
      · rw [List.mem_singleton.mp hx]
    · exact fun x hx => (h.before x hx).trans hreset
  · show (if i = .timer then s.timeouts ++ [(s.core.round, s.active)] else s.timeouts).length *
      delays.timeoutDelay ≤ (s.after i core).reset
    split_ifs with htimer
    · subst htimer
      have hdue := (h.deadline_le_iff hi.1).mp hi.2
      have hcount := h.count
      show (s.timeouts ++ [(s.core.round, s.active)]).length * delays.timeoutDelay ≤ s.active
      rw [List.length_append, List.length_singleton, Nat.add_mul, Nat.one_mul]
      omega
    · exact h.count.trans hreset
  · have hold : ∀ x ∈ s.blocks, (s.after i core).InRound delays.minBlockDelay x :=
      fun x hx => (h.blocks x hx).mono hentered
    cases i with
    | payload ds =>
      intro x hx
      rcases List.mem_append.mp hx with hx | hx
      · exact hold x hx
      · obtain rfl := List.mem_singleton.mp hx
        have hslept := hi.2
        exact ⟨_, hentered hmem, rfl, by show a + _ ≤ s.active; omega⟩
    | _ => exact hold
  · show core.view.timeouts.map Timeout.round = List.map Prod.fst (if i = .timer then _ else s.timeouts)
    split_ifs with htimer
    · subst htimer
      cases Core.step_takes hs with
      | timer =>
        rw [Core.view_localTimeoutRound, List.map_append, ← h.signed]
        exact List.map_append
    · rw [Core.timeouts_step hs htimer]
      exact h.signed
  · cases i with
    | payload ds =>
      show core.proposedRounds = (s.blocks ++ [(s.core.round, s.active)]).map Prod.fst
      rw [Core.proposedRounds_payload hs, h.proposed, List.map_append]
      rfl
    | _ => exact (Core.proposedRounds_kept hs nofun).trans h.proposed

theorem Inv.step {i : Input} (h : Inv delays s) (hs : s.step env delays i = some s') :
    Inv delays s' := by
  have hdeadline := h.deadline
  cases takes_of_step hs with
  | @wait d hp =>
    refine h.frame rfl rfl rfl ?_ ?_ (Nat.le_add_right ..) rfl rfl rfl rfl rfl
    · rw [hp, Option.getD_none] at hdeadline ⊢
      show s.timer.deadline + (s.active + d) = s.now + d + s.reset + delays.timeoutDelay
      omega
    · intro t ht
      exact absurd (hp.symm.trans ht) nofun
  | @waitPaused d t hp =>
    refine h.frame rfl rfl rfl ?_ ?_ (le_refl _) rfl rfl rfl rfl rfl
    · rw [hp, Option.getD_some] at hdeadline ⊢
      exact hdeadline
    · intro u hu
      exact (h.paused u hu).trans (Nat.le_add_right ..)
  | pause hp =>
    refine h.frame rfl rfl rfl ?_ ?_ (le_refl _) rfl rfl rfl rfl rfl
    · rw [hp, Option.getD_none] at hdeadline
      exact hdeadline
    · rintro t ⟨⟩
      exact le_refl _
  | @resume t core hp hcore =>
    have hle := h.paused t hp
    cases Core.step_takes hcore with
    | resume =>
      refine h.frame rfl rfl rfl ?_ nofun (le_refl _) rfl rfl rfl rfl rfl
      rw [hp, Option.getD_some] at hdeadline
      show s.timer.deadline + (s.now - t) + s.active = s.now + s.reset + delays.timeoutDelay
      omega
  | abandon hp hcore =>
    cases Core.step_takes hcore with
    | abandon => exact h.frame rfl rfl rfl hdeadline h.paused (le_refl _) rfl rfl rfl rfl rfl
  | core hi hcore => exact h.after hi hcore

theorem inv_reachable (hr : (machine env delays).Reachable s) : Inv delays s := by
  refine Machine.invariant (P := Inv delays) ?_ (fun _ _ _ h hs => h.step hs) hr
  rintro s ⟨now, rfl⟩
  exact inv_new now

/-- **The timer keeps pace with the time in which the core may work.**  Each timeout that the core has
signed, it has signed for a round in which it had been, unpaused, for `timeout_delay` by then, and two
timeouts are as far apart; each block was signed at least `min_block_delay` after its round was
entered.  A core in `select!` can time out exactly when it has been unpaused for `timeout_delay` since
the timer was reset. -/
theorem timeouts_keep_pace (env : Env) (delays : Delays) (s : TimedCore)
    (hr : (machine env delays).Reachable s) :
    s.core.view.timeouts.map Timeout.round = s.timeouts.map Prod.fst ∧
    (∀ x ∈ s.timeouts, ∃ y ∈ s.entered, y.1 = x.1 ∧ y.2 + delays.timeoutDelay ≤ x.2) ∧
    (s.timeouts.Pairwise fun x y => x.2 + delays.timeoutDelay ≤ y.2) ∧
    s.timeouts.length * delays.timeoutDelay ≤ s.active ∧
    s.core.proposedRounds = s.blocks.map Prod.fst ∧
    (∀ x ∈ s.blocks, ∃ y ∈ s.entered, y.1 = x.1 ∧ y.2 + delays.minBlockDelay ≤ x.2) ∧
    (s.paused = none → s.core.call = .idle → ((s.step env delays (.core .timer)).isSome ↔
      s.reset + delays.timeoutDelay ≤ s.active)) := by
  have h := inv_reachable hr
  refine ⟨h.signed, h.timeouts, h.apart, h.count.trans h.reset, h.proposed, h.blocks, ?_⟩
  intro hp hcall
  rw [← h.deadline_le_iff hp]
  simp only [step, Core.step, hcall, if_true, Option.map_some]
  split_ifs with hready
  · exact ⟨fun _ => hready.2, fun _ => rfl⟩
  · constructor
    · intro h
      cases h
    · intro hle
      exact absurd ⟨hp, hle⟩ hready

/-- Five milliseconds, then a pause of seven, and five more. -/
def pausedOnce : List Input :=
  [.wait 5, .pause, .wait 7, .resume true, .wait 5, .core .timer]

theorem timeouts_keep_pace_paused : ∃ s : TimedCore, s.now = 17 ∧ s.timeouts = [(1, 10)] ∧
    s.timeouts.length * 10 ≤ s.active := by
  have hexec : ∃ s : TimedCore, Machine.exec (step (sampleEnv keyB) ⟨10, 0⟩) (new (sampleEnv keyB) ⟨10, 0⟩ 0)
      pausedOnce = some s ∧ s.now = 17 ∧ s.timeouts = [(1, 10)] := ⟨_, rfl, rfl, rfl⟩
  obtain ⟨s, hexec, hnow, htimeouts⟩ := hexec
  have hr : (machine (sampleEnv keyB) ⟨10, 0⟩).Reachable s := Machine.reachable_exec (.init ⟨0, rfl⟩) hexec
  exact ⟨s, hnow, htimeouts, (timeouts_keep_pace (sampleEnv keyB) ⟨10, 0⟩ s hr).2.2.2.1⟩

end TimedCore

end AccountabilityGadget.Consensus
