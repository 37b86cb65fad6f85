import AccountabilityGadget.Consensus.Ancestors
import AccountabilityGadget.Consensus.InFlight
import AccountabilityGadget.Consensus.Leader
import AccountabilityGadget.Consensus.StakeSums
import AccountabilityGadget.Consensus.Verified

/-!
# What a message can crash

Round numbers of messages reach additions in `u64` without a check: `advance_round` adds one, the
leader elector adds its constant, `process_block` and `make_vote` add one to the rounds of blocks
and certificates.  A timeout certificate of a `TC` message, which nobody verifies, ends up in the
block of the next leader, and `make_vote` expects votes in it.  The store is shared with the
mempool, and the decoder of blocks panics on some of its values.

* `Core.sums` — the sums of rounds and of stakes that a step forms, as natural numbers.
* `Unbroken` — no sum has overflowed, and no message has stopped the core.
* `Moderate` — what the messages of a step may say about rounds, a `TC` for a leader has votes, and
  what is read from the store decodes without a panic.
* `Contained`, `Contained.step` — then all blocks that the core may vote for are harmless.
* `never_breaks` — a core whose steps are moderate is unbroken.
* `messages_break` — one message without votes, or of the last round number, breaks a core, and so
  does a request for a payload.
-/

set_option autoImplicit false

namespace AccountabilityGadget.Consensus

open Encoding

/-! ## Sums -/

/-- The sum of `advance_round`. -/
def advanceSums (current round : RoundNumber) : List ℕ :=
  if round < current then [] else [round.val + 1]

/-- The sum of `get_leader`. -/
def leaderSum (seed : U64) (round : RoundNumber) : ℕ := seed.val + round.val

/-- A sum of round numbers or of stakes, without wrapping. -/
inductive Formed where
  | round (n : ℕ)
  | stake (n : ℕ)
  deriving DecidableEq

/-- The sum is a value of its type. -/
def Formed.Fits : Formed → Prop
  | .round n => n < 2 ^ 64
  | .stake n => n < 2 ^ 32

namespace Core

variable (seed : U64) (env : Env)

/-- The sums of `make_vote`. -/
def voteSums (b : Block) : List ℕ :=
  (b.qc.round.val + 1) :: b.tc.toList.map fun tc => tc.round.val + 1

/-- The sums of `process_block`. -/
def processSums (s : Core) (b : Block) : List ℕ :=
  match s.getAncestors b with
  | .ok (some (b0, _)) =>
    (b0.round.val + 1) ::
      if b.round ≠ s.round then []
      else voteSums b ++ match s.makeVote env b with
        | .ok (_, some _) => [s.round.val + 1, leaderSum seed (s.round + 1)]
        | _ => []
  | _ => []

/-- The sums of rounds that the pending call forms. -/
def roundSums (s : Core) : List ℕ :=
  let advance := (s.certificate env).toList.flatMap (advanceSums s.round)
  let leader := (s.certificate env).toList.map fun r => leaderSum seed (nextRound s.round r)
  match s.call with
  | .handleProposal b => leaderSum seed b.round :: advance
  | .processTc _ => advance
  | .processBlock b => s.processSums seed env b
  | .handleVote _ | .handleTimeout _ | .handleTc _ => advance ++ leader
  | _ => []

/-- The sums that a step forms. -/
def sums (s : Core) : Input → List Formed
  | .next => (s.roundSums seed env).map .round ++ (s.stakeSums env).map .stake
  | _ => []

/-- All runs, with the sums formed so far, that for the leader of the first round included. -/
def summing : Machine (Core × List Formed) Input :=
  .ofStep (· = (new env, [.round (leaderSum seed 1)])) (Machine.record (step env) (sums seed env))

end Core

/-- The panics of `run` outside its handlers: while the leader of the first round boots, and while
the core is paused. -/
def Outside (env : Env) (p : Panic) : Prop :=
  env.name = env.leader 1 ∧ p = .expect "Failed to send the first block" ∨
    p = .expect "Failed to wait for trigger to resume!"

/-- No handler has panicked, and no sum has overflowed. -/
structure Unbroken (env : Env) (p : Core × List Formed) : Prop where
  running : ∀ q, p.1.call = .stopped q → Outside env q
  sums : ∀ f ∈ p.2, f.Fits

/-- A certificate after which there is a leader, and one of the next round. -/
def Led (seed : U64) (round : RoundNumber) : Prop := seed.val + round.val + 2 < 2 ^ 64

instance {seed : U64} {round : RoundNumber} : Decidable (Led seed round) :=
  inferInstanceAs (Decidable (_ < _))

/-- Processing the block forms no sum that overflows, and does not stop the core. -/
structure Harmless (current : RoundNumber) (b : Block) : Prop where
  round : b.round ≠ lastRound
  qc : current ≤ b.round → b.qc.round ≠ lastRound
  tc : current ≤ b.round → ∀ tc, b.tc = some tc → tc.round ≠ lastRound ∧ tc.votes ≠ []

/-- What the input may bring along. -/
structure Moderate (seed : U64) (env : Env) (s : Core) (i : Core.Input) : Prop where
  certificate : ∀ r, i = .next → s.certificate env = some r → s.round ≤ r → Led seed r
  proposal : ∀ b, i = .next → s.call = .handleProposal b → leaderSum seed b.round < 2 ^ 64
  accepted : ∀ b, i = .next → s.call = .handleProposal b → b.author = env.leader b.round →
    b.verify env.cr env.committee = .ok () → b.round ≠ lastRound ∧
      ∀ tc, b.tc = some tc → s.round ≤ tc.round → Led seed tc.round
  tc : ∀ tc, i = .next → s.call = .handleTc tc →
    env.name = env.leader (nextRound s.round tc.round) →
      env.boycottProposals = true ∨ tc.votes ≠ []
  loopBack : ∀ b, i = .deliver (.loopBack b) → Harmless s.round b
  request : ∀ d sender, i = .deliver (.syncRequest d sender) →
    ∀ p, s.store d ≠ some (.error (.panic p))
  parent : ∀ b, i = .next → s.call = .processBlock b → b.qc.eq .genesis = false →
    ∀ p, s.store b.parent ≠ some (.error (.panic p))
  store : OwnBlocks env s i

structure Contained (seed : U64) (env : Env) (s : Core) : Prop where
  round : seed.val + s.round.val + 1 < 2 ^ 64
  high : s.highQc.round < s.round
  flight : ∀ b, s.InFlight b → Harmless s.round b
  stored : ∀ d b, s.store d = some (.ok b) → b.round ≠ lastRound
  /-- The timeout certificate of the block that is about to be made. -/
  proposal : ∀ tc, s.call = .generateProposal (some tc) →
    env.boycottProposals = true ∨ tc.round ≠ lastRound ∧ tc.votes ≠ []
  rooted : Rooted env s
  backed : Backed env .none s
  booting : s.booting = true → env.name = env.leader 1
  running : ∀ q, s.call = .stopped q → Outside env q

variable {seed : U64} {env : Env} {s s' : Core} {i : Core.Input} {b : Block}

/-! ## Rounds -/

theorem ne_lastRound_of_lt {r r' : RoundNumber} (h : r < r') : r ≠ lastRound :=
  ne_of_lt (lt_of_lt_of_le h (Fin.le_last r'))

theorem Led.ne_lastRound {r : RoundNumber} (h : Led seed r) : r ≠ lastRound := by
  rintro rfl
  unfold Led lastRound at h
  simp only [Fin.val_last] at h
  omega

theorem val_add_one {r : RoundNumber} (h : r ≠ lastRound) : (r + 1).val = r.val + 1 := by
  have hne : nextRound r r ≠ 0 := nextRound_ne_zero h
  rw [nextRound, if_neg (lt_irrefl r)] at hne
  exact val_succ hne

theorem lt_of_ne_lastRound {r : RoundNumber} (h : r ≠ lastRound) : r.val + 1 < 2 ^ 64 := by
  rw [← val_add_one h]
  exact (r + 1).isLt

/-- The next round has a leader, as well as the one after it. -/
theorem led_nextRound {current round : RoundNumber} (hc : seed.val + current.val + 1 < 2 ^ 64)
    (h : current ≤ round → Led seed round) :
    seed.val + (nextRound current round).val + 1 < 2 ^ 64 := by
  unfold nextRound
  split_ifs with hlt
  · exact hc
  · have hled := h (not_lt.mp hlt)
    rw [val_add_one hled.ne_lastRound]
    unfold Led at hled
    omega

/-- Certificates of earlier rounds, and those that a leader follows, are not of the last one. -/
theorem ne_lastRound_of_led {current round : RoundNumber} (h : current ≤ round → Led seed round) :
    round ≠ lastRound := by
  by_cases hle : current ≤ round
  · exact (h hle).ne_lastRound
  · exact ne_lastRound_of_lt (not_le.mp hle)

theorem Harmless.mono {round round' : RoundNumber} (h : Harmless round b) (hle : round ≤ round') :
    Harmless round' b :=
  ⟨h.round, fun hb => h.qc (hle.trans hb), fun hb => h.tc (hle.trans hb)⟩

theorem Harmless.voteSums (h : Harmless s.round b) (hb : b.round = s.round) :
    ∀ n ∈ Core.voteSums b, n < 2 ^ 64 := by
  intro n hn
  rcases List.mem_cons.mp hn with rfl | hn
  · exact lt_of_ne_lastRound (h.qc hb.ge)
  · obtain ⟨tc, htc, rfl⟩ := List.mem_map.mp hn
    exact lt_of_ne_lastRound (h.tc hb.ge tc (Option.mem_toList.mp htc)).1

theorem Moderate.ne_lastRound (h : Moderate seed env s i) (hi : i = .next) :
    s.certificate env ≠ some lastRound := by
  intro hc
  exact (h.certificate _ hi hc (Fin.le_last _)).ne_lastRound rfl

theorem Moderate.round_le (h : Moderate seed env s i) (hs : s.step env i = some s') :
    s.round ≤ s'.round :=
  Core.round_le_step h.ne_lastRound hs

namespace Core

/-- Where the timeout certificate of the next own block comes from. -/
theorem step_proposal {tc : TC} (hs : s.step env i = some s')
    (hcall : s'.call = .generateProposal (some tc)) :
    s.call = .generateProposal (some tc) ∨ i = .next ∧ s.certificate env = some tc.round ∧
      (tc.votes ≠ [] ∨ s.call = .handleTc tc ∧
        env.name = env.leader (nextRound s.round tc.round)) := by
  cases step_starts hs hcall with
  | before hbefore => exact .inl hbefore
  | assembleTc hi hc hle hv htc hp =>
    refine .inr ⟨hi, certificate_handleTimeout hc hle hv htc, .inl ?_⟩
    obtain ⟨votes, hvotes, rfl⟩ := Aggregator.addTimeout_eq_some htc
    obtain ⟨-, -, rfl⟩ := Maker.append_eq_some hvotes
    simp
  | receiveTc hi hc hp hleader =>
    refine .inr ⟨hi, certificate_handleTc hc, .inr ⟨hc, ?_⟩⟩
    rw [hleader, hp.round, round_advanceRound]

end Core

/-! ## One step -/

/-- A proposal that passes the checks is harmless. -/
theorem Moderate.harmless (hi : Moderate seed env s .next)
    (hcall : s.call = .handleProposal b) (hl : b.author = env.leader b.round)
    (hv : b.verify env.cr env.committee = .ok ()) : Harmless s.round b := by
  obtain ⟨hround, htc⟩ := hi.accepted b rfl hcall hl hv
  obtain ⟨-, -, -, hverified⟩ := Block.verify_eq_ok.mp hv
  have hcert : s.certificate env = some b.qc.round := by
    simp only [Core.certificate, hcall, if_pos hl, hv]
  refine ⟨hround, fun _ => ne_lastRound_of_led (hi.certificate _ rfl hcert), ?_⟩
  intro _ tc hb
  refine ⟨ne_lastRound_of_led (htc tc hb), ?_⟩
  intro hnil
  have hne := (TC.quorate_of_verify (hverified tc hb)).1.ne_nil
  exact hne (by rw [hnil]; rfl)

namespace Contained

theorem ne_lastRound (h : Contained seed env s) : s.round ≠ lastRound := by
  have hround := h.round
  intro hl
  rw [hl] at hround
  have : lastRound.val = 2 ^ 64 - 1 := rfl
  omega

/-- Certificates that a moderate input brings along. -/
theorem led (h : Contained seed env s) (hi : Moderate seed env s .next) {r : RoundNumber}
    (hc : s.certificate env = some r) : leaderSum seed (nextRound s.round r) + 1 < 2 ^ 64 :=
  led_nextRound h.round (hi.certificate r rfl hc)

/-- The ancestors of a block have next rounds. -/
theorem ancestor (h : Contained seed env s) {b0 b1 : Block}
    (ha : s.getAncestors b = .ok (some (b0, b1))) : b0.round ≠ lastRound := by
  obtain ⟨-, h0⟩ := Core.getAncestors_some ha
  rcases Core.getParentBlock_some h0 with ⟨-, rfl⟩ | ⟨-, hstore⟩
  · decide
  · exact h.stored _ _ hstore

theorem processSums (h : Contained seed env s) (hcall : s.call = .processBlock b) :
    ∀ n ∈ s.processSums seed env b, n < 2 ^ 64 := by
  have hb : Harmless s.round b := h.flight b (.inr (by rw [hcall]; rfl))
  intro n hn
  unfold Core.processSums at hn
  split at hn
  · rename_i b0 b1 ha
    rcases List.mem_cons.mp hn with rfl | hn
    · exact lt_of_ne_lastRound (h.ancestor ha)
    · split_ifs at hn with hr
      · cases hn
      · rcases List.mem_append.mp hn with hn | hn
        · exact hb.voteSums (not_not.mp hr) n hn
        · split at hn
          · have hsucc := val_add_one h.ne_lastRound
            simp only [List.mem_cons, List.not_mem_nil, or_false] at hn
            rcases hn with rfl | rfl
            · exact lt_of_ne_lastRound h.ne_lastRound
            · rw [leaderSum, hsucc]
              exact h.round
          · cases hn
  · cases hn

theorem roundSums (h : Contained seed env s) (hi : Moderate seed env s .next) :
    ∀ n ∈ s.roundSums seed env, n < 2 ^ 64 := by
  have hadvance : ∀ n ∈ (s.certificate env).toList.flatMap (advanceSums s.round), n < 2 ^ 64 := by
    intro n hn
    obtain ⟨r, hr, hn⟩ := List.mem_flatMap.mp hn
    unfold advanceSums at hn
    split_ifs at hn with hlt
    · cases hn
    · rw [List.mem_singleton.mp hn]
      have hled := hi.certificate r rfl (Option.mem_toList.mp hr) (not_lt.mp hlt)
      exact lt_of_ne_lastRound hled.ne_lastRound
  have hleader : ∀ n ∈ (s.certificate env).toList.map fun r =>
      leaderSum seed (nextRound s.round r), n < 2 ^ 64 := by
    intro n hn
    obtain ⟨r, hr, rfl⟩ := List.mem_map.mp hn
    exact Nat.lt_of_succ_lt (h.led hi (Option.mem_toList.mp hr))
  have hboth := fun n hn => (List.mem_append.mp hn).elim (hadvance n) (hleader n)
  intro n hn
  unfold Core.roundSums at hn
  dsimp only at hn
  split at hn
  · rename_i b hcall
    rcases List.mem_cons.mp hn with rfl | hn
    · exact hi.proposal b rfl hcall
    · exact hadvance n hn
  · exact hadvance n hn
  · rename_i hcall
    exact h.processSums hcall n hn
  · exact hboth n hn
  · exact hboth n hn
  · exact hboth n hn
  · cases hn

/-- **No sum of a moderate step overflows.** -/
theorem sums (hc : env.committee.total < 2 ^ 31) (h : Contained seed env s)
    (hi : Moderate seed env s i) : ∀ f ∈ s.sums seed env i, f.Fits := by
  cases i with
  | next =>
    intro f hf
    rcases List.mem_append.mp hf with hf | hf
    · obtain ⟨n, hn, rfl⟩ := List.mem_map.mp hf
      exact h.roundSums hi n hn
    · obtain ⟨n, hn, rfl⟩ := List.mem_map.mp hf
      exact Core.stakeSums_lt hc h.backed n hn
  | _ => intro f hf; cases hf

section

variable (h : Contained seed env s) (hi : Moderate seed env s i) (hs : s.step env i = some s')

include h hi hs

/-- Blocks in flight are harmless, wherever they come from. -/
theorem flight_step (hb : s'.InFlight b) : Harmless s'.round b := by
  have hle := hi.round_le hs
  cases Core.step_inFlight hs hb with
  | before hb => exact (h.flight b hb).mono hle
  | proposal hnext hcall hl hv =>
    subst hnext
    exact (hi.harmless hcall hl hv).mono hle
  | own hcall hboycott hb =>
    subst hb
    apply Harmless.mono _ hle
    refine ⟨h.ne_lastRound, fun _ => ne_lastRound_of_lt h.high, ?_⟩
    intro _ tc htc
    apply (h.proposal tc (hcall.trans (congrArg _ htc))).resolve_left
    rw [hboycott]
    exact Bool.false_ne_true
  | loopBack hb => exact (hi.loopBack b hb).mono hle

/-- Only blocks in flight are stored. -/
theorem stored_step {d : Digest} (hb : s'.store d = some (.ok b)) : b.round ≠ lastRound := by
  rcases Core.step_cases hs with hq | ⟨k, v, rfl, -⟩ | ⟨c, b0, b1, hcall, -, hstore, -⟩
  · rw [hq.store] at hb
    exact h.stored d b hb
  · obtain ⟨hvalue, -⟩ := hi.store
    cases hs
    dsimp only at hb
    by_cases hd : d = k
    · rw [hd, Function.update_self, Option.some.injEq] at hb
      exact absurd hb (hvalue b)
    · rw [Function.update_of_ne hd] at hb
      exact h.stored d b hb
  · rw [hstore] at hb
    by_cases hd : d = c.digest env.cr
    · rw [hd, Function.update_self] at hb
      cases hb
      exact (h.flight b (.inr (by rw [hcall]; rfl))).round
    · rw [Function.update_of_ne hd] at hb
      exact h.stored d b hb

theorem proposal_step {tc : TC} (hcall : s'.call = .generateProposal (some tc)) :
    env.boycottProposals = true ∨ tc.round ≠ lastRound ∧ tc.votes ≠ [] := by
  rcases Core.step_proposal hs hcall with hbefore | ⟨rfl, hc, htc⟩
  · exact h.proposal tc hbefore
  · have hround : tc.round ≠ lastRound := ne_lastRound_of_led (hi.certificate _ rfl hc)
    rcases htc with hvotes | ⟨hc, hl⟩
    · exact .inr ⟨hround, hvotes⟩
    · exact (hi.tc tc rfl hc hl).imp_right fun hvotes => ⟨hround, hvotes⟩

/-- The ancestors are there, and so are the votes of timeout certificates. -/
theorem running_step {q : Panic} (hq : s'.call = .stopped q) : Outside env q := by
  rcases Core.step_stopped hs hq with hbefore | hstop
  · exact h.running q hbefore
  · cases hstop with
    | boot hboot => exact .inl ⟨h.booting hboot, rfl⟩
    | resume => exact .inr rfl
    | request hd hstore => exact absurd hstore (hi.request _ _ hd _)
    | @ancestors b _ hn hcall ha =>
      have hqc : b.qc.eq .genesis = false := by
        by_contra hg
        have hread := Core.getAncestors_genesis (s := s) (Bool.not_eq_false _ ▸ hg)
        rw [ha] at hread
        cases hread
      exact absurd (h.rooted.getAncestors ha) (hi.parent b hn hcall hqc _)
    | @vote b _ _ hcall hr hrule =>
      obtain ⟨-, tc, htc, hnil⟩ := Core.safetyRule2_error hrule
      have hb : Harmless s.round b := h.flight b (.inr (by rw [hcall]; rfl))
      exact absurd hnil (hb.tc hr.ge tc htc).2

/-- **Step lemma.** -/
theorem step : Contained seed env s' where
  round := by
    rcases Core.step_round hs with hr | ⟨rfl, r, hc, hr⟩
    · rw [hr]
      exact h.round
    · rw [hr]
      exact h.led hi hc
  high := by
    apply Core.behind_step h.high hs
    exact ne_of_gt (lt_of_le_of_lt (Fin.zero_le _) (h.high.trans_le (hi.round_le hs)))
  flight _ := h.flight_step hi hs
  stored _ _ := h.stored_step hi hs
  proposal _ := h.proposal_step hi hs
  rooted := h.rooted.step hi.store hs
  backed := backed_step_none h.backed hs
  booting hb := h.booting (Core.booting_step hs hb)
  running _ := h.running_step hi hs

end

end Contained

theorem contained_new (hseed : Led seed 0) : Contained seed env (Core.new env) where
  round := hseed
  high := Fin.pos_of_ne_zero (by simp [Core.new])
  flight b hb := by
    rcases hb with hb | hb
    · cases hb
    · unfold Core.new at hb
      dsimp only at hb
      split at hb <;> cases hb
  stored d b hb := by cases hb
  proposal tc hcall := by
    unfold Core.new at hcall
    dsimp only at hcall
    split at hcall <;> cases hcall
  rooted := rooted_new
  backed := backed_new
  booting h := of_decide_eq_true h
  running q hq := by
    unfold Core.new at hq
    dsimp only at hq
    split at hq <;> cases hq

/-- **No message breaks a core whose steps are moderate**: no handler panics, and no sum of round
numbers or of stakes overflows. -/
theorem never_breaks (e : RandomLeaderElector) (gen : U64 → ℕ) (cr : BatchCrypto) (name : PublicKey)
    (boycott : Bool) (hc : e.committee.total < 2 ^ 31) (hseed : Led e.rngSeed 0)
    (p : Core × List Formed)
    (hr : ((Core.summing e.rngSeed (e.env gen cr name boycott)).restrict fun p i =>
      Moderate e.rngSeed (e.env gen cr name boycott) p.1 i).Reachable p) :
    Unbroken (e.env gen cr name boycott) p := by
  have h : Contained e.rngSeed (e.env gen cr name boycott) p.1 ∧ ∀ f ∈ p.2, f.Fits := by
    refine Machine.invariant (P := fun p =>
      Contained e.rngSeed (e.env gen cr name boycott) p.1 ∧ ∀ f ∈ p.2, f.Fits) ?_ ?_ hr
    · intro p hp
      rw [show p = _ from hp]
      refine ⟨contained_new hseed, ?_⟩
      intro f hf
      rw [List.mem_singleton.mp hf]
      exact Nat.lt_of_succ_lt hseed
    · rintro ⟨s, fs⟩ i p' ⟨h, hfs⟩ ⟨hi, hs⟩
      obtain ⟨s', hs', rfl⟩ := Option.map_eq_some_iff.mp hs
      refine ⟨h.step hi hs', ?_⟩
      intro f hf
      exact (List.mem_append.mp hf).elim (hfs f) (h.sums hc hi f)
  exact ⟨h.1.running, h.2⟩

/-! ## A node that leads every round -/

def sampleElector : RandomLeaderElector := .new sampleCommittee (by decide +kernel)

/-- The second authority; every draw is its index. -/
def drawnEnv : Env := sampleElector.env (fun _ => 1) sampleBatch keyB false

/-- `Moderate`, for messages that are votes. -/
def moderateVotes (p : Core × List Formed) : Core.Input → Bool
  | .deliver (.vote _) | .payload _ => true
  | .next =>
    match p.1.call with
    | .handleProposal _ | .handleTc _ => false
    | .processBlock b => (p.1.store b.parent).all fun value => value.isOk
    | _ => (p.1.certificate drawnEnv).all fun r => decide (Led sampleElector.rngSeed r)
  | _ => false

theorem moderate_of_votes {p : Core × List Formed} (h : moderateVotes p i = true) :
    Moderate sampleElector.rngSeed drawnEnv p.1 i := by
  have hother : i ≠ .next → (∀ b, i ≠ .deliver (.loopBack b)) →
      (∀ d sender, i ≠ .deliver (.syncRequest d sender)) → OwnBlocks drawnEnv p.1 i →
      Moderate sampleElector.rngSeed drawnEnv p.1 i := by
    intro hne hloop hrequest hown
    exact ⟨fun _ hn => absurd hn hne, fun _ hn => absurd hn hne, fun _ hn => absurd hn hne,
      fun _ hn => absurd hn hne, fun b hb => absurd hb (hloop b),
      fun d sender hd => absurd hd (hrequest d sender), fun _ hn => absurd hn hne, hown⟩
  unfold moderateVotes at h
  split at h
  · exact hother (by simp) (by simp) (by simp) trivial
  · exact hother (by simp) (by simp) (by simp) trivial
  · split at h
    · cases h
    · cases h
    · rename_i c hcall
      refine ⟨?_, ?_, ?_, ?_, ?_, ?_, ?_, trivial⟩
      · intro r _ hr
        simp [Core.certificate, hcall] at hr
      · exact fun b _ hb => by simp [hcall] at hb
      · exact fun b _ hb => by simp [hcall] at hb
      · exact fun tc _ hc => by simp [hcall] at hc
      · exact fun b hb => by cases hb
      · exact fun d sender hd => by cases hd
      · intro b _ hb _ q hq
        rw [hcall] at hb
        cases hb
        rw [hq] at h
        cases h
    · rename_i hproposal htc hblock
      refine ⟨?_, ?_, ?_, ?_, ?_, ?_, ?_, trivial⟩
      · intro r _ hr _
        exact of_decide_eq_true ((Option.all_eq_true _ _).mp h r hr)
      · exact fun b _ hb => absurd hb (hproposal b)
      · exact fun b _ hb => absurd hb (hproposal b)
      · exact fun tc _ hc => absurd hc (htc tc)
      · exact fun b hb => by cases hb
      · exact fun d sender hd => by cases hd
      · exact fun b _ hb => absurd hb (hblock b)
  · cases h

/-- Its own vote is no quorum; the vote of the first authority moves it to the second round. -/
theorem never_breaks_leader :
    ∃ p : Core × List Formed, p.1.round = 2 ∧ Unbroken drawnEnv p := by
  have hrun : ((Machine.execIf moderateVotes (Machine.record (Core.step drawnEnv)
      (Core.sums sampleElector.rngSeed drawnEnv))
      (Core.new drawnEnv, [.round (leaderSum sampleElector.rngSeed 1)])
      [.payload [], .next, .next, .deliver (.vote (.new sampleBatch (.new sampleBatch .genesis none
        keyB 1 []) keyA)), .next, .payload [], .next, .next]).any fun p =>
          decide (p.1.round = 2)) = true := by
    decide +kernel
  rw [Option.any_eq_true] at hrun
  obtain ⟨p, hp, h⟩ := hrun
  exact ⟨p, of_decide_eq_true h, never_breaks sampleElector (fun _ => 1) sampleBatch keyB false
    (by decide +kernel) (by decide +kernel) p
    (Machine.reachable_execIf (fun _ _ => moderate_of_votes) (.init rfl) hp)⟩

/-- A payload of one transaction, as the mempool stores it; read as a block, it has a certificate
with one vote, whose author is the empty text. -/
def unreadablePayload : Bytes :=
  leBytes 8 1 ++ leBytes 8 40 ++ List.replicate 24 0 ++ leBytes 8 1 ++ leBytes 8 0

/-- **One message breaks a core**: a `TC` without votes stops the next leader, one of the last round
number makes the round overflow, and so does a request for a stored payload stop any core. -/
theorem messages_break :
    (¬ ∀ p, (Core.summing sampleElector.rngSeed drawnEnv).Reachable p →
      ∀ q, p.1.call = .stopped q → Outside drawnEnv q) ∧
    (¬ ∀ p, (Core.summing sampleElector.rngSeed drawnEnv).Reachable p → ∀ f ∈ p.2, f.Fits) ∧
    ∃ p, (Core.summing sampleElector.rngSeed drawnEnv).Reachable p ∧ p.1.call = .stopped .slice := by
  refine ⟨?_, ?_, ?_⟩
  · intro h
    have hrun : ((Machine.exec (Machine.record (Core.step drawnEnv)
        (Core.sums sampleElector.rngSeed drawnEnv))
        (Core.new drawnEnv, [.round (leaderSum sampleElector.rngSeed 1)])
        [.payload [], .next, .next, .deliver (.tc ⟨1, []⟩), .next, .payload [], .next]).any fun p =>
          decide (p.1.call = .stopped (.expect "Empty TC"))) = true := by
      decide +kernel
    rw [Option.any_eq_true] at hrun
    obtain ⟨p, hp, hstop⟩ := hrun
    have hout := h p (Machine.reachable_exec (.init rfl) hp) _ (of_decide_eq_true hstop)
    simp [Outside] at hout
  · intro h
    have hrun : ((Machine.exec (Machine.record (Core.step drawnEnv)
        (Core.sums sampleElector.rngSeed drawnEnv))
        (Core.new drawnEnv, [.round (leaderSum sampleElector.rngSeed 1)])
        [.payload [], .next, .next, .deliver (.tc ⟨lastRound, []⟩), .next]).any fun p =>
          decide (.round (2 ^ 64) ∈ p.2)) = true := by
      decide +kernel
    rw [Option.any_eq_true] at hrun
    obtain ⟨p, hp, hmem⟩ := hrun
    have hlt := h p (Machine.reachable_exec (.init rfl) hp) _ (of_decide_eq_true hmem)
    exact absurd hlt (lt_irrefl _)
  · have hrun : ((Machine.exec (Machine.record (Core.step drawnEnv)
        (Core.sums sampleElector.rngSeed drawnEnv))
        (Core.new drawnEnv, [.round (leaderSum sampleElector.rngSeed 1)])
        [.payload [], .next, .next, .storeWrite .ones unreadablePayload,
          .deliver (.syncRequest .ones keyA)]).any fun p =>
            decide (p.1.call = .stopped .slice)) = true := by
      decide +kernel
    rw [Option.any_eq_true] at hrun
    obtain ⟨p, hp, hstop⟩ := hrun
    exact ⟨p, Machine.reachable_exec (.init rfl) hp, of_decide_eq_true hstop⟩

end AccountabilityGadget.Consensus
