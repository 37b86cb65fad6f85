import AccountabilityGadget.Consensus.InFlight
import AccountabilityGadget.Mempool.Replica

/-!
# Cleaning up in the mempool (`mempool/src/synchronizer.rs`)

`process_block` tells the mempool the round of its block.  The core of the mempool passes the round
on to its synchronizer, which gives up the payloads of all blocks up to this round, and takes the
payloads of the block and its two ancestors from the queue.

* `Synced.step` — the two cores of a node and the inbox of the synchronizer.
* `Synced.NeverAhead` — what is cleaned up is not ahead of the consensus.
* `Synced.never_ahead` — it is so in runs in which blocks that are ahead wait for their parents.
* `Synced.future_cleanup` — a leader can make a node clean up for a round far ahead.
-/

set_option autoImplicit false

namespace AccountabilityGadget.Mempool

open Consensus

def ConsensusMempoolMessage.clean? : ConsensusMempoolMessage → Option RoundNumber
  | .cleanup _ round => some round
  | _ => none

structure Synced where
  replica : Replica
  /-- `SynchronizerMessage::Clean`, from the core of the mempool to its synchronizer. -/
  cleans : List RoundNumber

namespace Synced

inductive Input where
  | replica (i : Replica.Input)
  /-- The synchronizer handles a message; it gives up none of the blocks `kept`: their payloads have
  arrived, or it was not yet waiting for them when the message was sent. -/
  | clean (kept : List Block)
  deriving DecidableEq

def new (env : Setup) : Synced := ⟨.new env, []⟩

/-- What a step sends to the synchronizer. -/
def sent (s : Synced) : Replica.Input → List RoundNumber
  | .serve _ _ => (s.replica.channel.head?.bind ConsensusMempoolMessage.clean?).toList
  | _ => []

/-- The synchronizer keeps the blocks after the round. -/
def withClean (r : Replica) (round : RoundNumber) (kept : List Block) : Replica :=
  { r with
    consensus := { r.consensus with
      payloadPending := r.consensus.payloadPending.filter fun b => round < b.round ∨ b ∈ kept } }

def step (env : Setup) (s : Synced) : Input → Option Synced
  | .replica (.consensus (.payloadCancel _)) => none
  | .replica i => (s.replica.step env i).map fun r => ⟨r, s.cleans ++ s.sent i⟩
  | .clean kept =>
    match s.cleans with
    | [] => none
    | round :: rest => some ⟨withClean s.replica round kept, rest⟩

/-- The consensus of the node gets no `LoopBack` message from the network. -/
def FromPeers (_ : Synced) : Input → Prop
  | .replica (.consensus i) => ∀ b, i ≠ .deliver (.loopBack b)
  | _ => True

/-- The runs in which `LoopBack` messages come from the node's own synchronizers. -/
def machine (env : Setup) : Machine Synced Input :=
  (Machine.ofStep (· = new env) (step env)).restrict FromPeers

/-- What is cleaned up is not ahead of the consensus. -/
structure NeverAhead (env : Setup) (s : Synced) : Prop where
  /-- What the next step of the consensus sends. -/
  sends : ∀ i c es digests r, s.replica.consensus.step env.consensus i = some c →
    c.log = s.replica.consensus.log ++ es → .cleanup digests r ∈ es → r ≤ s.replica.consensus.round
  /-- No block of a later round is given up. -/
  waits : ∀ kept s', s.step env (.clean kept) = some s' →
    ∀ b ∈ s.replica.consensus.payloadPending, s.replica.consensus.round < b.round →
      b ∈ s'.replica.consensus.payloadPending
  /-- What leaves the queue goes to the consensus, or is no longer needed because of a block that is
  not of a later round. -/
  purges : ∀ made storeError s' d, s.step env (.replica (.serve made storeError)) = some s' →
    d ∈ s.replica.mempool.queue → d ∉ s'.replica.mempool.queue →
      (∃ max, s.replica.channel.head? = some (.get max)) ∨
        ∃ digests r, s.replica.channel.head? = some (.cleanup digests r) ∧ d ∈ digests ∧
          r ≤ s.replica.consensus.round

/-- Blocks that are ahead wait for their parents. -/
def PromptStep (env : Setup) (s : Synced) : Input → Prop
  | .replica (.consensus i) => Prompt env.consensus s.replica.consensus i
  | .replica i => ∀ p ∈ i.payloads, Prompt env.consensus s.replica.consensus
      (.storeWrite (p.digest env.consensus.cr.toCrypto) p.encode)
  | .clean _ => True

structure Timely (s : Synced) : Prop where
  inTime : InTime s.replica.consensus
  channel : ∀ digests r, .cleanup digests r ∈ s.replica.channel → r ≤ s.replica.consensus.round
  cleans : ∀ r ∈ s.cleans, r ≤ s.replica.consensus.round

variable {env : Setup} {s s' : Synced} {r r' : Replica}

/-! ## Steps -/

theorem step_replica {i : Replica.Input} (hs : s.step env (.replica i) = some s') :
    ∃ r, s.replica.step env i = some r ∧ s' = ⟨r, s.cleans ++ s.sent i⟩ := by
  have hstep : (s.replica.step env i).map (fun r => ⟨r, s.cleans ++ s.sent i⟩) = some s' := by
    cases i with
    | consensus i =>
      cases i with
      | payloadCancel b => cases hs
      | _ => exact hs
    | _ => exact hs
  obtain ⟨r, hr, rfl⟩ := Option.map_eq_some_iff.mp hstep
  exact ⟨r, hr, rfl⟩

theorem prompt_answer {c : Consensus.Core} (a : Answer) : Prompt env.consensus c a.input := by
  constructor <;> cases a <;> simp [Answer.input]

/-- What the core sees of a step. -/
theorem Timely.core (h : Timely s) {i : Replica.Input} (hpeers : FromPeers s (.replica i))
    (hprompt : PromptStep env s (.replica i)) (hs : s.replica.step env i = some r) :
    InTime r.consensus ∧ s.replica.consensus.round ≤ r.consensus.round := by
  rcases Replica.step_core hs with hsame | ⟨j, hj, hcases⟩
  · rw [hsame]
    exact ⟨h.inTime, le_refl _⟩
  · obtain ⟨hp, hown⟩ : Prompt env.consensus s.replica.consensus j ∧
        ∀ b, j ≠ .deliver (.loopBack b) := by
      rcases hcases with rfl | ⟨a, rfl⟩ | ⟨p, hp, rfl⟩
      · exact ⟨hprompt, hpeers⟩
      · exact ⟨prompt_answer a, by cases a <;> simp [Answer.input]⟩
      · refine ⟨?_, by simp⟩
        cases i with
        | consensus i => cases hp
        | _ => exact hprompt p hp
    exact ⟨h.inTime.step hp hown hj, Consensus.Core.round_le_step hp.last hj⟩

theorem cleanup_withConsensus {c : Consensus.Core} {j : Consensus.Core.Input}
    {digests : List Digest} {n : RoundNumber} (hc : r.consensus.step env.consensus j = some c)
    (hmem : .cleanup digests n ∈ (r.withConsensus env c).channel) :
    .cleanup digests n ∈ r.channel ∨
      ∃ es, Consensus.Core.Writes env.consensus r.consensus es ∧ .cleanup digests n ∈ es := by
  obtain ⟨es, hlog, hw⟩ := Consensus.Core.step_writes hc
  rcases List.mem_append.mp hmem with hmem | hmem
  · rcases List.mem_append.mp hmem with hmem | hmem
    · exact .inl hmem
    · rw [hlog, List.drop_left] at hmem
      obtain ⟨e, he, hcleanup⟩ := List.mem_filterMap.mp hmem
      cases e <;> cases hcleanup
      exact .inr ⟨es, hw, he⟩
  · split at hmem
    · cases hmem
    · exact absurd hmem (Replica.not_mem_request _)

/-- A cleanup on the channel was there before, or the core has just sent it. -/
theorem cleanup_step {i : Replica.Input} {digests : List Digest} {n : RoundNumber}
    (hs : r.step env i = some r') (hmem : .cleanup digests n ∈ r'.channel) :
    .cleanup digests n ∈ r.channel ∨
      ∃ es, Consensus.Core.Writes env.consensus r.consensus es ∧ .cleanup digests n ∈ es := by
  cases i with
  | message m => cases hs; exact .inl hmem
  | serve made storeError =>
    unfold Replica.step at hs
    dsimp only at hs
    split at hs
    · cases hs
    · rename_i m ms hchannel
      cases hs
      rw [hchannel]
      exact .inl (List.mem_cons_of_mem _ (by cases m <;> exact hmem))
  | answer =>
    unfold Replica.step at hs
    dsimp only at hs
    split at hs
    · cases hs
    · obtain ⟨c, hc, rfl⟩ := Option.map_eq_some_iff.mp hs
      exact cleanup_withConsensus (r := { r with answers := _ }) hc hmem
  | consensus i =>
    obtain ⟨c, hc, rfl⟩ := Replica.step_consensus hs
    exact cleanup_withConsensus hc hmem

theorem mem_sent {i : Replica.Input} {n : RoundNumber} (hn : n ∈ s.sent i) :
    ∃ digests, .cleanup digests n ∈ s.replica.channel := by
  cases i with
  | serve made storeError =>
    obtain ⟨m, hm, hclean⟩ := Option.bind_eq_some_iff.mp (Option.mem_toList.mp hn)
    cases m <;> cases hclean
    exact ⟨_, List.mem_of_head? hm⟩
  | _ => cases hn

theorem Timely.clean (h : Timely s) {kept : List Block}
    (hs : s.step env (.clean kept) = some s') : Timely s' := by
  unfold step at hs
  dsimp only at hs
  split at hs
  · cases hs
  · rename_i round rest hcleans
    cases hs
    exact ⟨h.inTime, h.channel, fun r hr => h.cleans r (by rw [hcleans]; exact .tail _ hr)⟩

/-- **Step lemma.** -/
theorem Timely.step (h : Timely s) {i : Input} (hpeers : FromPeers s i)
    (hprompt : PromptStep env s i) (hs : s.step env i = some s') : Timely s' := by
  cases i with
  | clean kept => exact h.clean hs
  | replica i =>
    obtain ⟨r, hr, rfl⟩ := step_replica hs
    obtain ⟨hin, hround⟩ := h.core hpeers hprompt hr
    refine ⟨hin, fun digests n hmem => le_trans ?_ hround, fun n hn => le_trans ?_ hround⟩
    · rcases cleanup_step hr hmem with hmem | ⟨es, hw, he⟩
      · exact h.channel digests n hmem
      · exact h.inTime.cleanup hw he
    · rcases List.mem_append.mp hn with hn | hn
      · exact h.cleans n hn
      · obtain ⟨digests, hmem⟩ := mem_sent hn
        exact h.channel digests n hmem

theorem timely_new : Timely (new env) where
  inTime := inTime_new
  channel digests r hmem := absurd hmem (Replica.not_mem_request _)
  cleans r hr := by cases hr

/-- A timely node is never ahead. -/
theorem Timely.neverAhead (h : Timely s) : NeverAhead env s where
  sends i c es digests r hs hlog hmem := by
    obtain ⟨es', hlog', hw⟩ := Consensus.Core.step_writes hs
    obtain rfl : es = es' := List.append_cancel_left (hlog.symm.trans hlog')
    exact h.inTime.cleanup hw hmem
  waits kept s' hs b hb hround := by
    unfold Synced.step at hs
    dsimp only at hs
    split at hs
    · cases hs
    · rename_i n rest hcleans
      cases hs
      have hle : n ≤ s.replica.consensus.round := h.cleans n (by rw [hcleans]; simp)
      exact List.mem_filter.mpr ⟨hb, by simpa using .inl (lt_of_le_of_lt hle hround)⟩
  purges made storeError s' d hs hd hd' := by
    obtain ⟨r, hr, rfl⟩ := Option.map_eq_some_iff.mp hs
    unfold Replica.step at hr
    dsimp only at hr
    split at hr
    · cases hr
    · rename_i m ms hchannel
      cases hr
      rw [hchannel]
      cases m with
      | get max => exact .inl ⟨max, rfl⟩
      | verify b => exact absurd hd hd'
      | cleanup digests n =>
        refine .inr ⟨digests, n, rfl, ?_, h.channel digests n (by rw [hchannel]; simp)⟩
        by_contra hmem
        exact hd' (List.mem_filter.mpr ⟨hd, by simpa using hmem⟩)

/-- **Cleanup never runs ahead of the consensus**, in every run of prompt steps. -/
theorem never_ahead (env : Setup) (s : Synced)
    (hr : ((machine env).restrict (PromptStep env)).Reachable s) : NeverAhead env s := by
  have h : Timely s := by
    refine Machine.invariant (P := Timely) ?_ ?_ hr
    · intro s h
      rw [show s = new env from h]
      exact timely_new
    · intro s i s' h hs
      exact h.step hs.2.1 hs.1 hs.2.2
  exact h.neverAhead

/-! ## A follower -/

/-- The other authority leads all rounds. -/
def followerSetup : Setup where
  consensus := sampleEnv keyB
  maxPayloadSize := 500
  parameters := .default
  authorities := [keyA, keyB]

/-- A proposal arrives, and the mempool has its payload. -/
def accept (b : Block) : List Input :=
  [.replica (.consensus (.deliver (.propose b))), .replica (.consensus .next),
    .replica (.consensus .next), .replica (.serve none false), .replica .answer]

/-- A block for a round far ahead, on top of the block of the first round. -/
def farBlock : Block := .new sampleBatch (Network.sampleQc Network.block1) none keyA 100 []

/-- `Prompt`, as a check. -/
def inputCheck (env : Consensus.Env) (c : Consensus.Core) : Consensus.Core.Input → Bool
  | .next =>
    c.certificate env ≠ some lastRound &&
      match c.call with
      | .handleProposal b => b.round ≤ Consensus.Core.reached c.round b ∨ c.Suspends b
      | _ => true
  | .loopBack b | .payloadReady b => b.round ≤ c.round ∨ c.Suspends b
  | .storeWrite d _ => c.call.block?.all fun b => b.round ≤ c.due ∨ d ≠ b.parent
  | _ => true

theorem prompt_of_check {env : Consensus.Env} {c : Consensus.Core} {i : Consensus.Core.Input}
    (h : inputCheck env c i = true) : Prompt env c i where
  last hi := by
    subst hi
    exact of_decide_eq_true (Bool.and_eq_true_iff.mp h).1
  round b hi hcall _ _ := by
    subst hi
    have hround := (Bool.and_eq_true_iff.mp h).2
    rw [hcall] at hround
    exact of_decide_eq_true hround
  resumed b hi := by
    rcases hi with rfl | rfl <;> exact of_decide_eq_true h
  written b d value hi hb hahead := by
    subst hi
    rw [inputCheck, hb] at h
    exact (of_decide_eq_true h).resolve_left (not_le.mpr hahead)

/-- `FromPeers` and `PromptStep`, as a check. -/
def promptCheck (env : Setup) (s : Synced) : Input → Bool
  | .replica (.consensus (.deliver (.loopBack _))) => false
  | .replica (.consensus i) => inputCheck env.consensus s.replica.consensus i
  | .replica i => i.payloads.all fun p => inputCheck env.consensus s.replica.consensus
      (.storeWrite (p.digest env.consensus.cr.toCrypto) p.encode)
  | .clean _ => true

theorem promptStep_of_check {i : Input} (h : promptCheck env s i = true) :
    FromPeers s i ∧ PromptStep env s i := by
  cases i with
  | clean kept => exact ⟨trivial, trivial⟩
  | replica i =>
    cases i with
    | consensus i =>
      have hown : ∀ b, i ≠ .deliver (.loopBack b) := by
        rintro b rfl
        cases h
      refine ⟨hown, prompt_of_check ?_⟩
      cases i with
      | deliver m => rfl
      | _ => exact h
    | _ => exact ⟨trivial, fun p hp => prompt_of_check (List.all_eq_true.mp h p hp)⟩

/-- The block far ahead waits for its parent while the follower cleans up for the latter. -/
theorem never_ahead_follower : ∃ s : Synced, farBlock ∈ s.replica.consensus.pending ∧
    .cleanup [] 1 ∈ s.replica.consensus.log ∧ NeverAhead followerSetup s := by
  have hrun : ((Machine.execIf (promptCheck followerSetup) (step followerSetup) (new followerSetup)
      (accept farBlock ++ [.replica (.consensus .next)] ++ accept Network.block1 ++
        [.replica (.consensus .next), .replica (.serve none false), .clean []])).any fun s =>
          decide (farBlock ∈ s.replica.consensus.pending ∧
            .cleanup [] 1 ∈ s.replica.consensus.log)) = true := by
    decide +kernel
  rw [Option.any_eq_true] at hrun
  obtain ⟨s, hs, h⟩ := hrun
  obtain ⟨hpending, hlog⟩ := of_decide_eq_true h
  have hr : ((Machine.ofStep (· = new followerSetup) (step followerSetup)).restrict
      fun s i => FromPeers s i ∧ PromptStep followerSetup s i).Reachable s :=
    Machine.reachable_execIf (fun _ _ => promptStep_of_check) (.init rfl) hs
  refine ⟨s, hpending, hlog, never_ahead followerSetup s ?_⟩
  apply Machine.Reachable.mono ?_ ?_ hr
  · exact fun _ h => h
  · exact fun _ _ _ h => ⟨h.1.2, h.1.1, h.2⟩

/-- A block for a round far ahead, with a payload that the node has. -/
def futureBlock : Block :=
  .new sampleBatch .genesis none keyA 100 [harmless.digest sampleBatch.toCrypto]

/-- Anything but a message of the node's own synchronizers. -/
def notLoopBack : Input → Bool
  | .replica (.consensus (.deliver (.loopBack _))) => false
  | _ => true

/-- **A leader of a later round makes the node clean up for that round** in the first one. -/
theorem future_cleanup :
    ¬ ∀ (env : Setup) (s : Synced), (machine env).Reachable s → NeverAhead env s := by
  intro h
  have hrun : ((Machine.execIf (fun _ => notLoopBack) (step followerSetup) (new followerSetup)
      (.replica (.message (.payload harmless)) :: accept futureBlock)).any fun s =>
        (s.replica.consensus.step followerSetup.consensus .next).any fun c =>
          decide (s.replica.consensus.round = 1 ∧
            .cleanup futureBlock.payload 100 ∉ s.replica.consensus.log ∧
            .cleanup futureBlock.payload 100 ∈ c.log)) = true := by
    decide +kernel
  rw [Option.any_eq_true] at hrun
  obtain ⟨s, hs, hstep⟩ := hrun
  rw [Option.any_eq_true] at hstep
  obtain ⟨c, hc, hdec⟩ := hstep
  obtain ⟨hround, hold, hnew⟩ := of_decide_eq_true hdec
  have hreach : (machine followerSetup).Reachable s := by
    refine Machine.reachable_execIf ?_ (.init rfl) hs
    intro s i hi
    cases i with
    | clean kept => trivial
    | replica i =>
      cases i with
      | consensus i =>
        rintro b rfl
        cases hi
      | _ => trivial
  obtain ⟨es, hlog, -⟩ := Consensus.Core.step_writes hc
  have hmem : .cleanup futureBlock.payload 100 ∈ es := by
    rw [hlog] at hnew
    exact (List.mem_append.mp hnew).resolve_left hold
  have hle := (h followerSetup s hreach).sends .next c es _ _ hc hlog hmem
  rw [hround] at hle
  exact absurd hle (by decide)

end Synced

end AccountabilityGadget.Mempool
