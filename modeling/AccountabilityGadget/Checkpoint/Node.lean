import AccountabilityGadget.Checkpoint.LogAcc

/-!
# The checkpoint tasks of one node, together

The extractor broadcasts its decisions to two receivers: the relay task, which merges them with
the proposals of leaders into the queue of the proposer, and the tree manager.  The proposer asks
the manager over a third queue.  All queues are FIFO; each task takes its steps at any time, and the
`select!` of the manager takes any branch that is ready.

* `Node.step`, `Node.machine` — the composition and its runs.
* `InSync` — the manager answers a validation from the checkpoints that the proposer has seen, or
  from one that extends them.
* `Inv` — the queues hold what has been decided and not consumed; a positive answer under way, and
  every accept, is for a block that extends the last checkpoint.
* `no_rollback` — in runs whose validations are in sync no accepted block rolls back a checkpoint.
* `stale_validation` — a run in which the manager validates before it drains its queue.
-/

set_option autoImplicit false

namespace AccountabilityGadget

open Ancestry

structure NodeEnv where
  cr : Crypto
  committee : CheckpointCommittee
  proposer : ProposerEnv
  tree : TreeParameters

structure Node where
  extractor : Extractor
  extractorStopped : Option Panic
  /-- All events that the extractor has sent. -/
  decided : List CheckpointEvent
  toRelay : List CheckpointEvent
  relayStopped : Option Panic
  /-- The queue of the proposer. -/
  fusioned : List CheckpointEvent
  proposer : Proposer
  cmds : List ManagerCmd
  /-- The answer on its way back to the proposer. -/
  answer : Option ManagerAnswer
  toManager : List CheckpointEvent
  manager : Manager

/-- The command whose answer the proposer waits for. -/
def Phase.request : Phase → Option ManagerCmd
  | proposing => some .getCurrentProposal
  | validating b => some (.validateProposal b)
  | _ => none

namespace Node

def new (cr : Crypto) : Node :=
  ⟨.new, none, [], [], none, [], .new, [], none, [], .new cr⟩

inductive Input where
  /-- The extractor reads a transaction. -/
  | ledger (ord : VoteOrder) (tx : Bytes)
  /-- The relay task forwards a decision. -/
  | relayEvent
  /-- The relay task reads a message of the `proposals` topic. -/
  | relayProposal (v : Bytes)
  /-- The proposer runs, a timer elapses, or it takes the proposal to act on. -/
  | tick
  | timer
  | act
  | resumeTask (j : ℕ)
  /-- The proposer takes an event from its queue, or finds it closed. -/
  | consume
  /-- The proposer takes the manager's answer. -/
  | receive
  /-- The proposer learns that the manager is gone. -/
  | managerLost
  /-- The manager takes a block, an event or a command. -/
  | managerMessage (ord : HashOrder Digest) (v : Bytes)
  | managerEvent (ord : HashOrder Digest)
  | managerCommand (ord : HashOrder Digest)

variable (env : NodeEnv)

/-- A step of the proposer; a new request is put into the manager's queue. -/
def proposerStep (n : Node) (i : Proposer.Input) : Option Node :=
  (n.proposer.step env.proposer i).map fun p =>
    { n with
      proposer := p
      cmds := if n.proposer.phase.request = none then n.cmds ++ p.phase.request.toList else n.cmds }

def step (n : Node) : Input → Option Node
  | .ledger ord tx =>
    if n.extractorStopped = none then
      match n.extractor.step ord env.cr env.committee tx with
      | .error p => some { n with extractorStopped := some p }
      | .ok (extractor, ev) => some
        { n with
          extractor
          decided := n.decided ++ ev.toList
          toRelay := n.toRelay ++ ev.toList
          toManager := n.toManager ++ ev.toList }
    else none
  | .relayEvent =>
    match n.relayStopped, n.toRelay with
    | none, e :: toRelay => some { n with toRelay, fusioned := n.fusioned ++ [e] }
    | _, _ => none
  | .relayProposal v =>
    if n.relayStopped = none then
      match relay env.proposer env.cr env.committee v with
      | .error p => some { n with relayStopped := some p }
      | .ok e => some { n with fusioned := n.fusioned ++ e.toList }
    else none
  | .tick => n.proposerStep env .tick
  | .timer => n.proposerStep env .timer
  | .act => n.proposerStep env .act
  | .resumeTask j => n.proposerStep env (.resumeTask j)
  | .consume =>
    match n.fusioned with
    | [] => if n.relayStopped = none then none else n.proposerStep env .closed
    | e :: fusioned => { n with fusioned }.proposerStep env (.event e)
  | .receive =>
    match n.answer with
    | some (.digest d) => { n with answer := none }.proposerStep env (.proposal d)
    | some (.valid b) => { n with answer := none }.proposerStep env (.validated b)
    | _ => none
  | .managerLost =>
    if n.manager.stopped ≠ none ∧ n.proposer.phase.request ≠ none ∧ n.answer = none then some
      { n with
        cmds := []
        proposer := n.proposer.abort (.expect "failed to recv command response!") }
    else none
  | .managerMessage ord v =>
    if n.manager.stopped = none then
      some { n with manager := n.manager.onMessage env.cr env.tree ord v }
    else none
  | .managerEvent ord =>
    match n.manager.stopped, n.toManager with
    | none, e :: toManager => some
      { n with toManager, manager := n.manager.onCheckpointEvent env.cr env.tree ord e }
    | _, _ => none
  | .managerCommand ord =>
    match n.manager.stopped, n.cmds with
    | none, c :: cmds =>
      match n.manager.answer env.cr env.tree ord c with
      | .error p => some { n with cmds, manager := n.manager.stop p }
      | .ok answer => some { n with cmds, answer := some answer }
    | _, _ => none

/-- All interleavings of the tasks. -/
def machine : Machine Node Input := .ofStep (· = new env.cr) (step env)

/-- Every accepted block extends the last checkpoint decided before its iteration. -/
def NoRollback (n : Node) : Prop :=
  ∀ i b, .accept i b ∈ n.proposer.submitted →
    n.manager.lcblocktree.isPrefixOf (lastCheckpointBefore env.cr n.decided i) b = .ok true

/-- When the manager validates a proposal of iteration `i`, it has consumed the blocks decided in
the iterations before `i`.  If it has consumed others, then the latest of them extends these. -/
def InSync (n : Node) : Input → Prop
  | .managerCommand _ => ∀ b, n.cmds.head? = some (.validateProposal b) →
    (∀ j c, .newCheckpoint j (some c) ∈ n.toManager → n.proposer.currentIteration ≤ j) ∧
      ((∀ j ∈ n.manager.checkpointsIterations, j < n.proposer.currentIteration) ∨
        n.manager.lcblocktree.Ext
          (lastCheckpointBefore env.cr n.decided n.proposer.currentIteration)
          (n.manager.latestCheckpoint env.cr))
  | _ => True

/-- The block that an input carries. -/
def Input.block? : Input → Option LcBlock
  | .managerMessage _ v => (LcBlock.tryFrom v).toOption
  | _ => none

/-! ## Blocks that extend the last checkpoint -/

/-- `b` is known and extends the last checkpoint decided before iteration `i`. -/
structure Current (cr : Crypto) (t : LcBlockTree) (decided : List CheckpointEvent) (i : ℕ)
    (b : Digest) : Prop where
  mem : t.Mem b
  ext : t.Ext (lastCheckpointBefore cr decided i) b

variable {env}

theorem Current.extends {cr : Crypto} {t t' : LcBlockTree} {decided : List CheckpointEvent} {i : ℕ}
    {b : Digest} (h : Current cr t decided i b) (ht : t.Extends t') : Current cr t' decided i b :=
  ⟨ht.mem h.mem, ht.ext h.ext⟩

/-- Later decisions do not change the last checkpoint before an iteration. -/
theorem lastCheckpointBefore_append {cr : Crypto} {decided new : List CheckpointEvent} {i : ℕ}
    (h : ∀ e ∈ new, ∀ j v, e = .newCheckpoint j v → i ≤ j) :
    lastCheckpointBefore cr (decided ++ new) i = lastCheckpointBefore cr decided i := by
  have hnil : new.filterMap (CheckpointEvent.decidedBefore i) = [] := by
    rw [List.filterMap_eq_nil_iff]
    intro e he
    cases e with
    | newProposal j b => rfl
    | newCheckpoint j v =>
      have := h _ he j v rfl
      simp [CheckpointEvent.decidedBefore, Nat.not_lt.mpr this]
  rw [lastCheckpointBefore, List.filterMap_append, hnil, List.append_nil, lastCheckpointBefore]

/-- In sync, the manager's latest checkpoint is the last one decided before the iteration. -/
theorem latest_eq_last {cr : Crypto} {m : Manager} {done rest : List CheckpointEvent} {i : ℕ}
    (hc : m.checkpoints = checkpoints done)
    (hi : m.checkpointsIterations = checkpointIterations done)
    (hrest : ∀ j c, .newCheckpoint j (some c) ∈ rest → i ≤ j)
    (hdone : ∀ j ∈ m.checkpointsIterations, j < i) :
    m.latestCheckpoint cr = lastCheckpointBefore cr (done ++ rest) i := by
  have hd : done.filterMap (CheckpointEvent.decidedBefore i) = checkpoints done := by
    apply List.filterMap_congr
    intro e he
    cases e with
    | newProposal j b => rfl
    | newCheckpoint j v =>
      cases v with
      | none => simp [CheckpointEvent.decidedBefore, CheckpointEvent.decided]
      | some c =>
        have hj : j < i := by
          apply hdone j
          rw [hi, checkpointIterations, List.mem_filterMap]
          exact ⟨_, he, rfl⟩
        simp [CheckpointEvent.decidedBefore, CheckpointEvent.decided, hj]
  have hr : rest.filterMap (CheckpointEvent.decidedBefore i) = [] := by
    rw [List.filterMap_eq_nil_iff]
    intro e he
    cases e with
    | newProposal j b => rfl
    | newCheckpoint j v =>
      cases v with
      | none => simp [CheckpointEvent.decidedBefore]
      | some c => simp [CheckpointEvent.decidedBefore, Nat.not_lt.mpr (hrest j c he)]
  rw [lastCheckpointBefore, List.filterMap_append, hd, hr, List.append_nil, ← hc]
  rfl

/-- A positive answer to a validation is about a known block that extends the latest checkpoint. -/
theorem validated_ext {cr : Crypto} {params : TreeParameters} {ord : HashOrder Digest} {m : Manager}
    (hw : LcBlockTree.WellFormed cr m.lcblocktree) {b : Digest}
    (h : m.answer cr params ord (.validateProposal b) = .ok (.valid true)) :
    m.lcblocktree.Mem b ∧ m.lcblocktree.Ext (m.latestCheckpoint cr) b := by
  have hv : m.validateProposal cr ord b = .ok true := by
    simp only [Manager.answer] at h
    cases hv : m.validateProposal cr ord b with
    | error p => rw [hv] at h; cases h
    | ok r => rw [hv] at h; cases h; rfl
  obtain ⟨tip, -, h1, -⟩ := Manager.validateProposal_true hv
  exact ⟨(LcBlockTree.mem_of_isPrefixOf h1).2, hw.ext_of_isPrefixOf h1⟩

/-! ## The invariant -/

/-- The queues hold what was decided and not yet consumed; a positive answer under way and every
accept are for blocks that extend the last checkpoint. -/
structure Inv (env : NodeEnv) (bs : List LcBlock) (n : Node) : Prop where
  sound : Manager.Sound env.cr bs n.manager
  numbered : ∀ (m : ℕ) e, n.decided[m]? = some e → ∃ v, e = CheckpointEvent.newCheckpoint m v
  iteration : n.extractor.currentIteration = n.decided.length
  queued : ∀ j v, .newCheckpoint j v ∈ n.toRelay ++ n.fusioned → j < n.decided.length
  behind : n.proposer.currentIteration ≤ n.decided.length
  consumed : ∃ done, n.decided = done ++ n.toManager ∧
    n.manager.checkpoints = checkpoints done ∧
    n.manager.checkpointsIterations = checkpointIterations done
  pending : n.cmds = [] ∨
    n.answer = none ∧ ∃ c, n.proposer.phase.request = some c ∧ n.cmds = [c]
  asked : n.answer ≠ none → n.proposer.phase.request ≠ none
  answered : n.answer = some (.valid true) → ∃ b, n.proposer.phase = .validating b ∧
    Current env.cr n.manager.lcblocktree n.decided n.proposer.currentIteration b
  accepted : ∀ i b, .accept i b ∈ n.proposer.submitted → i ≤ n.decided.length ∧
    Current env.cr n.manager.lcblocktree n.decided i b

theorem inv_new (env : NodeEnv) (bs : List LcBlock) : Inv env bs (new env.cr) where
  sound := Manager.sound_new _ _
  numbered m e h := by simp [new] at h
  iteration := rfl
  queued _ _ h := by cases h
  behind := Nat.le_refl _
  consumed := ⟨[], rfl, rfl, rfl⟩
  pending := .inl rfl
  asked h := absurd rfl h
  answered h := by cases h
  accepted _ _ h := by cases h

variable {bs : List LcBlock} {n n' : Node}

/-- What a step of the extractor sends is numbered by its iteration. -/
theorem extractor_step {ord : VoteOrder} {cr : Crypto} {committee : CheckpointCommittee}
    {s s' : Extractor} {tx : Bytes} {ev : Option CheckpointEvent}
    (h : s.step ord cr committee tx = .ok (s', ev)) :
    ev = none ∧ s'.currentIteration = s.currentIteration ∨
    ∃ v, ev = some (.newCheckpoint s.currentIteration v) ∧
      s'.currentIteration = s.currentIteration + 1 := by
  rw [Extractor.step_eq] at h
  split_ifs at h
  simp only [Except.ok.injEq] at h
  cases hv : validVote cr committee tx with
  | none =>
    rw [Extractor.handle_invalid hv] at h
    cases h
    exact .inl ⟨rfl, rfl⟩
  | some vote =>
    rw [Extractor.handle_valid hv, Extractor.count] at h
    split at h
    · cases h; exact .inr ⟨_, rfl, rfl⟩
    · cases h; exact .inl ⟨rfl, rfl⟩

theorem Inv.ledger (h : Inv env bs n) {ord : VoteOrder} {tx : Bytes}
    (hs : step env n (.ledger ord tx) = some n') : Inv env bs n' := by
  simp only [step] at hs
  split at hs
  · split at hs
    · cases hs
      exact { h with }
    · rename_i s' ev hstep
      cases hs
      rcases extractor_step hstep with ⟨rfl, hi⟩ | ⟨v, rfl, hi⟩
      · simpa using ({ h with iteration := hi.trans h.iteration } :
          Inv env bs { n with extractor := s' })
      · rw [h.iteration] at hi ⊢
        have hcur : ∀ {t : LcBlockTree} {i : ℕ} {b : Digest}, i ≤ n.decided.length →
            Current env.cr t n.decided i b →
            Current env.cr t (n.decided ++ [.newCheckpoint n.decided.length v]) i b := by
          intro t i b hle hc
          refine ⟨hc.mem, ?_⟩
          rw [lastCheckpointBefore_append fun e he j w hew => ?_]
          · exact hc.ext
          · rw [List.mem_singleton] at he
            rw [he] at hew
            cases hew
            exact hle
        refine { h with
          numbered := fun m e he => ?_
          iteration := by simp [hi]
          queued := fun j w hj => ?_
          behind := by simpa using h.behind.trans (Nat.le_succ _)
          consumed := ?_
          answered := fun ha => ?_
          accepted := fun i b hb => ?_ }
        · simp only [Option.toList_some, List.getElem?_append] at he
          split_ifs at he with hlt
          · exact h.numbered m e he
          · have hm : m = n.decided.length := by
              by_contra hne
              rw [List.getElem?_eq_none (by simp; omega)] at he
              cases he
            subst hm
            simp only [Nat.sub_self, List.getElem?_cons_zero, Option.some.injEq] at he
            exact ⟨v, he.symm⟩
        · simp only [Option.toList_some, List.append_assoc, List.mem_append, List.mem_singleton,
            CheckpointEvent.newCheckpoint.injEq, List.length_append, List.length_singleton] at hj ⊢
          rcases hj with hj | ⟨rfl, -⟩ | hj
          · have := h.queued j w (List.mem_append_left _ hj); omega
          · omega
          · have := h.queued j w (List.mem_append_right _ hj); omega
        · obtain ⟨done, hd, hc, hit⟩ := h.consumed
          exact ⟨done, by rw [hd]; simp, hc, hit⟩
        · obtain ⟨b, hp, hc⟩ := h.answered ha
          exact ⟨b, hp, hcur h.behind hc⟩
        · obtain ⟨hi', hc⟩ := h.accepted i b hb
          exact ⟨by simp; omega, hcur hi' hc⟩
  · cases hs

theorem Inv.relayEvent (h : Inv env bs n) (hs : step env n .relayEvent = some n') :
    Inv env bs n' := by
  simp only [step] at hs
  split at hs
  · rename_i e toRelay hr hq
    cases hs
    refine { h with queued := fun j v hj => h.queued j v ?_ }
    simp only [List.mem_append, List.mem_singleton] at hj
    rw [hq]
    simp only [List.cons_append, List.mem_cons, List.mem_append]
    rcases hj with hj | hj | hj
    · exact .inr (.inl hj)
    · exact .inr (.inr hj)
    · exact .inl hj
  · cases hs

/-- The relay task forwards proposals only. -/
theorem relay_proposal {env : ProposerEnv} {cr : Crypto} {committee : CheckpointCommittee}
    {v : Bytes} {e : CheckpointEvent} (h : relay env cr committee v = .ok (some e)) :
    ∃ i b, e = .newProposal i b := by
  unfold relay at h
  split at h
  · cases h
  · cases h
  · split at h
    · cases h
    · split at h
      · split_ifs at h
        · cases h; exact ⟨_, _, rfl⟩
        · cases h
      · cases h

theorem Inv.relayProposal (h : Inv env bs n) {v : Bytes}
    (hs : step env n (.relayProposal v) = some n') : Inv env bs n' := by
  simp only [step] at hs
  split at hs
  · split at hs
    · cases hs
      exact { h with }
    · rename_i e he
      cases hs
      refine { h with queued := fun j w hj => h.queued j w ?_ }
      simp only [List.mem_append, Option.mem_toList] at hj ⊢
      rcases hj with hj | hj | hj
      · exact .inl hj
      · exact .inr hj
      · subst hj
        obtain ⟨i, b, hib⟩ := relay_proposal he
        cases hib
  · cases hs

/-! ### The proposer -/

/-- The inputs that the proposer takes without another task. -/
def Internal : Proposer.Input → Prop
  | .tick | .timer | .act | .resumeTask _ => True
  | _ => False

/-- An internal step neither accepts nor ends an iteration, nor does it drop a request. -/
theorem effect_internal {p p' : Proposer} {i : Proposer.Input} (hi : Internal i)
    (h : Proposer.Effect p i p') : p'.currentIteration = p.currentIteration ∧
      (∀ j b, .accept j b ∈ p'.submitted → .accept j b ∈ p.submitted) ∧
      (p.phase.request ≠ none → p'.phase = p.phase) := by
  have hno : ∀ {q : Phase}, p.phase = q → q.request = none →
      p.phase.request ≠ none → p'.phase = p.phase := by
    rintro q hq hr hn
    rw [hq] at hn
    exact absurd hr hn
  cases h with
  | enter hp => exact ⟨rfl, fun _ _ h => h, hno hp rfl⟩
  | ask hp => exact ⟨rfl, fun _ _ h => h, hno hp rfl⟩
  | await hp => exact ⟨rfl, fun _ _ h => h, hno hp rfl⟩
  | inject hp => exact ⟨rfl, fun _ _ h => h, hno hp rfl⟩
  | trigger hp ht =>
    obtain ⟨resume, rfl⟩ := Proposer.triggerResume_eq ht
    exact ⟨rfl, fun _ _ h => h, hno hp rfl⟩
  | release hp ht =>
    obtain ⟨resume, rfl⟩ := Proposer.triggerResume_eq ht
    exact ⟨rfl, fun _ _ h => h, hno hp rfl⟩
  | giveUp hp =>
    exact ⟨rfl, fun j b h => by simpa [Proposer.submitVote] using h, hno hp rfl⟩
  | delayOver hp => exact ⟨rfl, fun _ _ h => h, hno hp rfl⟩
  | timeout hp => exact ⟨rfl, fun _ _ h => h, hno hp rfl⟩
  | again hp => exact ⟨rfl, fun _ _ h => h, hno hp rfl⟩
  | act hp => exact ⟨rfl, fun _ _ h => h, hno hp rfl⟩
  | resume => exact ⟨rfl, fun _ _ h => h, fun _ => rfl⟩
  | receive => cases hi
  | closed => cases hi
  | propose => cases hi
  | accept => cases hi
  | reject => cases hi

/-- While no request is under way the manager's queue is empty and no answer is coming. -/
theorem Inv.idle (h : Inv env bs n) (hr : n.proposer.phase.request = none) :
    n.cmds = [] ∧ n.answer = none := by
  refine ⟨?_, by_contra fun ha => h.asked ha hr⟩
  rcases h.pending with hc | ⟨-, c, hc, -⟩
  · exact hc
  · rw [hr] at hc
    cases hc

/-- A step of the proposer that keeps a request under way keeps the invariant. -/
theorem Inv.proposer (h : Inv env bs n) {p : Proposer}
    (hcur : p.currentIteration ≤ n.decided.length)
    (hsub : ∀ j b, .accept j b ∈ p.submitted → .accept j b ∈ n.proposer.submitted)
    (hreq : n.proposer.phase.request ≠ none →
      p.phase = n.proposer.phase ∧ p.currentIteration = n.proposer.currentIteration) :
    Inv env bs { n with
      proposer := p
      cmds := if n.proposer.phase.request = none then n.cmds ++ p.phase.request.toList
        else n.cmds } := by
  refine { h with
    behind := hcur
    pending := ?_
    asked := fun ha => ?_
    answered := fun ha => ?_
    accepted := fun i b hb => h.accepted i b (hsub i b hb) }
  · by_cases hr : n.proposer.phase.request = none
    · rw [if_pos hr, (h.idle hr).1]
      cases hp : p.phase.request with
      | none => exact .inl rfl
      | some c => exact .inr ⟨(h.idle hr).2, c, rfl, rfl⟩
    · rw [if_neg hr]
      simpa [(hreq hr).1] using h.pending
  · have hr := h.asked ha
    simp only
    rw [(hreq hr).1]
    exact hr
  · have hr := h.asked (by simp only at ha; rw [ha]; simp)
    obtain ⟨b, hp, hc⟩ := h.answered ha
    exact ⟨b, (hreq hr).1.trans hp, by simpa [(hreq hr).2] using hc⟩

theorem proposerStep_eq {i : Proposer.Input} (hs : n.proposerStep env i = some n') :
    ∃ p, Proposer.Effect n.proposer i p ∧ n' = { n with
      proposer := p
      cmds := if n.proposer.phase.request = none then n.cmds ++ p.phase.request.toList
        else n.cmds } := by
  rw [proposerStep, Option.map_eq_some_iff] at hs
  obtain ⟨p, hp, rfl⟩ := hs
  exact ⟨p, Proposer.step_effect hp, rfl⟩

theorem Inv.internal (h : Inv env bs n) {i : Proposer.Input} (hi : Internal i)
    (hs : n.proposerStep env i = some n') : Inv env bs n' := by
  obtain ⟨p, he, rfl⟩ := proposerStep_eq hs
  obtain ⟨hc, hsub, hr⟩ := effect_internal hi he
  exact h.proposer (hc ▸ h.behind) hsub fun hn => ⟨hr hn, hc⟩

theorem request_of_receives {ph : Phase} (h : ph.Receives) : ph.request = none := by
  cases ph <;> first | rfl | cases h

theorem Inv.consume (h : Inv env bs n) (hs : step env n .consume = some n') : Inv env bs n' := by
  simp only [step] at hs
  split at hs
  · split at hs
    · cases hs
    · obtain ⟨p, he, rfl⟩ := proposerStep_eq hs
      cases he with
      | closed hp =>
        exact h.proposer h.behind (fun _ _ hb => hb) fun hn => absurd (request_of_receives hp) hn
  · rename_i e fusioned hf
    have h0 : Inv env bs { n with fusioned } :=
      { h with queued := fun j v hj => h.queued j v (by
          rw [hf]
          simp only [List.mem_append, List.mem_cons] at hj ⊢
          rcases hj with hj | hj
          · exact .inl hj
          · exact .inr (.inr hj)) }
    obtain ⟨p, he, rfl⟩ := proposerStep_eq hs
    cases he with
    | receive hp =>
      refine h0.proposer ?_ ?_ fun hn => absurd (request_of_receives hp) hn
      · cases e with
        | newProposal i b =>
          simp only [Proposer.onEvent]
          split_ifs <;> exact h.behind
        | newCheckpoint i v =>
          simp only [Proposer.onEvent]
          split_ifs with hi
          · have := h.queued i v (by rw [hf]; simp)
            simp only [Proposer.leave]
            omega
          · exact h.behind
      · intro j b hb
        cases e with
        | newProposal i b => simp only [Proposer.onEvent] at hb; split_ifs at hb <;> exact hb
        | newCheckpoint i v => simp only [Proposer.onEvent] at hb; split_ifs at hb <;> exact hb

/-- Taking the answer ends the request. -/
theorem Inv.take (h : Inv env bs n) (ha : n.answer ≠ none) {p : Proposer}
    (hcur : p.currentIteration = n.proposer.currentIteration)
    (hsub : ∀ j b, .accept j b ∈ p.submitted → .accept j b ∈ n.proposer.submitted ∨
      j = n.proposer.currentIteration ∧
        Current env.cr n.manager.lcblocktree n.decided n.proposer.currentIteration b) :
    Inv env bs { n with answer := none, proposer := p } := by
  have hcmds : n.cmds = [] := by
    rcases h.pending with hc | ⟨hn, -⟩
    · exact hc
    · exact absurd hn ha
  refine { h with
    behind := hcur ▸ h.behind
    pending := .inl hcmds
    asked := fun hn => absurd rfl hn
    answered := fun hn => by cases hn
    accepted := fun j b hb => ?_ }
  rcases hsub j b hb with hb | ⟨rfl, hc⟩
  · exact h.accepted j b hb
  · exact ⟨h.behind, hc⟩

theorem Inv.receive (h : Inv env bs n) (hs : step env n .receive = some n') : Inv env bs n' := by
  simp only [step] at hs
  split at hs
  · rename_i d ha
    obtain ⟨p, he, rfl⟩ := proposerStep_eq hs
    cases he with
    | propose hp =>
      have hne : n.proposer.phase.request ≠ none := by rw [hp]; simp [Phase.request]
      have := h.take (p := { n.proposer.await with
          broadcast := n.proposer.broadcast ++ [.propose n.proposer.currentIteration d] })
        (by rw [ha]; simp) rfl fun _ _ hb => .inl hb
      simpa [hne] using this
  · rename_i b ha
    obtain ⟨p, he, rfl⟩ := proposerStep_eq hs
    cases he with
    | @accept c hp =>
      have hne : n.proposer.phase.request ≠ none := by rw [hp]; simp [Phase.request]
      have hgood := h.answered ha
      rw [hp] at hgood
      obtain ⟨b', hb', hc⟩ := hgood
      cases hb'
      have := h.take (p := n.proposer.submitVote (.accept n.proposer.currentIteration c) .waiting)
        (by rw [ha]; simp) rfl (fun j b hb => by
          rcases List.mem_append.mp hb with hb | hb
          · exact .inl hb
          · rw [List.mem_singleton] at hb
            cases hb
            exact .inr ⟨rfl, hc⟩)
      simpa [hne] using this
    | @reject c hp =>
      have hne : n.proposer.phase.request ≠ none := by rw [hp]; simp [Phase.request]
      have := h.take (p := n.proposer.submitVote (.reject n.proposer.currentIteration) .waiting)
        (by rw [ha]; simp) rfl (fun j b hb => .inl (by simpa [Proposer.submitVote] using hb))
      simpa [hne] using this
  · cases hs

/-! ### The manager -/

theorem Inv.managerLost (h : Inv env bs n) (hs : step env n .managerLost = some n') :
    Inv env bs n' := by
  simp only [step] at hs
  split at hs
  · rename_i hc
    cases hs
    exact { h with
      pending := .inl rfl
      asked := fun ha => absurd hc.2.2 ha
      answered := fun ha => by simp only at ha; rw [hc.2.2] at ha; cases ha }
  · cases hs

theorem Inv.managerMessage (hcol : LcBlockTree.NoCollision env.cr bs) (h : Inv env bs n)
    {ord : HashOrder Digest} {v : Bytes} (hb : ∀ b, LcBlock.tryFrom v = .ok b → b ∈ bs)
    (hs : step env n (.managerMessage ord v) = some n') : Inv env bs n' := by
  simp only [step] at hs
  split at hs
  · cases hs
    obtain ⟨hc, hi, ht⟩ := Manager.onMessage_cases env.cr env.tree ord n.manager v
    have hext : n.manager.lcblocktree.Extends
        (n.manager.onMessage env.cr env.tree ord v).lcblocktree := by
      rcases ht with ht | ⟨blk, hblk, ha⟩
      · rw [ht]; exact .refl _
      · exact h.sound.tree.add_extends
          (hcol.unique h.sound.tree h.sound.blocks (hb blk hblk)) ha
    refine { h with
      sound := h.sound.onMessage hcol hb
      consumed := ?_
      answered := fun ha => ?_
      accepted := fun i b hib => ?_ }
    · obtain ⟨done, hd, h1, h2⟩ := h.consumed
      exact ⟨done, hd, hc.trans h1, hi.trans h2⟩
    · obtain ⟨b, hp, hcur⟩ := h.answered ha
      exact ⟨b, hp, hcur.extends hext⟩
    · obtain ⟨hle, hcur⟩ := h.accepted i b hib
      exact ⟨hle, hcur.extends hext⟩
  · cases hs

theorem Inv.managerEvent (h : Inv env bs n) {ord : HashOrder Digest}
    (hs : step env n (.managerEvent ord) = some n') : Inv env bs n' := by
  simp only [step] at hs
  split at hs
  · rename_i e toManager _ hq
    cases hs
    obtain ⟨ht, hc, hi⟩ := onCheckpointEvent_eq env.cr env.tree ord n.manager e
    refine { h with
      sound := h.sound.onCheckpointEvent env.tree ord e
      consumed := ?_
      answered := fun ha => ?_
      accepted := fun i b hib => ?_ }
    · obtain ⟨done, hd, h1, h2⟩ := h.consumed
      refine ⟨done ++ [e], by rw [hd, hq]; simp, ?_, ?_⟩
      · simp only
        rw [hc, h1, checkpoints, checkpoints, checkpoints, List.filterMap_append]
      · simp only
        rw [hi, h2, checkpointIterations, checkpointIterations, checkpointIterations,
          List.filterMap_append]
    · simp only [ht]
      exact h.answered ha
    · simp only [ht]
      exact h.accepted i b hib
  · cases hs

/-- **A command that is answered in sync.** -/
theorem Inv.managerCommand (h : Inv env bs n) {ord : HashOrder Digest}
    (hsync : InSync env n (.managerCommand ord))
    (hs : step env n (.managerCommand ord) = some n') : Inv env bs n' := by
  simp only [step] at hs
  split at hs
  · rename_i c cmds _ hq
    have hpend : cmds = [] ∧ n.answer = none ∧ n.proposer.phase.request = some c := by
      rcases h.pending with hc | ⟨ha, c', hr, hc⟩
      · rw [hq] at hc; cases hc
      · rw [hq] at hc; cases hc; exact ⟨rfl, ha, hr⟩
    obtain ⟨rfl, ha, hr⟩ := hpend
    split at hs
    · cases hs
      exact { h with sound := h.sound.stop _, pending := .inl rfl }
    · rename_i a hans
      cases hs
      refine { h with
        pending := .inl rfl
        asked := fun _ => by simp [hr]
        answered := fun hv => ?_ }
      simp only [Option.some.injEq] at hv
      subst hv
      have hval : ∃ b, c = .validateProposal b := by
        cases c with
        | validateProposal b => exact ⟨b, rfl⟩
        | getCurrentProposal =>
          cases hk : n.manager.higherKDeep env.cr ord env.tree.proposeKDeep with
          | error p => simp only [Manager.answer, hk] at hans; cases hans
          | ok d => simp only [Manager.answer, hk] at hans; cases hans
        | _ => cases hp : n.proposer.phase <;> rw [hp] at hr <;> cases hr
      obtain ⟨b, rfl⟩ := hval
      have hphase : n.proposer.phase = .validating b := by
        cases hp : n.proposer.phase <;> rw [hp] at hr <;> cases hr
        rfl
      obtain ⟨hmem, hext⟩ := validated_ext h.sound.tree hans
      obtain ⟨done, hd, h1, h2⟩ := h.consumed
      obtain ⟨s1, s2⟩ := hsync b (by rw [hq]; rfl)
      refine ⟨b, hphase, hmem, ?_⟩
      rcases s2 with s2 | s2
      · rw [hd, ← latest_eq_last h1 h2 s1 s2]
        exact hext
      · exact s2.trans hext
  · cases hs

/-! ## Runs -/

/-- **Every step in sync keeps the invariant.** -/
theorem Inv.step (hcol : LcBlockTree.NoCollision env.cr bs) (h : Inv env bs n) {i : Input}
    (hsync : InSync env n i) (hb : ∀ b, i.block? = some b → b ∈ bs)
    (hs : step env n i = some n') : Inv env bs n' := by
  cases i with
  | ledger ord tx => exact h.ledger hs
  | relayEvent => exact h.relayEvent hs
  | relayProposal v => exact h.relayProposal hs
  | tick => exact h.internal (i := .tick) trivial hs
  | timer => exact h.internal (i := .timer) trivial hs
  | act => exact h.internal (i := .act) trivial hs
  | resumeTask j => exact h.internal (i := .resumeTask j) trivial hs
  | consume => exact h.consume hs
  | receive => exact h.receive hs
  | managerLost => exact h.managerLost hs
  | managerMessage ord v =>
    exact h.managerMessage hcol (fun b hv => hb b (by simp [Input.block?, hv, Except.toOption])) hs
  | managerEvent ord => exact h.managerEvent hs
  | managerCommand ord => exact h.managerCommand hsync hs

/-! ## A run of one node -/

/-- The sole authority as an honest node, which leads every iteration. -/
def soleEnv : NodeEnv where
  cr := sampleCrypto
  committee := soleCommittee
  proposer := ⟨⟨.zero⟩, fun _ => ⟨.zero⟩, false⟩
  tree := ⟨0, 0⟩

/-- A block on top of `parent`. -/
def childOf (parent : LcBlock) (slot : Encoding.U64) : LcBlock where
  parent := some (parent.digest sampleCrypto)
  payload := LcBlock.genesis.payload
  slot := slot

def blockA : LcBlock := childOf .genesis 1

/-- A sibling of `blockA`, which a longer chain extends. -/
def blockB : LcBlock := childOf .genesis 2

def blockC : LcBlock := childOf blockB 3

/-- A child of `blockA`. -/
def blockD : LcBlock := childOf blockA 4

/-- The leader asks its manager for a proposal and broadcasts it. -/
def leadRun : List Input := [.tick, .managerCommand .stored, .receive]

/-- A proposal arrives, is validated, and the vote is submitted. -/
def actRun (i : ℕ) (b : LcBlock) : List Input :=
  [.relayProposal (soleVote (.propose i (b.digest sampleCrypto))), .consume, .tick, .act, .tick,
    .managerCommand .stored, .receive]

/-- **No accepted block rolls back a decided checkpoint**, in every run in which the manager
validates proposals in sync with the proposer. -/
theorem no_rollback (env : NodeEnv) (bs : List LcBlock)
    (hcol : LcBlockTree.NoCollision env.cr bs) (n : Node)
    (hr : ((machine env).restrict fun n i => InSync env n i ∧ ∀ b, i.block? = some b → b ∈ bs).Reachable
      n) : NoRollback env n := by
  have hinv : Inv env bs n := by
    refine Machine.invariant ?_ ?_ hr
    · intro n h
      rw [show n = new env.cr from h]
      exact inv_new env bs
    · intro n i n' h hs
      exact h.step hcol hs.1.1 hs.1.2 hs.2
  intro i b hb
  obtain ⟨-, hc⟩ := hinv.accepted i b hb
  exact hinv.sound.tree.isPrefixOf_true hc.mem hc.ext

/-- `blockA` is accepted and decided, and the manager drains the decision before it validates the
next proposal. -/
def syncedRun : List Input :=
  [.managerMessage .stored blockA.encode, .tick] ++ leadRun ++ actRun 0 blockA ++
    [.ledger .stored (soleVote (.accept 0 (blockA.digest sampleCrypto))), .relayEvent, .consume,
      .managerMessage .stored blockD.encode, .managerEvent .stored, .tick, .timer] ++
    leadRun ++ actRun 1 blockD

/-- `InSync`, as a check for a manager that is not ahead. -/
def inSync (n : Node) : Input → Bool
  | .managerCommand _ =>
    n.toManager.all (fun
      | .newCheckpoint j (some _) => n.proposer.currentIteration ≤ j
      | _ => true) &&
    n.manager.checkpointsIterations.all (· < n.proposer.currentIteration)
  | _ => true

theorem inSync_of_check {n : Node} {i : Input} (h : inSync n i = true) : InSync env n i := by
  cases i with
  | managerCommand ord =>
    simp only [inSync, Bool.and_eq_true, List.all_eq_true, decide_eq_true_eq] at h
    exact fun b _ => ⟨fun j c hj => by simpa using h.1 _ hj, .inl h.2⟩
  | _ => trivial

/-- Two proposals that are validated in sync are accepted. -/
theorem no_rollback_synced : ∃ n : Node,
    .accept 1 (blockD.digest sampleCrypto) ∈ n.proposer.submitted ∧ NoRollback soleEnv n := by
  have hrun : ((Machine.execIf
      (fun n i => inSync n i && i.block?.toList.all (· ∈ [blockA, blockD]))
      (step soleEnv) (new sampleCrypto) syncedRun).any fun n =>
        decide (.accept 1 (blockD.digest sampleCrypto) ∈ n.proposer.submitted)) = true := by
    decide +kernel
  rw [Option.any_eq_true] at hrun
  obtain ⟨n, hn, h⟩ := hrun
  rw [decide_eq_true_eq] at h
  refine ⟨n, h, no_rollback soleEnv [blockA, blockD]
    (LcBlockTree.noCollision_of_nodup (by decide +kernel)) n
    (Machine.reachable_execIf (fun n i hi => ?_) (.init rfl) hn)⟩
  rw [Bool.and_eq_true, List.all_eq_true] at hi
  exact ⟨inSync_of_check hi.1, fun b hb => by simpa using hi.2 b (by rw [hb]; simp)⟩

/-! ## The race -/

/-- `blockA` is accepted and decided; then the manager receives a longer chain through `blockB` and
validates `blockB` before it drains the decision. -/
def staleRun : List Input :=
  [.managerMessage .stored blockA.encode, .tick] ++ leadRun ++ actRun 0 blockA ++
    [.ledger .stored (soleVote (.accept 0 (blockA.digest sampleCrypto))), .relayEvent, .consume,
      .managerMessage .stored blockB.encode, .managerMessage .stored blockC.encode, .tick, .timer] ++
    leadRun ++ actRun 1 blockB

/-- **An honest node accepts a sibling of the checkpoint that its own extractor has decided.** -/
theorem stale_validation : ∃ n, (machine soleEnv).Reachable n ∧ ¬ NoRollback soleEnv n := by
  have hrun : ((Machine.exec (step soleEnv) (new sampleCrypto) staleRun).any fun n =>
      decide (.accept 1 (blockB.digest sampleCrypto) ∈ n.proposer.submitted) &&
        decide (n.manager.lcblocktree.isPrefixOf (lastCheckpointBefore sampleCrypto n.decided 1)
          (blockB.digest sampleCrypto) ≠ .ok true)) = true := by
    decide +kernel
  rw [Option.any_eq_true] at hrun
  obtain ⟨n, hn, h⟩ := hrun
  rw [Bool.and_eq_true, decide_eq_true_eq, decide_eq_true_eq] at h
  exact ⟨n, Machine.reachable_exec (.init rfl) hn, fun hno => h.2 (hno 1 _ h.1)⟩

end Node

end AccountabilityGadget
