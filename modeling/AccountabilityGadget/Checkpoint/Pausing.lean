import AccountabilityGadget.Checkpoint.Proposer

/-!
# Pausing and resuming consensus (`mynode/src/cpproposer.rs`, `consensus/src/core.rs`)

In each iteration the proposer sends a `Pause` to the consensus core, whose channel has room for 1000
commands, and spawns a task that resumes the core.  The task waits on a channel of capacity one for
the proposer, which acts on a proposal or gives up, or for the end of the iteration, when the last
sender of this channel is dropped.

* `PausingNode.step`, `PausingNode.machine` — the proposer, its resume tasks, the command channel and
  the part of the core that serves it, interleaved in any order.
* `Released`, `Due` — the iterations whose pause is to end.
* `Inv` — one task for each pause, and what is known about its channel.
* `never_stranded` — each oneshot is sent once or still held by its task, which can run as soon as
  the iteration is released; the proposer is never blocked by its own request.
-/

set_option autoImplicit false

namespace AccountabilityGadget

/-- A `ConsensusCommand::Pause`, by the holder of the other end of its oneshot. -/
inductive PauseCommand where
  /-- `MyNode::new`, until the node has started. -/
  | boot
  /-- The resume task of iteration `i`. -/
  | iteration (i : ℕ)
  deriving DecidableEq

inductive Oneshot where
  | pending
  | sent
  | dropped
  deriving DecidableEq

/-- Where the core is, as far as commands are concerned. -/
inductive CoreState where
  | running
  | paused (c : PauseCommand)
  /-- By a panic of the command branch, or (`none`) for another reason. -/
  | stopped (p : Option Panic)
  deriving DecidableEq

structure PausingNode where
  proposer : Proposer
  /-- The channel `tx_consensus_cmds`. -/
  commands : List PauseCommand
  core : CoreState
  booted : Bool
  /-- All commands sent to the core. -/
  asked : List PauseCommand
  /-- All calls of `tx_trigger_resume_single.send(())`. -/
  sends : List PauseCommand
  /-- The iterations in which a `tx_trigger_resume.send(())` has completed. -/
  requested : List ℕ

namespace PausingNode

/-- The command that pauses consensus while the node starts has been sent. -/
def new : PausingNode := ⟨.new, [.boot], .running, false, [.boot], [], []⟩

inductive Input where
  /-- `tx_consensus_trigger_resume.send(())` at the end of the initialization. -/
  | booted
  /-- The proposer or one of its resume tasks runs. -/
  | proposer (i : Proposer.Input)
  /-- A channel that the proposer needs is closed. -/
  | proposerFails (msg : String)
  /-- The core takes a command, or the oneshot that it waits for. -/
  | core
  /-- The core stops for another reason. -/
  | coreFails

section Step

variable (env : ProposerEnv) (n : PausingNode)

/-- The other end of the oneshot of a command. -/
def oneshot : PauseCommand → Oneshot
  | .boot => if n.booted then .sent else .pending
  | .iteration i =>
    match n.proposer.resume[i]? with
    | none => .dropped
    | some t => if t.sent then .sent else .pending

/-- What a step of the proposer sends to the core. -/
def asks (s : Proposer) : Proposer.Input → List PauseCommand
  | .tick => if s.phase = .start then [.iteration s.currentIteration] else []
  | _ => []

/-- What a resume task sends to the core. -/
def resumes : Proposer.Input → List PauseCommand
  | .resumeTask j => [.iteration j]
  | _ => []

/-- The loop is at one of its two `tx_trigger_resume.send(())`. -/
def AtRequest (s : Proposer) : Prop := (∃ b, s.phase = .acting b) ∨ s.phase = .resuming

def requests (s : Proposer) : Proposer.Input → List ℕ
  | .tick =>
    match s.phase with
    | .acting _ | .resuming => [s.currentIteration]
    | _ => []
  | _ => []

def proposerStep (i : Proposer.Input) : Option PausingNode :=
  (n.proposer.step env i).map fun proposer =>
    { n with
      proposer
      commands := n.commands ++ asks n.proposer i
      asked := n.asked ++ asks n.proposer i
      sends := n.sends ++ resumes i
      requested := n.requested ++ requests n.proposer i }

def step : Input → Option PausingNode
  | .booted =>
    if n.booted then none else some { n with booted := true, sends := n.sends ++ [.boot] }
  | .proposer i =>
    if asks n.proposer i = [] then n.proposerStep env i
    else
      match n.core with
      | .stopped _ => some
        { n with proposer := n.proposer.abort (.expect "Failed to ask consensus to pause!") }
      | _ => if n.commands.length < 1000 then n.proposerStep env i else none
  | .proposerFails msg =>
    match n.proposer.phase with
    | .proposing | .validating _ | .rejecting =>
      some { n with proposer := n.proposer.abort (.expect msg) }
    | _ => none
  | .core =>
    match n.core, n.commands with
    | .running, [] => none
    | .running, c :: commands => some { n with core := .paused c, commands }
    | .paused c, _ =>
      match n.oneshot c with
      | .pending => none
      | .sent => some { n with core := .running }
      | .dropped => some
        { n with core := .stopped (some (.expect "Failed to wait for trigger to resume!")) }
    | .stopped _, _ => none
  | .coreFails =>
    match n.core with
    | .running => some { n with core := .stopped none, commands := [] }
    | _ => none

/-- All runs of a node that is not restarted. -/
def machine : Machine PausingNode Input := .ofStep (· = new) (step env)

def Enabled (i : Input) : Prop := ∃ n', n.step env i = some n'

/-- The proposer has acted on a proposal of iteration `i`, has passed its timeout or has left it. -/
def Released (i : ℕ) : Prop :=
  i ∈ n.requested ∨ i < n.proposer.currentIteration ∨
    .iteration i ∈ n.asked ∧ ∃ p, n.proposer.phase = .panicked p

/-- Also: it is about to say so. -/
def Due (i : ℕ) : Prop := n.Released i ∨ i = n.proposer.currentIteration ∧ AtRequest n.proposer

/-- No pause is without an end. -/
structure NeverStranded : Prop where
  /-- An iteration that was entered has asked for one pause. -/
  asked : ∀ i, n.asked.count (.iteration i) = if i < n.proposer.resume.length then 1 else 0
  entered : ∀ i < n.proposer.currentIteration, i < n.proposer.resume.length
  /-- Its oneshot is sent once, or not sent yet and held by a task; it is never dropped. -/
  held : ∀ i, .iteration i ∈ n.asked →
    n.oneshot (.iteration i) = .sent ∧ n.sends.count (.iteration i) = 1 ∨
    n.oneshot (.iteration i) = .pending ∧ n.sends.count (.iteration i) = 0
  /-- A released task has sent or can. -/
  released : ∀ i, n.Released i →
    n.oneshot (.iteration i) = .sent ∨ n.Enabled env (.proposer (.resumeTask i))
  /-- A task that can send can do so until it does. -/
  stable : ∀ i, n.Enabled env (.proposer (.resumeTask i)) → ∀ j n', n.step env j = some n' →
    n'.oneshot (.iteration i) = .sent ∨ n'.Enabled env (.proposer (.resumeTask i))
  /-- The proposer's request goes through, or its task can make room; it goes through once this
  task has sent. -/
  request : AtRequest n.proposer → n.Enabled env (.proposer .tick) ∨
    n.Enabled env (.proposer (.resumeTask n.proposer.currentIteration))
  requestAfter : AtRequest n.proposer →
    n.oneshot (.iteration n.proposer.currentIteration) = .sent → n.Enabled env (.proposer .tick)
  /-- The core is never blocked on a pause that is due. -/
  core : ∀ i, n.core = .paused (.iteration i) → n.Due i → n.Enabled env .core ∨
    n.Enabled env (.proposer (.resumeTask i)) ∨
    i = n.proposer.currentIteration ∧ n.Enabled env (.proposer .tick)
  /-- It never stops because a oneshot was dropped. -/
  serves : ∀ p, n.core ≠ .stopped (some p)

end Step

/-! ## Pauses and tasks -/

/-- What is known about the task of iteration `i`. -/
structure TaskInv (n : PausingNode) (i : ℕ) (t : ResumeTask) : Prop where
  left : (i < n.proposer.currentIteration ∨ ∃ p, n.proposer.phase = .panicked p) →
    t.senderAlive = false
  requested : i ∈ n.requested → t.queued = true ∨ t.sent = true
  sends : n.sends.count (.iteration i) = if t.sent then 1 else 0

structure Inv (n : PausingNode) : Prop where
  ge : n.proposer.currentIteration ≤ n.proposer.resume.length
  le : n.proposer.resume.length ≤ n.proposer.currentIteration + 1
  start : n.proposer.phase = .start → n.proposer.resume.length = n.proposer.currentIteration
  started : n.proposer.phase ≠ .start → (∀ p, n.proposer.phase ≠ .panicked p) →
    n.proposer.resume.length = n.proposer.currentIteration + 1
  asked : n.asked = .boot :: (List.range n.proposer.resume.length).map .iteration
  tasks : ∀ i t, n.proposer.resume[i]? = some t → TaskInv n i t
  requested : ∀ i ∈ n.requested, i < n.proposer.resume.length
  sends : ∀ i, .iteration i ∈ n.sends → i < n.proposer.resume.length
  commands : ∀ c ∈ n.commands, c ∈ n.asked
  core : ∀ c, n.core = .paused c → c ∈ n.asked
  serves : ∀ p, n.core ≠ .stopped (some p)

variable {env : ProposerEnv} {n n' : PausingNode} {s : Proposer} {i : ℕ}

theorem inv_new : Inv new := by
  refine ⟨le_rfl, by simp [new, Proposer.new], fun _ => rfl, fun h => absurd rfl h, rfl, ?_, ?_, ?_,
    ?_, ?_, ?_⟩
  all_goals simp [new, Proposer.new]

theorem Inv.mem_asked (h : Inv n) : .iteration i ∈ n.asked ↔ i < n.proposer.resume.length := by
  rw [h.asked]
  simp

/-- A step of the loop that neither enters nor leaves an iteration. -/
theorem Inv.quiet (h : Inv n) {p : Proposer} (hr : p.resume = n.proposer.resume)
    (hc : p.currentIteration = n.proposer.currentIteration) (hs : n.proposer.phase ≠ .start)
    (ha : ∀ q, n.proposer.phase ≠ .panicked q) (hs' : p.phase ≠ .start)
    (ha' : ∀ q, p.phase ≠ .panicked q) : Inv { n with proposer := p } where
  ge := by simpa only [hr, hc] using h.ge
  le := by simpa only [hr, hc] using h.le
  start hp := absurd hp hs'
  started _ _ := by simpa only [hr, hc] using h.started hs ha
  asked := by simpa only [hr] using h.asked
  tasks i t ht := by
    have hi := h.tasks i t (hr ▸ ht)
    refine ⟨fun hl => hi.left ?_, hi.requested, hi.sends⟩
    rcases hl with hl | ⟨q, hq⟩
    · exact .inl (hc ▸ hl)
    · exact absurd hq (ha' q)
  requested := by simpa only [hr] using h.requested
  sends := by simpa only [hr] using h.sends
  commands := h.commands
  core := h.core
  serves := h.serves

/-- The last senders are dropped: those of the current iteration. -/
theorem Inv.dropped (h : Inv n) {t : ResumeTask}
    (ht : (n.proposer.resume.modify n.proposer.currentIteration
      fun t => { t with senderAlive := false })[i]? = some t) :
    t.senderAlive = false ∧ (i ∈ n.requested → t.queued = true ∨ t.sent = true) ∧
      n.sends.count (.iteration i) = if t.sent then 1 else 0 := by
  rw [List.getElem?_modify] at ht
  obtain ⟨t₀, ht₀, ht⟩ := Option.map_eq_some_iff.mp ht
  have hi := h.tasks i t₀ ht₀
  have hlt : i < n.proposer.resume.length := (List.getElem?_eq_some_iff.mp ht₀).1
  split_ifs at ht with hc
  · subst ht
    exact ⟨rfl, hi.requested, hi.sends⟩
  · subst ht
    have hle := h.le
    exact ⟨hi.left (.inl (by omega)), hi.requested, hi.sends⟩

theorem Inv.abort (h : Inv n) (p : Panic) : Inv { n with proposer := n.proposer.abort p } where
  ge := by simpa [Proposer.abort] using h.ge
  le := by simpa [Proposer.abort] using h.le
  start hp := by cases hp
  started _ hp := absurd rfl (hp p)
  asked := by simpa [Proposer.abort] using h.asked
  tasks i t ht := by
    obtain ⟨hdead, hreq, hsends⟩ := h.dropped ht
    exact ⟨fun _ => hdead, hreq, hsends⟩
  requested := by simpa [Proposer.abort] using h.requested
  sends := by simpa [Proposer.abort] using h.sends
  commands := h.commands
  core := h.core
  serves := h.serves

theorem Inv.leave (h : Inv n) (hs : n.proposer.phase ≠ .start)
    (ha : ∀ q, n.proposer.phase ≠ .panicked q) (d : Option Digest) :
    Inv { n with proposer := n.proposer.leave d } := by
  have hlen := h.started hs ha
  refine ⟨?_, ?_, ?_, fun hp => absurd rfl hp, ?_, ?_, ?_, ?_, h.commands, h.core, h.serves⟩
  · simpa [Proposer.leave] using hlen.ge
  · simp only [Proposer.leave, List.length_modify]
    omega
  · intro _
    simpa [Proposer.leave] using hlen
  · simpa [Proposer.leave] using h.asked
  · intro i t ht
    obtain ⟨hdead, hreq, hsends⟩ := h.dropped ht
    exact ⟨fun _ => hdead, hreq, hsends⟩
  · simpa [Proposer.leave] using h.requested
  · simpa [Proposer.leave] using h.sends

/-- A new iteration, its pause and its task. -/
theorem Inv.enter (h : Inv n) (hp : n.proposer.phase = .start) :
    Inv { n with
      proposer := n.proposer.enter
      commands := n.commands ++ [.iteration n.proposer.currentIteration]
      asked := n.asked ++ [.iteration n.proposer.currentIteration] } := by
  have hlen := h.start hp
  have hphase : n.proposer.enter.phase = .delay ∨ n.proposer.enter.phase = .elect := by
    simp only [Proposer.enter]
    split_ifs
    · exact .inl rfl
    · exact .inr rfl
  have hlen' : n.proposer.enter.resume.length = n.proposer.resume.length + 1 := by
    simp [Proposer.enter]
  have hcur : n.proposer.enter.currentIteration = n.proposer.currentIteration := rfl
  refine ⟨?_, ?_, ?_, ?_, ?_, ?_, ?_, ?_, ?_,
    fun c hc => List.mem_append_left _ (h.core c hc), h.serves⟩
  · simp only [hlen', hcur]
    omega
  · simp only [hlen', hcur]
    omega
  · intro hs
    rcases hphase with hd | hd <;> rw [show n.proposer.enter.phase = .start from hs] at hd <;>
      cases hd
  · intro _ _
    simp only [hlen', hcur]
    omega
  · simp only [hlen', h.asked, hlen, List.range_succ, List.map_append, List.map_cons, List.map_nil,
      List.cons_append]
  · intro i t ht
    rw [show n.proposer.enter.resume = n.proposer.resume ++ [⟨false, true, false⟩] from rfl,
      List.getElem?_append] at ht
    split_ifs at ht with hi
    · have ht' := h.tasks i t ht
      refine ⟨fun hl => ht'.left ?_, ht'.requested, ht'.sends⟩
      rcases hl with hl | ⟨q, hq⟩
      · exact .inl hl
      · rcases hphase with hd | hd <;> rw [hd] at hq <;> cases hq
    · have hi' : i = n.proposer.resume.length := by
        have := (List.getElem?_eq_some_iff.mp ht).1
        simp only [List.length_singleton] at this
        omega
      subst hi'
      rw [Nat.sub_self] at ht
      cases ht
      refine ⟨?_, ?_, ?_⟩
      · intro hl
        rcases hl with hl | ⟨q, hq⟩
        · exact absurd hl (by simp only [hcur]; omega)
        · rcases hphase with hd | hd <;> rw [hd] at hq <;> cases hq
      · intro hr
        exact absurd (h.requested _ hr) (by omega)
      · rw [List.count_eq_zero.mpr fun hm => absurd (h.sends _ hm) (by omega)]
        rfl
  · intro i hi
    rw [hlen']
    exact (h.requested i hi).trans (Nat.lt_succ_self _)
  · intro i hi
    rw [hlen']
    exact (h.sends i hi).trans (Nat.lt_succ_self _)
  · intro c hc
    rcases List.mem_append.mp hc with hc | hc
    · exact List.mem_append_left _ (h.commands c hc)
    · exact List.mem_append_right _ hc

/-- The proposer's request has been taken, or its task is over. -/
theorem Inv.trigger (h : Inv n) (hs : n.proposer.phase ≠ .start)
    (ha : ∀ q, n.proposer.phase ≠ .panicked q) {next : Phase} {p : Proposer}
    (hn : next ≠ .start) (hn' : ∀ q, next ≠ .panicked q)
    (ht : n.proposer.triggerResume next = some p) :
    Inv { n with
      proposer := p
      requested := n.requested ++ [n.proposer.currentIteration] } := by
  have hlen := h.started hs ha
  unfold Proposer.triggerResume at ht
  split at ht
  · cases ht
  · rename_i t hget
    have htask : ∀ t' : ResumeTask, t'.senderAlive = t.senderAlive → t'.sent = t.sent →
        (t'.queued = true ∨ t'.sent = true) →
        Inv { n with
          proposer := { n.proposer with
            phase := next
            resume := n.proposer.resume.set n.proposer.currentIteration t' }
          requested := n.requested ++ [n.proposer.currentIteration] } := by
      intro t' hal hsent hq
      refine ⟨by simpa using h.ge, by simpa using h.le, fun hp => absurd hp hn,
        fun _ _ => by simpa using hlen, by simpa using h.asked, fun i u hu => ?_, fun i hi => ?_,
        by simpa using h.sends, h.commands, h.core, h.serves⟩
      · rw [List.getElem?_set] at hu
        split_ifs at hu with hc hlt
        · cases hu
          subst hc
          have ht' := h.tasks _ t hget
          refine ⟨?_, fun _ => hq, ?_⟩
          · intro hl
            rcases hl with hl | ⟨q, hq⟩
            · exact absurd hl (lt_irrefl _)
            · exact absurd hq (hn' q)
          · rw [hsent]; exact ht'.sends
        · have hi := h.tasks i u hu
          refine ⟨fun hl => hi.left ?_, fun hr => hi.requested ?_, hi.sends⟩
          · rcases hl with hl | ⟨q, hq⟩
            · exact .inl hl
            · exact absurd hq (hn' q)
          · rcases List.mem_append.mp hr with hr | hr
            · exact hr
            · exact absurd (List.mem_singleton.mp hr).symm hc
      · rw [List.length_set]
        rcases List.mem_append.mp hi with hi | hi
        · exact h.requested i hi
        · rw [List.mem_singleton.mp hi, hlen]
          exact Nat.lt_succ_self _
    split_ifs at ht with hsent hq
    · cases ht
      have hset : n.proposer.resume.set n.proposer.currentIteration t = n.proposer.resume := by
        obtain ⟨hlt, rfl⟩ := List.getElem?_eq_some_iff.mp hget
        exact List.set_getElem_self hlt
      have hinv := htask t rfl rfl (.inr hsent)
      rwa [hset] at hinv
    · cases ht
      exact htask { t with queued := true } rfl rfl (.inl rfl)

theorem run_eq {t t' : ResumeTask} (h : t.run = some t') :
    t.sent = false ∧ t' = { t with queued := false, sent := true } := by
  unfold ResumeTask.run at h
  split_ifs at h with hs hq
  cases h
  exact ⟨by simpa using hs, rfl⟩

theorem run_of_ready {t : ResumeTask} (h : t.sent = false)
    (hr : t.queued = true ∨ t.senderAlive = false) :
    t.run = some { t with queued := false, sent := true } := by
  unfold ResumeTask.run
  rw [if_neg (by simp [h]), if_pos (by simpa using hr)]

/-- A task resumes the core. -/
theorem Inv.resume (h : Inv n) {j : ℕ} {t t' : ResumeTask} (ht : n.proposer.resume[j]? = some t)
    (hr : t.run = some t') :
    Inv { n with
      proposer := { n.proposer with resume := n.proposer.resume.set j t' }
      sends := n.sends ++ [.iteration j] } := by
  obtain ⟨hsent, rfl⟩ := run_eq hr
  refine ⟨by simpa using h.ge, by simpa using h.le, by simpa using h.start,
    by simpa using h.started, by simpa using h.asked, fun i u hu => ?_, by simpa using h.requested,
    fun i hi => ?_, h.commands, h.core, h.serves⟩
  · rw [List.getElem?_set] at hu
    split_ifs at hu with hc hlt
    · cases hu
      subst hc
      have hj := h.tasks _ t ht
      refine ⟨hj.left, fun _ => .inr rfl, ?_⟩
      rw [List.count_append, hj.sends, hsent]
      simp
    · have hi := h.tasks i u hu
      refine ⟨hi.left, hi.requested, ?_⟩
      have hother : [PauseCommand.iteration j].count (.iteration i) = 0 := by
        rw [List.count_eq_zero, List.mem_singleton, PauseCommand.iteration.injEq]
        exact Ne.symm hc
      rw [List.count_append, hi.sends, hother, Nat.add_zero]
  · rw [List.length_set]
    rcases List.mem_append.mp hi with hi | hi
    · exact h.sends i hi
    · rw [List.mem_singleton] at hi
      cases hi
      exact (List.getElem?_eq_some_iff.mp ht).1

theorem Inv.oneshot_ne_dropped (h : Inv n) {c : PauseCommand} (hc : c ∈ n.asked) :
    n.oneshot c ≠ .dropped := by
  cases c with
  | boot =>
    simp only [oneshot]
    split_ifs <;> simp
  | iteration i =>
    simp only [oneshot, List.getElem?_eq_getElem (h.mem_asked.mp hc)]
    split_ifs <;> simp

/-! ## Every step -/

theorem Inv.proposerStep (h : Inv n) {input : Proposer.Input}
    (hs : n.proposerStep env input = some n') : Inv n' := by
  unfold PausingNode.proposerStep at hs
  obtain ⟨p, hp, rfl⟩ := Option.map_eq_some_iff.mp hs
  -- what a step between two phases of one iteration needs
  have hquiet : ∀ {next : Phase}, n.proposer.phase = next → next ≠ .start →
      (∀ q, next ≠ .panicked q) → p.resume = n.proposer.resume →
      p.currentIteration = n.proposer.currentIteration → p.phase ≠ .start →
      (∀ q, p.phase ≠ .panicked q) → Inv { n with proposer := p } := by
    intro next hn h1 h2 hr hc h3 h4
    exact h.quiet hr hc (hn ▸ h1) (fun q => hn ▸ h2 q) h3 h4
  cases Proposer.step_effect hp with
  | enter hn =>
    simp only [asks, requests, resumes, hn, if_true, List.append_nil]
    exact h.enter hn
  | ask hn | await hn | inject hn | giveUp hn =>
    simp only [asks, requests, resumes, hn, reduceCtorEq, if_false, List.append_nil]
    exact hquiet hn (by simp) (by simp) rfl rfl (by simp [Proposer.await, Proposer.submitVote])
      (by simp [Proposer.await, Proposer.submitVote])
  | trigger hn ht =>
    simp only [asks, requests, resumes, hn, reduceCtorEq, if_false, List.append_nil]
    exact h.trigger (by simp [hn]) (by simp [hn]) (by simp) (by simp) ht
  | release hn ht =>
    simp only [asks, requests, resumes, hn, reduceCtorEq, if_false, List.append_nil]
    exact h.trigger (by simp [hn]) (by simp [hn]) (by simp) (by simp) ht
  | delayOver hn | timeout hn | again hn =>
    simp only [asks, requests, resumes, List.append_nil]
    exact hquiet hn (by simp) (by simp) rfl rfl (by simp) (by simp)
  | @receive e hr =>
    simp only [asks, requests, resumes, List.append_nil]
    have hstart : n.proposer.phase ≠ .start := fun hn => by rw [hn] at hr; exact hr
    have halive : ∀ q, n.proposer.phase ≠ .panicked q := fun q hn => by rw [hn] at hr; exact hr
    cases e with
    | newCheckpoint i d =>
      simp only [Proposer.onEvent]
      split_ifs
      · exact h.leave hstart halive d
      · exact h.abort _
    | newProposal i b =>
      simp only [Proposer.onEvent]
      split_ifs
      · exact h.quiet rfl rfl hstart halive (by simp) (by simp)
      · exact h.quiet rfl rfl hstart halive hstart halive
      · exact h
  | closed hr =>
    simp only [asks, requests, resumes, List.append_nil]
    exact h.abort _
  | act hn | propose hn | accept hn | reject hn =>
    simp only [asks, requests, resumes, List.append_nil]
    exact hquiet hn (by simp) (by simp) rfl rfl (by simp [Proposer.await, Proposer.submitVote])
      (by simp [Proposer.await, Proposer.submitVote])
  | resume ht hr =>
    simp only [asks, requests, resumes, List.append_nil]
    exact h.resume ht hr

theorem Inv.step (h : Inv n) {input : Input} (hs : n.step env input = some n') : Inv n' := by
  cases input with
  | booted =>
    simp only [PausingNode.step] at hs
    split_ifs at hs
    cases hs
    refine ⟨h.ge, h.le, h.start, h.started, h.asked, ?_, h.requested, ?_,
      h.commands, h.core, h.serves⟩
    · intro i t ht
      have ht' := h.tasks i t ht
      refine ⟨ht'.left, ht'.requested, ?_⟩
      rw [List.count_append, ht'.sends]
      simp
    · intro i hi
      exact h.sends i (by simpa using hi)
  | proposer i =>
    simp only [PausingNode.step] at hs
    by_cases ha : asks n.proposer i = []
    · rw [if_pos ha] at hs
      exact h.proposerStep hs
    · rw [if_neg ha] at hs
      split at hs
      · cases hs
        exact h.abort _
      · split_ifs at hs
        exact h.proposerStep hs
  | proposerFails msg =>
    simp only [PausingNode.step] at hs
    split at hs <;> cases hs <;> exact h.abort _
  | core =>
    simp only [PausingNode.step] at hs
    split at hs
    · cases hs
    · rename_i c commands _ hc
      cases hs
      refine ⟨h.ge, h.le, h.start, h.started, h.asked, fun i t ht => ?_, h.requested, h.sends,
        fun d hd => h.commands d (by rw [hc]; exact List.mem_cons_of_mem _ hd), fun d hd => ?_,
        fun p hp => by cases hp⟩
      · exact ⟨(h.tasks i t ht).left, (h.tasks i t ht).requested, (h.tasks i t ht).sends⟩
      · cases hd
        exact h.commands c (by rw [hc]; exact List.mem_cons_self)
    · rename_i c hc
      have hlive := h.oneshot_ne_dropped (h.core c hc)
      split at hs
      · cases hs
      · cases hs
        refine ⟨h.ge, h.le, h.start, h.started, h.asked, fun i t ht => ?_, h.requested, h.sends,
          h.commands, fun d hd => (by cases hd), fun p hp => (by cases hp)⟩
        exact ⟨(h.tasks i t ht).left, (h.tasks i t ht).requested, (h.tasks i t ht).sends⟩
      · rename_i hd
        exact absurd hd hlive
    · cases hs
  | coreFails =>
    simp only [PausingNode.step] at hs
    split at hs <;> cases hs
    refine ⟨h.ge, h.le, h.start, h.started, h.asked, fun i t ht => ?_, h.requested, h.sends,
      fun c hc => (by cases hc), fun c hc => (by cases hc), fun p hp => (by cases hp)⟩
    exact ⟨(h.tasks i t ht).left, (h.tasks i t ht).requested, (h.tasks i t ht).sends⟩

theorem inv (h : (machine env).Reachable n) : Inv n :=
  Machine.invariant (fun _ h => h ▸ inv_new) (fun _ _ _ h hs => h.step hs) h

/-! ## What can run -/

/-- The task has sent, or what it waits for has happened. -/
def Ready (t : ResumeTask) : Prop := t.sent = true ∨ t.queued = true ∨ t.senderAlive = false

theorem oneshot_iteration {t : ResumeTask} (ht : n.proposer.resume[i]? = some t) :
    n.oneshot (.iteration i) = if t.sent then .sent else .pending := by
  simp only [oneshot, ht]

theorem enabled_proposer {j : Proposer.Input} (ha : asks n.proposer j = []) {p : Proposer}
    (hp : n.proposer.step env j = some p) : n.Enabled env (.proposer j) := by
  simp [Enabled, PausingNode.step, PausingNode.proposerStep, ha, hp]

theorem enabled_resumeTask {t : ResumeTask} (ht : n.proposer.resume[i]? = some t)
    (hs : t.sent = false) :
    n.Enabled env (.proposer (.resumeTask i)) ↔ t.queued = true ∨ t.senderAlive = false := by
  constructor
  · rintro ⟨n', hn'⟩
    have hstep : n.proposerStep env (.resumeTask i) = some n' := by
      simpa [PausingNode.step, asks] using hn'
    obtain ⟨p, hp, -⟩ := Option.map_eq_some_iff.mp hstep
    simp only [Proposer.step, ht, ResumeTask.run, hs] at hp
    by_contra hr
    simp [hr] at hp
  · intro hr
    have hp : n.proposer.step env (.resumeTask i) = some { n.proposer with
        resume := n.proposer.resume.set i { t with queued := false, sent := true } } := by
      simp only [Proposer.step, ht, run_of_ready hs hr, Option.map_some]
    exact enabled_proposer rfl hp

theorem sent_or_enabled {t : ResumeTask} (ht : n.proposer.resume[i]? = some t) (hr : Ready t) :
    n.oneshot (.iteration i) = .sent ∨ n.Enabled env (.proposer (.resumeTask i)) := by
  cases hs : t.sent with
  | true => exact .inl (by rw [oneshot_iteration ht, hs]; rfl)
  | false =>
    refine .inr ((enabled_resumeTask ht hs).mpr (hr.resolve_left ?_))
    rw [hs]
    exact Bool.false_ne_true

theorem Inv.ready (h : Inv n) (hr : n.Released i) :
    ∃ t, n.proposer.resume[i]? = some t ∧ Ready t := by
  have hlt : i < n.proposer.resume.length := by
    rcases hr with hr | hr | ⟨hr, -⟩
    · exact h.requested i hr
    · exact hr.trans_le h.ge
    · exact h.mem_asked.mp hr
  have ht := h.tasks i _ (List.getElem?_eq_getElem hlt)
  refine ⟨_, List.getElem?_eq_getElem hlt, ?_⟩
  rcases hr with hr | hr | ⟨-, hr⟩
  · rcases ht.requested hr with hq | hs
    · exact .inr (.inl hq)
    · exact .inl hs
  · exact .inr (.inr (ht.left (.inl hr)))
  · exact .inr (.inr (ht.left (.inr hr)))

/-- A step of the proposer leaves a ready task ready. -/
theorem ready_step {input : Proposer.Input} {p : Proposer} (hs : s.step env input = some p)
    {t : ResumeTask} (ht : s.resume[i]? = some t) (hr : Ready t) :
    ∃ t', p.resume[i]? = some t' ∧ Ready t' := by
  have hdrop : ∃ t', (s.resume.modify s.currentIteration
      fun t => { t with senderAlive := false })[i]? = some t' ∧ Ready t' := by
    rw [List.getElem?_modify, ht]
    refine ⟨_, rfl, ?_⟩
    simp only
    split_ifs
    · exact .inr (.inr rfl)
    · exact hr
  have hset : ∀ {j : ℕ} {u : ResumeTask}, Ready u →
      ∃ t', (s.resume.set j u)[i]? = some t' ∧ Ready t' := by
    intro j u hu
    rw [List.getElem?_set]
    split_ifs with hj hlt
    · exact ⟨u, rfl, hu⟩
    · exact absurd (List.getElem?_eq_some_iff.mp ht).1 (by omega)
    · exact ⟨t, ht, hr⟩
  have htrigger : ∀ {next : Phase}, s.triggerResume next = some p →
      ∃ t', p.resume[i]? = some t' ∧ Ready t' := by
    intro next hp
    unfold Proposer.triggerResume at hp
    split at hp
    · cases hp
    · split_ifs at hp
      · cases hp
        exact ⟨t, ht, hr⟩
      · cases hp
        exact hset (.inr (.inl rfl))
  cases Proposer.step_effect hs with
  | enter =>
    exact ⟨t, (List.getElem?_append_left (List.getElem?_eq_some_iff.mp ht).1).trans ht, hr⟩
  | trigger _ hp | release _ hp => exact htrigger hp
  | @receive e =>
    cases e <;> simp only [Proposer.onEvent] <;> split_ifs
    · exact ⟨t, ht, hr⟩
    · exact ⟨t, ht, hr⟩
    · exact ⟨t, ht, hr⟩
    · exact hdrop
    · exact hdrop
  | closed => exact hdrop
  | resume _ hrun =>
    obtain ⟨-, rfl⟩ := run_eq hrun
    exact hset (.inl rfl)
  | _ => exact ⟨t, ht, hr⟩

theorem ready_abort {t : ResumeTask} (ht : s.resume[i]? = some t) (hr : Ready t) (q : Panic) :
    ∃ t', (s.abort q).resume[i]? = some t' ∧ Ready t' := by
  simp only [Proposer.abort, List.getElem?_modify, ht]
  refine ⟨_, rfl, ?_⟩
  split_ifs
  · exact .inr (.inr rfl)
  · exact hr

theorem ready_stable {input : Input} (hs : n.step env input = some n') {t : ResumeTask}
    (ht : n.proposer.resume[i]? = some t) (hr : Ready t) :
    ∃ t', n'.proposer.resume[i]? = some t' ∧ Ready t' := by
  have hprop : ∀ {j}, n.proposerStep env j = some n' →
      ∃ t', n'.proposer.resume[i]? = some t' ∧ Ready t' := by
    intro j hj
    obtain ⟨p, hp, rfl⟩ := Option.map_eq_some_iff.mp hj
    exact ready_step hp ht hr
  cases input with
  | booted =>
    simp only [PausingNode.step] at hs
    split_ifs at hs
    cases hs
    exact ⟨t, ht, hr⟩
  | proposer j =>
    simp only [PausingNode.step] at hs
    by_cases ha : asks n.proposer j = []
    · rw [if_pos ha] at hs
      exact hprop hs
    · rw [if_neg ha] at hs
      split at hs
      · cases hs
        exact ready_abort ht hr _
      · split_ifs at hs
        exact hprop hs
  | proposerFails msg =>
    simp only [PausingNode.step] at hs
    split at hs <;> cases hs <;> exact ready_abort ht hr _
  | core =>
    simp only [PausingNode.step] at hs
    split at hs
    · cases hs
    · cases hs
      exact ⟨t, ht, hr⟩
    · split at hs <;> cases hs <;> exact ⟨t, ht, hr⟩
    · cases hs
  | coreFails =>
    simp only [PausingNode.step] at hs
    split at hs <;> cases hs
    exact ⟨t, ht, hr⟩

/-- The request goes through when its task is over or there is room. -/
theorem Inv.request (h : Inv n) (ha : AtRequest n.proposer) :
    ∃ t, n.proposer.resume[n.proposer.currentIteration]? = some t ∧
      (t.sent = true ∨ t.queued = false → n.Enabled env (.proposer .tick)) := by
  have hstart : n.proposer.phase ≠ .start := by
    rcases ha with ⟨b, hb⟩ | hb <;> rw [hb] <;> simp
  have halive : ∀ p, n.proposer.phase ≠ .panicked p := by
    intro p
    rcases ha with ⟨b, hb⟩ | hb <;> rw [hb] <;> simp
  have hlt : n.proposer.currentIteration < n.proposer.resume.length := by
    have := h.started hstart halive
    omega
  refine ⟨_, List.getElem?_eq_getElem hlt, fun ht => ?_⟩
  have htrigger : ∀ next, ∃ p, n.proposer.triggerResume next = some p := by
    intro next
    unfold Proposer.triggerResume
    rw [List.getElem?_eq_getElem hlt]
    simp only
    rcases ht with ht | ht
    · exact ⟨_, if_pos ht⟩
    · split_ifs with h1 h2
      · exact ⟨_, rfl⟩
      · rw [ht] at h2
        cases h2
      · exact ⟨_, rfl⟩
  have hask : asks n.proposer .tick = [] := if_neg hstart
  have hstep : ∃ p, n.proposer.step env .tick = some p := by
    rcases ha with ⟨b, hb⟩ | hb
    · simpa only [Proposer.step, hb] using htrigger (.validating b)
    · simpa only [Proposer.step, hb] using htrigger .rejecting
  obtain ⟨p, hp⟩ := hstep
  exact enabled_proposer hask hp

theorem enabled_core {c : PauseCommand} (hc : n.core = .paused c) (hs : n.oneshot c = .sent) :
    n.Enabled env .core :=
  ⟨{ n with core := .running }, by simp [PausingNode.step, hc, hs]⟩

theorem Inv.requestEnabled (h : Inv n) (ha : AtRequest n.proposer) :
    n.Enabled env (.proposer .tick) ∨
      n.Enabled env (.proposer (.resumeTask n.proposer.currentIteration)) := by
  obtain ⟨t, ht, htick⟩ := h.request ha
  cases hs : t.sent with
  | true => exact .inl (htick (.inl hs))
  | false =>
    cases hq : t.queued with
    | false => exact .inl (htick (.inr hq))
    | true => exact .inr ((enabled_resumeTask ht hs).mpr (.inl hq))

/-- **Pausing never strands consensus.** -/
theorem never_stranded (h : (machine env).Reachable n) : n.NeverStranded env := by
  have hi := inv h
  refine ⟨?_, fun i hlt => hlt.trans_le hi.ge, ?_, ?_, ?_,
    fun ha => hi.requestEnabled ha, ?_, ?_, hi.serves⟩
  · intro i
    have hnodup : ((List.range n.proposer.resume.length).map PauseCommand.iteration).Nodup :=
      List.nodup_range.map fun a b hab => by cases hab; rfl
    rw [hi.asked, List.count_cons_of_ne (by simp), hnodup.count]
    simp
  · intro i hm
    have hlt := hi.mem_asked.mp hm
    have hget := List.getElem?_eq_getElem hlt
    have hsends := (hi.tasks i _ hget).sends
    rw [oneshot_iteration hget, hsends]
    cases (n.proposer.resume[i]).sent <;> simp
  · intro i hr
    obtain ⟨t, ht, hready⟩ := hi.ready hr
    exact sent_or_enabled ht hready
  · intro i he j n' hs
    obtain ⟨m, hm⟩ := he
    have htask : ∃ t, n.proposer.resume[i]? = some t ∧ Ready t := by
      have hstep : n.proposerStep env (.resumeTask i) = some m := by
        simpa [PausingNode.step, asks] using hm
      obtain ⟨p, hp, -⟩ := Option.map_eq_some_iff.mp hstep
      cases Proposer.step_effect hp with
      | @resume _ t t' ht hrun =>
        unfold ResumeTask.run at hrun
        split_ifs at hrun with h1 h2
        exact ⟨t, ht, .inr (by simpa using h2)⟩
    obtain ⟨t, ht, hready⟩ := htask
    obtain ⟨t', ht', hready'⟩ := ready_stable hs ht hready
    exact sent_or_enabled ht' hready'
  · intro ha hsent
    obtain ⟨t, ht, htick⟩ := hi.request ha
    rw [oneshot_iteration ht] at hsent
    split_ifs at hsent with hs
    exact htick (.inl hs)
  · intro i hc hd
    rcases hd with hr | ⟨rfl, ha⟩
    · obtain ⟨t, ht, hready⟩ := hi.ready hr
      rcases sent_or_enabled ht hready with hs | hs
      · exact .inl (enabled_core hc hs)
      · exact .inr (.inl hs)
    · rcases hi.requestEnabled ha with hs | hs
      · exact .inr (.inr ⟨rfl, hs⟩)
      · exact .inr (.inl hs)

/-! ## A timeout -/

/-- The core serves the pause of the start and then that of iteration 0, which times out. -/
def sampleTimeout : List Input :=
  [.booted, .core, .core, .proposer .tick, .core, .proposer .tick, .proposer .timer, .proposer .tick]

theorem never_stranded_timeout : ∃ n : PausingNode, n.core = .paused (.iteration 0) ∧
    n.Released 0 ∧ n.oneshot (.iteration 0) = .pending ∧ n.NeverStranded sampleFollower := by
  have hrun : (Machine.exec (step sampleFollower) new sampleTimeout).map
      (fun n => (n.core, n.requested, n.oneshot (.iteration 0))) =
        some (.paused (.iteration 0), [0], .pending) := by
    decide +kernel
  obtain ⟨n, hn, he⟩ := Option.map_eq_some_iff.mp hrun
  simp only [Prod.mk.injEq] at he
  obtain ⟨hcore, hreq, hone⟩ := he
  exact ⟨n, hcore, .inl (by rw [hreq]; simp), hone,
    never_stranded (Machine.reachable_exec (.init rfl) hn)⟩

end PausingNode

end AccountabilityGadget
