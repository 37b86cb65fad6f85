import AccountabilityGadget.Consensus.Proposals
import AccountabilityGadget.Mempool.SharedStore

/-!
# The mempool and the consensus of one node (`consensus/src/mempool.rs`)

The core of the consensus asks the core of the mempool for payloads (`Get`), for a check of the
payloads of a block (`Verify`), and tells it which digests it needs no more (`Cleanup`).  The three
messages go through one channel; both cores write to one store.

* `Replica.step` — the steps of the two cores, in any order.
* `Replica.Listed` — blocks that the consensus has made, processed or found in the store.
* `Replica.enqueued_accounted` — in every run, whatever was pushed onto the queue is still there, on
  its way to the consensus, or listed in such a block.
* `Replica.enqueued_orphaned` — it may be listed in a block that is off the committed chain only.
* `Replica.step_core` — what the core of the consensus sees of a step.
-/

set_option autoImplicit false

namespace AccountabilityGadget.Mempool

open Consensus

/-! ## The two cores -/

inductive ConsensusMempoolMessage where
  | get (max : ℕ)
  | verify (b : Block)
  | cleanup (digests : List Digest) (round : RoundNumber)
  deriving DecidableEq

/-- What the mempool sends back. -/
inductive Answer where
  | payload (digests : List Digest)
  | status (st : PayloadStatus)
  deriving DecidableEq

def Answer.input : Answer → Consensus.Core.Input
  | .payload digests => .payload digests
  | .status st => .status st

structure Setup where
  consensus : Consensus.Env
  /-- `max_payload_size` of the consensus. -/
  maxPayloadSize : ℕ
  parameters : Parameters
  /-- The authorities that the mempool knows. -/
  authorities : List PublicKey

/-- The environment of the mempool. -/
def Setup.mempool (env : Setup) : Env :=
  .ofBatch env.consensus.cr env.parameters env.authorities

/-- What a core sends when it starts the call: it then waits for the answer. -/
def Setup.request (env : Setup) : Call → Option ConsensusMempoolMessage
  | .generateProposal _ =>
    if env.consensus.boycottProposals then none else some (.get env.maxPayloadSize)
  | .verifying b => some (.verify b)
  | _ => none

def Effect.cleanup? : Effect → Option ConsensusMempoolMessage
  | .cleanup digests round => some (.cleanup digests round)
  | _ => none

def Effect.stored? : Effect → Option Block
  | .store b => some b
  | _ => none

structure Replica where
  mempool : Core
  consensus : Consensus.Core
  /-- From the consensus to the mempool. -/
  channel : List ConsensusMempoolMessage
  /-- From the mempool to the consensus. -/
  answers : List Answer
  /-- The payloads that the mempool has been given. -/
  payloads : List Payload
  /-- The digests that were ever pushed onto the queue. -/
  pushed : List Digest

/-- The payload of a message. -/
def MempoolMessage.payload? : MempoolMessage → Option Payload
  | .ownPayload p | .payload p => some p
  | .payloadRequest _ _ => none

/-- `verify_payload`: all payloads of the block are stored. -/
def Core.verifyPayload (s : Core) (b : Block) : Bool :=
  b.payload.all fun d => (s.store.read d.toBytes).isSome

namespace Replica

def new (env : Setup) : Replica where
  mempool := .new .empty
  consensus := .new env.consensus
  channel := (env.request (Consensus.Core.new env.consensus).call).toList
  answers := []
  payloads := []
  pushed := []

variable (env : Setup)

/-- A step of the mempool; the consensus reads what it has written to the store. -/
def withMempool (r : Replica) (m : Core) : Replica :=
  { r with
    mempool := m
    consensus := { r.consensus with
      store := fun d =>
        if m.store.read d.toBytes = r.mempool.store.read d.toBytes then r.consensus.store d
        else (m.store.read d.toBytes).map (Block.tryFrom env.consensus.cr.toCrypto) } }

/-- A step of the consensus: its blocks go to the store, its messages to the mempool. -/
def withConsensus (r : Replica) (c : Consensus.Core) : Replica :=
  let new := c.log.drop r.consensus.log.length
  { r with
    mempool := { r.mempool with
      store := (new.filterMap Effect.stored?).foldl
        (fun store b => store.write (b.digest env.consensus.cr).toBytes b.encode) r.mempool.store }
    consensus := c
    channel := r.channel ++ new.filterMap Effect.cleanup? ++
      if c.call = r.consensus.call then [] else (env.request c.call).toList }

inductive Input where
  /-- The mempool handles a message. -/
  | message (m : MempoolMessage)
  /-- The mempool handles a message of the consensus; `made` is what the payload maker answers. -/
  | serve (made : Option Payload) (storeError : Bool)
  /-- The consensus receives an answer. -/
  | answer
  /-- Any other step of the consensus. -/
  | consensus (i : Consensus.Core.Input)
  deriving DecidableEq

/-- `MempoolMessage` and `ConsensusMempoolMessage`, in `run` of the mempool. -/
def serve (r : Replica) (made : Option Payload) (storeError : Bool) :
    ConsensusMempoolMessage → Replica
  | .get max =>
    let result := r.mempool.handleGet env.mempool max made
    { r.withMempool env result.1 with
      answers := r.answers ++ [.payload result.2], payloads := r.payloads ++ made.toList }
  | .verify b =>
    let st : PayloadStatus :=
      if storeError then .reject else if r.mempool.verifyPayload b then .accept else .wait
    { r with answers := r.answers ++ [.status st] }
  | .cleanup digests _ => r.withMempool env (r.mempool.cleanup digests)

def step (r : Replica) : Input → Option Replica
  | .message m =>
    let m' := r.mempool.handle env.mempool m
    some { r.withMempool env m' with
      payloads := r.payloads ++ m.payload?.toList
      pushed := r.pushed ++ m'.queue.drop r.mempool.queue.length }
  | .serve made storeError =>
    match r.channel with
    | [] => none
    | m :: ms => some ({ r with channel := ms }.serve env made storeError m)
  | .answer =>
    match r.answers with
    | [] => none
    | a :: rest =>
      (r.consensus.step env.consensus a.input).map
        ({ r with answers := rest }.withConsensus env)
  | .consensus (.payload _) | .consensus (.status _) | .consensus (.storeWrite _ _) => none
  | .consensus i => (r.consensus.step env.consensus i).map (r.withConsensus env)

/-- All runs of the two cores. -/
def machine : Machine Replica Input := .ofStep (· = new env) (step env)

/-! ## Where a digest can be -/

/-- A block that the consensus has made or processed, or may have found in the store: the mempool
was given a payload that reads as the block. -/
def Listed (r : Replica) (b : Block) : Prop :=
  .propose b ∈ r.consensus.log ∨ .store b ∈ r.consensus.log ∨
    ∃ p ∈ r.payloads, Block.tryFrom env.consensus.cr.toCrypto p.encode = .ok b

/-- In the queue, in an answer to the consensus, or in a listed block. -/
def Accounted (r : Replica) (d : Digest) : Prop :=
  d ∈ r.mempool.queue ∨ (∃ ds, .payload ds ∈ r.answers ∧ d ∈ ds) ∨
    ∃ b, r.Listed env b ∧ d ∈ b.payload

structure Traced (r : Replica) : Prop where
  pushed : ∀ d ∈ r.pushed, r.Accounted env d
  stored : ∀ d b, r.consensus.store d = some (.ok b) → r.Listed env b
  cleanups : ∀ ds n, .cleanup ds n ∈ r.consensus.log →
    ∀ d ∈ ds, ∃ b, r.Listed env b ∧ d ∈ b.payload
  channel : ∀ ds n, .cleanup ds n ∈ r.channel → .cleanup ds n ∈ r.consensus.log

variable {env} {r r' : Replica} {b : Block}

theorem Listed.mono (hlog : r.consensus.log ⊆ r'.consensus.log) (hp : r.payloads ⊆ r'.payloads)
    (h : r.Listed env b) : r'.Listed env b := by
  rcases h with h | h | ⟨p, hmem, h⟩
  · exact .inl (hlog h)
  · exact .inr (.inl (hlog h))
  · exact .inr (.inr ⟨p, hp hmem, h⟩)

theorem Accounted.mono {d : Digest} (hqueue : r.mempool.queue ⊆ r'.mempool.queue)
    (hanswers : r.answers ⊆ r'.answers) (hlog : r.consensus.log ⊆ r'.consensus.log)
    (hp : r.payloads ⊆ r'.payloads) (h : r.Accounted env d) : r'.Accounted env d := by
  rcases h with h | ⟨ds, hmem, hd⟩ | ⟨b, hb, hd⟩
  · exact .inl (hqueue h)
  · exact .inr (.inl ⟨ds, hanswers hmem, hd⟩)
  · exact .inr (.inr ⟨b, hb.mono hlog hp, hd⟩)

theorem Accounted.of_listed {d : Digest} (hlog : r.consensus.log ⊆ r'.consensus.log)
    (hp : r.payloads ⊆ r'.payloads) (h : ∃ b, r.Listed env b ∧ d ∈ b.payload) :
    r'.Accounted env d := by
  obtain ⟨b, hb, hd⟩ := h
  exact .inr (.inr ⟨b, hb.mono hlog hp, hd⟩)

theorem not_mem_request {ds : List Digest} {n : RoundNumber} (c : Call) :
    .cleanup ds n ∉ (env.request c).toList := by
  intro h
  unfold Setup.request at h
  split at h
  · split at h <;> simp at h
  · simp at h
  · simp at h

theorem traced_new : Traced env (new env) where
  pushed d hd := by cases hd
  stored d b h := by cases h
  cleanups ds n h := by cases h
  channel ds n h := absurd h (not_mem_request _)

/-! ### The mempool -/

/-- What the consensus reads after a step of the mempool was there before, or is new in the store. -/
theorem store_withMempool {m : Core} {d : Digest} {v : Except (Fault DecodeError) Block}
    (h : (r.withMempool env m).consensus.store d = some v) :
    r.consensus.store d = some v ∨ ∃ value, m.store.read d.toBytes = some value ∧
      m.store.read d.toBytes ≠ r.mempool.store.read d.toBytes ∧
      v = Block.tryFrom env.consensus.cr.toCrypto value := by
  simp only [withMempool] at h
  split at h
  · exact .inl h
  · rename_i hne
    obtain ⟨value, hv, rfl⟩ := Option.map_eq_some_iff.mp h
    exact .inr ⟨value, hv, hne, rfl⟩

/-- A step of the mempool that writes payloads to the store. -/
theorem Traced.mempool (h : Traced env r) {m : Core} {channel : List ConsensusMempoolMessage}
    {answers : List Answer} {payloads : List Payload} {pushed : List Digest}
    (hwrites : ∀ key, m.store.read key ≠ r.mempool.store.read key →
      ∃ p ∈ payloads, m.store.read key = some p.encode)
    (hpayloads : r.payloads ⊆ payloads) (hchannel : channel ⊆ r.channel)
    (hpushed : ∀ d ∈ pushed, { r.withMempool env m with
      channel := channel, answers := answers, payloads := payloads,
      pushed := pushed }.Accounted env d) :
    Traced env { r.withMempool env m with
      channel := channel, answers := answers, payloads := payloads, pushed := pushed } := by
  have hlog : r.consensus.log ⊆ (r.withMempool env m).consensus.log := List.Subset.refl _
  refine ⟨hpushed, ?_, ?_, ?_⟩
  · intro d b hd
    rcases store_withMempool hd with hold | ⟨value, hv, hne, hb⟩
    · exact (h.stored d b hold).mono hlog hpayloads
    · obtain ⟨p, hp, hread⟩ := hwrites _ hne
      rw [hv, Option.some.injEq] at hread
      subst hread
      exact .inr (.inr ⟨p, hp, hb.symm⟩)
  · intro ds n hmem d hd
    obtain ⟨b, hb, hd⟩ := h.cleanups ds n hmem d hd
    exact ⟨b, hb.mono hlog hpayloads, hd⟩
  · intro ds n hmem
    exact h.channel ds n (hchannel hmem)

/-- A payload that is written is what is new in the store. -/
theorem read_withPayload {menv : Env} {s : Store} {p : Payload} {key : Bytes}
    (hne : (Core.withPayload menv s p).read key ≠ s.read key) :
    (Core.withPayload menv s p).read key = some p.encode := by
  by_cases hkey : key = (p.digest menv.cr).toBytes
  · rw [hkey]
    exact Store.read_write_self ..
  · exact absurd (Store.read_write_of_ne s hkey _) hne

theorem payload?_of_admits {menv : Env} {n : ℕ} {m : MempoolMessage} {p : Payload}
    (h : Core.admits menv n m = some p) : m.payload? = some p := by
  rcases Core.admits_some h with rfl | rfl <;> rfl

theorem Traced.message (h : Traced env r) (m : MempoolMessage)
    (hs : r.step env (.message m) = some r') : Traced env r' := by
  obtain ⟨hstore, hqueue⟩ := r.mempool.handle_frame env.mempool m
  cases hs
  refine h.mempool ?_ (List.subset_append_left _ _) (List.Subset.refl _) ?_
  · intro key hne
    rw [hstore] at hne ⊢
    cases ha : Core.admits env.mempool r.mempool.queue.length m with
    | none =>
      rw [ha] at hne
      exact absurd rfl hne
    | some p =>
      rw [ha] at hne
      refine ⟨p, List.mem_append_right _ ?_, read_withPayload hne⟩
      rw [payload?_of_admits ha]
      exact List.mem_singleton_self p
  · intro d hd
    -- the queue only grows
    have hgrows : ∃ new, (r.mempool.handle env.mempool m).queue = r.mempool.queue ++ new := by
      rw [hqueue]
      cases Core.admits env.mempool r.mempool.queue.length m with
      | none => exact ⟨[], (List.append_nil _).symm⟩
      | some p => exact ⟨_, rfl⟩
    obtain ⟨new, hnew⟩ := hgrows
    rcases List.mem_append.mp hd with hd | hd
    · refine Accounted.mono (r := r) ?_ (List.Subset.refl _) (List.Subset.refl _)
        (List.subset_append_left _ _) (h.pushed d hd)
      show r.mempool.queue ⊆ (r.mempool.handle env.mempool m).queue
      rw [hnew]
      exact List.subset_append_left _ _
    · exact .inl (List.mem_of_mem_drop hd)

theorem Traced.get (h : Traced env r) {ms : List ConsensusMempoolMessage}
    (hchannel : ms ⊆ r.channel) (max : ℕ) (made : Option Payload) (storeError : Bool) :
    Traced env ({ r with channel := ms }.serve env made storeError (.get max)) := by
  refine h.mempool ?_ (List.subset_append_left _ _) hchannel ?_
  · intro key hne
    rcases r.mempool.store_handleGet env.mempool max made with hstore | ⟨p, hmade, hstore⟩
    · rw [hstore] at hne
      exact absurd rfl hne
    · rw [hstore] at hne ⊢
      refine ⟨p, List.mem_append_right _ ?_, read_withPayload hne⟩
      rw [hmade]
      exact List.mem_singleton_self p
  · intro d hd
    rcases h.pushed d hd with hq | ⟨ds, hmem, hd⟩ | hb
    · rcases r.mempool.mem_handleGet env.mempool max made hq with hq | htaken
      · exact .inl hq
      · exact .inr (.inl ⟨_, List.mem_append_right _ (List.mem_singleton_self _), htaken⟩)
    · exact .inr (.inl ⟨ds, List.mem_append_left _ hmem, hd⟩)
    · exact Accounted.of_listed (r := r) (List.Subset.refl _) (List.subset_append_left _ _) hb

theorem Traced.verify (h : Traced env r) {ms : List ConsensusMempoolMessage}
    (hchannel : ms ⊆ r.channel) (st : PayloadStatus) :
    Traced env { r with channel := ms, answers := r.answers ++ [.status st] } := by
  refine ⟨?_, h.stored, h.cleanups, fun ds n hmem => h.channel ds n (hchannel hmem)⟩
  intro d hd
  exact Accounted.mono (r := r) (List.Subset.refl _) (List.subset_append_left _ _)
    (List.Subset.refl _) (List.Subset.refl _) (h.pushed d hd)

theorem Traced.cleanup (h : Traced env r) {ms : List ConsensusMempoolMessage} {ds : List Digest}
    {n : RoundNumber} (hchannel : r.channel = .cleanup ds n :: ms) (made : Option Payload)
    (storeError : Bool) :
    Traced env ({ r with channel := ms }.serve env made storeError (.cleanup ds n)) := by
  have hsub : ms ⊆ r.channel := by
    rw [hchannel]
    exact List.subset_cons_self _ _
  have hsent : .cleanup ds n ∈ r.consensus.log := by
    apply h.channel
    rw [hchannel]
    exact List.mem_cons_self
  refine h.mempool (fun key hne => absurd rfl hne) (List.Subset.refl _) hsub ?_
  intro d hd
  rcases h.pushed d hd with hq | ⟨es, hmem, hd⟩ | hb
  · by_cases hds : d ∈ ds
    · exact Accounted.of_listed (r := r) (List.Subset.refl _) (List.Subset.refl _) (h.cleanups ds n hsent d hds)
    · exact .inl (List.mem_filter.mpr ⟨hq, by simpa using hds⟩)
  · exact .inr (.inl ⟨es, hmem, hd⟩)
  · exact Accounted.of_listed (r := r) (List.Subset.refl _) (List.Subset.refl _) hb

theorem Traced.serve (h : Traced env r) {made : Option Payload} {storeError : Bool}
    (hs : r.step env (.serve made storeError) = some r') : Traced env r' := by
  unfold step at hs
  dsimp only at hs
  split at hs
  · cases hs
  · rename_i m ms hchannel
    cases hs
    have hsub : ms ⊆ r.channel := by
      rw [hchannel]
      exact List.subset_cons_self _ _
    cases m with
    | get max => exact h.get hsub max made storeError
    | verify b => exact h.verify hsub _
    | cleanup ds n => exact h.cleanup hchannel made storeError

/-! ### The consensus -/

theorem stored_getParentBlock (h : Traced env r) {p : Block}
    (hp : r.consensus.getParentBlock b = .ok (some p)) :
    ∀ d ∈ p.payload, ∃ c, r.Listed env c ∧ d ∈ c.payload := by
  intro d hd
  rcases Consensus.Core.getParentBlock_some hp with ⟨-, rfl⟩ | ⟨-, hstore⟩
  · cases hd
  · exact ⟨p, h.stored _ p hstore, hd⟩

/-- The blocks whose payloads a step of the consensus no longer needs are listed. -/
theorem Traced.listed_cleanup (h : Traced env r) {i : Consensus.Core.Input} {c : Consensus.Core}
    (hs : r.consensus.step env.consensus i = some c) {ds : List Digest} {n : RoundNumber}
    (hmem : .cleanup ds n ∈ c.log) :
    ∀ d ∈ ds, ∃ b, (r.withConsensus env c).Listed env b ∧ d ∈ b.payload := by
  have hlog : r.consensus.log ⊆ (r.withConsensus env c).consensus.log :=
    Consensus.Core.log_step hs
  have hold : (∃ n, .cleanup ds n ∈ r.consensus.log) →
      ∀ d ∈ ds, ∃ b, (r.withConsensus env c).Listed env b ∧ d ∈ b.payload := by
    rintro ⟨n, hmem⟩ d hd
    obtain ⟨b, hb, hd⟩ := h.cleanups ds n hmem d hd
    exact ⟨b, hb.mono hlog (List.Subset.refl _), hd⟩
  rcases Consensus.Core.step_fresh hs _ hmem with hmem | ⟨b0, b1, b, hcall, ha, rfl⟩
  · exact hold ⟨n, hmem⟩
  · rcases Consensus.Core.step_processBlock hcall ha hs with hsame | hp
    · exact hold ⟨n, hsame ▸ hmem⟩
    · have hparent : ∀ {b p}, r.consensus.getParentBlock b = .ok (some p) → ∀ d ∈ p.payload,
          ∃ c', (r.withConsensus env c).Listed env c' ∧ d ∈ c'.payload := by
        intro b p hp d hd
        obtain ⟨c', hc', hd⟩ := stored_getParentBlock h hp d hd
        exact ⟨c', hc'.mono hlog (List.Subset.refl _), hd⟩
      obtain ⟨h1, h0⟩ := Consensus.Core.getAncestors_some ha
      obtain ⟨es, hl, -⟩ := hp.log
      have hstored : .store b ∈ c.log := by
        rw [hl]
        exact List.mem_append_right _ List.mem_cons_self
      intro d hd
      rcases List.mem_append.mp hd with hd | hd
      · exact (List.mem_append.mp hd).elim (hparent h0 d) (hparent h1 d)
      · exact ⟨b, .inr (.inl hstored), hd⟩

theorem Traced.consensus (h : Traced env r) {i : Consensus.Core.Input} {c : Consensus.Core}
    (hi : ∀ d v, i ≠ .storeWrite d v) (hs : r.consensus.step env.consensus i = some c) :
    Traced env (r.withConsensus env c) := by
  have hlog : r.consensus.log ⊆ (r.withConsensus env c).consensus.log :=
    Consensus.Core.log_step hs
  refine ⟨?_, ?_, fun ds n => h.listed_cleanup hs, ?_⟩
  · intro d hd
    exact Accounted.mono (r := r) (List.Subset.refl _) (List.Subset.refl _) hlog
      (List.Subset.refl _) (h.pushed d hd)
  · intro d b hd
    have hold : r.consensus.store d = some (.ok b) → (r.withConsensus env c).Listed env b :=
      fun hd => (h.stored d b hd).mono hlog (List.Subset.refl _)
    rcases Consensus.Core.step_cases hs with hq | ⟨d', v, hw, -⟩ | ⟨b', b0, b1, -, -, hp⟩
    · exact hold (hq.store ▸ hd)
    · exact absurd hw (hi d' v)
    · obtain ⟨es, hl, -⟩ := hp.log
      have hd' : c.store d = some (.ok b) := hd
      rw [hp.store] at hd'
      by_cases hkey : d = b'.digest env.consensus.cr
      · rw [hkey, Function.update_self] at hd'
        cases hd'
        refine .inr (.inl ?_)
        show .store b ∈ c.log
        rw [hl]
        exact List.mem_append_right _ List.mem_cons_self
      · rw [Function.update_of_ne hkey] at hd'
        exact hold hd'
  · intro ds n hmem
    -- a message that was there, a new one of the log, or a request
    rcases List.mem_append.mp hmem with hmem | hmem
    · rcases List.mem_append.mp hmem with hmem | hmem
      · exact hlog (h.channel ds n hmem)
      · obtain ⟨e, he, hcleanup⟩ := List.mem_filterMap.mp hmem
        cases e <;> cases hcleanup
        exact List.mem_of_mem_drop he
    · split at hmem
      · cases hmem
      · exact absurd hmem (not_mem_request _)

/-- An answer to `Get` ends up in a block. -/
theorem propose_of_payload {s : Consensus.Core} {ds : List Digest} {c : Consensus.Core}
    (hs : s.step env.consensus (.payload ds) = some c) :
    ∃ b, .propose b ∈ c.log ∧ b.payload = ds := by
  simp only [Consensus.Core.step] at hs
  split at hs
  · rename_i tc hcall
    split at hs <;> cases hs
    refine ⟨.new env.consensus.cr s.highQc tc env.consensus.name s.round ds, ?_, rfl⟩
    simp [Consensus.Core.generateProposal, Consensus.Core.logged]
  · cases hs

theorem Traced.answer (h : Traced env r) (hs : r.step env .answer = some r') : Traced env r' := by
  unfold step at hs
  dsimp only at hs
  split at hs
  · cases hs
  · rename_i a rest hanswers
    obtain ⟨c, hc, rfl⟩ := Option.map_eq_some_iff.mp hs
    have hstep : Traced env (r.withConsensus env c) :=
      h.consensus (by cases a <;> simp [Answer.input]) hc
    refine ⟨?_, hstep.stored, hstep.cleanups, hstep.channel⟩
    intro d hd
    rcases hstep.pushed d hd with hq | ⟨ds, hmem, hd⟩ | hb
    · exact .inl hq
    · have hmem' : .payload ds ∈ a :: rest := hanswers ▸ hmem
      rcases List.mem_cons.mp hmem' with rfl | hmem'
      · obtain ⟨b, hb, rfl⟩ := propose_of_payload hc
        exact .inr (.inr ⟨b, .inl hb, hd⟩)
      · exact .inr (.inl ⟨ds, hmem', hd⟩)
    · exact .inr (.inr hb)

/-- **Step lemma.** -/
theorem Traced.step (h : Traced env r) {i : Input} (hs : r.step env i = some r') :
    Traced env r' := by
  cases i with
  | message m => exact h.message m hs
  | serve made storeError => exact h.serve hs
  | answer => exact h.answer hs
  | consensus i =>
    cases i with
    | payload ds => cases hs
    | status st => cases hs
    | storeWrite d v => cases hs
    | payloadCancel b =>
      cases hs
      exact h.consensus (i := .payloadCancel b) (by simp) rfl
    | _ =>
      obtain ⟨c, hc, rfl⟩ := Option.map_eq_some_iff.mp hs
      exact h.consensus (by simp) hc

/-- **Nothing that was pushed disappears silently**: in every run a digest that was ever pushed onto
the queue is still there, on its way to the consensus, or listed in a block. -/
theorem enqueued_accounted (env : Setup) (r : Replica) (hr : (machine env).Reachable r) :
    ∀ d ∈ r.pushed, r.Accounted env d := by
  have hinv : Traced env r := by
    refine Machine.invariant (P := fun r => Traced env r) ?_ ?_ hr
    · intro r h
      rw [show r = new env from h]
      exact traced_new
    · intro r i r' h hs
      exact h.step hs
  exact hinv.pushed

/-- The node leads the first round, another authority the later ones. -/
def orphanSetup : Setup where
  consensus := ⟨sampleBatch, sampleCommittee, fun r => if r = 1 then keyB else keyA, keyB, false⟩
  maxPayloadSize := 500
  parameters := .default
  authorities := [keyA, keyB]

/-- The node is given a payload and makes a block with it. -/
def lead : List Input := [.message (.ownPayload harmless), .serve none false, .answer]

/-- The queue is empty, but the digest is listed in the block. -/
theorem enqueued_accounted_lead : ∃ r : Replica, r.mempool.queue = [] ∧
    harmless.digest sampleBatch.toCrypto ∈ r.pushed ∧
      r.Accounted orphanSetup (harmless.digest sampleBatch.toCrypto) := by
  have hrun : ((Machine.exec (step orphanSetup) (new orphanSetup) lead).any fun r =>
      r.mempool.queue = [] ∧ harmless.digest sampleBatch.toCrypto ∈ r.pushed) = true := by
    decide +kernel
  rw [Option.any_eq_true] at hrun
  obtain ⟨r, hr, h⟩ := hrun
  obtain ⟨hqueue, hpushed⟩ := of_decide_eq_true h
  exact ⟨r, hqueue, hpushed,
    enqueued_accounted orphanSetup r (Machine.reachable_exec (.init rfl) hr) _ hpushed⟩

/-! ### A block that is left behind -/

def Effect.committed? : Effect → Option Block
  | .commit b0 _ _ => some b0
  | _ => none

/-- The last block on the commit channel. -/
def lastCommitted (r : Replica) : Block :=
  (r.consensus.log.filterMap Effect.committed?).getLast?.getD .genesis

/-- The node has stored a block with digest `d` and parent `e`. -/
def ParentEdge (cr : BatchCrypto) (r : Replica) (d e : Digest) : Prop :=
  ∃ b ∈ r.consensus.log.filterMap Effect.stored?, b.digest cr = d ∧ b.parentDigest cr = e

/-- Neither block is an ancestor of the other. -/
def Conflict (cr : BatchCrypto) (r : Replica) (b c : Block) : Prop :=
  ¬ Relation.ReflTransGen (r.ParentEdge cr) (b.digest cr) (c.digest cr) ∧
    ¬ Relation.ReflTransGen (r.ParentEdge cr) (c.digest cr) (b.digest cr)

/-- The digest is in the queue or in a stored block on the chain of the last committed one. -/
def Kept (cr : BatchCrypto) (r : Replica) (d : Digest) : Prop :=
  d ∈ r.mempool.queue ∨ ∃ b ∈ r.consensus.log.filterMap Effect.stored?,
    d ∈ b.payload ∧ ¬ r.Conflict cr b r.lastCommitted

/-- Ancestors stay in a set that is closed under parents. -/
theorem mem_of_ancestor {cr : BatchCrypto} {D : List Digest} {d e : Digest}
    (hclosed : ∀ b ∈ r.consensus.log.filterMap Effect.stored?, b.digest cr ∈ D →
      b.parentDigest cr ∈ D)
    (h : Relation.ReflTransGen (r.ParentEdge cr) d e) (hd : d ∈ D) : e ∈ D := by
  induction h with
  | refl => exact hd
  | tail _ hedge ih =>
    obtain ⟨b, hb, rfl, rfl⟩ := hedge
    exact hclosed b hb ih

/-- The block of the node, with the payload that it was given. -/
def orphan : Block :=
  .new sampleBatch .genesis none keyB 1 [harmless.digest sampleBatch.toCrypto]

/-- The blocks of the other authority, which has seen a timeout of the first round. -/
def sibling1 : Block := .new sampleBatch .genesis (some (Network.timeoutTc 1 [(keyA, 0)])) keyA 2 []

def sibling2 : Block := .new sampleBatch (Network.sampleQc sibling1) none keyA 3 []

def sibling3 : Block := .new sampleBatch (Network.sampleQc sibling2) none keyA 4 []

/-- A proposal arrives and is processed; the mempool handles the last cleanup first. -/
def follow (b : Block) : List Input :=
  [.serve none false, .consensus (.deliver (.propose b)), .consensus .next, .consensus .next,
    .serve none false, .answer, .consensus .next]

/-- **An enqueued payload is lost**: the only block that lists it is off the committed chain. -/
theorem enqueued_orphaned : ∃ r : Replica, (machine orphanSetup).Reachable r ∧
    ∃ d ∈ r.pushed, ¬ r.Kept sampleBatch d := by
  have hrun : ((Machine.exec (step orphanSetup) (new orphanSetup)
      (lead ++ [.consensus .next] ++ follow sibling1 ++ follow sibling2 ++
        follow sibling3)).any fun r =>
          r.pushed = [harmless.digest sampleBatch.toCrypto] ∧ r.mempool.queue = [] ∧
          r.consensus.log.filterMap Effect.stored? = [orphan, sibling1, sibling2, sibling3] ∧
          r.lastCommitted = sibling1) = true := by
    decide +kernel
  rw [Option.any_eq_true] at hrun
  obtain ⟨r, hr, h⟩ := hrun
  obtain ⟨hpushed, hqueue, hstored, hlast⟩ := of_decide_eq_true h
  -- the ancestors of a block whose parent is genesis
  have hroot : ∀ b ∈ [orphan, sibling1], ∀ e, Relation.ReflTransGen (r.ParentEdge sampleBatch)
      (b.digest sampleBatch) e → e ∈ [b.digest sampleBatch, Block.genesis.digest sampleBatch] := by
    have hclosed : ∀ b ∈ [orphan, sibling1], ∀ c ∈ [orphan, sibling1, sibling2, sibling3],
        c.digest sampleBatch ∈ [b.digest sampleBatch, Block.genesis.digest sampleBatch] →
          c.parentDigest sampleBatch ∈
            [b.digest sampleBatch, Block.genesis.digest sampleBatch] := by
      decide +kernel
    intro b hb e he
    refine mem_of_ancestor ?_ he List.mem_cons_self
    rw [hstored]
    exact hclosed b hb
  refine ⟨r, Machine.reachable_exec (.init rfl) hr, harmless.digest sampleBatch.toCrypto, ?_, ?_⟩
  · rw [hpushed]
    exact List.mem_singleton_self _
  · rintro (hmem | ⟨b, hb, hd, hb'⟩)
    · rw [hqueue] at hmem
      cases hmem
    · apply hb'
      have horphan : b = orphan := by
        have hpayload : ∀ c ∈ [orphan, sibling1, sibling2, sibling3],
            harmless.digest sampleBatch.toCrypto ∈ c.payload → c = orphan := by
          decide +kernel
        exact hpayload b (hstored ▸ hb) hd
      rw [horphan, hlast]
      exact ⟨fun h => absurd (hroot orphan (by simp) _ h) (by decide +kernel),
        fun h => absurd (hroot sibling1 (by simp) _ h) (by decide +kernel)⟩

/-! ## A step of a node, as one of its core -/

/-- The payloads that the mempool may store. -/
def Input.payloads : Input → List Payload
  | .message m => m.payload?.toList
  | .serve made _ => made.toList
  | .answer | .consensus _ => []

/-- What the core sees of a step of the mempool: nothing, or the payload that is written. -/
theorem consensus_withMempool {m : Core} {p : Payload}
    (hm : m.store = Core.withPayload env.mempool r.mempool.store p) :
    (r.withMempool env m).consensus = r.consensus ∨
      r.consensus.step env.consensus
        (.storeWrite (p.digest env.consensus.cr.toCrypto) p.encode) =
          some (r.withMempool env m).consensus := by
  have hother : ∀ d, d ≠ p.digest env.consensus.cr.toCrypto →
      m.store.read d.toBytes = r.mempool.store.read d.toBytes := fun d hd => by
    rw [hm]
    exact Store.read_write_of_ne _ (fun he => hd (Digest.toBytes_injective he)) _
  have hself : m.store.read (p.digest env.consensus.cr.toCrypto).toBytes = some p.encode := by
    rw [hm]
    exact Store.read_write_self ..
  by_cases hsame : m.store.read (p.digest env.consensus.cr.toCrypto).toBytes =
      r.mempool.store.read (p.digest env.consensus.cr.toCrypto).toBytes
  · left
    have hstore : (r.withMempool env m).consensus.store = r.consensus.store := by
      funext d
      by_cases hd : d = p.digest env.consensus.cr.toCrypto
      · exact if_pos (hd ▸ hsame)
      · exact if_pos (hother d hd)
    show ({ r.consensus with store := (r.withMempool env m).consensus.store } :
      Consensus.Core) = r.consensus
    rw [hstore]
  · right
    have hstore : (r.withMempool env m).consensus.store = Function.update r.consensus.store
        (p.digest env.consensus.cr.toCrypto)
        (some (Block.tryFrom env.consensus.cr.toCrypto p.encode)) := by
      funext d
      by_cases hd : d = p.digest env.consensus.cr.toCrypto
      · subst hd
        rw [Function.update_self]
        exact (if_neg hsame).trans (by rw [hself]; rfl)
      · rw [Function.update_of_ne hd]
        exact if_pos (hother d hd)
    show _ = some ({ r.consensus with store := (r.withMempool env m).consensus.store } :
      Consensus.Core)
    rw [hstore]
    rfl

theorem consensus_withMempool_same {m : Core} (hm : m.store = r.mempool.store) :
    (r.withMempool env m).consensus = r.consensus := by
  have hstore : (r.withMempool env m).consensus.store = r.consensus.store := by
    funext d
    exact if_pos (by rw [hm])
  show ({ r.consensus with store := (r.withMempool env m).consensus.store } :
    Consensus.Core) = r.consensus
  rw [hstore]

theorem step_consensus {i : Consensus.Core.Input} (hs : r.step env (.consensus i) = some r') :
    ∃ c, r.consensus.step env.consensus i = some c ∧ r' = r.withConsensus env c := by
  have hstep : (r.consensus.step env.consensus i).map (r.withConsensus env) = some r' := by
    cases i with
    | payload ds => cases hs
    | status st => cases hs
    | storeWrite d v => cases hs
    | _ => exact hs
  obtain ⟨c, hc, rfl⟩ := Option.map_eq_some_iff.mp hstep
  exact ⟨c, hc, rfl⟩

/-- **A step of a node is one of its core, or none**: its own, an answer, or a payload that the
mempool has written. -/
theorem step_core {i : Input} (hs : r.step env i = some r') :
    r'.consensus = r.consensus ∨ ∃ j, r.consensus.step env.consensus j = some r'.consensus ∧
      (i = .consensus j ∨ (∃ a : Answer, j = a.input) ∨
        ∃ p ∈ i.payloads, j = .storeWrite (p.digest env.consensus.cr.toCrypto) p.encode) := by
  cases i with
  | message m =>
    obtain ⟨hstore, -⟩ := r.mempool.handle_frame env.mempool m
    cases hs
    cases ha : Core.admits env.mempool r.mempool.queue.length m with
    | none =>
      rw [ha] at hstore
      exact .inl (consensus_withMempool_same hstore)
    | some p =>
      rw [ha] at hstore
      have hp : p ∈ (Input.message m).payloads :=
        Option.mem_toList.mpr (payload?_of_admits ha)
      exact (consensus_withMempool hstore).imp_right fun h => ⟨_, h, .inr (.inr ⟨p, hp, rfl⟩)⟩
  | serve made storeError =>
    unfold step at hs
    dsimp only at hs
    split at hs
    · cases hs
    · rename_i m ms hchannel
      cases hs
      cases m with
      | cleanup ds n => exact .inl (consensus_withMempool_same (r := { r with channel := ms }) rfl)
      | verify b => exact .inl rfl
      | get max =>
        rcases r.mempool.store_handleGet env.mempool max made with hstore | ⟨p, hmade, hstore⟩
        · exact .inl (consensus_withMempool_same (r := { r with channel := ms }) hstore)
        · have hp : p ∈ (Input.serve made storeError).payloads := Option.mem_toList.mpr hmade
          exact (consensus_withMempool (r := { r with channel := ms }) hstore).imp_right
            fun h => ⟨_, h, .inr (.inr ⟨p, hp, rfl⟩)⟩
  | answer =>
    unfold step at hs
    dsimp only at hs
    split at hs
    · cases hs
    · rename_i a rest hanswers
      obtain ⟨c, hc, rfl⟩ := Option.map_eq_some_iff.mp hs
      exact .inr ⟨_, hc, .inr (.inl ⟨a, rfl⟩)⟩
  | consensus i =>
    obtain ⟨c, hc, rfl⟩ := step_consensus hs
    exact .inr ⟨i, hc, .inl rfl⟩

end Replica

end AccountabilityGadget.Mempool
