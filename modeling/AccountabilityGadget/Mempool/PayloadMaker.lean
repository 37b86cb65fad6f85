import AccountabilityGadget.Lib.Machine
import AccountabilityGadget.Mempool.SharedStore

/-!
# What the mempool proposes and what its peers accept (`mempool/src/payload.rs`, `mempool/src/core.rs`)

The runner of the payload maker makes a payload of each transaction at once; the test of the size
is commented out.  The core stores and queues its own payloads whatever their size, and refuses
those of other nodes that are larger than `max_payload_size`.

* `Runner.add`, `Runner.make`, `PayloadMaker.make` — the payload maker.
* `Producer.step` — the payload maker with the core of the mempool.
* `Producer.run_sound` — what the node stores as its own are single transactions of its clients.
* `Producer.stores_all` — with room in the queue each of them can be stored.
* `Producer.accepted_iff` — all own payloads are accepted by the peers if and only if every
  transaction fits into a payload.
-/

set_option autoImplicit false

namespace AccountabilityGadget.Mempool

open Encoding

/-! ## The payload maker -/

structure Runner where
  transactions : List ByteVec
  size : UInt64
  count_lt : transactions.length < 2 ^ 64

namespace Runner

def new : Runner := ⟨[], 0, by decide⟩

def make (r : Runner) : Runner × Payload := (.new, ⟨r.transactions, r.count_lt⟩)

/-- Every transaction goes out as a payload immediately. -/
def add (r : Runner) (tx : ByteVec) : Except Panic (Runner × Option Payload) :=
  if h : r.transactions.length + 1 < 2 ^ 64 then
    let r : Runner :=
      { transactions := r.transactions ++ [tx]
        size := r.size + UInt64.ofNat tx.bytes.length
        count_lt := by rwa [List.length_append, List.length_singleton] }
    let (r, payload) := r.make
    .ok (r, some payload)
  else .error (.expect "capacity overflow")

end Runner

/-- What the core gets from the runner: an empty payload is none. -/
def PayloadMaker.make (r : Runner) : Runner × Option Payload :=
  let (r, payload) := r.make
  (r, if payload.size = 0 then none else some payload)

/-! ## The payload maker and the core -/

structure Producer where
  runner : Runner
  /-- The channel of the core, which the runner and the receiver of the network write to. -/
  coreChannel : List MempoolMessage
  core : Core
  /-- The payloads that the core has stored as its own. -/
  own : List Payload

namespace Producer

inductive Input where
  /-- The runner takes a transaction of a client. -/
  | client (tx : ByteVec)
  /-- A message of the network for the core. -/
  | receive (m : MempoolMessage)
  /-- The core handles the next message. -/
  | deliver
  | get (max : ℕ)
  | cleanup (digests : List Digest)
  deriving DecidableEq

def Input.client? : Input → Option ByteVec
  | client tx => some tx
  | _ => none

def new (core : Core) : Producer := ⟨.new, [], core, []⟩

variable (env : Env)

/-- The own payload that is stored when a message is handled. -/
def storedOwn (s : Core) : MempoolMessage → List Payload
  | .ownPayload p =>
    match s.handleOwnPayload env p with
    | .ok _ => [p]
    | .error _ => []
  | _ => []

/-- The own payload that is stored when the consensus asks for payloads. -/
def storedGet (s : Core) : Option Payload → List Payload
  | some p =>
    match s.processOwnPayload env (p.digest env.cr) p with
    | .ok _ => [p]
    | .error _ => []
  | none => []

/-- Own payloads do not come from the network.  A panic of the runner ends the run. -/
def step (n : Producer) : Input → Option Producer
  | .client tx =>
    match n.runner.add tx with
    | .ok (runner, some p) =>
      some { n with runner, coreChannel := n.coreChannel ++ [.ownPayload p] }
    | .ok (runner, none) => some { n with runner }
    | .error _ => none
  | .receive (.ownPayload _) => none
  | .receive m => some { n with coreChannel := n.coreChannel ++ [m] }
  | .deliver =>
    match n.coreChannel with
    | [] => none
    | m :: rest => some { n with
        coreChannel := rest
        core := n.core.handle env m
        own := n.own ++ storedOwn env n.core m }
  | .get max =>
    if n.core.queue = [] then
      let (runner, made) := PayloadMaker.make n.runner
      some { n with
        runner
        core := (n.core.handleGet env max made).1
        own := n.own ++ storedGet env n.core made }
    else some { n with core := (n.core.handleGet env max none).1 }
  | .cleanup digests => some { n with core := n.core.cleanup digests }

/-- Every node with the same parameters stores and queues a received payload. -/
def Accepted (p : Payload) : Prop :=
  ∀ (peer : Env) (s : Core), peer.parameters = env.parameters →
    ∃ s', s.handleOthersPayload peer p = .ok s'

variable {env} {n n' : Producer}

/-- The payload of one transaction. -/
def single (tx : ByteVec) : Payload := ⟨[tx], by rw [List.length_singleton]; decide⟩

theorem size_single (tx : ByteVec) : (single tx).size = tx.bytes.length := by
  rw [Payload.size, single, List.map_singleton, List.sum_singleton]

theorem accepted_iff_size {p : Payload} :
    Accepted env p ↔ p.size ≤ env.parameters.maxPayloadSize := by
  constructor
  · intro h
    obtain ⟨s', hs⟩ := h env (.new .empty) rfl
    by_contra hsize
    rw [Core.handleOthersPayload, if_neg hsize] at hs
    cases hs
  · intro h peer s hp
    rw [← hp] at h
    exact ⟨_, if_pos h⟩

/-! ### What the node stores as its own -/

/-- An idle runner makes a payload of the transaction alone. -/
theorem add_idle {r : Runner} (h : r.transactions = []) (tx : ByteVec) :
    r.add tx = .ok (.new, some (single tx)) := by
  obtain ⟨transactions, size, count_lt⟩ := r
  cases h
  rfl

/-- An idle runner has nothing for the core. -/
theorem make_idle {r : Runner} (h : r.transactions = []) : PayloadMaker.make r = (.new, none) := by
  obtain ⟨transactions, size, count_lt⟩ := r
  cases h
  rfl

/-- The size of the payload does not matter. -/
theorem storedOwn_own (s : Core) (p : Payload) : storedOwn env s (.ownPayload p) =
    if s.queue.length < env.parameters.queueCapacity then [p] else [] := by
  simp only [storedOwn, Core.handleOwnPayload, Core.processOwnPayload, Core.transmit]
  split_ifs <;> rfl

theorem mem_storedOwn {s : Core} {m : MempoolMessage} {p : Payload} (h : p ∈ storedOwn env s m) :
    m = .ownPayload p ∧ 0 < env.parameters.queueCapacity := by
  cases m with
  | ownPayload q =>
    rw [storedOwn_own] at h
    split_ifs at h with hroom
    · rw [List.mem_singleton.mp h]
      exact ⟨rfl, by omega⟩
    · cases h
  | payload q => cases h
  | payloadRequest digests requestor => cases h

/-- The runner holds nothing back, and what the node makes satisfies `ok`. -/
structure Sound (env : Env) (ok : Payload → Prop) (n : Producer) : Prop where
  idle : n.runner.transactions = []
  /-- A core with a queue of capacity 0 stores nothing. -/
  made : ∀ p, .ownPayload p ∈ n.coreChannel → 0 < env.parameters.queueCapacity → ok p
  own : ∀ p ∈ n.own, ok p

theorem Sound.step {ok : Payload → Prop} {i : Input} (h : Sound env ok n)
    (hi : ∀ tx, i = .client tx → 0 < env.parameters.queueCapacity → ok (single tx))
    (hs : n.step env i = some n') : Sound env ok n' := by
  cases i with
  | client tx =>
    simp only [Producer.step, add_idle h.idle, Option.some.injEq] at hs
    subst hs
    refine ⟨rfl, ?_, h.own⟩
    intro p hp hcap
    rcases List.mem_append.mp hp with hp | hp
    · exact h.made p hp hcap
    · cases List.mem_singleton.mp hp
      exact hi tx rfl hcap
  | receive m =>
    cases m with
    | ownPayload q => cases hs
    | payload q | payloadRequest digests requestor =>
      cases hs
      refine ⟨h.idle, ?_, h.own⟩
      intro p hp hcap
      rcases List.mem_append.mp hp with hp | hp
      · exact h.made p hp hcap
      · cases List.mem_singleton.mp hp
  | deliver =>
    simp only [Producer.step] at hs
    split at hs
    · cases hs
    · rename_i m rest hchannel
      cases hs
      have hmade := h.made
      rw [hchannel] at hmade
      refine ⟨h.idle, fun p hp => hmade p (List.mem_cons_of_mem _ hp), ?_⟩
      intro p hp
      rcases List.mem_append.mp hp with hp | hp
      · exact h.own p hp
      · obtain ⟨rfl, hcap⟩ := mem_storedOwn hp
        exact hmade p List.mem_cons_self hcap
  | get max =>
    simp only [Producer.step, make_idle h.idle] at hs
    split_ifs at hs <;> cases hs
    · refine ⟨rfl, h.made, ?_⟩
      intro p hp
      rw [storedGet, List.append_nil] at hp
      exact h.own p hp
    · exact ⟨h.idle, h.made, h.own⟩
  | cleanup digests =>
    cases hs
    exact ⟨h.idle, h.made, h.own⟩

/-- **What the node stores as its own are single transactions of its clients.** -/
theorem run_sound {ok : Payload → Prop} {is : List Input} (h : Sound env ok n)
    (his : ∀ tx ∈ is.filterMap Input.client?, 0 < env.parameters.queueCapacity → ok (single tx))
    (hs : Machine.exec (Producer.step env) n is = some n') : Sound env ok n' := by
  induction is generalizing n with
  | nil =>
    cases hs
    exact h
  | cons i is ih =>
    obtain ⟨m, hm, hs⟩ := Option.bind_eq_some_iff.mp hs
    refine ih (h.step ?_ hm) ?_ hs
    · rintro tx rfl
      exact his tx List.mem_cons_self
    · intro tx htx
      obtain ⟨j, hj, htx⟩ := List.mem_filterMap.mp htx
      exact his tx (List.mem_filterMap.mpr ⟨j, List.mem_cons_of_mem _ hj, htx⟩)

/-! ### What it can store -/

/-- Nothing is on its way. -/
def Idle (n : Producer) : Prop := n.runner.transactions = [] ∧ n.coreChannel = []

/-- With room in the queue a transaction is stored. -/
theorem stores_one (hcap : 0 < env.parameters.queueCapacity) (h : Idle n) (tx : ByteVec) :
    ∃ is n', Machine.exec (Producer.step env) n is = some n' ∧
      is.filterMap Input.client? = [tx] ∧ Idle n' ∧ n'.own = n.own ++ [single tx] := by
  have hempty : (n.core.cleanup n.core.queue).queue = [] := by
    rw [Core.cleanup, List.filter_eq_nil_iff]
    intro d hd
    simpa using hd
  have hroom : (n.core.cleanup n.core.queue).queue.length < env.parameters.queueCapacity := by
    rwa [hempty]
  have hstored : storedOwn env (n.core.cleanup n.core.queue) (.ownPayload (single tx)) =
      [single tx] := by
    rw [storedOwn_own, if_pos hroom]
  refine ⟨[.cleanup n.core.queue, .client tx, .deliver],
    ⟨.new, [], (n.core.cleanup n.core.queue).handle env (.ownPayload (single tx)),
      n.own ++ [single tx]⟩, ?_, rfl, ⟨rfl, rfl⟩, rfl⟩
  simp only [Machine.exec, Producer.step, Option.bind_some, add_idle h.1, h.2, List.nil_append,
    hstored]

/-- **With room in the queue every transaction of the clients can be stored.** -/
theorem stores_all (hcap : 0 < env.parameters.queueCapacity) (txs : List ByteVec) :
    ∀ {n}, Idle n → ∃ is n', Machine.exec (Producer.step env) n is = some n' ∧
      is.filterMap Input.client? = txs ∧ n'.own = n.own ++ txs.map single := by
  induction txs with
  | nil =>
    intro n h
    exact ⟨[], n, rfl, rfl, (List.append_nil _).symm⟩
  | cons tx txs ih =>
    intro n h
    obtain ⟨is, m, hm, his, hidle, hown⟩ := stores_one hcap h tx
    obtain ⟨js, n', hn, hjs, hown'⟩ := ih hidle
    refine ⟨is ++ js, n', ?_, ?_, ?_⟩
    · rw [Machine.exec_append hm, hn]
    · rw [List.filterMap_append, his, hjs]
      rfl
    · rw [hown', hown, List.map_cons, List.append_assoc]
      rfl

end Producer

/-- **The peers accept what the node stores as its own, if and only if every transaction of its
clients fits into a payload**, or its queue has no room at all.  The run starts with any core. -/
theorem Producer.accepted_iff (env : Env) (core : Core) (txs : List ByteVec) :
    (∀ is n, Machine.exec (step env) (new core) is = some n →
      is.filterMap Input.client? <+: txs → ∀ p ∈ n.own, Accepted env p) ↔
    env.parameters.queueCapacity = 0 ∨
      ∀ tx ∈ txs, tx.bytes.length ≤ env.parameters.maxPayloadSize := by
  constructor
  · intro h
    rcases Nat.eq_zero_or_pos env.parameters.queueCapacity with hcap | hcap
    · exact .inl hcap
    · refine .inr fun tx htx => ?_
      obtain ⟨is, n, hs, his, hown⟩ := stores_all hcap txs (n := new core) ⟨rfl, rfl⟩
      have hmem : single tx ∈ n.own := by
        rw [hown]
        exact List.mem_append_right _ (List.mem_map_of_mem htx)
      have hacc := h is n hs (his ▸ List.prefix_rfl) _ hmem
      rwa [accepted_iff_size, size_single] at hacc
  · intro h is n hs his p hp
    have hsound : Sound env (Accepted env) (new core) :=
      ⟨rfl, fun _ hq => absurd hq List.not_mem_nil, fun _ hq => absurd hq List.not_mem_nil⟩
    refine (run_sound hsound ?_ hs).own p hp
    intro tx htx hcap
    rw [accepted_iff_size, size_single]
    rcases h with h | h
    · omega
    · exact h tx (his.subset htx)

/-! ### A long transaction -/

/-- One byte more than the default maximum. -/
def longTx : ByteVec := ⟨List.replicate 100001 0, by rw [List.length_replicate]; decide⟩

/-- **A long transaction of a client is stored, queued and sent, and refused by every peer.** -/
theorem Producer.long_refused : ∃ n,
    Machine.exec (step ⟨sampleCrypto, .default, []⟩) (new (.new .empty)) [.client longTx, .deliver] =
      some n ∧
    n.own = [single longTx] ∧ n.core.queue = [(single longTx).digest sampleCrypto] ∧
    n.core.sent = [(.payload (single longTx), none)] ∧
    (∀ s : Core, s.handleOthersPayload ⟨sampleCrypto, .default, []⟩ (single longTx) =
      .error .payloadTooBig) ∧
    ¬ Accepted ⟨sampleCrypto, .default, []⟩ (single longTx) := by
  have hbig : ¬ (single longTx).size ≤ Parameters.default.maxPayloadSize := by
    rw [size_single, longTx, List.length_replicate]
    decide
  exact ⟨_, rfl, rfl, rfl, rfl, fun s => if_neg hbig, fun h => hbig (accepted_iff_size.mp h)⟩

end AccountabilityGadget.Mempool
