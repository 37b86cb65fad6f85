import AccountabilityGadget.Crypto

/-!
# Payloads, the store and the core of the mempool (`store/src/lib.rs`, `mempool/src`)

* `Store` — the key-value store that the consensus, the mempool and the ledger reader share; a
  write replaces the value of its key.
* `Payload.digest` — the hash of the transactions one after the other, without their lengths.
* `Payload.decode_inverts` — the round trip of the serialized form.
* `Core.handle` — the messages of the mempool; `Core.admits` — the payload that a message makes it
  store, and `handle_frame` — what the store and the queue are after it.
-/

set_option autoImplicit false

namespace AccountabilityGadget

open Encoding

/-! ## Store -/

structure Store where
  db : Bytes → Option Bytes

namespace Store

def empty : Store := ⟨fun _ => none⟩

def write (s : Store) (key value : Bytes) : Store := ⟨Function.update s.db key (some value)⟩

def read (s : Store) (key : Bytes) : Option Bytes := s.db key

@[simp] theorem read_write_self (s : Store) (key value : Bytes) :
    (s.write key value).read key = some value :=
  Function.update_self ..

theorem read_write_of_ne (s : Store) {key key' : Bytes} (h : key' ≠ key) (value : Bytes) :
    (s.write key value).read key' = s.read key' :=
  Function.update_of_ne h ..

end Store

namespace Mempool

/-! ## Payloads -/

/-- The number of transactions is a `usize`. -/
structure Payload where
  transactions : List ByteVec
  count_lt : transactions.length < 2 ^ 64
  deriving DecidableEq

namespace Payload

def size (p : Payload) : ℕ := (p.transactions.map fun tx => tx.bytes.length).sum

/-- What the digest of a payload is computed from. -/
def preimage (p : Payload) : Bytes := p.transactions.flatMap ByteVec.bytes

def digest (cr : Crypto) (p : Payload) : Digest := cr.sha512 p.preimage

def encodeTx (tx : ByteVec) : Bytes := encStr tx.bytes

def encode (p : Payload) : Bytes := encVec encodeTx p.transactions

def decode : Decoder (Fault DecodeError) Payload := do
  let transactions ← vec byteVec
  if h : transactions.length < 2 ^ 64 then return ⟨transactions, h⟩ else throw WireError.eof

/-- `bincode::deserialize`: trailing bytes are ignored. -/
def tryFrom (value : Bytes) : Except (Fault DecodeError) Payload :=
  match decode.run value with
  | .error e => .error e
  | .ok (p, _) => .ok p

theorem decode_inverts (p : Payload) : Inverts encode decode p := by
  intro rest
  have hvec : Inverts (encVec encodeTx) (vec byteVec : Decoder (Fault DecodeError) _)
      p.transactions :=
    run_vec (by have := p.count_lt; omega) fun tx _ => run_byteVec tx
  rw [encode, decode, run_bind, hvec]
  simp only [p.count_lt, dite_true]
  rfl

theorem tryFrom_encode (p : Payload) : tryFrom p.encode = .ok p := by
  have h := decode_inverts p []
  rw [List.append_nil] at h
  rw [tryFrom, h]

theorem length_preimage (p : Payload) : p.preimage.length = p.size := by
  rw [preimage, size, List.length_flatMap]

/-- Each length takes eight bytes. -/
theorem length_encode (p : Payload) :
    p.encode.length = 8 + 8 * p.transactions.length + p.preimage.length := by
  have hsum : ∀ txs : List ByteVec, (txs.map fun tx => (encodeTx tx).length).sum =
      8 * txs.length + (txs.flatMap ByteVec.bytes).length := by
    intro txs
    induction txs with
    | nil => rfl
    | cons tx txs ih =>
      have htx : (encodeTx tx).length = 8 + tx.bytes.length := by simp [encodeTx, encStr]
      rw [List.map_cons, List.sum_cons, ih, htx, List.length_cons, List.flatMap_cons,
        List.length_append]
      omega
  rw [encode, length_encVec, hsum, preimage]
  omega

end Payload

/-! ## Core -/

structure Parameters where
  queueCapacity : ℕ
  maxPayloadSize : ℕ

inductive MempoolMessage where
  | ownPayload (p : Payload)
  | payload (p : Payload)
  | payloadRequest (digests : List Digest) (requestor : PublicKey)
  deriving DecidableEq

inductive MempoolError where
  | mempoolFull
  | payloadTooBig
  | serializationError
  | notInCommittee (name : PublicKey)
  deriving DecidableEq

abbrev MempoolResult := Except MempoolError

structure Env where
  cr : Crypto
  parameters : Parameters
  /-- The keys of `Committee::authorities`. -/
  authorities : List PublicKey

structure Core where
  store : Store
  queue : List Digest
  /-- What went to the network. -/
  sent : List (MempoolMessage × Option PublicKey)

namespace Core

def new (store : Store) : Core := ⟨store, [], []⟩

variable (env : Env)

def storePayload (s : Core) (key : Digest) (p : Payload) : Core :=
  { s with store := s.store.write key.toBytes p.encode }

def transmit (s : Core) (m : MempoolMessage) : Option PublicKey → MempoolResult Core
  | none => .ok { s with sent := s.sent ++ [(m, none)] }
  | some receiver =>
    if receiver ∈ env.authorities then .ok { s with sent := s.sent ++ [(m, some receiver)] }
    else .error (.notInCommittee receiver)

def processOwnPayload (s : Core) (digest : Digest) (p : Payload) : MempoolResult Core :=
  if s.queue.length < env.parameters.queueCapacity then
    (s.storePayload digest p).transmit env (.payload p) none
  else .error .mempoolFull

def handleOwnPayload (s : Core) (p : Payload) : MempoolResult Core :=
  if s.queue.length < env.parameters.queueCapacity then
    let digest := p.digest env.cr
    match s.processOwnPayload env digest p with
    | .error e => .error e
    | .ok s => .ok { s with queue := s.queue ++ [digest] }
  else .error .mempoolFull

def handleOthersPayload (s : Core) (p : Payload) : MempoolResult Core :=
  if p.size ≤ env.parameters.maxPayloadSize then
    let digest := p.digest env.cr
    let s := s.storePayload digest p
    .ok { s with queue := s.queue ++ [digest] }
  else .error .payloadTooBig

/-- The payloads found are sent up to the first error. -/
def handleRequest (s : Core) (requestor : PublicKey) : List Digest → Core × MempoolResult Unit
  | [] => (s, .ok ())
  | digest :: digests =>
    match s.store.read digest.toBytes with
    | none => s.handleRequest requestor digests
    | some bytes =>
      match Payload.tryFrom bytes with
      | .error _ => (s, .error .serializationError)
      | .ok p =>
        match s.transmit env (.payload p) (some requestor) with
        | .error e => (s, .error e)
        | .ok s => s.handleRequest requestor digests

/-- `made` is what the payload maker answers. -/
def getPayload (s : Core) (max : ℕ) (made : Option Payload) : MempoolResult (Core × List Digest) :=
  if s.queue = [] then
    match made with
    | none => .ok (s, [])
    | some p =>
      let digest := p.digest env.cr
      match s.processOwnPayload env digest p with
      | .error e => .error e
      | .ok s => .ok (s, [digest])
  else
    let digests := s.queue.take (max / 32)
    .ok ({ s with queue := s.queue.filter (· ∉ digests) }, digests)

def cleanup (s : Core) (digests : List Digest) : Core :=
  { s with queue := s.queue.filter (· ∉ digests) }

/-- The arms of `match message`; an error is logged. -/
def handle (s : Core) : MempoolMessage → Core
  | .ownPayload p => (s.handleOwnPayload env p).toOption.getD s
  | .payload p => (s.handleOthersPayload env p).toOption.getD s
  | .payloadRequest digests requestor => (s.handleRequest env requestor digests).1

/-- `ConsensusMempoolMessage::Get`: an error is answered by the empty list. -/
def handleGet (s : Core) (max : ℕ) (made : Option Payload) : Core × List Digest :=
  (s.getPayload env max made).toOption.getD (s, [])

/-! ### What the store is after a message -/

/-- The payload that a message makes a core store whose queue has `n` elements. -/
def admits (n : ℕ) : MempoolMessage → Option Payload
  | .ownPayload p => if n < env.parameters.queueCapacity then some p else none
  | .payload p => if p.size ≤ env.parameters.maxPayloadSize then some p else none
  | .payloadRequest _ _ => none

/-- The store with a payload under its digest. -/
def withPayload (s : Store) (p : Payload) : Store := s.write (p.digest env.cr).toBytes p.encode

variable {env} {s : Core}

theorem admits_some {n : ℕ} {m : MempoolMessage} {p : Payload} (h : admits env n m = some p) :
    m = .ownPayload p ∨ m = .payload p := by
  cases m with
  | ownPayload q =>
    simp only [admits, Option.ite_none_right_eq_some, Option.some.injEq] at h
    exact .inl (congrArg _ h.2)
  | payload q =>
    simp only [admits, Option.ite_none_right_eq_some, Option.some.injEq] at h
    exact .inr (congrArg _ h.2)
  | payloadRequest digests requestor => cases h

theorem transmit_frame {s' : Core} {m : MempoolMessage} {receiver : Option PublicKey}
    (h : s.transmit env m receiver = .ok s') : s'.store = s.store ∧ s'.queue = s.queue := by
  unfold transmit at h
  split at h
  · cases h; exact ⟨rfl, rfl⟩
  · split at h
    · cases h; exact ⟨rfl, rfl⟩
    · cases h

/-- A request is answered from the store and changes neither the store nor the queue. -/
theorem handleRequest_frame (requestor : PublicKey) : ∀ (digests : List Digest) (s : Core),
    (s.handleRequest env requestor digests).1.store = s.store ∧
      (s.handleRequest env requestor digests).1.queue = s.queue
  | [], s => ⟨rfl, rfl⟩
  | d :: digests, s => by
    unfold handleRequest
    split
    · exact handleRequest_frame requestor digests s
    · split
      · exact ⟨rfl, rfl⟩
      · split
        · exact ⟨rfl, rfl⟩
        · rename_i s' ht
          obtain ⟨hstore, hqueue⟩ := handleRequest_frame requestor digests s'
          obtain ⟨hs, hq⟩ := transmit_frame ht
          exact ⟨hstore.trans hs, hqueue.trans hq⟩

variable (s env) in
/-- **A message stores and queues the payload that it makes the core admit, and nothing else.** -/
theorem handle_frame (m : MempoolMessage) :
    (s.handle env m).store =
        (admits env s.queue.length m).elim s.store (fun p => withPayload env s.store p) ∧
      (s.handle env m).queue =
        (admits env s.queue.length m).elim s.queue (fun p => s.queue ++ [p.digest env.cr]) := by
  cases m with
  | ownPayload p =>
    simp only [handle, handleOwnPayload, processOwnPayload, admits]
    split_ifs <;> exact ⟨rfl, rfl⟩
  | payload p =>
    simp only [handle, handleOthersPayload, admits]
    split_ifs <;> exact ⟨rfl, rfl⟩
  | payloadRequest digests requestor => exact handleRequest_frame requestor digests s

variable (s env) in
/-- A request of the consensus may make the core store the payload of the maker. -/
theorem store_handleGet (max : ℕ) (made : Option Payload) :
    (s.handleGet env max made).1.store = s.store ∨
      ∃ p, made = some p ∧ (s.handleGet env max made).1.store = withPayload env s.store p := by
  unfold handleGet getPayload
  by_cases hempty : s.queue = []
  · rw [if_pos hempty]
    cases made with
    | none => exact .inl rfl
    | some p =>
      simp only [processOwnPayload]
      by_cases hq : s.queue.length < env.parameters.queueCapacity
      · rw [if_pos hq]
        exact .inr ⟨p, rfl, rfl⟩
      · rw [if_neg hq]
        exact .inl rfl
  · rw [if_neg hempty]
    exact .inl rfl

variable (s env) in
/-- What a request of the consensus takes from the queue is in its answer. -/
theorem mem_handleGet (max : ℕ) (made : Option Payload) {d : Digest} (hd : d ∈ s.queue) :
    d ∈ (s.handleGet env max made).1.queue ∨ d ∈ (s.handleGet env max made).2 := by
  have hne : s.queue ≠ [] := List.ne_nil_of_mem hd
  unfold handleGet getPayload
  rw [if_neg hne]
  by_cases htaken : d ∈ s.queue.take (max / 32)
  · exact .inr htaken
  · exact .inl (List.mem_filter.mpr ⟨hd, by simpa using htaken⟩)

end Core

end Mempool

end AccountabilityGadget
