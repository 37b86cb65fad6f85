import AccountabilityGadget.Crypto
import AccountabilityGadget.Lib.Machine
import Mathlib.Logic.Function.Basic

/-!
# The gossip task of a node (`gossip/src/lib.rs`)

A subscriber of a topic gets what the other nodes publish under it, and what it publishes itself: the
task replays it locally.  Commands, local replays and messages of other nodes go through one loop,
which waits for room in the channel of the subscriber, and panics when no command can come any more.

* `kvDeserialize_kvSerialize` — the round trip of an entry.
* `Gossip.step` — the subscribers, the tasks that forward for them, and the loop, one step at a time.
  Peers, `gossipsub` and Kademlia are third parties: their messages and the success of a call come as
  inputs; messages come for topics that have been joined.
* `Gossip.Takes` — what a step does; `takes_of_step`.
-/

set_option autoImplicit false

namespace AccountabilityGadget

open Encoding

/-- A key and a value. -/
abbrev Entry := ByteVec × ByteVec

namespace Gossip

/-! ## Entries on the wire -/

def kvSerialize (e : Entry) : Bytes := encStr e.1.bytes ++ encStr e.2.bytes

def kvDecode : Decoder (Fault DecodeError) Entry := do
  let k ← byteVec
  let v ← byteVec
  return (k, v)

/-- `bincode::deserialize`: trailing bytes are ignored. -/
def kvDeserialize (d : Bytes) : Except Panic Entry :=
  expect "failed to deserialize (k, v)!" ((kvDecode.run d).map Prod.fst)

theorem kvDeserialize_kvSerialize (e : Entry) : kvDeserialize (kvSerialize e) = .ok e := by
  obtain ⟨k, v⟩ := e
  have hk : (byteVec : Decoder (Fault DecodeError) ByteVec).run (encStr k.bytes ++ encStr v.bytes) =
      .ok (k, encStr v.bytes) := run_byteVec k _
  have hv : (byteVec : Decoder (Fault DecodeError) ByteVec).run (encStr v.bytes) = .ok (v, []) := by
    have h := run_byteVec (ε := Fault DecodeError) v []
    simpa using h
  rw [kvDeserialize, kvSerialize, kvDecode, run_bind, hk]
  simp only
  rw [run_bind, hv]
  rfl

theorem byteVec_avoids : Avoids Fault.IsPanic (byteVec : Decoder (Fault DecodeError) ByteVec) :=
  (uint_avoids id 8).bind fun n => (takeBytes_avoids id n).bind fun bs => by
    intro r e h
    split at h
    · cases h
    · cases h
      exact id

/-- Whatever the bytes are, they panic with the message of `kv_deserialize`. -/
theorem kvDeserialize_error {d : Bytes} {p : Panic} (h : kvDeserialize d = .error p) :
    p = .expect "failed to deserialize (k, v)!" := by
  have havoids : Avoids Fault.IsPanic kvDecode :=
    byteVec_avoids.bind fun _ => byteVec_avoids.bind fun _ => .pure _ _
  unfold kvDeserialize at h
  cases hr : kvDecode.run d with
  | ok a =>
    rw [hr] at h
    cases h
  | error e =>
    have hno := havoids d e hr
    rw [hr] at h
    cases e with
    | reject e =>
      cases h
      rfl
    | panic p' => exact absurd trivial hno

/-! ## The task -/

/-- `GossipCmd`; nobody sends `Retrieve`. -/
inductive Cmd where
  | subscribe (topic : String) (tx : ℕ)
  | publish (topic : String) (entry : Entry) (ephemeral : Bool)
  deriving DecidableEq

/-- What a call of `subscribe` makes: the two channels, and the task that forwards. -/
structure Endpoint where
  topic : String
  ephemeral : Bool
  /-- What the caller has sent. -/
  sent : List Entry
  outbound : List Entry
  /-- What has come in; `true`: replayed. -/
  arrived : List (Bool × Entry)
  inbound : List (Bool × Entry)
  received : List (Bool × Entry)
  /-- The caller has not dropped the receiver. -/
  receiving : Bool
  /-- The caller has not dropped the sender. -/
  sending : Bool
  /-- The task that forwards has not ended. -/
  forwarding : Bool

def Endpoint.new (topic : String) (ephemeral : Bool) : Endpoint :=
  ⟨topic, ephemeral, [], [], [], [], [], true, true, true⟩

/-- The loop is in `send((key, value)).await`. -/
structure Delivery where
  tx : ℕ
  entry : Entry
  replayed : Bool

end Gossip

structure Gossip where
  /-- The clones of the handle that `Gossip::run` has returned. -/
  handles : ℕ
  cmds : List Gossip.Cmd
  subscriptions : String → Option ℕ
  /-- The topics that `gossipsub` has joined. -/
  joined : List String
  nextId : ℕ
  endpoints : ℕ → Option Gossip.Endpoint
  /-- What `gossipsub` has published. -/
  published : List (String × Bytes)
  delivering : Option Gossip.Delivery
  stopped : Option Panic

namespace Gossip

inductive Input where
  /-- Another task subscribes to a topic. -/
  | subscribe (topic : String) (ephemeral : Bool)
  /-- A subscriber sends an entry. -/
  | send (id : ℕ) (e : Entry)
  /-- The task of a subscriber forwards an entry, or ends. -/
  | forward (id : ℕ)
  /-- The loop takes a command; what it cannot do without succeeds, and so does publishing. -/
  | command (ok published : Bool)
  /-- A message of another node. -/
  | message (topic : String) (data : Bytes)
  /-- The loop is done with sending. -/
  | deliver
  /-- A subscriber receives an entry. -/
  | receive (id : ℕ)
  /-- A subscriber drops its receiver. -/
  | drop (id : ℕ)
  /-- A subscriber drops its sender. -/
  | close (id : ℕ)
  /-- A handle is cloned. -/
  | clone
  /-- A handle is dropped. -/
  | release
  deriving DecidableEq

def new : Gossip := ⟨1, [], fun _ => none, [], 0, fun _ => none, [], none, none⟩

/-- `mpsc_channel(10000)`. -/
def capacity : ℕ := 10000

def stop (s : Gossip) (p : Panic) : Gossip := { s with stopped := some p }

def setEndpoint (s : Gossip) (id : ℕ) (x : Endpoint) : Gossip :=
  { s with endpoints := Function.update s.endpoints id (some x) }

def subscribe (s : Gossip) (topic : String) (ephemeral : Bool) : Gossip :=
  { s.setEndpoint s.nextId (.new topic ephemeral) with
    nextId := s.nextId + 1
    cmds := s.cmds ++ [.subscribe topic s.nextId] }

/-- Send an entry to the subscriber of the topic. -/
def start (s : Gossip) (topic : String) (e : Entry) (replayed : Bool) : Gossip :=
  match s.subscriptions topic with
  | none => s.stop (.expect "topic not subscribed!")
  | some id => { s with delivering := some ⟨id, e, replayed⟩ }

def handle (s : Gossip) (ok published : Bool) : Cmd → Gossip
  | .subscribe topic tx =>
    let s := { s with subscriptions := Function.update s.subscriptions topic (some tx) }
    if ok then { s with joined := s.joined ++ [topic] }
    else s.stop (.expect "gossipsub subscribe failed!")
  | .publish topic e ephemeral =>
    if ¬ ephemeral ∧ ¬ ok then s.stop (.expect "kademlia put record failed!")
    else
      let s := if published then { s with published := s.published ++ [(topic, kvSerialize e)] } else s
      s.start topic e true

def onMessage (s : Gossip) (topic : String) (data : Bytes) : Gossip :=
  match kvDeserialize data with
  | .error p => s.stop p
  | .ok e => s.start topic e false

/-- The entry is in the channel. -/
def delivered (s : Gossip) (d : Delivery) (x : Endpoint) : Gossip :=
  { s.setEndpoint d.tx { x with
      arrived := x.arrived ++ [(d.replayed, d.entry)]
      inbound := x.inbound ++ [(d.replayed, d.entry)] } with
    delivering := none }

def stepDeliver (s : Gossip) (d : Delivery) (x : Endpoint) : Option Gossip :=
  if x.receiving then
    if x.inbound.length < capacity then some (s.delivered d x) else none
  else some (s.stop (.expect (if d.replayed then "failed local replay!" else "failed local delivery!")))

/-- The task ends when the sender has been dropped, and when the loop does not take the command. -/
def stepForward (s : Gossip) (id : ℕ) (x : Endpoint) : Option Gossip :=
  match x.outbound with
  | [] => if x.sending then none else some (s.setEndpoint id { x with forwarding := false })
  | e :: rest =>
    if s.stopped.isSome then some (s.setEndpoint id { x with forwarding := false })
    else some { s.setEndpoint id { x with outbound := rest } with
      cmds := s.cmds ++ [.publish x.topic e x.ephemeral] }

/-- Nobody can send a command: a sender is in every handle and every task that forwards. -/
def Closed (s : Gossip) : Prop :=
  s.handles = 0 ∧ ∀ id < s.nextId, ((s.endpoints id).all fun x => !x.forwarding) = true

instance (s : Gossip) : Decidable s.Closed := inferInstanceAs (Decidable (_ ∧ _))

/-- The steps that a stopped loop does not take part in. -/
def stepLoop (s : Gossip) : Input → Option Gossip
  | .subscribe topic ephemeral =>
    if 0 < s.handles then some (s.subscribe topic ephemeral) else none
  | .command ok published =>
    match s.delivering, s.cmds with
    | none, c :: rest => some ({ s with cmds := rest }.handle ok published c)
    | none, [] =>
      if s.Closed then
        some (s.stop (.expect "Stream of incoming gossip commands was closed, terminating ..."))
      else none
    | some _, _ => none
  | .message topic data =>
    if s.delivering.isNone ∧ topic ∈ s.joined then some (s.onMessage topic data) else none
  | .deliver =>
    match s.delivering with
    | none => none
    | some d => (s.endpoints d.tx).bind (s.stepDeliver d)
  | _ => none

def step (s : Gossip) : Input → Option Gossip
  | .send id e => (s.endpoints id).bind fun x =>
      if x.sending ∧ x.forwarding then
        some (s.setEndpoint id { x with sent := x.sent ++ [e], outbound := x.outbound ++ [e] })
      else none
  | .forward id => (s.endpoints id).bind fun x =>
      if x.forwarding then s.stepForward id x else none
  | .receive id =>
    match s.endpoints id with
    | none => none
    | some x =>
      match x.inbound with
      | [] => none
      | e :: rest => some (s.setEndpoint id
          { x with inbound := rest, received := x.received ++ [e] })
  | .drop id => (s.endpoints id).map fun x => s.setEndpoint id { x with receiving := false }
  | .close id => (s.endpoints id).map fun x => s.setEndpoint id { x with sending := false }
  | .clone => if 0 < s.handles then some { s with handles := s.handles + 1 } else none
  | .release => if 0 < s.handles then some { s with handles := s.handles - 1 } else none
  | i => if s.stopped.isSome then none else s.stepLoop i

/-! ## Inversion -/

/-- What a step does. -/
inductive Takes (s : Gossip) : Input → Gossip → Prop
  | send {id : ℕ} {e : Entry} {x : Endpoint} : s.endpoints id = some x → x.sending = true →
      x.forwarding = true → Takes s (.send id e)
        (s.setEndpoint id { x with sent := x.sent ++ [e], outbound := x.outbound ++ [e] })
  | receive {id : ℕ} {e : Bool × Entry} {rest : List (Bool × Entry)} {x : Endpoint} :
      s.endpoints id = some x →
      x.inbound = e :: rest → Takes s (.receive id)
        (s.setEndpoint id { x with inbound := rest, received := x.received ++ [e] })
  | drop {id : ℕ} {x : Endpoint} : s.endpoints id = some x →
      Takes s (.drop id) (s.setEndpoint id { x with receiving := false })
  | close {id : ℕ} {x : Endpoint} : s.endpoints id = some x →
      Takes s (.close id) (s.setEndpoint id { x with sending := false })
  | clone : 0 < s.handles → Takes s .clone { s with handles := s.handles + 1 }
  | release : Takes s .release { s with handles := s.handles - 1 }
  | subscribe {topic : String} {ephemeral : Bool} : s.stopped = none →
      Takes s (.subscribe topic ephemeral) (s.subscribe topic ephemeral)
  | forward {id : ℕ} {e : Entry} {rest : List Entry} {x : Endpoint} : s.stopped = none →
      s.endpoints id = some x → x.forwarding = true → x.outbound = e :: rest →
      Takes s (.forward id) { s.setEndpoint id { x with outbound := rest } with
        cmds := s.cmds ++ [.publish x.topic e x.ephemeral] }
  | finish {id : ℕ} {x : Endpoint} : s.endpoints id = some x →
      (s.stopped = none → x.sending = false ∧ x.outbound = []) →
      Takes s (.forward id) (s.setEndpoint id { x with forwarding := false })
  | closed {ok published : Bool} : s.stopped = none → s.Closed → Takes s (.command ok published)
      (s.stop (.expect "Stream of incoming gossip commands was closed, terminating ..."))
  | command {ok published : Bool} {c : Cmd} {rest : List Cmd} : s.stopped = none →
      s.delivering = none → s.cmds = c :: rest →
      Takes s (.command ok published) ({ s with cmds := rest }.handle ok published c)
  | message {topic : String} {data : Bytes} : s.stopped = none → s.delivering = none →
      topic ∈ s.joined → Takes s (.message topic data) (s.onMessage topic data)
  | deliver {d : Delivery} {x : Endpoint} : s.stopped = none → s.delivering = some d →
      s.endpoints d.tx = some x → x.receiving = true → Takes s .deliver (s.delivered d x)
  | fail {d : Delivery} {x : Endpoint} {p : Panic} : s.stopped = none → s.delivering = some d →
      s.endpoints d.tx = some x → x.receiving = false → p ≠ .expect "topic not subscribed!" →
      Takes s .deliver (s.stop p)

theorem takes_of_stepForward {s s' : Gossip} {id : ℕ} {x : Endpoint} (hx : s.endpoints id = some x)
    (hforwarding : x.forwarding = true) (h : s.stepForward id x = some s') :
    Takes s (.forward id) s' := by
  unfold stepForward at h
  split at h
  · rename_i hout
    split_ifs at h with hsending
    cases h
    exact .finish hx fun _ => ⟨by simpa using hsending, hout⟩
  · rename_i e rest hout
    split_ifs at h with hstop
    · cases h
      exact .finish hx fun hrun => absurd hstop (by simp [hrun])
    · cases h
      exact .forward (by simpa using hstop) hx hforwarding hout

theorem takes_of_stepLoop {s s' : Gossip} {i : Input} (hrun : s.stopped = none)
    (h : s.stepLoop i = some s') : Takes s i s' := by
  cases i with
  | subscribe topic ephemeral =>
    simp only [stepLoop] at h
    split_ifs at h
    cases h
    exact .subscribe hrun
  | command ok published =>
    simp only [stepLoop] at h
    split at h
    · rename_i c rest hd hc
      cases h
      exact .command hrun hd hc
    · split_ifs at h with hclosed
      cases h
      exact .closed hrun hclosed
    · cases h
  | message topic data =>
    simp only [stepLoop] at h
    split_ifs at h with hc
    cases h
    exact .message hrun (Option.isNone_iff_eq_none.mp hc.1) hc.2
  | deliver =>
    simp only [stepLoop] at h
    split at h
    · cases h
    · rename_i d hd
      obtain ⟨x, hx, h⟩ := Option.bind_eq_some_iff.mp h
      unfold stepDeliver at h
      split_ifs at h with hr hroom hreplayed <;> cases h
      · exact .deliver hrun hd hx hr
      · exact .fail hrun hd hx (by simpa using hr) (by decide)
      · exact .fail hrun hd hx (by simpa using hr) (by decide)
  | send _ _ | forward _ | receive _ | drop _ | close _ | clone | release => cases h

theorem takes_of_step {s s' : Gossip} {i : Input} (h : s.step i = some s') : Takes s i s' := by
  cases i with
  | send id e =>
    obtain ⟨x, hx, h⟩ := Option.bind_eq_some_iff.mp h
    split_ifs at h with hopen
    cases h
    exact .send hx hopen.1 hopen.2
  | forward id =>
    obtain ⟨x, hx, h⟩ := Option.bind_eq_some_iff.mp h
    split_ifs at h with hforwarding
    exact takes_of_stepForward hx hforwarding h
  | receive id =>
    simp only [step] at h
    split at h
    · cases h
    · rename_i x hx
      split at h
      · cases h
      · rename_i e rest hin
        cases h
        exact .receive hx hin
  | drop id =>
    obtain ⟨x, hx, rfl⟩ := Option.map_eq_some_iff.mp h
    exact .drop hx
  | close id =>
    obtain ⟨x, hx, rfl⟩ := Option.map_eq_some_iff.mp h
    exact .close hx
  | clone =>
    simp only [step] at h
    split_ifs at h with hpos
    cases h
    exact .clone hpos
  | release =>
    simp only [step] at h
    split_ifs at h
    cases h
    exact .release
  | subscribe _ _ | command _ _ | message _ _ | deliver =>
    simp only [step] at h
    split_ifs at h with hstop
    exact takes_of_stepLoop (by simpa using hstop) h

end Gossip

end AccountabilityGadget
