import AccountabilityGadget.Consensus.Wire
import AccountabilityGadget.Gossip.Links
import AccountabilityGadget.Mempool.Wire

/-!
# The consensus and the mempool on the gossip (`consensus/src/consensus.rs`, `mempool/src/mempool.rs`)

Proposals, votes, timeouts and timeout certificates go through the gossip; `LoopBack` and
`SyncRequest` are ignored on the way out, but not on the way in.  Of the messages of the mempool only
payloads go out, and only payloads come in.

* `consensus_inbox`, `mempool_inbox` — what the two cores get.
-/

set_option autoImplicit false

namespace AccountabilityGadget

open Encoding

/-- `digest.to_vec()`. -/
def Digest.toVec (d : Digest) : ByteVec := ⟨d.toBytes, by rw [Digest.length_toBytes]; decide⟩

namespace Consensus.ConsensusMessage

/-- The messages that go through the gossip. -/
def Gossiped : ConsensusMessage → Bool
  | loopBack _ | syncRequest _ _ => false
  | _ => true

end Consensus.ConsensusMessage

namespace Mempool.MempoolMessage

def IsPayload : MempoolMessage → Bool
  | payload _ => true
  | _ => false

end Mempool.MempoolMessage

namespace Gossip

open Consensus (ConsensusMessage)
open Mempool (MempoolMessage Payload)

/-- The tasks of `Consensus::myrun`. -/
def consensusPort (cr : Crypto) : Port ConsensusMessage where
  topic := "consensus"
  ephemeral := true
  send b := do
    let m ← expect "failed to deserialize outbound msg!" (ConsensusMessage.tryFrom cr b.bytes)
    match m with
    | .loopBack _ => return none
    | .syncRequest _ _ => return none
    | _ => return some ((cr.sha512 b.bytes).toVec, b)
  receive e := expect "failed to deserialize inbound msg!" (ConsensusMessage.tryFrom cr e.2.bytes)

/-- `bincode::serialize`: no `Vec` is longer than a `usize` counts. -/
def serializePayload (p : Payload) : Except Panic ByteVec :=
  if h : p.encode.length < 2 ^ 64 then .ok ⟨p.encode, h⟩ else .error .overflow

/-- What the sending task makes of a message. -/
def mempoolEntry (cr : Crypto) : MempoolMessage → Except Panic (Option Entry)
  | .payload p => (serializePayload p).map fun raw => some ((p.digest cr).toVec, raw)
  | .payloadRequest _ _ => .ok none
  | .ownPayload _ => .error (.expect "Unexpected mempool message")

/-- The tasks of `Mempool::myrun`. -/
def mempoolPort (cr : Crypto) : Port MempoolMessage where
  topic := "mempool"
  ephemeral := false
  send b := do
    let m ← expect "failed to deserialize outbound msg!" (MempoolMessage.tryFrom cr b.bytes)
    mempoolEntry cr m
  receive e := do
    let p ← expect "failed to deserialize payload!" (Payload.tryFrom e.2.bytes)
    return .payload p

variable {cr : Crypto}

/-! ## The consensus -/

theorem consensus_send {b : ByteVec} {m : ConsensusMessage}
    (h : ConsensusMessage.tryFrom cr b.bytes = .ok m) : (consensusPort cr).send b =
      .ok (if m.Gossiped then some ((cr.sha512 b.bytes).toVec, b) else none) := by
  simp only [consensusPort, h, expect]
  cases m <;> rfl

theorem consensus_lawful : (consensusPort cr).Lawful := by
  intro b e h
  cases ht : ConsensusMessage.tryFrom cr b.bytes with
  | ok m =>
    rw [consensus_send ht, Except.ok.injEq] at h
    split_ifs at h
    rw [Option.some.injEq] at h
    subst h
    refine ⟨m, ?_⟩
    show expect _ (ConsensusMessage.tryFrom cr b.bytes) = _
    rw [ht]
    rfl
  | error f =>
    simp only [consensusPort, ht] at h
    cases f <;> cases h

theorem consensus_message {b : ByteVec} {m : ConsensusMessage}
    (h : ConsensusMessage.tryFrom cr b.bytes = .ok m) :
    (consensusPort cr).message b = if m.Gossiped then some m else none := by
  rw [Port.message, Port.entry, consensus_send h]
  split_ifs
  · show ((expect _ (ConsensusMessage.tryFrom cr b.bytes)).toOption : Option ConsensusMessage) = _
    rw [h]
    rfl
  · rfl

/-! ## The mempool -/

theorem mempool_send {b : ByteVec} {m : MempoolMessage}
    (h : MempoolMessage.tryFrom cr b.bytes = .ok m) : (mempoolPort cr).send b = mempoolEntry cr m := by
  simp only [mempoolPort, h]
  rfl

theorem serializePayload_bytes {p : Payload} {raw : ByteVec} (h : serializePayload p = .ok raw) :
    raw.bytes = p.encode := by
  unfold serializePayload at h
  split_ifs at h
  cases h
  rfl

theorem mempool_receive {p : Payload} {k raw : ByteVec} (h : raw.bytes = p.encode) :
    (mempoolPort cr).receive (k, raw) = .ok (.payload p) := by
  simp only [mempoolPort, h, Payload.tryFrom_encode]
  rfl

theorem mempool_lawful : (mempoolPort cr).Lawful := by
  intro b e h
  cases ht : MempoolMessage.tryFrom cr b.bytes with
  | error f =>
    simp only [mempoolPort, ht] at h
    cases f <;> cases h
  | ok m =>
    rw [mempool_send ht] at h
    cases m with
    | ownPayload p => cases h
    | payloadRequest ds key => cases h
    | payload p =>
      rw [mempoolEntry] at h
      cases hraw : serializePayload p with
      | error r =>
        rw [hraw] at h
        cases h
      | ok raw =>
        rw [hraw] at h
        cases h
        exact ⟨.payload p, mempool_receive (serializePayload_bytes hraw)⟩

/-- A message that is a `Vec` holds a payload that is one. -/
theorem exists_serialized {b : ByteVec} {p : Payload}
    (h : b.bytes = (MempoolMessage.payload p).encode) : ∃ raw, serializePayload p = .ok raw := by
  have hlength : p.encode.length < 2 ^ 64 := by
    have hb := b.length_lt
    rw [h, MempoolMessage.encode, List.length_append] at hb
    omega
  exact ⟨⟨p.encode, hlength⟩, dif_pos hlength⟩

theorem mempool_forwards (hb : cr.Base64RoundTrip) :
    (mempoolPort cr).Forwards MempoolMessage.encode MempoolMessage.Fits MempoolMessage.IsPayload := by
  intro b m hfits hbytes
  have ht : MempoolMessage.tryFrom cr b.bytes = .ok m := by
    rw [hbytes]
    exact MempoolMessage.tryFrom_encode hb hfits
  rw [Port.message, Port.entry, mempool_send ht]
  cases m with
  | payload p =>
    obtain ⟨raw, hraw⟩ := exists_serialized hbytes
    rw [mempoolEntry, hraw]
    show (mempoolPort cr).read ((p.digest cr).toVec, raw) = _
    rw [Port.read, mempool_receive (serializePayload_bytes hraw)]
    rfl
  | ownPayload p => rfl
  | payloadRequest ds key => rfl

/-! ## What the cores get -/

section

variable {P : Type} [DecidableEq P] {Adv : String → Bytes → Prop}

/-- **The inbox of a consensus core.**  If the cores send serialized messages, each gets back its own
proposals, votes, timeouts and timeout certificates, in order and exactly once, and otherwise those
of the cores of other nodes; a `LoopBack` or `SyncRequest`, and a message that stops the task, come
from strangers.  Besides, the tasks stop only when the loop of the gossip has stopped, the core is
gone, or nobody is left who could send. -/
theorem consensus_inbox (hb : cr.Base64RoundTrip) (s : P → Link ConsensusMessage)
    (hr : (nodes (consensusPort cr) Adv).Reachable s) (ms : P → List ConsensusMessage)
    (hfits : ∀ q, ∀ m ∈ ms q, m.Fits)
    (hsent : ∀ q, (s q).sent.map ByteVec.bytes = (ms q).map ConsensusMessage.encode) (p : P) :
    (((s p).core.filter Prod.fst).map Prod.snd <+: (ms p).filter ConsensusMessage.Gossiped ∧
      ∀ m, (false, m) ∈ (s p).core → (∃ q, q ≠ p ∧ m ∈ ms q ∧ m.Gossiped = true) ∨
        Stranger Adv (consensusPort cr) (.ok m)) ∧
    (∀ r, (s p).stoppedIn = some r → StopsIn Adv (consensusPort cr) (s p) r) ∧
    ∀ r, (s p).stoppedOut = some r →
      (r = .expect "failed to read outbound msg!" ∧ (s p).talking = false) ∨
      (r = .expect "failed to forward outbound msg to gossip!" ∧ (s p).gossip.stopped.isSome) := by
  have hforwards : (consensusPort cr).Forwards ConsensusMessage.encode ConsensusMessage.Fits
      ConsensusMessage.Gossiped := by
    intro b m hm hbytes
    refine consensus_message ?_
    rw [hbytes]
    exact ConsensusMessage.tryFrom_encode hb hm
  obtain ⟨hcore, hin⟩ := inbox_messages consensus_lawful hforwards hr hfits hsent p
  refine ⟨hcore, hin, fun r hstop => ?_⟩
  refine ((link_reachable hr p).stopped r hstop).resolve_left ?_
  rintro ⟨b, hmem, herror⟩
  obtain ⟨m, hm, hbytes⟩ : ∃ m ∈ ms p, m.encode = b.bytes := by
    have hbm : b.bytes ∈ (ms p).map ConsensusMessage.encode := hsent p ▸ List.mem_map_of_mem hmem
    exact List.mem_map.mp hbm
  have ht : ConsensusMessage.tryFrom cr b.bytes = .ok m := by
    rw [← hbytes]
    exact ConsensusMessage.tryFrom_encode hb (hfits p m hm)
  rw [consensus_send ht] at herror
  cases herror

/-- **The inbox of a mempool core.**  Whatever strangers send, it holds payloads only: those that the
core has sent, in order and exactly once, those that the cores of other nodes have sent, and
strangers'.  Of what a core sends, only an `OwnPayload` stops a task. -/
theorem mempool_inbox (hb : cr.Base64RoundTrip) (s : P → Link MempoolMessage)
    (hr : (nodes (mempoolPort cr) Adv).Reachable s) (ms : P → List MempoolMessage)
    (hfits : ∀ q, ∀ m ∈ ms q, m.Fits)
    (hsent : ∀ q, (s q).sent.map ByteVec.bytes = (ms q).map MempoolMessage.encode) (p : P) :
    (((s p).core.filter Prod.fst).map Prod.snd <+: (ms p).filter MempoolMessage.IsPayload ∧
      ∀ m, (false, m) ∈ (s p).core → (∃ q, q ≠ p ∧ m ∈ ms q ∧ m.IsPayload = true) ∨
        Stranger Adv (mempoolPort cr) (.ok m)) ∧
    (∀ m ∈ (s p).core, m.2.IsPayload = true) ∧
    (∀ r, (s p).stoppedIn = some r → StopsIn Adv (mempoolPort cr) (s p) r) ∧
    ∀ r, (s p).stoppedOut = some r →
      (∃ payload, MempoolMessage.ownPayload payload ∈ ms p) ∨
      (r = .expect "failed to read outbound msg!" ∧ (s p).talking = false) ∨
      (r = .expect "failed to forward outbound msg to gossip!" ∧ (s p).gossip.stopped.isSome) := by
  obtain ⟨⟨hown, hother⟩, hin⟩ := inbox_messages mempool_lawful (mempool_forwards hb) hr hfits hsent p
  refine ⟨⟨hown, hother⟩, ?_, hin, ?_⟩
  · rintro ⟨mark, m⟩ hmem
    cases mark with
    | true =>
      have hkept : m ∈ (ms p).filter MempoolMessage.IsPayload :=
        hown.subset (List.mem_map.mpr ⟨_, List.mem_filter.mpr ⟨hmem, rfl⟩, rfl⟩)
      exact (List.mem_filter.mp hkept).2
    | false =>
      rcases hother m hmem with ⟨q, -, -, hk⟩ | ⟨data, e, -, -, hreceive⟩
      · exact hk
      · cases ht : Payload.tryFrom e.2.bytes with
        | ok payload =>
          simp only [mempoolPort, ht] at hreceive
          cases hreceive
          rfl
        | error f =>
          simp only [mempoolPort, ht] at hreceive
          cases f <;> cases hreceive
  · intro r hstop
    refine ((link_reachable hr p).stopped r hstop).imp_left ?_
    rintro ⟨b, hmem, herror⟩
    obtain ⟨m, hm, hbytes⟩ : ∃ m ∈ ms p, m.encode = b.bytes := by
      have hbm : b.bytes ∈ (ms p).map MempoolMessage.encode := hsent p ▸ List.mem_map_of_mem hmem
      exact List.mem_map.mp hbm
    have ht : MempoolMessage.tryFrom cr b.bytes = .ok m := by
      rw [← hbytes]
      exact MempoolMessage.tryFrom_encode hb (hfits p m hm)
    rw [mempool_send ht] at herror
    cases m with
    | ownPayload payload => exact ⟨payload, hm⟩
    | payloadRequest ds key => cases herror
    | payload payload =>
      obtain ⟨raw, hraw⟩ := exists_serialized hbytes.symm
      rw [mempoolEntry, hraw] at herror
      cases herror

end

/-- The component of one node sends two messages and gets them back; the other node gets `data`. -/
def linkSchedule (topic : String) (b c : ByteVec) (data : Bytes) : List (Bool × Link.Input) :=
  [(false, .subscribe), (false, .gossip (.command true true)), (false, .say b), (false, .say c),
    (false, .outbound), (false, .outbound), (false, .gossip (.forward 0)), (false, .gossip (.forward 0)),
    (false, .gossip (.command true true)), (false, .gossip .deliver), (false, .inbound),
    (false, .gossip (.command true true)), (false, .gossip .deliver), (false, .inbound),
    (true, .subscribe), (true, .gossip (.command true true)), (true, .gossip (.message topic data)),
    (true, .gossip .deliver), (true, .inbound)]

/-- A message is one that the other node has published. -/
def heard {M : Type} (s : Bool → Link M) : Bool × Link.Input → Bool
  | (p, .gossip (.message topic data)) => (topic, data) ∈ (s !p).gossip.published
  | _ => true

theorem reachable_heard {M : Type} {port : Port M} {is : List (Bool × Link.Input)} {s : Bool → Link M}
    (h : Machine.execIf heard (linkStep port) (fun _ => Link.new) is = some s) :
    (nodes port fun _ _ => False).Reachable s := by
  refine Machine.reachable_execIf (fun s i hi => ?_) (.init rfl) h
  obtain ⟨p, i⟩ := i
  cases i with
  | gossip j =>
    cases j with
    | message topic data => exact .inl ⟨!p, Bool.not_ne_self p, by simpa [heard] using hi⟩
    | _ => trivial
  | _ => trivial

def sampleTc : ConsensusMessage := .tc ⟨5, []⟩

def nextTc : ConsensusMessage := .tc ⟨6, []⟩

def sampleTcBytes : ByteVec := ⟨sampleTc.encode, by decide⟩

def nextTcBytes : ByteVec := ⟨nextTc.encode, by decide⟩

theorem consensus_inbox_tc : ∃ s : Bool → Link ConsensusMessage,
    (s false).core = [(true, sampleTc), (true, nextTc)] ∧ (s true).core = [(false, sampleTc)] ∧
    ((s false).core.filter Prod.fst).map Prod.snd <+:
      [sampleTc, nextTc].filter ConsensusMessage.Gossiped ∧
    (∀ m, (false, m) ∈ (s true).core →
      (∃ q, q ≠ true ∧ m ∈ (bif q then [] else [sampleTc, nextTc]) ∧ m.Gossiped = true) ∨
        Stranger (fun _ _ => False) (consensusPort sampleCrypto) (.ok m)) := by
  have hrun : (Machine.execIf heard (linkStep (consensusPort sampleCrypto)) (fun _ => Link.new)
      (linkSchedule "consensus" sampleTcBytes nextTcBytes
        (kvSerialize ((sampleCrypto.sha512 sampleTcBytes.bytes).toVec, sampleTcBytes)))).any
          (fun s => (s false).sent = [sampleTcBytes, nextTcBytes] ∧ (s true).sent = [] ∧
            (s false).core = [(true, sampleTc), (true, nextTc)] ∧
            (s true).core = [(false, sampleTc)]) = true := by decide +kernel
  rw [Option.any_eq_true] at hrun
  obtain ⟨s, hexec, hs⟩ := hrun
  obtain ⟨hsent, hsilent, hcore, hother⟩ := of_decide_eq_true hs
  have hfits : ∀ q : Bool, ∀ m ∈ (bif q then [] else [sampleTc, nextTc]), m.Fits := by
    intro q m hm
    cases q with
    | true => cases hm
    | false =>
      have hcases : m = sampleTc ∨ m = nextTc := by simpa using hm
      rcases hcases with rfl | rfl <;> exact Nat.zero_lt_succ _
  have hinbox := consensus_inbox sampleCrypto_base64RoundTrip s (reachable_heard hexec)
    (fun q => bif q then [] else [sampleTc, nextTc]) hfits (by
      intro q
      cases q with
      | true => rw [hsilent]; rfl
      | false => rw [hsent]; rfl)
  exact ⟨s, hcore, hother, (hinbox false).1.1, (hinbox true).1.2⟩

def samplePayload : Payload := ⟨[single 1], by rw [List.length_singleton]; decide⟩

def nextPayload : Payload := ⟨[single 2], by rw [List.length_singleton]; decide⟩

def samplePayloadBytes : ByteVec := ⟨(MempoolMessage.payload samplePayload).encode, by decide⟩

def nextPayloadBytes : ByteVec := ⟨(MempoolMessage.payload nextPayload).encode, by decide⟩

def serializedPayload : ByteVec := ⟨samplePayload.encode, by decide⟩

theorem mempool_inbox_payload : ∃ s : Bool → Link MempoolMessage,
    (s false).core = [(true, .payload samplePayload), (true, .payload nextPayload)] ∧
    (s true).core = [(false, .payload samplePayload)] ∧
    ((s false).core.filter Prod.fst).map Prod.snd <+:
      [.payload samplePayload, .payload nextPayload].filter MempoolMessage.IsPayload ∧
    (∀ m, (false, m) ∈ (s true).core →
      (∃ q, q ≠ true ∧ m ∈ (bif q then [] else [.payload samplePayload, .payload nextPayload]) ∧
        m.IsPayload = true) ∨ Stranger (fun _ _ => False) (mempoolPort sampleCrypto) (.ok m)) := by
  have hrun : (Machine.execIf heard (linkStep (mempoolPort sampleCrypto)) (fun _ => Link.new)
      (linkSchedule "mempool" samplePayloadBytes nextPayloadBytes
        (kvSerialize ((samplePayload.digest sampleCrypto).toVec, serializedPayload)))).any
          (fun s => (s false).sent = [samplePayloadBytes, nextPayloadBytes] ∧ (s true).sent = [] ∧
            (s false).core = [(true, .payload samplePayload), (true, .payload nextPayload)] ∧
            (s true).core = [(false, .payload samplePayload)]) = true := by decide +kernel
  rw [Option.any_eq_true] at hrun
  obtain ⟨s, hexec, hs⟩ := hrun
  obtain ⟨hsent, hsilent, hcore, hother⟩ := of_decide_eq_true hs
  have hfits : ∀ q : Bool, ∀ m ∈ (bif q then [] else
      [MempoolMessage.payload samplePayload, .payload nextPayload]), m.Fits := by
    intro q m hm
    cases q with
    | true => cases hm
    | false =>
      have hcases : m = .payload samplePayload ∨ m = .payload nextPayload := by simpa using hm
      rcases hcases with rfl | rfl <;> trivial
  have hinbox := mempool_inbox sampleCrypto_base64RoundTrip s (reachable_heard hexec)
    (fun q => bif q then [] else [.payload samplePayload, .payload nextPayload]) hfits (by
      intro q
      cases q with
      | true => rw [hsilent]; rfl
      | false => rw [hsent]; rfl)
  exact ⟨s, hcore, hother, (hinbox false).1.1, (hinbox true).1.2⟩

end Gossip

end AccountabilityGadget
