import AccountabilityGadget.Consensus.Messages

/-!
# The serialized form of blocks and messages

`Core` keeps a block in the store as `bincode` serializes it; the network carries messages in the
same format.

* `Block.decode_inverts` — the round trip, for lists whose lengths fit a `usize`.
* `Block.length_encode_odd` — the one-byte tag of the timeout certificate makes the length odd.
* `ConsensusMessage.decode_inverts` — the round trip of the messages.
-/

set_option autoImplicit false

namespace AccountabilityGadget.Consensus

open Encoding

namespace QC

def encodeVote (v : PublicKey × Signature) : Bytes := v.1.encode ++ v.2.encode

def encode (q : QC) : Bytes := q.hash.toBytes ++ leBytes 8 q.round ++ encVec encodeVote q.votes

variable (cr : Crypto)

def decodeVote : Decoder (Fault DecodeError) (PublicKey × Signature) := do
  let name ← PublicKey.decode cr
  let signature ← Signature.decode
  return (name, signature)

def decode : Decoder (Fault DecodeError) QC := do
  let hash ← Digest.decode
  let round ← u64
  let votes ← vec (decodeVote cr)
  return ⟨hash, round, votes⟩

variable {cr}

theorem decodeVote_inverts (hb : cr.Base64RoundTrip) (v : PublicKey × Signature) :
    Inverts encodeVote (decodeVote cr) v := by
  intro rest
  rw [encodeVote, List.append_assoc, decodeVote, run_bind, PublicKey.decode_inverts hb]
  simp only
  rw [run_bind, Signature.decode_inverts]
  rfl

theorem decode_inverts (hb : cr.Base64RoundTrip) {q : QC} (hl : q.votes.length < 2 ^ 64) :
    Inverts encode (decode cr) q := by
  intro rest
  rw [encode, List.append_assoc, List.append_assoc, decode, run_bind, Digest.decode_inverts]
  simp only
  rw [run_bind, run_u64 q.round]
  simp only
  rw [run_bind, run_vec (by omega) fun v _ => decodeVote_inverts hb v]
  rfl

end QC

namespace TC

def encodeVote (v : PublicKey × Signature × RoundNumber) : Bytes :=
  v.1.encode ++ v.2.1.encode ++ leBytes 8 v.2.2

def encode (t : TC) : Bytes := leBytes 8 t.round ++ encVec encodeVote t.votes

variable (cr : Crypto)

def decodeVote : Decoder (Fault DecodeError) (PublicKey × Signature × RoundNumber) := do
  let name ← PublicKey.decode cr
  let signature ← Signature.decode
  let highQcRound ← u64
  return (name, signature, highQcRound)

def decode : Decoder (Fault DecodeError) TC := do
  let round ← u64
  let votes ← vec (decodeVote cr)
  return ⟨round, votes⟩

variable {cr}

theorem decodeVote_inverts (hb : cr.Base64RoundTrip) (v : PublicKey × Signature × RoundNumber) :
    Inverts encodeVote (decodeVote cr) v := by
  intro rest
  rw [encodeVote, List.append_assoc, List.append_assoc, decodeVote, run_bind,
    PublicKey.decode_inverts hb]
  simp only
  rw [run_bind, Signature.decode_inverts]
  simp only
  rw [run_bind, run_u64 v.2.2]
  rfl

theorem decode_inverts (hb : cr.Base64RoundTrip) {t : TC} (hl : t.votes.length < 2 ^ 64) :
    Inverts encode (decode cr) t := by
  intro rest
  rw [encode, List.append_assoc, decode, run_bind, run_u64 t.round]
  simp only
  rw [run_bind, run_vec (by omega) fun v _ => decodeVote_inverts hb v]
  rfl

end TC

namespace Block

def encode (b : Block) : Bytes :=
  b.qc.encode ++ encOpt TC.encode b.tc ++ b.author.encode ++ leBytes 8 b.round ++
    encVec Digest.toBytes b.payload ++ b.signature.encode

def decode (cr : Crypto) : Decoder (Fault DecodeError) Block := do
  let qc ← QC.decode cr
  let tc ← opt (TC.decode cr)
  let author ← PublicKey.decode cr
  let round ← u64
  let payload ← vec Digest.decode
  let signature ← Signature.decode
  return ⟨qc, tc, author, round, payload, signature⟩

/-- `bincode::deserialize`: trailing bytes are ignored. -/
def tryFrom (cr : Crypto) (value : Bytes) : Except (Fault DecodeError) Block :=
  match (decode cr).run value with
  | .error e => .error e
  | .ok (b, _) => .ok b

theorem decode_avoids (cr : Crypto) : Avoids Fault.IsOtherPanic (decode cr) := by
  have hdigest : Avoids Fault.IsOtherPanic Digest.decode :=
    Digest.decode_avoids.mono fun _ h => h.isPanic
  have hsignature : Avoids Fault.IsOtherPanic Signature.decode :=
    Signature.decode_avoids.mono fun _ h => h.isPanic
  have hqc : Avoids Fault.IsOtherPanic (QC.decode cr) :=
    hdigest.bind fun _ => (u64_avoids id).bind fun _ =>
      (vec_avoids id ((PublicKey.decode_avoids cr).bind fun _ => hsignature.bind fun _ =>
        .pure _ _)).bind fun _ => .pure _ _
  have htc : Avoids Fault.IsOtherPanic (TC.decode cr) :=
    (u64_avoids id).bind fun _ =>
      (vec_avoids id ((PublicKey.decode_avoids cr).bind fun _ => hsignature.bind fun _ =>
        (u64_avoids id).bind fun _ => .pure _ _)).bind fun _ => .pure _ _
  exact hqc.bind fun _ => (opt_avoids id id htc).bind fun _ =>
    (PublicKey.decode_avoids cr).bind fun _ => (u64_avoids id).bind fun _ =>
      (vec_avoids id hdigest).bind fun _ => hsignature.bind fun _ => .pure _ _

/-- `bincode::deserialize` panics on a key of fewer than 32 bytes, and for no other reason. -/
theorem tryFrom_panic {cr : Crypto} {value : Bytes} {p : Panic}
    (h : tryFrom cr value = .error (.panic p)) : p = .slice := by
  unfold tryFrom at h
  split at h
  · rename_i e he
    cases h
    exact not_not.mp (decode_avoids cr _ _ he)
  · cases h

/-- The lengths of the lists of a block are `usize` values. -/
structure Fits (b : Block) : Prop where
  votes : b.qc.votes.length < 2 ^ 64
  timeouts : ∀ tc, b.tc = some tc → tc.votes.length < 2 ^ 64
  payload : b.payload.length < 2 ^ 64

variable {cr : Crypto} {b : Block}

theorem decode_inverts (hb : cr.Base64RoundTrip) (h : b.Fits) : Inverts encode (decode cr) b := by
  intro rest
  rw [encode, List.append_assoc, List.append_assoc, List.append_assoc, List.append_assoc,
    List.append_assoc, decode, run_bind, QC.decode_inverts hb h.votes]
  simp only
  rw [run_bind, run_opt fun tc htc => TC.decode_inverts hb (h.timeouts tc htc)]
  simp only
  rw [run_bind, PublicKey.decode_inverts hb]
  simp only
  rw [run_bind, run_u64 b.round]
  simp only
  rw [run_bind, run_vec (by have := h.payload; omega) fun d _ => Digest.decode_inverts d]
  simp only
  rw [run_bind, Signature.decode_inverts]
  rfl

theorem tryFrom_encode (hb : cr.Base64RoundTrip) (h : b.Fits) : tryFrom cr b.encode = .ok b := by
  have hd := decode_inverts hb h []
  rw [List.append_nil] at hd
  rw [tryFrom, hd]

/-- The length of the serialization is odd. -/
theorem length_encode_odd (b : Block) : b.encode.length % 2 = 1 := by
  have hqc : b.qc.encode.length % 2 = 0 := by
    simp [QC.encode, QC.encodeVote, length_encVec]
    omega
  have htc : (encOpt TC.encode b.tc).length % 2 = 1 := by
    cases b.tc with
    | none => rfl
    | some tc =>
      simp [encOpt, TC.encode, TC.encodeVote, length_encVec]
      omega
  simp only [encode, List.length_append, PublicKey.length_encode, length_leBytes, length_encVec,
    Digest.length_toBytes, Signature.length_encode, List.map_const',
    List.sum_replicate_nat]
  omega

end Block

/-! ## Messages -/

namespace Vote

def encode (v : Vote) : Bytes :=
  v.hash.toBytes ++ leBytes 8 v.round ++ v.author.encode ++ v.signature.encode

def decode (cr : Crypto) : Decoder (Fault DecodeError) Vote := do
  let hash ← Digest.decode
  let round ← u64
  let author ← PublicKey.decode cr
  let signature ← Signature.decode
  return ⟨hash, round, author, signature⟩

theorem decode_inverts {cr : Crypto} (hb : cr.Base64RoundTrip) (v : Vote) :
    Inverts encode (decode cr) v := by
  intro rest
  rw [encode, List.append_assoc, List.append_assoc, List.append_assoc, decode, run_bind,
    Digest.decode_inverts]
  simp only
  rw [run_bind, run_u64 v.round]
  simp only
  rw [run_bind, PublicKey.decode_inverts hb]
  simp only
  rw [run_bind, Signature.decode_inverts]
  rfl

end Vote

namespace Timeout

def encode (t : Timeout) : Bytes :=
  leBytes 8 t.highQcRound ++ leBytes 8 t.round ++ t.author.encode ++ t.signature.encode

def decode (cr : Crypto) : Decoder (Fault DecodeError) Timeout := do
  let highQcRound ← u64
  let round ← u64
  let author ← PublicKey.decode cr
  let signature ← Signature.decode
  return ⟨highQcRound, round, author, signature⟩

theorem decode_inverts {cr : Crypto} (hb : cr.Base64RoundTrip) (t : Timeout) :
    Inverts encode (decode cr) t := by
  intro rest
  rw [encode, List.append_assoc, List.append_assoc, List.append_assoc, decode, run_bind,
    run_u64 t.highQcRound]
  simp only
  rw [run_bind, run_u64 t.round]
  simp only
  rw [run_bind, PublicKey.decode_inverts hb]
  simp only
  rw [run_bind, Signature.decode_inverts]
  rfl

end Timeout

namespace ConsensusMessage

/-- The variant index as a `u32`, then the fields. -/
def encode : ConsensusMessage → Bytes
  | propose b => leBytes 4 0 ++ b.encode
  | vote v => leBytes 4 1 ++ v.encode
  | timeout t => leBytes 4 2 ++ t.encode
  | tc t => leBytes 4 3 ++ t.encode
  | loopBack b => leBytes 4 4 ++ b.encode
  | syncRequest d sender => leBytes 4 5 ++ (d.toBytes ++ sender.encode)

def decode (cr : Crypto) : Decoder (Fault DecodeError) ConsensusMessage := do
  let variant ← uint 4
  if variant = 0 then
    let b ← Block.decode cr
    return propose b
  else if variant = 1 then
    let v ← Vote.decode cr
    return vote v
  else if variant = 2 then
    let t ← Timeout.decode cr
    return timeout t
  else if variant = 3 then
    let t ← TC.decode cr
    return tc t
  else if variant = 4 then
    let b ← Block.decode cr
    return loopBack b
  else if variant = 5 then
    let d ← Digest.decode
    let sender ← PublicKey.decode cr
    return syncRequest d sender
  else throw WireError.tag

/-- `bincode::deserialize`: trailing bytes are ignored. -/
def tryFrom (cr : Crypto) (value : Bytes) : Except (Fault DecodeError) ConsensusMessage :=
  match (decode cr).run value with
  | .error e => .error e
  | .ok (m, _) => .ok m

/-- The lengths of the lists of a message are `usize` values. -/
def Fits : ConsensusMessage → Prop
  | propose b | loopBack b => b.Fits
  | tc t => t.votes.length < 2 ^ 64
  | _ => True

/-- **The round trip of a message.** -/
theorem decode_inverts {cr : Crypto} (hb : cr.Base64RoundTrip) {m : ConsensusMessage} (h : m.Fits) :
    Inverts encode (decode cr) m := by
  intro rest
  cases m with
  | propose b =>
    rw [encode, List.append_assoc, decode, run_bind, run_uint (by decide)]
    simp only [if_true]
    rw [run_bind, Block.decode_inverts hb h]
    rfl
  | vote v =>
    rw [encode, List.append_assoc, decode, run_bind, run_uint (by decide)]
    simp only [one_ne_zero, if_true, if_false]
    rw [run_bind, Vote.decode_inverts hb]
    rfl
  | timeout t =>
    rw [encode, List.append_assoc, decode, run_bind, run_uint (by decide)]
    simp only [OfNat.ofNat_ne_zero, OfNat.ofNat_ne_one, if_true, if_false]
    rw [run_bind, Timeout.decode_inverts hb]
    rfl
  | tc t =>
    rw [encode, List.append_assoc, decode, run_bind, run_uint (by decide)]
    simp only [Nat.reduceEqDiff, OfNat.ofNat_ne_zero, OfNat.ofNat_ne_one, if_true, if_false]
    rw [run_bind, TC.decode_inverts hb h]
    rfl
  | loopBack b =>
    rw [encode, List.append_assoc, decode, run_bind, run_uint (by decide)]
    simp only [Nat.reduceEqDiff, OfNat.ofNat_ne_zero, OfNat.ofNat_ne_one, if_true, if_false]
    rw [run_bind, Block.decode_inverts hb h]
    rfl
  | syncRequest d sender =>
    rw [encode, List.append_assoc, decode, run_bind, run_uint (by decide)]
    simp only [Nat.reduceEqDiff, OfNat.ofNat_ne_zero, OfNat.ofNat_ne_one, if_true, if_false]
    rw [run_bind, List.append_assoc, Digest.decode_inverts]
    simp only
    rw [run_bind, PublicKey.decode_inverts hb]
    rfl

theorem tryFrom_encode {cr : Crypto} (hb : cr.Base64RoundTrip) {m : ConsensusMessage} (h : m.Fits) :
    tryFrom cr m.encode = .ok m := by
  have hd := decode_inverts hb h []
  rw [List.append_nil] at hd
  rw [tryFrom, hd]

end ConsensusMessage

end AccountabilityGadget.Consensus
