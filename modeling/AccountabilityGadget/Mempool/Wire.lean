import AccountabilityGadget.Mempool.Core

/-!
# The messages of the mempool on the wire (`mempool/src/core.rs`)

* `MempoolMessage.encode`, `MempoolMessage.tryFrom` — `bincode`, and `tryFrom_encode`: what is written
  is read back.
-/

set_option autoImplicit false

namespace AccountabilityGadget.Mempool.MempoolMessage

open Encoding

/-- The variant index as a `u32`, then the fields. -/
def encode : MempoolMessage → Bytes
  | ownPayload p => leBytes 4 0 ++ p.encode
  | payload p => leBytes 4 1 ++ p.encode
  | payloadRequest digests requestor =>
    leBytes 4 2 ++ (encVec Digest.toBytes digests ++ requestor.encode)

def decode (cr : Crypto) : Decoder (Fault DecodeError) MempoolMessage := do
  let variant ← uint 4
  if variant = 0 then
    let p ← Payload.decode
    return ownPayload p
  else if variant = 1 then
    let p ← Payload.decode
    return payload p
  else if variant = 2 then
    let digests ← vec Digest.decode
    let requestor ← PublicKey.decode cr
    return payloadRequest digests requestor
  else throw WireError.tag

/-- `bincode::deserialize`: trailing bytes are ignored. -/
def tryFrom (cr : Crypto) (value : Bytes) : Except (Fault DecodeError) MempoolMessage :=
  match (decode cr).run value with
  | .error e => .error e
  | .ok (m, _) => .ok m

/-- The number of digests is a `usize`. -/
def Fits : MempoolMessage → Prop
  | ownPayload _ | payload _ => True
  | payloadRequest digests _ => digests.length < 2 ^ 64

/-- **The round trip of a message.** -/
theorem decode_inverts {cr : Crypto} (hb : cr.Base64RoundTrip) {m : MempoolMessage} (h : m.Fits) :
    Inverts encode (decode cr) m := by
  intro rest
  cases m with
  | ownPayload p =>
    rw [encode, List.append_assoc, decode, run_bind, run_uint (by decide)]
    simp only [if_true]
    rw [run_bind, Payload.decode_inverts]
    rfl
  | payload p =>
    rw [encode, List.append_assoc, decode, run_bind, run_uint (by decide)]
    simp only [one_ne_zero, if_true, if_false]
    rw [run_bind, Payload.decode_inverts]
    rfl
  | payloadRequest digests requestor =>
    have hl : digests.length < 256 ^ 8 := by
      have hfits : digests.length < 2 ^ 64 := h
      omega
    rw [encode, List.append_assoc, decode, run_bind, run_uint (by decide)]
    simp only [OfNat.ofNat_ne_zero, OfNat.ofNat_ne_one, if_true, if_false]
    rw [run_bind, List.append_assoc, run_vec hl fun d _ => Digest.decode_inverts d]
    simp only
    rw [run_bind, PublicKey.decode_inverts hb]
    rfl

theorem tryFrom_encode {cr : Crypto} (hb : cr.Base64RoundTrip) {m : MempoolMessage} (h : m.Fits) :
    tryFrom cr m.encode = .ok m := by
  have hd := decode_inverts hb h []
  rw [List.append_nil] at hd
  rw [tryFrom, hd]

end AccountabilityGadget.Mempool.MempoolMessage
