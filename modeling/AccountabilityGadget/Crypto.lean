import Mathlib.Data.List.Lex
import Mathlib.Order.Lattice
import AccountabilityGadget.Lib.Base64

/-!
# Keys, digests, signatures (`crypto/src/lib.rs`)

`Digest`, `PublicKey` and `Signature` wrap 32-byte arrays.  The third-party primitives are the
fields of `Crypto`: SHA-512 truncated to 32 bytes, `ed25519` verification and signing, and
`base64::decode`.  Nothing is assumed of them here; a result that needs collision freeness,
unforgeability or a property of `base64` takes it as a named hypothesis.

* `Panic`, `Fault` — a decoder either rejects its input with an error or panics.
* `PublicKey.fromBase64` — the text codec of keys: the decoded bytes are sliced with `[..32]`
  before their length is looked at, so a short text panics (`fromBase64_panic_iff`).
* `PublicKey.encode`, `PublicKey.decode` — keys on the wire, as base64 strings.
-/

set_option autoImplicit false

namespace AccountabilityGadget

open Encoding

/-- `[u8; 32]`. -/
structure Bytes32 where
  bytes : Bytes
  length_eq : bytes.length = 32
  deriving DecidableEq

namespace Bytes32

def zero : Bytes32 := ⟨List.replicate 32 0, rfl⟩

theorem ext_bytes {a b : Bytes32} (h : a.bytes = b.bytes) : a = b := by
  cases a; cases b; simp only at h; subst h; rfl

theorem toNat_injective : Function.Injective fun b : Bytes32 => b.bytes.map UInt8.toNat := by
  intro a b h
  exact ext_bytes (List.map_injective_iff.mpr (fun _ _ => UInt8.toNat_inj.mp) h)

/-- Arrays are compared lexicographically, byte by byte. -/
instance : LinearOrder Bytes32 := LinearOrder.lift' _ toNat_injective

/-- The first 32 bytes of a string that has them. -/
def ofPrefix (bs : Bytes) (h : 32 ≤ bs.length) : Bytes32 :=
  ⟨bs.take 32, by rw [List.length_take]; omega⟩

/-- 32 consecutive bytes on the wire. -/
def decode {ε : Type} [WireError ε] : Decoder ε Bytes32 := fun bs =>
  if h : 32 ≤ bs.length then .ok (ofPrefix bs h, bs.drop 32) else .error WireError.eof

theorem decode_inverts {ε : Type} [WireError ε] (a : Bytes32) :
    Inverts Bytes32.bytes (decode : Decoder ε Bytes32) a := by
  intro rest
  have hl : 32 ≤ (a.bytes ++ rest).length := by rw [List.length_append, a.length_eq]; omega
  simp only [decode, StateT.run, dif_pos hl, Except.ok.injEq, Prod.mk.injEq]
  exact ⟨ext_bytes (by simp [ofPrefix, ← a.length_eq]), by simp [← a.length_eq]⟩

theorem decode_avoids {ε : Type} [WireError ε] {bad : ε → Prop} (he : ¬ bad WireError.eof) :
    Avoids bad (decode : Decoder ε Bytes32) := by
  intro bs e h
  simp only [decode, StateT.run] at h
  split at h
  · cases h
  · cases h; exact he

end Bytes32

structure Digest where
  data : Bytes32
  deriving DecidableEq

structure PublicKey where
  data : Bytes32
  deriving DecidableEq

structure Signature where
  part1 : Bytes32
  part2 : Bytes32
  deriving DecidableEq

namespace Digest

def default : Digest := ⟨.zero⟩

/-- `as_ref` / `to_vec`. -/
def toBytes (d : Digest) : Bytes := d.data.bytes

@[simp] theorem length_toBytes (d : Digest) : d.toBytes.length = 32 := d.data.length_eq

theorem toBytes_injective {a b : Digest} (h : a.toBytes = b.toBytes) : a = b := by
  cases a; cases b; exact congrArg _ (Bytes32.ext_bytes h)

instance : LinearOrder Digest :=
  LinearOrder.lift' Digest.data fun a b h => by cases a; cases b; simp only at h; subst h; rfl

end Digest

namespace Signature

def default : Signature := ⟨.zero, .zero⟩

def encode (s : Signature) : Bytes := s.part1.bytes ++ s.part2.bytes

@[simp] theorem length_encode (s : Signature) : s.encode.length = 64 := by
  simp [encode, s.part1.length_eq, s.part2.length_eq]

end Signature

/-! ## Faults -/

/-- The ways a task of the program can panic. -/
inductive Panic where
  | slice
  | index
  | unwrap
  | overflow
  | assert
  | stackOverflow
  | expect (msg : String)
  deriving DecidableEq, Repr

/-- `bincode::ErrorKind`, as far as the decoders here raise it. -/
inductive DecodeError where
  | unexpectedEof
  | invalidUtf8
  | invalidTag
  | base64
  deriving DecidableEq, Repr

/-- A function that does not succeed returns an error `e` or panics. -/
inductive Fault (ε : Type) where
  | reject (e : ε)
  | panic (p : Panic)
  deriving DecidableEq, Repr

instance : WireError (Fault DecodeError) where
  eof := .reject .unexpectedEof
  utf8 := .reject .invalidUtf8
  tag := .reject .invalidTag

/-- The fault is a panic. -/
def Fault.IsPanic {ε : Type} : Fault ε → Prop
  | .reject _ => False
  | .panic _ => True

/-- The fault is a panic other than that of `bytes[..32]`. -/
def Fault.IsOtherPanic {ε : Type} : Fault ε → Prop
  | .reject _ => False
  | .panic p => p ≠ .slice

theorem Fault.IsOtherPanic.isPanic {ε : Type} {e : Fault ε} (h : e.IsOtherPanic) : e.IsPanic := by
  cases e with
  | reject e => exact h
  | panic p => trivial

/-- `result.unwrap()`. -/
def unwrap {ε α : Type} : Except (Fault ε) α → Except Panic α
  | .ok a => .ok a
  | .error (.reject _) => .error .unwrap
  | .error (.panic p) => .error p

/-- `result.expect(msg)`. -/
def expect {ε α : Type} (msg : String) : Except (Fault ε) α → Except Panic α
  | .ok a => .ok a
  | .error (.reject _) => .error (.expect msg)
  | .error (.panic p) => .error p

/-- `result.ok()`. -/
def ok {ε α : Type} : Except (Fault ε) α → Except Panic (Option α)
  | .ok a => .ok (some a)
  | .error (.reject _) => .ok none
  | .error (.panic p) => .error p

/-- `map[key]`. -/
def index {α : Type} : Option α → Except Panic α
  | none => .error .index
  | some a => .ok a

@[simp] theorem unwrap_ok {ε α : Type} (a : α) : unwrap (.ok a : Except (Fault ε) α) = .ok a := rfl

@[simp] theorem expect_ok {ε α : Type} (msg : String) (a : α) :
    expect msg (.ok a : Except (Fault ε) α) = .ok a := rfl

theorem expect_eq_ok {ε α : Type} {msg : String} {x : Except (Fault ε) α} {a : α} :
    expect msg x = .ok a ↔ x = .ok a := by
  cases x with
  | error e => cases e <;> simp [expect]
  | ok b => simp [expect]

theorem ok_eq_some {ε α : Type} {x : Except (Fault ε) α} {a : α} :
    ok x = .ok (some a) ↔ x = .ok a := by
  cases x with
  | error e => cases e <;> simp [ok]
  | ok b => simp [ok]

/-- The third-party cryptography. -/
structure Crypto where
  /-- The first 32 bytes of the SHA-512 of a byte string. -/
  sha512 : Bytes → Digest
  /-- `signature.verify(&digest, &key)`. -/
  verify : Signature → Digest → PublicKey → Bool
  /-- What the `SignatureService` of the owner of a key returns. -/
  sign : PublicKey → Digest → Signature
  /-- `base64::decode`. -/
  base64Decode : Bytes → Option Bytes

/-- No two of the byte strings in `S` have the same SHA-512 prefix. -/
def Crypto.CollisionFree (cr : Crypto) (S : Bytes → Prop) : Prop :=
  ∀ x y, S x → S y → cr.sha512 x = cr.sha512 y → x = y

/-- `base64::decode` reads back what `base64::encode` wrote. -/
def Crypto.Base64RoundTrip (cr : Crypto) : Prop :=
  ∀ bs, cr.base64Decode (Base64.encode bs) = some bs

/-- `base64::decode` accepts exactly the canonical standard encodings. -/
def Crypto.CanonicalBase64 (cr : Crypto) : Prop := cr.base64Decode = Base64.decode

/-! ## Digests and signatures on the wire -/

namespace Digest

def decode : Decoder (Fault DecodeError) Digest := do
  let d ← Bytes32.decode
  return ⟨d⟩

theorem decode_inverts (d : Digest) : Inverts toBytes decode d := by
  intro rest
  have hd : Bytes32.decode.run (d.toBytes ++ rest) = .ok (d.data, rest) :=
    Bytes32.decode_inverts (ε := Fault DecodeError) d.data rest
  rw [decode, run_bind, hd]
  rfl

theorem decode_avoids : Avoids Fault.IsPanic decode :=
  (Bytes32.decode_avoids id).bind fun _ => .pure _ _

end Digest

namespace Signature

def decode : Decoder (Fault DecodeError) Signature := do
  let part1 ← Bytes32.decode
  let part2 ← Bytes32.decode
  return ⟨part1, part2⟩

theorem decode_inverts (s : Signature) : Inverts encode decode s := by
  intro rest
  rw [encode, List.append_assoc, decode, run_bind, Bytes32.decode_inverts]
  simp only
  rw [run_bind, Bytes32.decode_inverts]
  rfl

theorem decode_avoids : Avoids Fault.IsPanic decode :=
  (Bytes32.decode_avoids id).bind fun _ => (Bytes32.decode_avoids id).bind fun _ => .pure _ _

end Signature

/-! ## Public keys as text -/

namespace PublicKey

def toBytes (k : PublicKey) : Bytes := k.data.bytes

theorem toBytes_injective {a b : PublicKey} (h : a.toBytes = b.toBytes) : a = b := by
  cases a; cases b; exact congrArg _ (Bytes32.ext_bytes h)

@[simp] theorem length_toBytes (k : PublicKey) : k.toBytes.length = 32 := k.data.length_eq

def toBase64 (k : PublicKey) : Bytes := Base64.encode k.toBytes

theorem length_toBase64 (k : PublicKey) : k.toBase64.length = 44 := by
  simp [toBase64, Base64.length_encode]

/-- `base64::decode(s)?`, then `bytes[..32].try_into()`. -/
def fromBase64 (cr : Crypto) (s : Bytes) : Except (Fault DecodeError) PublicKey :=
  match cr.base64Decode s with
  | none => .error (.reject .base64)
  | some bytes => if h : 32 ≤ bytes.length then .ok ⟨.ofPrefix bytes h⟩ else .error (.panic .slice)

/-- The text decodes to fewer than 32 bytes. -/
def ShortText (cr : Crypto) (s : Bytes) : Prop := ∃ bytes, cr.base64Decode s = some bytes ∧ bytes.length < 32

instance (cr : Crypto) (s : Bytes) : Decidable (ShortText cr s) :=
  decidable_of_iff ((cr.base64Decode s).any fun bytes => bytes.length < 32) (by
    cases h : cr.base64Decode s <;> simp [ShortText, h])

/-- `from_base64` panics exactly on the texts that decode to fewer than 32 bytes. -/
theorem fromBase64_panic_iff (cr : Crypto) (s : Bytes) (p : Panic) :
    fromBase64 cr s = .error (.panic p) ↔ p = .slice ∧ ShortText cr s := by
  unfold fromBase64 ShortText
  cases h : cr.base64Decode s with
  | none => simp
  | some bytes =>
    by_cases hl : 32 ≤ bytes.length
    · simp [hl]
    · simp only [dif_neg hl, Except.error.injEq, Fault.panic.injEq, Option.some.injEq, exists_eq_left',
        show bytes.length < 32 by omega, and_true]
      exact eq_comm

theorem fromBase64_toBase64 {cr : Crypto} (hb : cr.Base64RoundTrip) (k : PublicKey) :
    fromBase64 cr k.toBase64 = .ok k := by
  have hd : cr.base64Decode k.toBase64 = some k.toBytes := hb _
  simp only [fromBase64, hd, length_toBytes, le_refl, dite_true, Except.ok.injEq]
  exact toBytes_injective (by simp [toBytes, Bytes32.ofPrefix, ← k.data.length_eq])

/-- `Serialize for PublicKey`. -/
def encode (k : PublicKey) : Bytes := encStr k.toBase64

@[simp] theorem length_encode (k : PublicKey) : k.encode.length = 52 := by
  simp [encode, encStr, length_toBase64]

/-- `Deserialize for PublicKey`. -/
def decode (cr : Crypto) : Decoder (Fault DecodeError) PublicKey := do
  let s ← str
  match fromBase64 cr s with
  | .error e => throw e
  | .ok k => return k

theorem decode_inverts {cr : Crypto} (hb : cr.Base64RoundTrip) (k : PublicKey) :
    Inverts encode (decode cr) k := by
  intro rest
  have hs : Inverts encStr (str : Decoder (Fault DecodeError) Bytes) k.toBase64 :=
    run_str (by rw [length_toBase64]; decide)
      (utf8Valid_of_ascii (Base64.encode_ascii _))
  rw [encode, decode, run_bind, hs rest]
  simp only [fromBase64_toBase64 hb]
  rfl

theorem decode_avoids (cr : Crypto) : Avoids Fault.IsOtherPanic (decode cr) :=
  (str_avoids id id).bind fun s => by
    intro bs e h
    cases hk : fromBase64 cr s with
    | ok k =>
      rw [hk] at h
      cases h
    | error e' =>
      rw [hk] at h
      cases h
      cases e with
      | reject e => exact id
      | panic p => exact fun hp => hp ((fromBase64_panic_iff cr s p).mp hk).1

end PublicKey

/-! ## A concrete instance -/

/-- Positional value of a string in base 257, modulo `2 ^ 256`. -/
def sampleHash (bs : Bytes) : ℕ := bs.foldl (fun acc b => (acc * 257 + b.toNat + 1) % 2 ^ 256) 0

/-- An executable `Crypto` to run the model with: signatures spell out digest and key. -/
def sampleCrypto : Crypto where
  sha512 bs := ⟨⟨leBytes 32 (sampleHash bs), length_leBytes _ _⟩⟩
  verify s d k := s.part1 = d.data ∧ s.part2 = k.data
  sign k d := ⟨d.data, k.data⟩
  base64Decode := Base64.decode

theorem length_ones : (List.replicate 32 1 : Bytes).length = 32 := rfl

/-- A digest other than the default one. -/
def Digest.ones : Digest := ⟨⟨List.replicate 32 1, length_ones⟩⟩

theorem sampleCrypto_canonicalBase64 : sampleCrypto.CanonicalBase64 := rfl

theorem sampleCrypto_base64RoundTrip : sampleCrypto.Base64RoundTrip := Base64.decode_encode

theorem sampleCrypto_verify_sign (k : PublicKey) (d : Digest) :
    sampleCrypto.verify (sampleCrypto.sign k d) d k = true := by
  simp [sampleCrypto]

end AccountabilityGadget
