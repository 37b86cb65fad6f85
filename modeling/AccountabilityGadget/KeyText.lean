import AccountabilityGadget.Checkpoint.Messages
import AccountabilityGadget.Consensus.Wire

/-!
# Keys as text (`crypto/src/lib.rs`)

`from_base64` decodes the text and cuts the first 32 bytes (64 for a secret key) out of the result
before it looks at the length.

* `keyBytes` — the body of both functions; `PublicKey.fromBase64_eq`, `SecretKey.fromBase64`.
* `Exact` — at a text the codec accepts exactly the encoding of a key, and never panics.
* `WrongLength` — the canonical text of a byte string of another length; `keyBytes_exact_iff`: the
  codec is exact at the other texts and only there.
* `authorText` — the author of a serialized transaction or message, as it is written there.
* `key_text_iff` — both codecs, and the author texts of what is accepted.
* `key_text_not` — a shorter text panics, a longer one is accepted.
-/

set_option autoImplicit false

namespace AccountabilityGadget

open Encoding

/-! ## The codec -/

/-- `base64::decode(s)?`, then `bytes[..n].try_into()`. -/
def keyBytes (cr : Crypto) (n : ℕ) (s : Bytes) :
    Except (Fault DecodeError) { bs : Bytes // bs.length = n } :=
  match cr.base64Decode s with
  | none => .error (.reject .base64)
  | some bytes =>
    if h : n ≤ bytes.length then .ok ⟨bytes.take n, List.length_take_of_le h⟩
    else .error (.panic .slice)

theorem PublicKey.fromBase64_eq (cr : Crypto) (s : Bytes) :
    PublicKey.fromBase64 cr s = (keyBytes cr 32 s).map fun bs => ⟨⟨bs.1, bs.2⟩⟩ := by
  unfold fromBase64 keyBytes
  cases cr.base64Decode s with
  | none => rfl
  | some bytes =>
    simp only
    split_ifs <;> rfl

/-- `[u8; 64]`. -/
structure SecretKey where
  bytes : Bytes
  length_eq : bytes.length = 64
  deriving DecidableEq

namespace SecretKey

def toBase64 (k : SecretKey) : Bytes := Base64.encode k.bytes

def fromBase64 (cr : Crypto) (s : Bytes) : Except (Fault DecodeError) SecretKey :=
  (keyBytes cr 64 s).map fun bs => ⟨bs.1, bs.2⟩

end SecretKey

/-- A text codec is exact at the text `s`. -/
structure Exact {κ : Type} (fromText : Bytes → Except (Fault DecodeError) κ) (toText : κ → Bytes)
    (s : Bytes) : Prop where
  total : ∀ p, fromText s ≠ .error (.panic p)
  accepts : ∀ k, fromText s = .ok k ↔ s = toText k
  rejects : (∀ k, s ≠ toText k) → ∃ e, fromText s = .error (.reject e)

/-- The text encodes a byte string of another length than `n`. -/
def WrongLength (n : ℕ) (s : Bytes) : Prop := ∃ bytes, s = Base64.encode bytes ∧ bytes.length ≠ n

/-- Exactness does not depend on how the keys are represented. -/
theorem exact_map_iff {κ μ : Type} (fromText : Bytes → Except (Fault DecodeError) κ)
    (toText : κ → Bytes) {f : κ → μ} {g : μ → κ} (hfg : ∀ m, f (g m) = m) (hgf : ∀ k, g (f k) = k)
    (s : Bytes) :
    Exact (fun s => (fromText s).map f) (fun m => toText (g m)) s ↔ Exact fromText toText s := by
  have hok : ∀ k, (fromText s).map f = .ok (f k) ↔ fromText s = .ok k := by
    intro k
    cases fromText s with
    | error e => simp [Except.map]
    | ok k' =>
      simp only [Except.map, Except.ok.injEq]
      exact ⟨fun h => by rw [← hgf k', h, hgf], congrArg f⟩
  have herr : ∀ e, (fromText s).map f = .error e ↔ fromText s = .error e := by
    intro e
    cases fromText s <;> simp [Except.map]
  constructor
  · intro h
    refine ⟨fun p hp => h.total p ((herr _).mpr hp), ?_, ?_⟩
    · intro k
      have hk := h.accepts (f k)
      simp only [hok, hgf] at hk
      exact hk
    · intro hno
      obtain ⟨e, he⟩ := h.rejects fun m => hno (g m)
      exact ⟨e, (herr _).mp he⟩
  · intro h
    refine ⟨fun p hp => h.total p ((herr _).mp hp), ?_, ?_⟩
    · intro m
      have hm := hok (g m)
      rw [hfg] at hm
      exact hm.trans (h.accepts (g m))
    · intro hno
      have hno' : ∀ k, s ≠ toText k := by
        intro k
        have := hno (f k)
        simpa only [hgf] using this
      obtain ⟨e, he⟩ := h.rejects hno'
      exact ⟨e, (herr _).mpr he⟩

/-- **The codec is exact at a text if and only if it does not encode a byte string of another
length.** -/
theorem keyBytes_exact_iff {cr : Crypto} (hb : cr.CanonicalBase64) (n : ℕ) (s : Bytes) :
    Exact (keyBytes cr n) (fun bs => Base64.encode bs.1) s ↔ ¬ WrongLength n s := by
  have hdec : cr.base64Decode s = Base64.decode s := by rw [hb]
  constructor
  · rintro h ⟨bytes, rfl, hne⟩
    rw [Base64.decode_encode] at hdec
    by_cases hle : n ≤ bytes.length
    · -- a longer text is accepted for the key of its first bytes
      have hok : keyBytes cr n (Base64.encode bytes) =
          .ok ⟨bytes.take n, List.length_take_of_le hle⟩ := by
        simp only [keyBytes, hdec, dif_pos hle]
      have htake := Base64.encode_injective ((h.accepts _).mp hok)
      have hlen := congrArg List.length htake
      rw [List.length_take] at hlen
      omega
    · refine h.total .slice ?_
      simp only [keyBytes, hdec, dif_neg hle]
  · intro hw
    have hlen : ∀ bytes, Base64.decode s = some bytes → bytes.length = n := by
      intro bytes hd
      by_contra hne
      exact hw ⟨bytes, (Base64.encode_of_decode hd).symm, hne⟩
    refine ⟨?_, ?_, ?_⟩
    · intro p hp
      rw [keyBytes, hdec] at hp
      cases hd : Base64.decode s with
      | none => rw [hd] at hp; cases hp
      | some bytes =>
        rw [hd] at hp
        simp only [hlen bytes hd, le_refl, dite_true] at hp
        cases hp
    · rintro ⟨k, hk⟩
      rw [keyBytes, hdec]
      cases hd : Base64.decode s with
      | none =>
        simp only [reduceCtorEq, false_iff]
        rintro rfl
        rw [Base64.decode_encode] at hd
        cases hd
      | some bytes =>
        have htake : bytes.take n = bytes := List.take_of_length_le (hlen bytes hd).le
        simp only [hlen bytes hd, le_refl, dite_true, Except.ok.injEq, Subtype.mk.injEq, htake]
        rw [← Base64.encode_of_decode hd]
        exact ⟨congrArg _, Base64.encode_injective⟩
    · intro hno
      rw [keyBytes, hdec]
      cases hd : Base64.decode s with
      | none => exact ⟨_, rfl⟩
      | some bytes => exact absurd (Base64.encode_of_decode hd).symm (hno ⟨bytes, hlen bytes hd⟩)

theorem PublicKey.exact_iff {cr : Crypto} (hb : cr.CanonicalBase64) (s : Bytes) :
    Exact (PublicKey.fromBase64 cr) PublicKey.toBase64 s ↔ ¬ WrongLength 32 s := by
  rw [← keyBytes_exact_iff hb, funext (PublicKey.fromBase64_eq cr)]
  exact exact_map_iff (keyBytes cr 32) (fun bs => Base64.encode bs.1)
    (f := fun bs : { bs : Bytes // bs.length = 32 } => (⟨⟨bs.1, bs.2⟩⟩ : PublicKey))
    (g := fun k => ⟨k.data.bytes, k.data.length_eq⟩) (fun _ => rfl) (fun _ => rfl) s

theorem SecretKey.exact_iff {cr : Crypto} (hb : cr.CanonicalBase64) (s : Bytes) :
    Exact (SecretKey.fromBase64 cr) SecretKey.toBase64 s ↔ ¬ WrongLength 64 s := by
  rw [← keyBytes_exact_iff hb]
  exact exact_map_iff (keyBytes cr 64) (fun bs => Base64.encode bs.1)
    (f := fun bs : { bs : Bytes // bs.length = 64 } => (⟨bs.1, bs.2⟩ : SecretKey))
    (g := fun k => ⟨k.bytes, k.length_eq⟩) (fun _ => rfl) (fun _ => rfl) s

/-! ## Author texts -/

/-- The text is read, and the key is what `from_base64` makes of it. -/
theorem PublicKey.decode_eq_ok {cr : Crypto} {v rest : Bytes} {k : PublicKey}
    (h : (PublicKey.decode cr).run v = .ok (k, rest)) :
    ∃ s, (str : Decoder (Fault DecodeError) Bytes).run v = .ok (s, rest) ∧
      PublicKey.fromBase64 cr s = .ok k := by
  rw [PublicKey.decode] at h
  obtain ⟨s, r, hs, h⟩ := run_bind_eq_ok.mp h
  cases hk : PublicKey.fromBase64 cr s with
  | error e => rw [hk] at h; cases h
  | ok k' => rw [hk] at h; cases h; exact ⟨s, hs, hk⟩

/-- An accepted text is the one of its key if and only if it has the right length. -/
theorem PublicKey.text_iff {cr : Crypto} (hb : cr.CanonicalBase64) {s : Bytes} {k : PublicKey}
    (h : PublicKey.fromBase64 cr s = .ok k) : s = k.toBase64 ↔ ¬ WrongLength 32 s := by
  constructor
  · rintro rfl ⟨bytes, he, hne⟩
    rw [← Base64.encode_injective he, PublicKey.length_toBytes] at hne
    exact hne rfl
  · intro hw
    exact (((PublicKey.exact_iff hb s).mpr hw).accepts k).mp h

/-- The first item that a decoder reads. -/
def firstOf {α : Type} (d : Decoder (Fault DecodeError) α) (v : Bytes) : Option α :=
  match d.run v with
  | .error _ => none
  | .ok (a, _) => some a

/-- The author as it is written in a serialized transaction. -/
def CheckpointTransaction.authorText (v : Bytes) : Option Bytes := firstOf str v

theorem CheckpointTransaction.authorText_spec {cr : Crypto} {v : Bytes} {t : CheckpointTransaction}
    (h : tryFrom cr v = .ok t) :
    ∃ s, authorText v = some s ∧ PublicKey.fromBase64 cr s = .ok t.author := by
  rw [tryFrom] at h
  split at h
  · cases h
  · rename_i t' rest hrun
    cases h
    obtain ⟨author, r, ha, hrun⟩ := run_bind_eq_ok.mp hrun
    obtain ⟨action, r', -, hrun⟩ := run_bind_eq_ok.mp hrun
    obtain ⟨signature, r'', -, hrun⟩ := run_bind_eq_ok.mp hrun
    cases hrun
    obtain ⟨s, hs, hk⟩ := PublicKey.decode_eq_ok ha
    refine ⟨s, ?_, hk⟩
    rw [authorText, firstOf, hs]

namespace Consensus.ConsensusMessage

/-- A timeout certificate has no author. -/
def author : ConsensusMessage → Option PublicKey
  | propose b | loopBack b => some b.author
  | vote v => some v.author
  | timeout t => some t.author
  | tc _ => none
  | syncRequest _ sender => some sender

/-- What stands before the author of a message, and its text. -/
def decodeAuthorText (cr : Crypto) : Decoder (Fault DecodeError) Bytes := do
  let variant ← uint 4
  if variant = 0 ∨ variant = 4 then
    let _ ← QC.decode cr
    let _ ← opt (TC.decode cr)
    str
  else if variant = 1 then
    let _ ← Digest.decode
    let _ ← u64
    str
  else if variant = 2 then
    let _ ← u64
    let _ ← u64
    str
  else if variant = 5 then
    let _ ← Digest.decode
    str
  else throw WireError.tag

/-- The author as it is written in a serialized message. -/
def authorText (cr : Crypto) (v : Bytes) : Option Bytes := firstOf (decodeAuthorText cr) v

/-- What is read of a block up to its author. -/
theorem Block.decode_author {cr : Crypto} {v rest : Bytes} {b : Block}
    (h : (Block.decode cr).run v = .ok (b, rest)) : ∃ qc r tc r' s r'',
      (QC.decode cr).run v = .ok (qc, r) ∧ (opt (TC.decode cr)).run r = .ok (tc, r') ∧
      (str : Decoder (Fault DecodeError) Bytes).run r' = .ok (s, r'') ∧
      PublicKey.fromBase64 cr s = .ok b.author := by
  obtain ⟨qc, r, hqc, h⟩ := run_bind_eq_ok.mp h
  obtain ⟨tc, r', htc, h⟩ := run_bind_eq_ok.mp h
  obtain ⟨author, r'', ha, h⟩ := run_bind_eq_ok.mp h
  obtain ⟨s, hs, hk⟩ := PublicKey.decode_eq_ok ha
  obtain ⟨round, r₁, -, h⟩ := run_bind_eq_ok.mp h
  obtain ⟨payload, r₂, -, h⟩ := run_bind_eq_ok.mp h
  obtain ⟨signature, r₃, -, h⟩ := run_bind_eq_ok.mp h
  cases h
  exact ⟨qc, r, tc, r', s, r'', hqc, htc, hs, hk⟩

theorem decodeAuthorText_run {cr : Crypto} {v rest : Bytes} {m : ConsensusMessage} {a : PublicKey}
    (h : (decode cr).run v = .ok (m, rest)) (ha : m.author = some a) :
    ∃ s r, (decodeAuthorText cr).run v = .ok (s, r) ∧ PublicKey.fromBase64 cr s = .ok a := by
  obtain ⟨variant, r, hvar, h⟩ := run_bind_eq_ok.mp h
  rw [decodeAuthorText, run_bind, hvar]
  simp only
  split_ifs at h with h0 h1 h2 h3 h4 h5
  · obtain ⟨b, r', hb, h⟩ := run_bind_eq_ok.mp h
    cases h
    cases ha
    obtain ⟨qc, r₁, tc, r₂, s, r₃, hqc, htc, hs, hk⟩ := Block.decode_author hb
    refine ⟨s, r₃, ?_, hk⟩
    rw [if_pos (.inl h0), run_bind, hqc]
    simp only
    rw [run_bind, htc]
    exact hs
  · obtain ⟨vote, r', hv, h⟩ := run_bind_eq_ok.mp h
    cases h
    cases ha
    obtain ⟨hash, r₁, hh, hv⟩ := run_bind_eq_ok.mp hv
    obtain ⟨round, r₂, hr, hv⟩ := run_bind_eq_ok.mp hv
    obtain ⟨author, r₃, hauthor, hv⟩ := run_bind_eq_ok.mp hv
    obtain ⟨s, hs, hk⟩ := PublicKey.decode_eq_ok hauthor
    obtain ⟨signature, r₄, -, hv⟩ := run_bind_eq_ok.mp hv
    cases hv
    refine ⟨s, r₃, ?_, hk⟩
    rw [if_neg (by omega), if_pos h1, run_bind, hh]
    simp only
    rw [run_bind, hr]
    exact hs
  · obtain ⟨t, r', ht, h⟩ := run_bind_eq_ok.mp h
    cases h
    cases ha
    obtain ⟨highQcRound, r₁, hh, ht⟩ := run_bind_eq_ok.mp ht
    obtain ⟨round, r₂, hr, ht⟩ := run_bind_eq_ok.mp ht
    obtain ⟨author, r₃, hauthor, ht⟩ := run_bind_eq_ok.mp ht
    obtain ⟨s, hs, hk⟩ := PublicKey.decode_eq_ok hauthor
    obtain ⟨signature, r₄, -, ht⟩ := run_bind_eq_ok.mp ht
    cases ht
    refine ⟨s, r₃, ?_, hk⟩
    rw [if_neg (by omega), if_neg h1, if_pos h2, run_bind, hh]
    simp only
    rw [run_bind, hr]
    exact hs
  · obtain ⟨t, r', ht, h⟩ := run_bind_eq_ok.mp h
    cases h
    cases ha
  · obtain ⟨b, r', hb, h⟩ := run_bind_eq_ok.mp h
    cases h
    cases ha
    obtain ⟨qc, r₁, tc, r₂, s, r₃, hqc, htc, hs, hk⟩ := Block.decode_author hb
    refine ⟨s, r₃, ?_, hk⟩
    rw [if_pos (.inr h4), run_bind, hqc]
    simp only
    rw [run_bind, htc]
    exact hs
  · obtain ⟨d, r₁, hd, h⟩ := run_bind_eq_ok.mp h
    obtain ⟨sender, r₂, hsender, h⟩ := run_bind_eq_ok.mp h
    cases h
    cases ha
    obtain ⟨s, hs, hk⟩ := PublicKey.decode_eq_ok hsender
    refine ⟨s, rest, ?_, hk⟩
    rw [if_neg (by omega), if_neg h1, if_neg h2, if_pos h5, run_bind, hd]
    exact hs
  · cases h

theorem authorText_spec {cr : Crypto} {v : Bytes} {m : ConsensusMessage} {a : PublicKey}
    (h : tryFrom cr v = .ok m) (ha : m.author = some a) :
    ∃ s, authorText cr v = some s ∧ PublicKey.fromBase64 cr s = .ok a := by
  rw [tryFrom] at h
  split at h
  · cases h
  · rename_i m' rest hrun
    cases h
    obtain ⟨s, r, hs, hk⟩ := decodeAuthorText_run hrun ha
    refine ⟨s, ?_, hk⟩
    rw [authorText, firstOf, hs]

end Consensus.ConsensusMessage

/-- **The key codecs are exact at a text if and only if it does not encode a byte string of the
wrong length**, and the author text of an accepted transaction or message is the one of its author
if and only if that holds of it. -/
theorem key_text_iff (cr : Crypto) (hb : cr.CanonicalBase64) :
    (∀ s, Exact (PublicKey.fromBase64 cr) PublicKey.toBase64 s ↔ ¬ WrongLength 32 s) ∧
    (∀ s, Exact (SecretKey.fromBase64 cr) SecretKey.toBase64 s ↔ ¬ WrongLength 64 s) ∧
    (∀ v t, CheckpointTransaction.tryFrom cr v = .ok t →
      ∃ s, CheckpointTransaction.authorText v = some s ∧
        (s = t.author.toBase64 ↔ ¬ WrongLength 32 s)) ∧
    ∀ v m a, Consensus.ConsensusMessage.tryFrom cr v = .ok m → m.author = some a →
      ∃ s, Consensus.ConsensusMessage.authorText cr v = some s ∧
        (s = a.toBase64 ↔ ¬ WrongLength 32 s) := by
  refine ⟨PublicKey.exact_iff hb, SecretKey.exact_iff hb, ?_, ?_⟩
  · intro v t h
    obtain ⟨s, hs, hk⟩ := CheckpointTransaction.authorText_spec h
    exact ⟨s, hs, PublicKey.text_iff hb hk⟩
  · intro v m a h ha
    obtain ⟨s, hs, hk⟩ := Consensus.ConsensusMessage.authorText_spec h ha
    exact ⟨s, hs, PublicKey.text_iff hb hk⟩

/-- The text of the zero key. -/
theorem key_text_iff_zero :
    Exact (PublicKey.fromBase64 sampleCrypto) PublicKey.toBase64 (PublicKey.toBase64 ⟨.zero⟩) := by
  refine ((key_text_iff sampleCrypto sampleCrypto_canonicalBase64).1 _).mpr ?_
  rintro ⟨bytes, he, hne⟩
  rw [← Base64.encode_injective he] at hne
  exact hne rfl

/-- A transaction whose author text encodes 33 bytes. -/
def longAuthorTransaction : Bytes :=
  encStr (Base64.encode (List.replicate 33 0)) ++ CheckpointAction.encode (.reject 0) ++
    Signature.default.encode

/-- **The empty text panics, and the text of 33 bytes is accepted as the key of the first 32**, also
as the author of a transaction. -/
theorem key_text_not :
    PublicKey.fromBase64 sampleCrypto [] = .error (.panic .slice) ∧
    SecretKey.fromBase64 sampleCrypto [] = .error (.panic .slice) ∧
    PublicKey.fromBase64 sampleCrypto (Base64.encode (List.replicate 33 0)) = .ok ⟨.zero⟩ ∧
    Base64.encode (List.replicate 33 0) ≠ PublicKey.toBase64 ⟨.zero⟩ ∧
    CheckpointTransaction.tryFrom sampleCrypto longAuthorTransaction =
      .ok ⟨⟨.zero⟩, .reject 0, .default⟩ ∧
    CheckpointTransaction.authorText longAuthorTransaction ≠ some (PublicKey.toBase64 ⟨.zero⟩) := by
  refine ⟨rfl, rfl, by decide +kernel, ?_, by decide +kernel, by decide +kernel⟩
  intro h
  exact absurd (congrArg List.length (Base64.encode_injective h)) (by decide)

end AccountabilityGadget
