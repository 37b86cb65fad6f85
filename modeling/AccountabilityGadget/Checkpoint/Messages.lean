import Mathlib.Data.List.AList
import Mathlib.Data.Finset.Card
import AccountabilityGadget.Crypto

/-!
# Checkpoint committee, actions, transactions and events

Model of `mynode/src/config.rs` (`CheckpointCommittee`), `cpactions.rs` and `cpevents.rs`.

* `CheckpointTransaction.encode` / `tryFrom` — `bincode::serialize` / `bincode::deserialize`.
* `tryFrom_encode` — the round trip, for iteration numbers that fit a `usize`.
* `tryFrom_panic_iff` — decoding panics exactly on the transactions whose author text decodes to
  fewer than 32 bytes (`ShortKey`); every other input is decoded or rejected with an error.
* `validVote` — author and action of a raw transaction that decodes and verifies.
-/

set_option autoImplicit false

namespace AccountabilityGadget

open Encoding

/-! ## Committee -/

structure Authority where
  name : PublicKey
  stake : ℕ
  deriving DecidableEq

structure CheckpointCommittee where
  authorities : AList fun _ : PublicKey => Authority

namespace CheckpointCommittee

/-- Later entries for one key replace earlier ones. -/
def new (info : List (PublicKey × ℕ)) : CheckpointCommittee :=
  ⟨info.foldl (fun m e => m.insert e.1 ⟨e.1, e.2⟩) ∅⟩

variable (c : CheckpointCommittee)

def size : ℕ := c.authorities.entries.length

def stake (name : PublicKey) : ℕ := (c.authorities.lookup name).elim 0 (·.stake)

/-- The authorities that can vote. -/
def voters : Finset PublicKey := c.authorities.keys.toFinset.filter fun a => 0 < c.stake a

variable {c}

theorem mem_keys_of_stake {a : PublicKey} (h : 0 < c.stake a) : a ∈ c.authorities.keys := by
  rw [← AList.mem_keys, ← AList.lookup_isSome]
  unfold stake at h
  cases hl : c.authorities.lookup a with
  | none => rw [hl] at h; simp at h
  | some x => rfl

@[simp] theorem mem_voters {a : PublicKey} : a ∈ c.voters ↔ 0 < c.stake a := by
  simp only [voters, Finset.mem_filter, List.mem_toFinset, and_iff_right_iff_imp]
  exact mem_keys_of_stake

theorem card_voters_le : c.voters.card ≤ c.size := by
  refine (Finset.card_filter_le _ _).trans ((List.toFinset_card_le _).trans ?_)
  simp [AList.keys, List.keys, size]

end CheckpointCommittee

/-! ## Actions and events -/

inductive CheckpointAction where
  | propose (i : ℕ) (b : Digest)
  | accept (i : ℕ) (b : Digest)
  | reject (i : ℕ)
  deriving DecidableEq

inductive CheckpointEvent where
  | newProposal (i : ℕ) (b : Digest)
  | newCheckpoint (i : ℕ) (b : Option Digest)
  deriving DecidableEq

namespace CheckpointAction

/-- The iteration an action is about. -/
def iteration : CheckpointAction → ℕ
  | propose i _ => i
  | accept i _ => i
  | reject i => i

/-- An enum is its variant index as a `u32`, then the fields; `usize` is eight bytes. -/
def encode : CheckpointAction → Bytes
  | propose i b => leBytes 4 0 ++ leBytes 8 i ++ b.toBytes
  | accept i b => leBytes 4 1 ++ leBytes 8 i ++ b.toBytes
  | reject i => leBytes 4 2 ++ leBytes 8 i

def decode : Decoder (Fault DecodeError) CheckpointAction := do
  let variant ← uint 4
  if variant = 0 then
    let i ← uint 8
    let b ← Digest.decode
    return propose i b
  else if variant = 1 then
    let i ← uint 8
    let b ← Digest.decode
    return accept i b
  else if variant = 2 then
    let i ← uint 8
    return reject i
  else throw WireError.tag

theorem decode_inverts {a : CheckpointAction} (h : a.iteration < 256 ^ 8) :
    Inverts encode decode a := by
  intro rest
  cases a with
  | propose i b =>
    rw [encode, List.append_assoc, List.append_assoc, decode, run_bind, run_uint (by decide)]
    simp only [if_true]
    rw [run_bind, run_uint (n := i) h]
    simp only
    rw [run_bind, Digest.decode_inverts]
    rfl
  | accept i b =>
    rw [encode, List.append_assoc, List.append_assoc, decode, run_bind, run_uint (by decide)]
    simp only [one_ne_zero, if_true, if_false]
    rw [run_bind, run_uint (n := i) h]
    simp only
    rw [run_bind, Digest.decode_inverts]
    rfl
  | reject i =>
    rw [encode, List.append_assoc, decode, run_bind, run_uint (by decide)]
    simp only [OfNat.ofNat_ne_zero, OfNat.ofNat_ne_one, if_true, if_false]
    rw [run_bind, run_uint (n := i) h]
    rfl

theorem decode_avoids : Avoids Fault.IsPanic decode := by
  apply (uint_avoids id 4).bind
  intro variant
  split_ifs
  · exact (uint_avoids id 8).bind fun i => Digest.decode_avoids.bind fun b => .pure _ _
  · exact (uint_avoids id 8).bind fun i => Digest.decode_avoids.bind fun b => .pure _ _
  · exact (uint_avoids id 8).bind fun i => .pure _ _
  · intro bs e h
    cases h
    exact id

end CheckpointAction

/-! ## Transactions -/

inductive CheckpointError where
  | unknownAuthority (author : PublicKey)
  | invalidSignature
  deriving DecidableEq

structure CheckpointTransaction where
  author : PublicKey
  action : CheckpointAction
  signature : Signature
  deriving DecidableEq

namespace CheckpointTransaction

def encode (t : CheckpointTransaction) : Bytes :=
  t.author.encode ++ t.action.encode ++ t.signature.encode

def decode (cr : Crypto) : Decoder (Fault DecodeError) CheckpointTransaction := do
  let author ← PublicKey.decode cr
  let action ← CheckpointAction.decode
  let signature ← Signature.decode
  return ⟨author, action, signature⟩

/-- `bincode::deserialize`: trailing bytes are ignored. -/
def tryFrom (cr : Crypto) (value : Bytes) : Except (Fault DecodeError) CheckpointTransaction :=
  match (decode cr).run value with
  | .error e => .error e
  | .ok (t, _) => .ok t

def digest (cr : Crypto) (t : CheckpointTransaction) : Digest := cr.sha512 t.encode

/-- The signature covers the transaction with the default signature in its place. -/
def new (cr : Crypto) (author : PublicKey) (action : CheckpointAction) : CheckpointTransaction :=
  let transaction : CheckpointTransaction := ⟨author, action, .default⟩
  { transaction with signature := cr.sign author (transaction.digest cr) }

def verifySignature (cr : Crypto) (committee : CheckpointCommittee) (t : CheckpointTransaction) :
    Except CheckpointError Unit :=
  if ¬ 0 < committee.stake t.author then .error (.unknownAuthority t.author)
  else if cr.verify t.signature ({ t with signature := .default }.digest cr) t.author then .ok ()
  else .error .invalidSignature

theorem verifySignature_stake {cr : Crypto} {committee : CheckpointCommittee}
    {t : CheckpointTransaction} (h : t.verifySignature cr committee = .ok ()) :
    0 < committee.stake t.author := by
  unfold verifySignature at h
  split_ifs at h with h1
  exact h1

theorem decode_inverts {cr : Crypto} (hb : cr.Base64RoundTrip) {t : CheckpointTransaction}
    (h : t.action.iteration < 256 ^ 8) : Inverts encode (decode cr) t := by
  intro rest
  rw [encode, List.append_assoc, List.append_assoc, decode, run_bind,
    PublicKey.decode_inverts hb]
  simp only
  rw [run_bind, CheckpointAction.decode_inverts h]
  simp only
  rw [run_bind, Signature.decode_inverts]
  rfl

theorem tryFrom_encode {cr : Crypto} (hb : cr.Base64RoundTrip) {t : CheckpointTransaction}
    (h : t.action.iteration < 256 ^ 8) : tryFrom cr t.encode = .ok t := by
  have hd := decode_inverts hb h []
  rw [List.append_nil] at hd
  rw [tryFrom, hd]

/-! ### Which inputs panic -/

/-- The transaction starts with a well-formed string that decodes to fewer than 32 bytes. -/
def ShortKey (cr : Crypto) (value : Bytes) : Prop :=
  ∃ s rest, (str : Decoder (Fault DecodeError) Bytes).run value = .ok (s, rest) ∧
    PublicKey.ShortText cr s

theorem str_not_panic {value : Bytes} {p : Panic} :
    (str : Decoder (Fault DecodeError) Bytes).run value ≠ .error (.panic p) :=
  fun h => (str_avoids id id : Avoids Fault.IsPanic str) _ _ h trivial

theorem publicKey_panic_iff (cr : Crypto) (value : Bytes) (p : Panic) :
    (PublicKey.decode cr).run value = .error (.panic p) ↔ p = .slice ∧ ShortKey cr value := by
  rw [PublicKey.decode, run_bind, ShortKey]
  cases hs : (str : Decoder (Fault DecodeError) Bytes).run value with
  | error e =>
    simp only [Except.error.injEq, reduceCtorEq, false_and, exists_false, and_false, iff_false]
    rintro rfl
    exact str_not_panic hs
  | ok x =>
    obtain ⟨s, rest⟩ := x
    have hk := PublicKey.fromBase64_panic_iff cr s p
    simp only [Except.ok.injEq, Prod.mk.injEq]
    cases hf : PublicKey.fromBase64 cr s with
    | error e =>
      rw [hf] at hk
      constructor
      · intro h
        have he : e = .panic p := by cases h; rfl
        obtain ⟨h1, h2⟩ := hk.mp (congrArg _ he)
        exact ⟨h1, s, rest, ⟨rfl, rfl⟩, h2⟩
      · rintro ⟨h1, s', rest', ⟨rfl, rfl⟩, h2⟩
        have he := hk.mpr ⟨h1, h2⟩
        simp only [Except.error.injEq] at he
        subst he
        rfl
    | ok k =>
      rw [hf] at hk
      constructor
      · intro h; cases h
      · rintro ⟨h1, s', rest', ⟨rfl, rfl⟩, h2⟩
        cases hk.mpr ⟨h1, h2⟩

/-- **Decoding a transaction panics exactly on a short author text.** -/
theorem tryFrom_panic_iff (cr : Crypto) (value : Bytes) (p : Panic) :
    tryFrom cr value = .error (.panic p) ↔ p = .slice ∧ ShortKey cr value := by
  rw [← publicKey_panic_iff, tryFrom, decode, run_bind]
  cases hk : (PublicKey.decode cr).run value with
  | error e => simp
  | ok x =>
    obtain ⟨author, rest⟩ := x
    have hrest : Avoids Fault.IsPanic (do
        let action ← CheckpointAction.decode
        let signature ← Signature.decode
        return (⟨author, action, signature⟩ : CheckpointTransaction)) :=
      CheckpointAction.decode_avoids.bind fun _ => Signature.decode_avoids.bind fun _ => .pure _ _
    simp only [reduceCtorEq, iff_false]
    intro h
    split at h
    · rename_i e he
      simp only [Except.error.injEq] at h
      subst h
      exact hrest _ _ he trivial
    · cases h

instance (cr : Crypto) (value : Bytes) : Decidable (ShortKey cr value) :=
  decidable_of_iff (tryFrom cr value = .error (.panic .slice)) (by simp [tryFrom_panic_iff])

end CheckpointTransaction

open CheckpointTransaction

/-- Author and action of a raw transaction that decodes and whose signature verifies. -/
def validVote (cr : Crypto) (committee : CheckpointCommittee) (value : Bytes) :
    Option (PublicKey × CheckpointAction) :=
  match tryFrom cr value with
  | .error _ => none
  | .ok t => if t.verifySignature cr committee = .ok () then some (t.author, t.action) else none

theorem validVote_stake {cr : Crypto} {committee : CheckpointCommittee} {value : Bytes}
    {a : PublicKey} {act : CheckpointAction} (h : validVote cr committee value = some (a, act)) :
    a ∈ committee.voters := by
  unfold validVote at h
  split at h
  · cases h
  · split at h
    · rename_i t _ hv
      simp only [Option.some.injEq, Prod.mk.injEq] at h
      rw [← h.1]
      exact CheckpointCommittee.mem_voters.mpr (verifySignature_stake hv)
    · cases h

theorem validVote_shortKey {cr : Crypto} {committee : CheckpointCommittee} {value : Bytes}
    (h : ShortKey cr value) : validVote cr committee value = none := by
  rw [validVote, (tryFrom_panic_iff cr value .slice).mpr ⟨rfl, h⟩]

/-- A transaction made by `CheckpointTransaction::new` verifies when the signature does. -/
theorem validVote_new {cr : Crypto} (hb : cr.Base64RoundTrip) {committee : CheckpointCommittee}
    {a : PublicKey} {act : CheckpointAction} (hi : act.iteration < 256 ^ 8)
    (hs : 0 < committee.stake a) (hv : ∀ k d, cr.verify (cr.sign k d) d k = true) :
    validVote cr committee (CheckpointTransaction.new cr a act).encode = some (a, act) := by
  rw [validVote, tryFrom_encode hb hi]
  simp [verifySignature, CheckpointTransaction.new, hs, hv]

/-! ## A concrete committee -/

/-- A committee of one authority. -/
def soleCommittee : CheckpointCommittee := .new [(⟨.zero⟩, 1)]

/-- A transaction of its authority. -/
def soleVote (action : CheckpointAction) : Bytes :=
  (CheckpointTransaction.new sampleCrypto ⟨.zero⟩ action).encode

theorem validVote_soleVote {action : CheckpointAction} (h : action.iteration < 256 ^ 8) :
    validVote sampleCrypto soleCommittee (soleVote action) = some (⟨.zero⟩, action) :=
  validVote_new sampleCrypto_base64RoundTrip h (by decide) sampleCrypto_verify_sign

end AccountabilityGadget
