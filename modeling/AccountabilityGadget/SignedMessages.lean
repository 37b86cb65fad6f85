import AccountabilityGadget.Checkpoint.Messages
import AccountabilityGadget.Consensus.Messages

/-!
# The four kinds of signed messages

Blocks, votes, timeouts and checkpoint transactions are signed with one key and without a domain
tag.  What is hashed for a block has `72 + 32 * k` bytes, for a vote 40, for a timeout 16 and for a
checkpoint transaction 160 or 128, so the length tells the kind.

* `SignedMessage.preimage_kind` — messages of different kinds are never hashed from the same bytes.
* `SignedMessage.preimage_content` — the bytes that are signed determine the content.
* `signed_messages_separate` — with a collision-free hash, a signature that was made for one message
  verifies for no message of another kind or content.
-/

set_option autoImplicit false

namespace AccountabilityGadget

open Encoding

/-! ## Messages, bytes and contents -/

/-- The iteration of a checkpoint transaction is a `usize`. -/
inductive SignedMessage where
  | block (b : Consensus.Block)
  | vote (v : Consensus.Vote)
  | timeout (t : Consensus.Timeout)
  | checkpoint (t : CheckpointTransaction) (usize : t.action.iteration < 256 ^ 8)

inductive MessageKind where
  | block
  | vote
  | timeout
  | checkpoint
  deriving DecidableEq

/-- What a signature is meant to cover. -/
inductive MessageContent where
  | block (author : PublicKey) (round : Consensus.RoundNumber) (payload : List Digest)
      (qcHash : Digest)
  | vote (hash : Digest) (round : Consensus.RoundNumber)
  | timeout (round highQcRound : Consensus.RoundNumber)
  | checkpoint (author : PublicKey) (action : CheckpointAction)
  deriving DecidableEq

namespace SignedMessage

def kind : SignedMessage → MessageKind
  | block _ => .block
  | vote _ => .vote
  | timeout _ => .timeout
  | checkpoint _ _ => .checkpoint

def content : SignedMessage → MessageContent
  | block b => .block b.author b.round b.payload b.qc.hash
  | vote v => .vote v.hash v.round
  | timeout t => .timeout t.round t.highQcRound
  | checkpoint t _ => .checkpoint t.author t.action

/-- The bytes that `digest` hashes. -/
def preimage : SignedMessage → Bytes
  | block b => b.preimage
  | vote v => v.preimage
  | timeout t => t.preimage
  | checkpoint t _ => t.encode

/-- The message as it is when it is signed: a checkpoint transaction carries the default
signature then, and the other digests do not cover the signature. -/
def unsigned : SignedMessage → SignedMessage
  | checkpoint t h => checkpoint { t with signature := .default } h
  | m => m

def digest (cr : Consensus.BatchCrypto) : SignedMessage → Digest
  | block b => b.digest cr
  | vote v => v.digest cr
  | timeout t => t.digest cr
  | checkpoint t _ => t.digest cr.toCrypto

def signature : SignedMessage → Signature
  | block b => b.signature
  | vote v => v.signature
  | timeout t => t.signature
  | checkpoint t _ => t.signature

/-- The message passes the check of the code for its kind. -/
def Verifies (cr : Consensus.BatchCrypto) (c : Consensus.Committee) (cc : CheckpointCommittee) :
    SignedMessage → Prop
  | block b => b.verify cr c = .ok ()
  | vote v => v.verify cr c = .ok ()
  | timeout t => t.verify cr c = .ok ()
  | checkpoint t _ => t.verifySignature cr.toCrypto cc = .ok ()

def author : SignedMessage → PublicKey
  | block b => b.author
  | vote v => v.author
  | timeout t => t.author
  | checkpoint t _ => t.author

theorem digest_eq (cr : Consensus.BatchCrypto) (m : SignedMessage) :
    m.digest cr = cr.sha512 m.preimage := by
  cases m <;> rfl

/-- Every check includes one of the signature, on the digest of the unsigned message. -/
theorem Verifies.verify {cr : Consensus.BatchCrypto} {c : Consensus.Committee}
    {cc : CheckpointCommittee} {m : SignedMessage} (h : m.Verifies cr c cc) :
    cr.verify m.signature (m.unsigned.digest cr) m.author = true := by
  cases m with
  | block b => exact (Consensus.Block.verify_eq_ok.mp h).2.1
  | vote v => exact (Consensus.Vote.verify_eq_ok.mp h).2
  | timeout t => exact (Consensus.Timeout.verify_eq_ok.mp h).2
  | checkpoint t ht =>
    rw [Verifies, CheckpointTransaction.verifySignature] at h
    split_ifs at h with hs hv
    exact hv

end SignedMessage

/-! ## Lengths -/

theorem CheckpointAction.length_encode (a : CheckpointAction) :
    a.encode.length = 44 ∨ a.encode.length = 12 := by
  cases a with
  | propose i b => left; simp [encode]
  | accept i b => left; simp [encode]
  | reject i => right; simp [encode]

theorem CheckpointTransaction.length_encode (t : CheckpointTransaction) :
    t.encode.length = 160 ∨ t.encode.length = 128 := by
  have h : t.encode.length = 52 + t.action.encode.length + 64 := by
    simp [encode, Nat.add_assoc]
  rcases t.action.length_encode with ha | ha
  · left; omega
  · right; omega

/-- A serialized transaction determines it. -/
theorem CheckpointTransaction.encode_inj {t u : CheckpointTransaction}
    (ht : t.action.iteration < 256 ^ 8) (hu : u.action.iteration < 256 ^ 8)
    (h : t.encode = u.encode) : t = u :=
  (decode_inverts sampleCrypto_base64RoundTrip ht).injective
    (decode_inverts sampleCrypto_base64RoundTrip hu) h

namespace SignedMessage

theorem length_preimage : ∀ m : SignedMessage,
    match m.kind with
    | .block => ∃ k, m.preimage.length = 72 + 32 * k
    | .vote => m.preimage.length = 40
    | .timeout => m.preimage.length = 16
    | .checkpoint => m.preimage.length = 160 ∨ m.preimage.length = 128
  | block b => ⟨b.payload.length, b.length_preimage⟩
  | vote v => v.length_preimage
  | timeout t => Consensus.length_timeoutPreimage t.round t.highQcRound
  | checkpoint t _ => t.length_encode

/-- **The kinds are told apart by what is hashed.** -/
theorem preimage_kind {m n : SignedMessage} (h : m.preimage = n.preimage) : m.kind = n.kind := by
  have hl : m.preimage.length = n.preimage.length := congrArg _ h
  have hm := m.length_preimage
  have hn := n.length_preimage
  cases hkm : m.kind <;> cases hkn : n.kind <;> simp only [hkm, hkn] at hm hn
  all_goals first
    | rfl
    | omega

/-- **What is signed determines the content.** -/
theorem preimage_content {m n : SignedMessage} (h : m.unsigned.preimage = n.unsigned.preimage) :
    m.content = n.content := by
  have hk := preimage_kind h
  cases m with
  | block b =>
    cases n with
    | block d =>
      obtain ⟨ha, hr, hp, hq⟩ := Consensus.Block.preimage_inj h
      rw [content, content, ha, hr, hp, hq]
    | vote v => cases hk
    | timeout t => cases hk
    | checkpoint t ht => cases hk
  | vote v =>
    cases n with
    | vote w =>
      obtain ⟨hh, hr⟩ := Consensus.Vote.preimage_inj h
      rw [content, content, hh, hr]
    | block b => cases hk
    | timeout t => cases hk
    | checkpoint t ht => cases hk
  | timeout t =>
    cases n with
    | timeout u =>
      obtain ⟨hr, hq⟩ := Consensus.timeoutPreimage_inj h
      rw [content, content, hr, hq]
    | block b => cases hk
    | vote v => cases hk
    | checkpoint t ht => cases hk
  | checkpoint t ht =>
    cases n with
    | checkpoint u hu =>
      have he : ({ t with signature := .default } : CheckpointTransaction) =
          { u with signature := .default } := CheckpointTransaction.encode_inj ht hu h
      obtain ⟨ha, hact, -⟩ := CheckpointTransaction.mk.inj he
      rw [content, content, ha, hact]
    | block b => cases hk
    | vote v => cases hk
    | timeout t => cases hk

end SignedMessage

/-! ## Signatures -/

/-- A signature that the service of a key in `honest` makes for one of the messages in `S` verifies
for the digest of another one only if the digests are the same. -/
def Consensus.BatchCrypto.Binds (cr : Consensus.BatchCrypto) (honest : PublicKey → Prop)
    (S : SignedMessage → Prop) : Prop :=
  ∀ k m n k', honest k → S m → S n →
    cr.verify (cr.sign k (m.unsigned.digest cr)) (n.unsigned.digest cr) k' = true →
    n.unsigned.digest cr = m.unsigned.digest cr

/-- **Signed messages of different kinds are never confused.** -/
theorem signed_messages_separate (cr : Consensus.BatchCrypto) (c : Consensus.Committee)
    (cc : CheckpointCommittee) :
    (∀ m n : SignedMessage, m.kind ≠ n.kind → m.preimage ≠ n.preimage) ∧
    (∀ m n : SignedMessage, m.unsigned.preimage = n.unsigned.preimage → m.content = n.content) ∧
    ∀ (honest : PublicKey → Prop) (S : SignedMessage → Prop),
      cr.CollisionFree (fun x => ∃ m, S m ∧ x = m.unsigned.preimage) → cr.Binds honest S →
      ∀ k m n, honest k → S m → S n →
        (∀ k', cr.verify (cr.sign k (m.unsigned.digest cr)) (n.unsigned.digest cr) k' = true →
          m.content = n.content) ∧
        (n.signature = cr.sign k (m.unsigned.digest cr) → n.Verifies cr c cc →
          m.content = n.content) := by
  refine ⟨fun m n hk h => hk (SignedMessage.preimage_kind h),
    fun m n h => SignedMessage.preimage_content h, ?_⟩
  intro honest S hfree hbinds k m n hk hm hn
  have hsep : ∀ k', cr.verify (cr.sign k (m.unsigned.digest cr)) (n.unsigned.digest cr) k' = true →
      m.content = n.content := by
    intro k' hv
    have hd := hbinds k m n k' hk hm hn hv
    rw [SignedMessage.digest_eq, SignedMessage.digest_eq] at hd
    exact SignedMessage.preimage_content (hfree _ _ ⟨m, hm, rfl⟩ ⟨n, hn, rfl⟩ hd.symm)
  refine ⟨hsep, fun hs hver => hsep n.author ?_⟩
  rw [← hs]
  exact hver.verify

/-! ## A vote and a reject of one key -/

def voteMessage : SignedMessage := .vote ⟨.ones, 1, Consensus.keyA, .default⟩

def rejectMessage : SignedMessage := .checkpoint ⟨Consensus.keyA, .reject 0, .default⟩ (by decide)

theorem sampleBatch_binds (honest : PublicKey → Prop) (S : SignedMessage → Prop) :
    Consensus.sampleBatch.Binds honest S := by
  intro k m n k' _ _ _ h
  simp only [Consensus.sampleBatch, sampleCrypto, decide_eq_true_eq] at h
  exact congrArg Digest.mk h.1.symm

theorem signed_messages_separate_vote :
    Consensus.sampleBatch.verify
      (Consensus.sampleBatch.sign Consensus.keyA (voteMessage.unsigned.digest Consensus.sampleBatch))
      (rejectMessage.unsigned.digest Consensus.sampleBatch) Consensus.keyA ≠ true := by
  have hne : Consensus.sampleBatch.sha512 voteMessage.unsigned.preimage ≠
      Consensus.sampleBatch.sha512 rejectMessage.unsigned.preimage := by decide +kernel
  have hfree : Consensus.sampleBatch.CollisionFree fun x =>
      ∃ m, (m = voteMessage ∨ m = rejectMessage) ∧ x = m.unsigned.preimage := by
    rintro x y ⟨m, rfl | rfl, rfl⟩ ⟨n, rfl | rfl, rfl⟩ h
    · rfl
    · exact absurd h hne
    · exact absurd h.symm hne
    · rfl
  intro h
  have hc := ((signed_messages_separate Consensus.sampleBatch (.new []) (.new [])).2.2
    (fun _ => True) (fun m => m = voteMessage ∨ m = rejectMessage) hfree (sampleBatch_binds _ _)
    Consensus.keyA voteMessage rejectMessage trivial (.inl rfl) (.inr rfl)).1 Consensus.keyA h
  cases hc

end AccountabilityGadget
