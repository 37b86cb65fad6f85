import Mathlib.Data.List.AList
import Mathlib.Data.UInt
import AccountabilityGadget.Crypto
import AccountabilityGadget.Lib.Quorum

/-!
# Committee and messages of the consensus (`consensus/src/config.rs`, `messages.rs`)

* `Committee.quorumThreshold` — computed in `u32`, wrapping like the release build.
* `Block.digest`, `QC.digest`, `Timeout.digest` — SHA-512 of a concatenation of fixed-width fields
  (`preimage`): a block's digest covers the hash of its certificate but neither the round of the
  certificate nor the timeout certificate.
* `Block.verify`, `QC.verify`, `TC.verify`, `Vote.verify`, `Timeout.verify`; as long as the total
  stake is a `u32`, the certificates that verify are those of a quorum (`Quorate`).
* `Block.preimage_inj`, `Vote.preimage_inj`, `timeoutPreimage_inj` — what a digest determines.
-/

set_option autoImplicit false

namespace AccountabilityGadget.Consensus

open Encoding

/-- `RoundNumber`. -/
abbrev RoundNumber := U64

abbrev Stake := UInt32

/-- The third-party cryptography, with `verify_batch`. -/
structure BatchCrypto extends Crypto where
  /-- `Signature::verify_batch(&digest, &votes)`. -/
  verifyBatch : Digest → List (PublicKey × Signature) → Bool

/-! ## Committee -/

structure Authority where
  name : PublicKey
  stake : Stake
  deriving DecidableEq

structure Committee where
  authorities : AList fun _ : PublicKey => Authority

namespace Committee

/-- Later entries for one key replace earlier ones. -/
def new (info : List (PublicKey × Stake)) : Committee :=
  ⟨info.foldl (fun m e => m.insert e.1 ⟨e.1, e.2⟩) ∅⟩

variable (c : Committee)

def stake (name : PublicKey) : Stake := (c.authorities.lookup name).elim 0 (·.stake)

/-- `2 * total_votes / 3 + 1`, in `u32`. -/
def quorumThreshold : Stake :=
  let totalVotes : Stake := (c.authorities.entries.map (·.2.stake)).sum
  2 * totalVotes / 3 + 1

/-- The total stake, without wrapping. -/
def total : ℕ := (c.authorities.entries.map (·.2.stake.toNat)).sum

def voters : Finset PublicKey := c.authorities.keys.toFinset

variable {c}

theorem mem_voters_of_stake {a : PublicKey} (h : 0 < c.stake a) : a ∈ c.voters := by
  rw [voters, List.mem_toFinset, ← AList.mem_keys, ← AList.lookup_isSome]
  unfold stake at h
  cases hl : c.authorities.lookup a with
  | none => rw [hl] at h; exact absurd h (by decide)
  | some x => rfl

theorem sum_toNat (l : List Stake) : l.sum.toNat = (l.map UInt32.toNat).sum % 2 ^ 32 := by
  induction l with
  | nil => rfl
  | cons x l ih =>
    rw [List.sum_cons, UInt32.toNat_add, ih, List.map_cons, List.sum_cons]
    omega

theorem quorumThreshold_toNat (h : c.total < 2 ^ 31) :
    c.quorumThreshold.toNat = 2 * c.total / 3 + 1 := by
  have hs : ((c.authorities.entries.map (·.2.stake)).sum : Stake).toNat = c.total := by
    rw [sum_toNat, List.map_map]
    exact Nat.mod_eq_of_lt (Nat.lt_trans h (by decide))
  have hm : 2 * c.total % 2 ^ 32 = 2 * c.total := Nat.mod_eq_of_lt (by omega)
  unfold quorumThreshold
  simp only [UInt32.toNat_add, UInt32.toNat_div, UInt32.toNat_mul, UInt32.reduceToNat, hs, hm]
  omega

theorem quorumThreshold_pos (c : Committee) : 0 < c.quorumThreshold.toNat := by
  unfold quorumThreshold
  simp only [UInt32.toNat_add, UInt32.toNat_div, UInt32.reduceToNat]
  have := UInt32.toNat_lt (2 * (c.authorities.entries.map (·.2.stake)).sum)
  omega

theorem stake_of_mem {e : Sigma fun _ : PublicKey => Authority}
    (he : e ∈ c.authorities.entries) : c.stake e.1 = e.2.stake := by
  have hl : c.authorities.lookup e.1 = some e.2 := AList.mem_lookup_iff.mpr he
  rw [stake, hl]
  rfl

/-- The voters weigh the total stake. -/
theorem weight_voters : Quorum.weight (fun a => (c.stake a).toNat) c.voters = c.total := by
  rw [Quorum.weight, voters, List.sum_toFinset _ c.authorities.keys_nodup, total, AList.keys,
    List.keys, List.map_map]
  refine congrArg List.sum (List.map_congr_left ?_)
  intro e he
  simp only [Function.comp_apply, stake_of_mem he]

end Committee

/-! ## Errors -/

inductive ConsensusError where
  | serializationError
  | notInCommittee (name : PublicKey)
  | invalidSignature
  | authorityReuse (name : PublicKey)
  | unknownAuthority (name : PublicKey)
  | qcRequiresQuorum
  | tcRequiresQuorum
  | wrongLeader (digest : Digest) (leader : PublicKey) (round : RoundNumber)
  | invalidPayload
  deriving DecidableEq

abbrev ConsensusResult := Except ConsensusError

/-- `ensure!`. -/
def ensure (c : Prop) [Decidable c] (e : ConsensusError) : ConsensusResult Unit :=
  if c then .ok () else .error e

theorem ensure_eq_ok {c : Prop} [Decidable c] {e : ConsensusError} {u : Unit} :
    ensure c e = .ok u ↔ c := by
  unfold ensure
  split <;> simp_all

theorem bind_eq_ok {α β : Type} {x : ConsensusResult α} {f : α → ConsensusResult β} {b : β} :
    x >>= f = .ok b ↔ ∃ a, x = .ok a ∧ f a = .ok b := by
  cases x with
  | error e => simp [bind, Except.bind]
  | ok a => simp [bind, Except.bind]

/-- "Ensure the QC has a quorum": distinct names with voting rights, and their stakes summed up. -/
def tally (c : Committee) : List PublicKey → List PublicKey → Stake → ConsensusResult Stake
  | [], _, weight => .ok weight
  | name :: names, used, weight => do
    ensure (name ∉ used) (.authorityReuse name)
    let votingRights := c.stake name
    ensure (0 < votingRights) (.unknownAuthority name)
    tally c names (name :: used) (weight + votingRights)

theorem tally_eq_ok {c : Committee} {w : Stake} : ∀ {names used : List PublicKey} {weight : Stake},
    tally c names used weight = .ok w ↔
      names.Nodup ∧ (∀ a ∈ names, a ∉ used) ∧ (∀ a ∈ names, 0 < c.stake a) ∧
        weight + (names.map c.stake).sum = w
  | [], used, weight => by simp [tally]
  | name :: names, used, weight => by
    simp only [tally, bind_eq_ok, ensure_eq_ok, exists_const, tally_eq_ok, List.mem_cons, not_or,
      List.nodup_cons, List.map_cons, List.sum_cons, forall_eq_or_imp, add_assoc]
    constructor
    · rintro ⟨hu, hs, hn, hused, hstake, hw⟩
      exact ⟨⟨fun hmem => (hused name hmem).1 rfl, hn⟩, ⟨hu, fun a ha => (hused a ha).2⟩,
        ⟨hs, hstake⟩, hw⟩
    · rintro ⟨⟨hmem, hn⟩, ⟨hu, hused⟩, ⟨hs, hstake⟩, hw⟩
      exact ⟨hu, hs, hn, fun a ha => ⟨fun h => hmem (h ▸ ha), hused a ha⟩, hstake, hw⟩

/-- Distinct names with voting rights that hold a quorum of the stake. -/
structure Quorate (c : Committee) (names : List PublicKey) : Prop where
  nodup : names.Nodup
  stake : ∀ a ∈ names, 0 < c.stake a
  weight : c.quorumThreshold.toNat ≤ (names.map fun a => (c.stake a).toNat).sum

theorem weight_toFinset {c : Committee} {names : List PublicKey} (hn : names.Nodup) :
    Quorum.weight (fun a => (c.stake a).toNat) names.toFinset =
      (names.map fun a => (c.stake a).toNat).sum :=
  List.sum_toFinset _ hn

theorem subset_voters {c : Committee} {names : List PublicKey} (hs : ∀ a ∈ names, 0 < c.stake a) :
    names.toFinset ⊆ c.voters :=
  fun a ha => Committee.mem_voters_of_stake (hs a (List.mem_toFinset.mp ha))

theorem sum_stakes_le {c : Committee} {names : List PublicKey} (hn : names.Nodup)
    (hs : ∀ a ∈ names, 0 < c.stake a) : (names.map fun a => (c.stake a).toNat).sum ≤ c.total := by
  rw [← weight_toFinset hn, ← Committee.weight_voters]
  exact Quorum.weight_mono (subset_voters hs)

theorem Quorate.ne_nil {c : Committee} {names : List PublicKey} (h : Quorate c names) :
    names ≠ [] := by
  rintro rfl
  have hw := h.weight
  have hpos := c.quorumThreshold_pos
  simp only [List.map_nil, List.sum_nil] at hw
  omega

/-- The loop that sums up the stakes may wrap, but then the sum only gets smaller. -/
theorem Quorate.of_tally {c : Committee} {names : List PublicKey} {w : Stake}
    (h : tally c names [] 0 = .ok w) (hw : c.quorumThreshold ≤ w) : Quorate c names := by
  obtain ⟨hn, -, hs, rfl⟩ := tally_eq_ok.mp h
  refine ⟨hn, hs, (UInt32.le_iff_toNat_le.mp hw).trans ?_⟩
  rw [zero_add, Committee.sum_toNat, List.map_map]
  exact Nat.mod_le _ _

/-- As long as the total stake is a `u32`, the loop that sums up the stakes does not wrap. -/
theorem quorate_iff {c : Committee} (hc : c.total < 2 ^ 32) {names : List PublicKey} :
    Quorate c names ↔ ∃ w, tally c names [] 0 = .ok w ∧ c.quorumThreshold ≤ w := by
  have hsum : names.Nodup → (∀ a ∈ names, 0 < c.stake a) →
      (names.map c.stake).sum.toNat = (names.map fun a => (c.stake a).toNat).sum := by
    intro hn hs
    rw [Committee.sum_toNat, List.map_map]
    exact Nat.mod_eq_of_lt (Nat.lt_of_le_of_lt (sum_stakes_le hn hs) hc)
  simp only [tally_eq_ok, UInt32.le_iff_toNat_le]
  constructor
  · rintro ⟨hn, hs, hw⟩
    refine ⟨_, ⟨hn, by simp, hs, rfl⟩, ?_⟩
    rw [zero_add, hsum hn hs]
    exact hw
  · rintro ⟨w, ⟨hn, -, hs, rfl⟩, hw⟩
    rw [zero_add, hsum hn hs] at hw
    exact ⟨hn, hs, hw⟩

/-! ## Certificates -/

structure QC where
  hash : Digest
  round : RoundNumber
  votes : List (PublicKey × Signature)
  deriving DecidableEq

namespace QC

def genesis : QC := ⟨.default, 0, []⟩

/-- `PartialEq for QC`: the votes are not compared. -/
def eq (q other : QC) : Bool := q.hash = other.hash && q.round = other.round

/-- What the digest of a certificate, and of each of its votes, is computed from. -/
def preimage (q : QC) : Bytes := q.hash.toBytes ++ leBytes 8 q.round

variable (cr : BatchCrypto) (c : Committee)

def digest (q : QC) : Digest := cr.sha512 q.preimage

def verify (q : QC) : ConsensusResult Unit := do
  let weight ← tally c (q.votes.map Prod.fst) [] 0
  ensure (c.quorumThreshold ≤ weight) .qcRequiresQuorum
  ensure (cr.verifyBatch (q.digest cr) q.votes) .invalidSignature

variable {cr c} in
/-- What `verify` checks, whatever the total stake is. -/
theorem quorate_of_verify {q : QC} (h : q.verify cr c = .ok ()) :
    Quorate c (q.votes.map Prod.fst) ∧ cr.verifyBatch (q.digest cr) q.votes = true := by
  simp only [verify, bind_eq_ok, ensure_eq_ok, exists_const] at h
  obtain ⟨w, hw, hq, hb⟩ := h
  exact ⟨.of_tally hw hq, hb⟩

variable {cr c} in
theorem verify_eq_ok (hc : c.total < 2 ^ 32) {q : QC} : q.verify cr c = .ok () ↔
    Quorate c (q.votes.map Prod.fst) ∧ cr.verifyBatch (q.digest cr) q.votes = true := by
  simp only [verify, bind_eq_ok, ensure_eq_ok, exists_const, quorate_iff hc, ← and_assoc,
    exists_and_right]

theorem eq_genesis {q : QC} : q.eq genesis = true ↔ q.hash = .default ∧ q.round = 0 := by
  rw [eq, Bool.and_eq_true, decide_eq_true_iff, decide_eq_true_iff]
  rfl

end QC

/-- What the digest of a timeout is computed from. -/
def timeoutPreimage (round highQcRound : RoundNumber) : Bytes :=
  leBytes 8 round ++ leBytes 8 highQcRound

structure TC where
  round : RoundNumber
  votes : List (PublicKey × Signature × RoundNumber)
  deriving DecidableEq

namespace TC

variable (cr : BatchCrypto) (c : Committee)

def verify (t : TC) : ConsensusResult Unit := do
  let weight ← tally c (t.votes.map Prod.fst) [] 0
  ensure (c.quorumThreshold ≤ weight) .tcRequiresQuorum
  ensure (∀ v ∈ t.votes, cr.verify v.2.1 (cr.sha512 (timeoutPreimage t.round v.2.2)) v.1)
    .invalidSignature

variable {cr c} in
theorem quorate_of_verify {t : TC} (h : t.verify cr c = .ok ()) :
    Quorate c (t.votes.map Prod.fst) ∧
      ∀ v ∈ t.votes, cr.verify v.2.1 (cr.sha512 (timeoutPreimage t.round v.2.2)) v.1 = true := by
  simp only [verify, bind_eq_ok, ensure_eq_ok, exists_const] at h
  obtain ⟨w, hw, hq, hb⟩ := h
  exact ⟨.of_tally hw hq, hb⟩

variable {cr c} in
theorem verify_eq_ok (hc : c.total < 2 ^ 32) {t : TC} : t.verify cr c = .ok () ↔
    Quorate c (t.votes.map Prod.fst) ∧
      ∀ v ∈ t.votes, cr.verify v.2.1 (cr.sha512 (timeoutPreimage t.round v.2.2)) v.1 = true := by
  simp only [verify, bind_eq_ok, ensure_eq_ok, exists_const, quorate_iff hc, ← and_assoc,
    exists_and_right]

def highQcRounds (t : TC) : List RoundNumber := t.votes.map fun v => v.2.2

end TC

/-! ## Blocks, votes and timeouts -/

structure Block where
  qc : QC
  tc : Option TC
  author : PublicKey
  round : RoundNumber
  payload : List Digest
  signature : Signature
  deriving DecidableEq

/-- The all-zero key of `Block::default()`. -/
def defaultKey : PublicKey := ⟨.zero⟩

namespace Block

def genesis : Block := ⟨.genesis, none, defaultKey, 0, [], .default⟩

def parent (b : Block) : Digest := b.qc.hash

def preimage (b : Block) : Bytes :=
  b.author.toBytes ++ leBytes 8 b.round ++ b.payload.flatMap Digest.toBytes ++ b.qc.hash.toBytes

variable (cr : BatchCrypto) (c : Committee)

def digest (b : Block) : Digest := cr.sha512 b.preimage

def new (qc : QC) (tc : Option TC) (author : PublicKey) (round : RoundNumber)
    (payload : List Digest) : Block :=
  let block : Block := ⟨qc, tc, author, round, payload, .default⟩
  { block with signature := cr.sign author (block.digest cr) }

def verify (b : Block) : ConsensusResult Unit := do
  ensure (0 < c.stake b.author) (.unknownAuthority b.author)
  ensure (cr.verify b.signature (b.digest cr) b.author) .invalidSignature
  (if b.qc.eq .genesis then .ok () else b.qc.verify cr c)
  match b.tc with
  | none => .ok ()
  | some tc => tc.verify cr c

/-- The digest of the block that a block extends. -/
def parentDigest (b : Block) : Digest :=
  if b.qc.eq .genesis then genesis.digest cr else b.parent

variable {cr c}

theorem verify_eq_ok {b : Block} : b.verify cr c = .ok () ↔
    0 < c.stake b.author ∧ cr.verify b.signature (b.digest cr) b.author = true ∧
      (b.qc.eq .genesis = true ∨ b.qc.verify cr c = .ok ()) ∧
      ∀ tc, b.tc = some tc → tc.verify cr c = .ok () := by
  have htc : (match b.tc with
      | none => .ok ()
      | some tc => tc.verify cr c) = Except.ok () ↔
      ∀ tc, b.tc = some tc → tc.verify cr c = .ok () := by
    cases b.tc <;> simp
  have hqc : (if b.qc.eq .genesis then .ok () else b.qc.verify cr c) = Except.ok () ↔
      (b.qc.eq .genesis = true ∨ b.qc.verify cr c = .ok ()) := by
    split <;> simp_all
  simp only [verify, bind_eq_ok, ensure_eq_ok, exists_const, htc, hqc]

end Block

structure Vote where
  hash : Digest
  round : RoundNumber
  author : PublicKey
  signature : Signature
  deriving DecidableEq

namespace Vote

def preimage (v : Vote) : Bytes := v.hash.toBytes ++ leBytes 8 v.round

variable (cr : BatchCrypto) (c : Committee)

def digest (v : Vote) : Digest := cr.sha512 v.preimage

def new (block : Block) (author : PublicKey) : Vote :=
  let vote : Vote := ⟨block.digest cr, block.round, author, .default⟩
  { vote with signature := cr.sign author (vote.digest cr) }

def verify (v : Vote) : ConsensusResult Unit := do
  ensure (0 < c.stake v.author) (.unknownAuthority v.author)
  ensure (cr.verify v.signature (v.digest cr) v.author) .invalidSignature

variable {cr c}

theorem verify_eq_ok {v : Vote} : v.verify cr c = .ok () ↔
    0 < c.stake v.author ∧ cr.verify v.signature (v.digest cr) v.author = true := by
  simp only [verify, bind_eq_ok, ensure_eq_ok, exists_const]

end Vote

structure Timeout where
  highQcRound : RoundNumber
  round : RoundNumber
  author : PublicKey
  signature : Signature
  deriving DecidableEq

namespace Timeout

def preimage (t : Timeout) : Bytes := timeoutPreimage t.round t.highQcRound

variable (cr : BatchCrypto) (c : Committee)

def digest (t : Timeout) : Digest := cr.sha512 t.preimage

def new (highQcRound round : RoundNumber) (author : PublicKey) : Timeout :=
  let timeout : Timeout := ⟨highQcRound, round, author, .default⟩
  { timeout with signature := cr.sign author (timeout.digest cr) }

def verify (t : Timeout) : ConsensusResult Unit := do
  ensure (0 < c.stake t.author) (.unknownAuthority t.author)
  ensure (cr.verify t.signature (t.digest cr) t.author) .invalidSignature

variable {cr c}

theorem verify_eq_ok {t : Timeout} : t.verify cr c = .ok () ↔
    0 < c.stake t.author ∧ cr.verify t.signature (t.digest cr) t.author = true := by
  simp only [verify, bind_eq_ok, ensure_eq_ok, exists_const]

end Timeout

inductive ConsensusMessage where
  | propose (b : Block)
  | vote (v : Vote)
  | timeout (t : Timeout)
  | tc (t : TC)
  | loopBack (b : Block)
  | syncRequest (d : Digest) (sender : PublicKey)
  deriving DecidableEq

/-! ## Preimages determine their fields -/

theorem le8_inj {m n : U64} (h : leBytes 8 m.val = leBytes 8 n.val) : m = n :=
  Fin.ext (leBytes_inj (by have := m.isLt; omega) (by have := n.isLt; omega) h)

theorem Vote.preimage_inj {v w : Vote} (h : v.preimage = w.preimage) :
    v.hash = w.hash ∧ v.round = w.round := by
  have h2 := List.append_inj h (by simp)
  exact ⟨Digest.toBytes_injective h2.1, le8_inj h2.2⟩

theorem timeoutPreimage_inj {r q r' q' : RoundNumber}
    (h : timeoutPreimage r q = timeoutPreimage r' q') : r = r' ∧ q = q' := by
  have h2 := List.append_inj h (by simp)
  exact ⟨le8_inj h2.1, le8_inj h2.2⟩

theorem Block.preimage_inj {b d : Block} (h : b.preimage = d.preimage) :
    b.author = d.author ∧ b.round = d.round ∧ b.payload = d.payload ∧ b.qc.hash = d.qc.hash := by
  have h1 := List.append_inj' h (by simp)
  have h2 := List.append_inj (by simpa only [List.append_assoc] using h1.1) (by simp)
  have h3 := List.append_inj h2.2 (by simp)
  exact ⟨PublicKey.toBytes_injective h2.1, le8_inj h3.1,
    flatMap_inj (by decide) Digest.length_toBytes (fun _ _ => Digest.toBytes_injective) h3.2,
    Digest.toBytes_injective h1.2⟩

@[simp] theorem Vote.length_preimage (v : Vote) : v.preimage.length = 40 := by simp [preimage]

@[simp] theorem QC.length_preimage (q : QC) : q.preimage.length = 40 := by simp [preimage]

@[simp] theorem length_timeoutPreimage (r q : RoundNumber) :
    (timeoutPreimage r q).length = 16 := by simp [timeoutPreimage]

theorem Block.length_preimage (b : Block) : b.preimage.length = 72 + 32 * b.payload.length := by
  simp [preimage, List.length_flatMap]
  ring

/-! ## A concrete instance -/

def sampleBatch : BatchCrypto where
  toCrypto := sampleCrypto
  verifyBatch d votes := votes.all fun v => sampleCrypto.verify v.2 d v.1

def keyA : PublicKey := ⟨⟨List.replicate 32 1, length_ones⟩⟩

def keyB : PublicKey := ⟨⟨List.replicate 32 2, rfl⟩⟩

theorem sampleBatch_verifyBatch (d : Digest) (votes : List (PublicKey × Signature))
    (h : ∀ v ∈ votes, sampleBatch.verify v.2 d v.1 = true) :
    sampleBatch.verifyBatch d votes = true :=
  List.all_eq_true.mpr h

end AccountabilityGadget.Consensus
