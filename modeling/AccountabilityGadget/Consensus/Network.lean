import AccountabilityGadget.Consensus.Chain
import AccountabilityGadget.Consensus.Voting

/-!
# The honest cores of a committee

The cores of the honest authorities take steps in any order, and the network delivers any message
to any of them at any time, as often as it likes.  What an attacker cannot do is to deliver a
signature of an honest authority on a digest that this authority has not signed.

* `Network.machine` — all interleavings; `Fair` — the messages that an attacker can deliver;
  `Tame` — no round number has overflowed, and the hashed strings lie in a set `S`.
* `evidence` — the honest authorities among the voters of a certificate have signed.
* `Inv.step` — every fair step keeps the invariants of all honest cores.
-/

set_option autoImplicit false

namespace AccountabilityGadget.Consensus

open Encoding

/-- One of the two verification functions accepts the signature. -/
def BatchCrypto.Accepts (cr : BatchCrypto) (s : Signature) (d : Digest) (k : PublicKey) : Prop :=
  cr.verify s d k = true ∨ ∃ votes, (k, s) ∈ votes ∧ cr.verifyBatch d votes = true

/-! ## Signatures in messages -/

/-- What the digest of a vote for the block is computed from. -/
def Block.votePreimage (cr : BatchCrypto) (b : Block) : Bytes :=
  (b.digest cr).toBytes ++ leBytes 8 b.round

/-- The strings whose digests the core signs. -/
def Effect.signed (cr : BatchCrypto) : Effect → List Bytes
  | .propose b => [b.preimage]
  | .vote b => [b.votePreimage cr]
  | .timeout t => [t.preimage]
  | _ => []

/-- Authority, signature, and the string whose digest the signature is for. -/
abbrev Signed := PublicKey × Signature × Bytes

def QC.signatures (q : QC) : List Signed := q.votes.map fun v => (v.1, v.2, q.preimage)

def TC.signatures (t : TC) : List Signed :=
  t.votes.map fun v => (v.1, v.2.1, timeoutPreimage t.round v.2.2)

def Block.signatures (b : Block) : List Signed :=
  (b.author, b.signature, b.preimage) :: (b.qc.signatures ++ b.tc.elim [] TC.signatures)

/-- The signatures that a core checks when it handles the message. -/
def ConsensusMessage.signatures : ConsensusMessage → List Signed
  | .propose b => b.signatures
  | .vote v => [(v.author, v.signature, v.preimage)]
  | .timeout t => [(t.author, t.signature, t.preimage)]
  | .tc _ | .loopBack _ | .syncRequest _ _ => []

/-! ## The network -/

structure Network where
  cr : BatchCrypto
  committee : Committee
  leader : RoundNumber → PublicKey
  boycotts : PublicKey → Bool
  faulty : Finset PublicKey

namespace Network

/-- The cores of the honest authorities. -/
abbrev Cores := PublicKey → Core

variable (N : Network)

def env (p : PublicKey) : Env := ⟨N.cr, N.committee, N.leader, p, N.boycotts p⟩

def Honest (p : PublicKey) : Prop := p ∈ N.committee.voters ∧ p ∉ N.faulty

instance (p : PublicKey) : Decidable (N.Honest p) := by unfold Honest; infer_instance

def step (σ : Cores) (l : PublicKey × Core.Input) : Option Cores :=
  if N.Honest l.1 then ((σ l.1).step (N.env l.1) l.2).map (Function.update σ l.1) else none

/-- All interleavings of the honest cores. -/
def machine : Machine Cores (PublicKey × Core.Input) :=
  .ofStep (· = fun p => Core.new (N.env p)) N.step

/-- The authority, if it is honest, has signed the digest. -/
def Attested (σ : Cores) (p : PublicKey) (d : Digest) : Prop :=
  N.Honest p → ∃ e ∈ (σ p).log, ∃ x ∈ e.signed N.cr, N.cr.sha512 x = d

variable (S : Bytes → Prop)

/-- What reaches an honest core: messages without forged signatures of honest authorities.  The
network sends no `LoopBack` messages, and nobody else writes blocks to the store. -/
def Fair (σ : Cores) (l : PublicKey × Core.Input) : Prop :=
  match l.2 with
  | .deliver (.loopBack _) => False
  | .deliver m => ∀ u ∈ m.signatures, S u.2.2 ∧
      (N.cr.Accepts u.2.1 (N.cr.sha512 u.2.2) u.1 → N.Attested σ u.1 (N.cr.sha512 u.2.2))
  | .storeWrite _ value => ∀ b, Block.tryFrom N.cr.toCrypto value ≠ .ok b
  | _ => True

/-- No round number has overflowed, which would set it to zero, and what honest cores sign is
computed from strings in `S`. -/
def Tame (σ : Cores) : Prop :=
  ∀ p, N.Honest p → (σ p).round ≠ 0 ∧ ∀ e ∈ (σ p).log, ∀ x ∈ e.signed N.cr, S x

/-! ## Evidence -/

/-- Evidence: that the honest authorities have signed. -/
def evidence (σ : Cores) : Evidence where
  sig d v := N.Attested σ v.1 d
  timeoutSig r v := S (timeoutPreimage r v.2.2) ∧
    N.Attested σ v.1 (N.cr.sha512 (timeoutPreimage r v.2.2))
  vote v := S v.preimage ∧ N.Attested σ v.author (v.digest N.cr)
  timeout t := S t.preimage ∧ N.Attested σ t.author (t.digest N.cr)
  qc qc := qc.eq .genesis = true ∨
    S qc.preimage ∧ Quorate N.committee (qc.votes.map Prod.fst) ∧
      ∀ v ∈ qc.votes, N.Attested σ v.1 (qc.digest N.cr)
  tc _ := True
  block b := S b.preimage

/-- The timeouts of a quorum, signed by its honest authorities. -/
def TcCertified (σ : Cores) (tc : TC) : Prop :=
  Quorate N.committee (tc.votes.map Prod.fst) ∧
    ∀ v ∈ tc.votes, (N.evidence S σ).timeoutSig tc.round v

structure Inv (σ : Cores) : Prop where
  sound : ∀ p, N.Honest p → Sound (N.env p) (N.evidence S σ) (σ p)
  orderly : ∀ p, N.Honest p → Orderly (N.env p) (N.TcCertified S σ) (σ p)
  chained : ∀ p, N.Honest p → Chained (N.env p) (σ p)

variable {N S} {σ σ' : Cores} {p q : PublicKey} {b c : Block}

theorem Attested.mono (hlog : ∀ p, (σ p).log ⊆ (σ' p).log) {d : Digest}
    (h : N.Attested σ p d) : N.Attested σ' p d := fun hp => by
  obtain ⟨e, he, hx⟩ := h hp
  exact ⟨e, hlog p he, hx⟩

theorem evidence_le (hlog : ∀ p, (σ p).log ⊆ (σ' p).log) :
    (N.evidence S σ).Le (N.evidence S σ') where
  sig _ _ h := h.mono hlog
  timeoutSig _ _ h := ⟨h.1, h.2.mono hlog⟩
  vote _ h := ⟨h.1, h.2.mono hlog⟩
  timeout _ h := ⟨h.1, h.2.mono hlog⟩
  qc _ h := h.imp id fun h => ⟨h.1, h.2.1, fun v hv => (h.2.2 v hv).mono hlog⟩
  tc _ _ := trivial
  block _ h := h

theorem TcCertified.mono (hlog : ∀ p, (σ p).log ⊆ (σ' p).log) {tc : TC}
    (h : N.TcCertified S σ tc) : N.TcCertified S σ' tc :=
  ⟨h.1, fun v hv => (evidence_le hlog).timeoutSig _ _ (h.2 v hv)⟩

theorem Fair.mono (hlog : ∀ p, (σ p).log ⊆ (σ' p).log) {l : PublicKey × Core.Input}
    (h : N.Fair S σ l) : N.Fair S σ' l := by
  obtain ⟨p, i⟩ := l
  cases i with
  | deliver m =>
    cases m with
    | loopBack b => exact h
    | _ => exact fun u hu => ⟨(h u hu).1, fun ha => ((h u hu).2 ha).mono hlog⟩
  | storeWrite d v => exact h
  | _ => trivial

theorem closed_evidence (σ : Cores) (p : PublicKey) : (N.evidence S σ).Closed (N.env p) where
  genesis := .inl (by decide)
  vote _ h := h.2
  timeout _ h := h
  qc qc v hv hhash hround hq hvotes := by
    have hpre : qc.preimage = v.preimage := by
      unfold QC.preimage Vote.preimage
      rw [hhash, hround]
    refine .inr ⟨hpre ▸ hv.1, hq, ?_⟩
    unfold QC.digest
    rw [hpre]
    exact hvotes
  tc _ _ _ := trivial

/-! ## Steps -/

/-- A step is one of an honest core. -/
theorem step_some {l : PublicKey × Core.Input} (hs : N.step σ l = some σ') : N.Honest l.1 ∧
    ∃ t, (σ l.1).step (N.env l.1) l.2 = some t ∧ σ' = Function.update σ l.1 t := by
  unfold Network.step at hs
  split at hs
  · rename_i hp
    obtain ⟨t, ht, rfl⟩ := Option.map_eq_some_iff.mp hs
    exact ⟨hp, t, ht, rfl⟩
  · cases hs

theorem log_step {l : PublicKey × Core.Input} (hs : N.step σ l = some σ') (p : PublicKey) :
    (σ p).log ⊆ (σ' p).log := by
  obtain ⟨-, t, ht, rfl⟩ := step_some hs
  by_cases hp : p = l.1
  · rw [hp, Function.update_self]
    exact Core.log_step ht
  · rw [Function.update_of_ne hp]
    exact List.Subset.refl _

section Step

variable (hN : N.committee.total < 2 ^ 31)

include hN

/-- A block that verifies in a fair message is known. -/
theorem known_of_fair (hb : b.author = N.leader b.round)
    (hv : b.verify N.cr N.committee = .ok ())
    (hfair : ∀ u ∈ b.signatures, S u.2.2 ∧
      (N.cr.Accepts u.2.1 (N.cr.sha512 u.2.2) u.1 → N.Attested σ u.1 (N.cr.sha512 u.2.2))) :
    Known (N.env p) (N.evidence S σ) b := by
  obtain ⟨-, -, hqc, -⟩ := Block.verify_eq_ok.mp hv
  refine ⟨hb, (hfair _ List.mem_cons_self).1, hqc.imp id ?_, fun _ _ => trivial⟩
  intro hqc
  obtain ⟨hq, hbatch⟩ := (QC.verify_eq_ok (by omega)).mp hqc
  have hsig : ∀ v ∈ b.qc.votes, (v.1, v.2, b.qc.preimage) ∈ b.signatures := fun v hv =>
    List.mem_cons_of_mem _ (List.mem_append_left _ (List.mem_map_of_mem hv))
  obtain ⟨a, ha⟩ := List.exists_mem_of_ne_nil _ hq.ne_nil
  obtain ⟨v, hv, -⟩ := List.mem_map.mp ha
  refine ⟨(hfair _ (hsig v hv)).1, hq, fun v hv => (hfair _ (hsig v hv)).2 (.inr ?_)⟩
  exact ⟨b.qc.votes, hv, hbatch⟩

/-- So is its timeout certificate. -/
theorem tcCertified_of_fair (hv : b.verify N.cr N.committee = .ok ())
    (hfair : ∀ u ∈ b.signatures, S u.2.2 ∧
      (N.cr.Accepts u.2.1 (N.cr.sha512 u.2.2) u.1 → N.Attested σ u.1 (N.cr.sha512 u.2.2)))
    {tc : TC} (htc : b.tc = some tc) : N.TcCertified S σ tc := by
  obtain ⟨hq, hverify⟩ := (TC.verify_eq_ok (by omega)).mp ((Block.verify_eq_ok.mp hv).2.2.2 tc htc)
  refine ⟨hq, ?_⟩
  intro v hv
  have hsig : (v.1, v.2.1, timeoutPreimage tc.round v.2.2) ∈ b.signatures := by
    refine List.mem_cons_of_mem _ (List.mem_append_right _ ?_)
    rw [htc]
    exact List.mem_map_of_mem hv
  exact ⟨(hfair _ hsig).1, (hfair _ hsig).2 (.inl (hverify v hv))⟩

theorem inputKnown_of_fair {i : Core.Input} (hfair : N.Fair S σ (p, i)) (r : RoundNumber) :
    InputKnown (N.env p) (N.evidence S σ) r i := by
  cases i with
  | deliver m =>
    cases m with
    | propose b => exact fun hl hv => known_of_fair hN hl hv hfair
    | vote v =>
      obtain ⟨hS, hsig⟩ := hfair _ (List.mem_singleton_self _)
      exact fun hv => ⟨hS, hsig (.inl (Vote.verify_eq_ok.mp hv).2)⟩
    | timeout t =>
      obtain ⟨hS, hsig⟩ := hfair _ (List.mem_singleton_self _)
      exact fun hv => ⟨hS, hsig (.inl (Timeout.verify_eq_ok.mp hv).2)⟩
    | tc tc => exact fun _ => .inr fun _ _ => trivial
    | loopBack b => exact hfair.elim
    | syncRequest d sender => trivial
  | storeWrite d value => exact fun b hb => absurd hb (hfair b)
  | _ => trivial

omit hN in
theorem noForeignBlock_of_fair {i : Core.Input} (hfair : N.Fair S σ (p, i)) :
    NoForeignBlock (N.env p) i := by
  cases i with
  | storeWrite d value => exact hfair
  | _ => trivial

theorem inputFit_of_fair {i : Core.Input} (hfair : N.Fair S σ (p, i)) :
    InputFit (N.env p) (N.TcCertified S σ) i := by
  cases i with
  | deliver m =>
    cases m with
    | propose b => exact fun hv tc htc => tcCertified_of_fair hN hv hfair htc
    | loopBack b => exact hfair.elim
    | _ => trivial
  | _ => trivial

omit hN in
/-- What a core has signed is attested. -/
theorem effectSigned_of_log (htame : N.Tame S σ) (hp : N.Honest p) {e : Effect}
    (he : e ∈ (σ p).log) : EffectSigned (N.env p) (N.evidence S σ) e := by
  have hS := (htame p hp).2 e he
  cases e with
  | propose b => exact fun _ _ => hS _ (List.mem_singleton_self _)
  | vote b =>
    exact ⟨hS _ (List.mem_singleton_self _), fun _ => ⟨_, he, _, List.mem_singleton_self _, rfl⟩⟩
  | timeout t =>
    intro ha _
    refine ⟨hS _ (List.mem_singleton_self _), ?_⟩
    intro _
    rw [ha]
    exact ⟨_, he, _, List.mem_singleton_self _, rfl⟩
  | _ => trivial

/-- **Every fair step keeps the invariants of all honest cores.** -/
theorem Inv.step (h : N.Inv S σ) {l : PublicKey × Core.Input} (hfair : N.Fair S σ l)
    (hs : N.step σ l = some σ') (htame : N.Tame S σ') : N.Inv S σ' := by
  have hlog := log_step hs
  obtain ⟨p, i⟩ := l
  obtain ⟨hp, t, ht, rfl⟩ := step_some hs
  have hself : Function.update σ p t p = t := Function.update_self ..
  have hother : ∀ r, r ≠ p → Function.update σ p t r = σ r := fun r hr =>
    Function.update_of_ne hr ..
  have hle := evidence_le (N := N) (S := S) hlog
  have hG : ∀ tc, N.TcCertified S σ tc → N.TcCertified S (Function.update σ p t) tc :=
    fun _ => TcCertified.mono hlog
  have hfair' := hfair.mono hlog
  have hsigned : ∀ e ∈ t.log, EffectSigned (N.env p) (N.evidence S (Function.update σ p t)) e :=
    fun e he => effectSigned_of_log htame hp (by rw [hself]; exact he)
  have hround : t.round ≠ 0 := by
    have := (htame p hp).1
    rw [hself] at this
    exact this
  refine ⟨fun r hr => ?_, fun r hr => ?_, fun r hr => ?_⟩ <;> by_cases hrp : r = p
  · rw [hrp, hself]
    exact ((h.sound p hp).mono hle).step (closed_evidence _ p) (inputKnown_of_fair hN hfair' _)
      ht hsigned
  · rw [hother r hrp]
    exact (h.sound r hr).mono hle
  · rw [hrp, hself]
    exact ((h.orderly p hp).weaken hG).step (inputFit_of_fair hN hfair') ht hround
  · rw [hother r hrp]
    exact (h.orderly r hr).weaken hG
  · rw [hrp, hself]
    exact (h.chained p hp).step (noForeignBlock_of_fair hfair) ht
  · rw [hother r hrp]
    exact h.chained r hr

end Step

theorem inv_new : N.Inv S fun p => Core.new (N.env p) where
  sound p _ := sound_new (closed_evidence _ p)
  orderly _ _ := orderly_new
  chained _ _ := chained_new

end Network

end AccountabilityGadget.Consensus
