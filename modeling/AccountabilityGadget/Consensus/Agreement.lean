import AccountabilityGadget.Consensus.Network
import AccountabilityGadget.Consensus.Verified
import AccountabilityGadget.Lib.TwoChain

/-!
# Agreement of the honest cores

* `Network.record` — the votes and timeouts of the honest cores, as ballots of the two-chain commit
  rule.
* `lawful` — they follow its rules: the abstract safety argument of `Lib.TwoChain` applies.
* `Linked.committed` — a block that an honest core commits is committed by the abstract rule.
* `agreement` — two blocks that honest cores commit lie on one chain.
-/

set_option autoImplicit false

namespace AccountabilityGadget.Consensus

open Encoding TwoChain

namespace Network

variable (N : Network) (S : Bytes → Prop)

/-- Two quorums share an honest authority if less than a third of the stake is faulty. -/
def electorate (hN : N.committee.total < 2 ^ 31)
    (hf : 3 * Quorum.weight (fun a => (N.committee.stake a).toNat)
      (N.committee.voters ∩ N.faulty) < N.committee.total) : Electorate PublicKey where
  voters := N.committee.voters
  stake a := (N.committee.stake a).toNat
  faulty := N.faulty
  threshold := N.committee.quorumThreshold.toNat
  overlap := by
    rw [Committee.weight_voters, Committee.quorumThreshold_toNat hN]
    omega

/-- What a vote for `b` says. -/
def ballot (b : Block) : Ballot Digest where
  block := b.digest N.cr
  round := b.round
  parent := b.parentDigest N.cr
  qcRound := b.qc.round

/-- What the honest cores have signed. -/
def record (σ : Cores) : Record PublicKey Digest where
  voted p x := N.Honest p ∧ ∃ b, .vote b ∈ (σ p).log ∧ x = N.ballot b
  timedOut p r h := N.Honest p ∧
    ∃ t : Timeout, .timeout t ∈ (σ p).log ∧ t.round.val = r ∧ t.highQcRound.val = h

/-- The digest of genesis, where all chains end. -/
def root : Digest := Block.genesis.digest N.cr

/-- Some honest core has stored a block with digest `d` and parent `e`. -/
def ParentEdge (σ : Cores) (d e : Digest) : Prop :=
  ∃ p, N.Honest p ∧ ∃ b, .store b ∈ (σ p).log ∧ b.digest N.cr = d ∧ b.parentDigest N.cr = e

/-- `c` is `b` or an ancestor of `b`, through blocks that honest cores have stored. -/
def Extends (σ : Cores) (b c : Block) : Prop :=
  Relation.ReflTransGen (N.ParentEdge σ) (b.digest N.cr) (c.digest N.cr)

/-- Two blocks that honest cores have sent on their commit channels lie on one chain. -/
def Agreement (σ : Cores) : Prop :=
  ∀ p q, N.Honest p → N.Honest q → ∀ b0 b1 b c0 c1 c, .commit b0 b1 b ∈ (σ p).log →
    .commit c0 c1 c ∈ (σ q).log → N.Extends σ b0 c0 ∨ N.Extends σ c0 b0

/-! ## Digests -/

variable {N S} {σ : Cores} {p q : PublicKey} {b c : Block}

section Digests

variable (hS : N.cr.CollisionFree S) (htame : N.Tame S σ)

include hS htame

/-- An honest authority that has signed the digest of a vote has voted. -/
theorem voted_of_attested (hp : N.Honest p) {hash : Digest} {round : RoundNumber}
    (hx : S (hash.toBytes ++ leBytes 8 round))
    (ha : N.Attested σ p (N.cr.sha512 (hash.toBytes ++ leBytes 8 round))) :
    ∃ b, .vote b ∈ (σ p).log ∧ b.digest N.cr = hash ∧ b.round = round := by
  obtain ⟨e, he, x, hxe, heq⟩ := ha hp
  have hpre := hS _ _ ((htame p hp).2 e he x hxe) hx heq
  have hlen : (hash.toBytes ++ leBytes 8 round.val).length = 40 := by simp
  cases e with
  | propose b =>
    -- the preimage of a block is longer
    rw [List.mem_singleton.mp hxe] at hpre
    rw [← hpre, Block.length_preimage] at hlen
    omega
  | vote b =>
    rw [List.mem_singleton.mp hxe] at hpre
    have hsplit := List.append_inj hpre (by simp)
    exact ⟨b, he, Digest.toBytes_injective hsplit.1, le8_inj hsplit.2⟩
  | timeout t =>
    -- that of a timeout is shorter
    rw [List.mem_singleton.mp hxe] at hpre
    rw [← hpre, Timeout.preimage, length_timeoutPreimage] at hlen
    omega
  | _ => cases hxe

theorem timedOut_of_attested (hp : N.Honest p) {r h : RoundNumber} (hx : S (timeoutPreimage r h))
    (ha : N.Attested σ p (N.cr.sha512 (timeoutPreimage r h))) :
    (N.record σ).timedOut p r h := by
  obtain ⟨e, he, x, hxe, heq⟩ := ha hp
  have hpre := hS _ _ ((htame p hp).2 e he x hxe) hx heq
  have hlen := length_timeoutPreimage r h
  cases e with
  | propose b =>
    rw [List.mem_singleton.mp hxe] at hpre
    rw [← hpre, Block.length_preimage] at hlen
    omega
  | vote b =>
    rw [List.mem_singleton.mp hxe] at hpre
    rw [← hpre] at hlen
    simp [Block.votePreimage] at hlen
  | timeout t =>
    rw [List.mem_singleton.mp hxe] at hpre
    obtain ⟨rfl, rfl⟩ := timeoutPreimage_inj hpre
    exact ⟨hp, t, he, rfl, rfl⟩
  | _ => cases hxe

end Digests

/-! ## Certificates -/

section Safety

variable (hN : N.committee.total < 2 ^ 31)
  (hf : 3 * Quorum.weight (fun a => (N.committee.stake a).toNat)
    (N.committee.voters ∩ N.faulty) < N.committee.total)
  (hS : N.cr.CollisionFree S) (hdefault : ∀ x, S x → N.cr.sha512 x ≠ .default)
  (hinv : N.Inv S σ) (htame : N.Tame S σ)

omit S in
theorem isQuorum {names : List PublicKey} (h : Quorate N.committee names) :
    (N.electorate hN hf).IsQuorum names.toFinset where
  subset := subset_voters h.stake
  weight := by
    rw [show Quorum.weight (N.electorate hN hf).stake names.toFinset =
      (names.map fun a => (N.committee.stake a).toNat).sum from weight_toFinset h.nodup]
    exact h.weight

omit S in
theorem honest_of_quorate {names : List PublicKey} (h : Quorate N.committee names)
    (hmem : p ∈ names.toFinset) (hp : p ∉ N.faulty) : N.Honest p :=
  ⟨Committee.mem_voters_of_stake (h.stake p (List.mem_toFinset.mp hmem)), hp⟩

include hS htame in
/-- A known certificate other than that of genesis is backed by a quorum of votes. -/
theorem certified_of_known {qc : QC} (h : (N.evidence S σ).qc qc) (hg : qc.eq .genesis = false) :
    (N.record σ).Certified (N.electorate hN hf) qc.hash qc.round := by
  rcases h with h | ⟨hx, hq, hvotes⟩
  · rw [hg] at h
    cases h
  · refine ⟨_, isQuorum hN hf hq, ?_⟩
    intro a ha haF
    have hp := honest_of_quorate hq ha haF
    obtain ⟨v, hv, rfl⟩ := List.mem_map.mp (List.mem_toFinset.mp ha)
    obtain ⟨b, hb, hd, hr⟩ := voted_of_attested hS htame hp hx (hvotes v hv)
    exact ⟨N.ballot b, ⟨hp, b, hb, rfl⟩, hd, congrArg Fin.val hr⟩

include hS htame in
theorem timedOutBelow_of_certified {tc : TC} {q : RoundNumber} (h : N.TcCertified S σ tc)
    (hq : ∀ u ∈ tc.votes, u.2.2 ≤ q) :
    (N.record σ).TimedOutBelow (N.electorate hN hf) tc.round q := by
  refine ⟨_, isQuorum hN hf h.1, ?_⟩
  intro a ha haF
  have hp := honest_of_quorate h.1 ha haF
  obtain ⟨v, hv, rfl⟩ := List.mem_map.mp (List.mem_toFinset.mp ha)
  exact ⟨v.2.2, timedOut_of_attested hS htame hp (h.2 v hv).1 (h.2 v hv).2, hq v hv⟩

include hinv in
/-- What an honest core has stored or voted for is known. -/
theorem known_of_log (hp : N.Honest p) (h : .store b ∈ (σ p).log ∨ .vote b ∈ (σ p).log) :
    Known (N.env p) (N.evidence S σ) b :=
  h.elim ((hinv.sound p hp).held.log _) ((hinv.sound p hp).held.log _)

/-! ### Known blocks with one digest agree -/

include hN hf hS hdefault hinv htame

/-- Known certificates for one block are of one round. -/
theorem qc_coherent {qc qc' : QC} (h : (N.evidence S σ).qc qc) (h' : (N.evidence S σ).qc qc')
    (hhash : qc.hash = qc'.hash) : qc.round = qc'.round ∧ qc.eq .genesis = qc'.eq .genesis := by
  -- no vote is for the digest that the certificate of genesis is for
  have hvote : ∀ {u : QC}, (N.evidence S σ).qc u → u.eq .genesis = false → u.hash ≠ .default := by
    intro u hu hg hd
    obtain ⟨a, x, ⟨ha, b, hb, rfl⟩, hblock, -⟩ :=
      (certified_of_known hN hf hS htame hu hg).exists_ballot
    have hk := known_of_log hinv ha (.inr hb)
    exact hdefault _ hk.block (hblock.trans hd)
  cases hg : qc.eq .genesis with
  | true =>
    obtain ⟨hd, hr⟩ := QC.eq_genesis.mp hg
    cases hg' : qc'.eq .genesis with
    | true => exact ⟨hr.trans (QC.eq_genesis.mp hg').2.symm, rfl⟩
    | false => exact absurd (hhash ▸ hd) (hvote h' hg')
  | false =>
    cases hg' : qc'.eq .genesis with
    | true => exact absurd (hhash.trans (QC.eq_genesis.mp hg').1) (hvote h hg)
    | false =>
      refine ⟨?_, rfl⟩
      obtain ⟨a, x, ⟨ha, b, hb, rfl⟩, hblock, hround⟩ :=
        (certified_of_known hN hf hS htame h hg).exists_ballot
      obtain ⟨a', x', ⟨ha', b', hb', rfl⟩, hblock', hround'⟩ :=
        (certified_of_known hN hf hS htame h' hg').exists_ballot
      have hk := known_of_log hinv ha (.inr hb)
      have hk' := known_of_log hinv ha' (.inr hb')
      have hpre := hS _ _ hk.block hk'.block (hblock.trans (hhash.trans hblock'.symm))
      have hb : b.round = b'.round := (Block.preimage_inj hpre).2.1
      exact Fin.ext (hround.symm.trans ((congrArg Fin.val hb).trans hround'))

/-- Known blocks with one digest say the same. -/
theorem ballot_coherent (hb : Known (N.env p) (N.evidence S σ) b)
    (hc : Known (N.env q) (N.evidence S σ) c) (hd : b.digest N.cr = c.digest N.cr) :
    N.ballot b = N.ballot c := by
  obtain ⟨-, hround, -, hhash⟩ := Block.preimage_inj (hS _ _ hb.block hc.block hd)
  obtain ⟨hqr, hqg⟩ := qc_coherent hN hf hS hdefault hinv htame hb.qc hc.qc hhash
  unfold ballot Block.parentDigest Block.parent
  rw [hd, hround, hqr, hqg, hhash]

/-- **The honest cores follow the rules of the two-chain commit.** -/
theorem lawful : (N.record σ).Lawful (N.electorate hN hf) N.root where
  unique := by
    rintro a x x' ⟨ha, b, hb, rfl⟩ ⟨-, c, hc, rfl⟩ hr
    have hview := (hinv.orderly a ha).view
    rw [hview.unique b (List.mem_filterMap.mpr ⟨_, hb, rfl⟩) c
      (List.mem_filterMap.mpr ⟨_, hc, rfl⟩) (Fin.ext hr)]
  coherent := by
    rintro a a' x x' ⟨ha, b, hb, rfl⟩ ⟨ha', c, hc, rfl⟩ hd
    exact ballot_coherent hN hf hS hdefault hinv htame (known_of_log hinv ha (.inr hb))
      (known_of_log hinv ha' (.inr hc)) hd
  below := by
    rintro a x ⟨ha, b, hb, rfl⟩
    exact (hinv.orderly a ha).view.below b (List.mem_filterMap.mpr ⟨_, hb, rfl⟩)
  valid := by
    rintro a x ⟨ha, b, hb, rfl⟩
    have hk := known_of_log hinv ha (.inr hb)
    unfold ballot Block.parentDigest
    cases hg : b.qc.eq .genesis with
    | true => exact .inl ⟨rfl, congrArg Fin.val (QC.eq_genesis.mp hg).2⟩
    | false => exact .inr (certified_of_known hN hf hS htame hk.qc hg)
  timeout := by
    rintro a x r h ⟨ha, b, hb, rfl⟩ ⟨-, t, ht, rfl, rfl⟩ hr
    exact (hinv.orderly a ha).view.timeout b (List.mem_filterMap.mpr ⟨_, hb, rfl⟩) t
      (List.mem_filterMap.mpr ⟨_, ht, rfl⟩) hr
  justified := by
    rintro a x ⟨ha, b, hb, rfl⟩
    have hmem : b ∈ (σ a).view.votes := List.mem_filterMap.mpr ⟨_, hb, rfl⟩
    have hview := (hinv.orderly a ha).view
    have hpos : b.round ≠ 0 := fun h0 => by
      have hlt := hview.below b hmem
      rw [h0, Fin.lt_def] at hlt
      exact Nat.not_lt_zero _ hlt
    rcases hview.justified b hmem with hcons | ⟨tc, -, hr, hmax, hG | hdom⟩
    · left
      have hv := val_succ (hcons ▸ hpos)
      rw [hcons] at hv
      exact hv
    · refine .inr (.inl ?_)
      have hv := val_succ (hr ▸ hpos)
      rw [hr] at hv
      have hround : (N.ballot b).round - 1 = tc.round.val := by
        show b.round.val - 1 = tc.round.val
        omega
      rw [hround]
      exact timedOutBelow_of_certified hN hf hS htame hG hmax
    · refine .inr (.inr ?_)
      rintro x' ⟨-, c, hc, rfl⟩ hlt
      exact hdom c (List.mem_filterMap.mpr ⟨_, hc, rfl⟩) hlt

/-- **A block that an honest core commits is committed by the two-chain rule.** -/
theorem committed_of_linked (hp : N.Honest p) {b0 b1 : Block}
    (h : Linked (N.env p) (σ p) b0 b1 b) :
    (N.record σ).Committed (N.electorate hN hf) (b0.digest N.cr) b0.round := by
  have hk := known_of_log hinv hp (.inl h.processed)
  have hk1 := known_of_log hinv hp (.inl h.stored)
  -- the certificate of `b` is for `b1`: some honest core has voted for `b1`
  have hcert := certified_of_known hN hf hS htame hk.qc h.notGenesis
  obtain ⟨a, x, ⟨ha, c, hc, rfl⟩, hblock, hround⟩ := hcert.exists_ballot
  have hkc := known_of_log hinv ha (.inr hc)
  have hb1 : N.ballot c = N.ballot b1 :=
    ballot_coherent hN hf hS hdefault hinv htame hkc hk1 (hblock.trans h.digest.symm)
  have hbelow := (lawful hN hf hS hdefault hinv htame).below a _ ⟨ha, c, hc, rfl⟩
  rw [← hblock, ← hround] at hcert
  refine ⟨a, N.ballot c, ⟨ha, c, hc, rfl⟩, hcert, ?_⟩
  rw [hb1] at hbelow ⊢
  change b1.qc.round.val < b1.round.val at hbelow
  have hsucc : b1.round.val = b0.round.val + 1 := by
    rw [← h.rounds] at hbelow ⊢
    apply val_succ
    intro h0
    rw [h0] at hbelow
    exact Nat.not_lt_zero _ hbelow
  rcases h.parent with ⟨hg, rfl⟩ | ⟨hg, hd, hlog⟩
  · refine ⟨?_, ?_, hsucc⟩
    · unfold ballot Block.parentDigest
      rw [hg]
      rfl
    · exact congrArg Fin.val (QC.eq_genesis.mp hg).2
  · refine ⟨?_, ?_, hsucc⟩
    · unfold ballot Block.parentDigest Block.parent
      rw [hg]
      exact hd.symm
    · -- the certificate of `b1` is for `b0`
      obtain ⟨a', x, ⟨ha', d, hd', rfl⟩, hblock', hround'⟩ :=
        (certified_of_known hN hf hS htame hk1.qc hg).exists_ballot
      have hb0 : N.ballot d = N.ballot b0 :=
        ballot_coherent hN hf hS hdefault hinv htame (known_of_log hinv ha' (.inr hd'))
          (known_of_log hinv hp (.inl hlog)) (hblock'.trans hd.symm)
      rw [hb0] at hround'
      exact hround'.symm

omit hN hf hS hdefault htame in
/-- Abstract ancestors are ancestors through stored blocks. -/
theorem extends_of_record {d e : Digest} (h : (N.record σ).Extends d e) :
    Relation.ReflTransGen (N.ParentEdge σ) d e := by
  refine Relation.ReflTransGen.mono ?_ d e h
  intro d e
  rintro ⟨a, x, ⟨ha, b, hb, rfl⟩, hd, he⟩
  exact ⟨a, ha, b, (hinv.chained a ha).voted b hb, hd, he⟩

theorem agreement_of_inv : N.Agreement σ := by
  intro p q hp hq b0 b1 b c0 c1 c hb hc
  have hL := lawful hN hf hS hdefault hinv htame
  have h := committed_of_linked hN hf hS hdefault hinv htame hp ((hinv.chained p hp).linked _ _ _ hb)
  have h' := committed_of_linked hN hf hS hdefault hinv htame hq
    ((hinv.chained q hq).linked _ _ _ hc)
  exact (hL.comparable h h').imp (extends_of_record hinv) (extends_of_record hinv)

end Safety

/-- The invariant holds in every state of a tame and fair run. -/
theorem inv_of_reachable (hN : N.committee.total < 2 ^ 31)
    (hr : ((N.machine.within (N.Tame S)).restrict (N.Fair S)).Reachable σ) :
    N.Inv S σ ∧ N.Tame S σ := by
  refine Machine.invariant (P := fun σ => N.Inv S σ ∧ N.Tame S σ) ?_ ?_ hr
  · intro σ h
    rw [show σ = fun p => Core.new (N.env p) from h.1]
    exact ⟨inv_new, h.1 ▸ h.2⟩
  · intro σ l σ' h hs
    exact ⟨h.1.step hN hs.1 hs.2.1 hs.2.2, hs.2.2⟩

/-! ## Two honest cores -/

/-- Both authorities are honest; the first one leads all rounds. -/
def sampleNetwork : Network := ⟨sampleBatch, sampleCommittee, fun _ => keyA, fun _ => false, ∅⟩

/-- The block that the leader makes in a round on top of a certificate. -/
def sampleBlock (qc : QC) (round : RoundNumber) : Block := .new sampleBatch qc none keyA round []

/-- The certificate that the leader's vote completes. -/
def sampleQc (b : Block) : QC :=
  ⟨b.digest sampleBatch, b.round, [(keyA, (Vote.new sampleBatch b keyA).signature)]⟩

def block1 : Block := sampleBlock .genesis 1

def block2 : Block := sampleBlock (sampleQc block1) 2

def block3 : Block := sampleBlock (sampleQc block2) 3

/-- The strings that are hashed on the way to the commit of `block1`. -/
def sampleStrings : List Bytes :=
  [block1, block2, block3].flatMap fun b => [b.preimage, b.votePreimage sampleBatch]

/-- The leader makes a block and votes for it; the other authority handles the proposal. -/
def sampleRound (b : Block) : List (PublicKey × Core.Input) :=
  [(keyA, .payload []), (keyA, .next), (keyA, .next), (keyB, .deliver (.propose b)), (keyB, .next),
    (keyB, .next), (keyB, .status .accept), (keyB, .next)]

/-- `Fair`, as a check. -/
def fairCheck (σ : Cores) (l : PublicKey × Core.Input) : Bool :=
  match l.2 with
  | .deliver (.propose b) => b.signatures.all fun u => sampleStrings.contains u.2.2 &&
      (σ u.1).log.any fun e => (e.signed sampleBatch).contains u.2.2
  | .deliver _ | .storeWrite _ _ => false
  | _ => true

/-- `Tame`, as a check. -/
def tameCheck (σ : Cores) : Bool :=
  [keyA, keyB].all fun p => (σ p).round ≠ 0 &&
    (σ p).log.all fun e => (e.signed sampleBatch).all sampleStrings.contains

/-- **Agreement**: in every fair run without overflow of a round number, two blocks that honest
cores commit lie on one chain. -/
theorem agreement (N : Network) (hN : N.committee.total < 2 ^ 31)
    (hf : 3 * Quorum.weight (fun a => (N.committee.stake a).toNat)
      (N.committee.voters ∩ N.faulty) < N.committee.total)
    (S : Bytes → Prop) (hS : N.cr.CollisionFree S) (hdefault : ∀ x, S x → N.cr.sha512 x ≠ .default)
    (σ : Cores) (hr : ((N.machine.within (N.Tame S)).restrict (N.Fair S)).Reachable σ) :
    N.Agreement σ := by
  obtain ⟨hinv, htame⟩ := inv_of_reachable hN hr
  exact agreement_of_inv hN hf hS hdefault hinv htame

theorem fair_of_check {σ : Cores} {l : PublicKey × Core.Input} (h : fairCheck σ l = true) :
    sampleNetwork.Fair (· ∈ sampleStrings) σ l := by
  obtain ⟨p, i⟩ := l
  cases i with
  | deliver m =>
    cases m with
    | propose b =>
      simp only [fairCheck, List.all_eq_true, Bool.and_eq_true, List.any_eq_true,
        List.contains_iff_mem] at h
      refine fun u hu => ⟨(h u hu).1, fun _ _ => ?_⟩
      obtain ⟨e, he, hx⟩ := (h u hu).2
      exact ⟨e, he, u.2.2, hx, rfl⟩
    | _ => cases h
  | storeWrite d v => cases h
  | _ => trivial

theorem mem_keys_of_honest {p : PublicKey} (hp : sampleNetwork.Honest p) : p ∈ [keyA, keyB] := by
  have hkeys : sampleNetwork.committee.voters = {keyA, keyB} := by decide +kernel
  have hmem := hp.1
  rw [hkeys] at hmem
  simpa using hmem

theorem tame_of_check {σ : Cores} (h : tameCheck σ = true) :
    sampleNetwork.Tame (· ∈ sampleStrings) σ := by
  intro p hp
  simp only [tameCheck, List.all_eq_true, Bool.and_eq_true, List.contains_iff_mem,
    decide_eq_true_eq] at h
  exact h p (mem_keys_of_honest hp)

/-- Both cores commit the first block, and genesis before it. -/
theorem agreement_two_cores : ∃ σ : Cores,
    (∀ p ∈ [keyA, keyB], ∃ b1 b, .commit block1 b1 b ∈ (σ p).log) ∧ sampleNetwork.Agreement σ := by
  have hrun : ((Machine.execIf fairCheck (fun σ l => (sampleNetwork.step σ l).filter tameCheck)
      (fun p => Core.new (sampleNetwork.env p))
      (sampleRound block1 ++ sampleRound block2 ++ sampleRound block3)).any fun σ =>
        [keyA, keyB].all fun p =>
          (σ p).log.contains (.commit block1 block2 block3)) = true := by
    decide +kernel
  rw [Option.any_eq_true] at hrun
  obtain ⟨σ, hσ, h⟩ := hrun
  rw [List.all_eq_true] at h
  have hfree : ∀ x ∈ sampleStrings, ∀ y ∈ sampleStrings,
      sampleBatch.sha512 x = sampleBatch.sha512 y → x = y := by
    decide +kernel
  refine ⟨σ, fun p hp => ⟨block2, block3, List.contains_iff_mem.mp (h p hp)⟩,
    agreement sampleNetwork (by decide +kernel) (by decide +kernel) (· ∈ sampleStrings)
      (fun x y hx hy => hfree x hx y hy) (by decide +kernel) σ
      (Machine.reachable_execIf_within (fun _ _ => fair_of_check) (fun _ => tame_of_check)
        (.init ⟨rfl, tame_of_check (by decide +kernel)⟩) hσ)⟩

end Network

end AccountabilityGadget.Consensus
