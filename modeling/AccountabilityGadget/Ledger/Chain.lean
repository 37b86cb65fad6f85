import AccountabilityGadget.Ledger.AnalyzeBlock

/-!
# What the store holds for a chain of blocks

* `Traffic` — the payloads that the mempools store and the blocks that the consensus cores store and
  commit; `Traffic.Clean` — payloads with the same bytes have the same transactions, and no string
  is hashed both for a payload and for a block.
* `Chain` — blocks from genesis on, each the parent of the next, in growing rounds.
* `Traffic.ledger` — the transactions that a chain stands for.
* `readPayload_eq`, `getParentBlock_chain` — what is read from the store in clean traffic is the
  transactions of the payload listed and the block before the current one.
-/

set_option autoImplicit false

namespace AccountabilityGadget.Ledger

open Encoding Consensus Mempool

/-! ## Traffic -/

structure Traffic where
  payloads : Payload → Prop
  blocks : Block → Prop
  genesis : blocks .genesis
  fits : ∀ b, blocks b → b.Fits

namespace Traffic

variable (T : Traffic) (cr : BatchCrypto)

/-- What is hashed for the keys of the store. -/
def Hashed (x : Bytes) : Prop :=
  (∃ p, T.payloads p ∧ x = p.preimage) ∨ ∃ b, T.blocks b ∧ x = b.preimage

/-- The digest of a payload determines its transactions, and a key of the store belongs either to
a payload or to a block. -/
structure Clean : Prop where
  unsplit : ∀ p q, T.payloads p → T.payloads q → p.preimage = q.preimage →
    p.transactions = q.transactions
  apart : ∀ p b, T.payloads p → T.blocks b → p.preimage ≠ b.preimage
  listed : ∀ b b', T.blocks b → T.blocks b' → b'.digest cr ∉ b.payload

/-- The mempool stores only payloads of the traffic, the consensus core stores and commits only
blocks of it. -/
def Allows (parameters : Parameters) (authorities : List PublicKey) (n : Node) : Input → Prop
  | .message m => ∀ p, Core.admits (.ofBatch cr parameters authorities) n.mempool.queue.length m =
      some p → T.payloads p
  | .get _ made => ∀ p, made = some p → T.payloads p
  | .store b => T.blocks b
  | .commit b => T.blocks b
  | _ => True

variable {T cr} in
theorem allows_message {parameters : Parameters} {authorities : List PublicKey} {n : Node}
    {m : MempoolMessage} (h : ∀ p, m = .ownPayload p ∨ m = .payload p → T.payloads p) :
    T.Allows cr parameters authorities n (.message m) :=
  fun p hp => h p (Core.admits_some hp)

/-- The runs of a node in this traffic. -/
def machine (parameters : Parameters) (authorities : List PublicKey) : Machine Node Input :=
  (Ledger.machine cr parameters authorities).restrict (T.Allows cr parameters authorities)

open Classical in
/-- The transactions of the payload with a digest. -/
noncomputable def transactions (d : Digest) : List ByteVec :=
  if h : ∃ p, T.payloads p ∧ p.digest cr.toCrypto = d then h.choose.transactions else []

noncomputable def ledger (c : List Block) : List ByteVec :=
  c.flatMap fun b => b.payload.flatMap (T.transactions cr)

end Traffic

/-- Blocks from genesis on, each the parent of the next, in growing rounds. -/
structure Chain (cr : BatchCrypto) (c : List Block) : Prop where
  first : ∃ g rest, c = g :: rest ∧ g.digest cr = Block.genesis.digest cr
  linked : c.IsChain fun a b => b.parentDigest cr = a.digest cr ∧ a.round < b.round
  /-- Round numbers do not overflow. -/
  bounded : ∀ b ∈ c, b.round.val + 1 < 2 ^ 64

theorem Chain.sorted {cr : BatchCrypto} {c : List Block} (h : Chain cr c) :
    c.Pairwise fun a b => a.round < b.round :=
  (h.linked.imp fun _ _ hab => hab.2).pairwise

/-! ## The store -/

section

variable (T : Traffic) (cr : BatchCrypto)

/-- Every value is the serialization of a payload or of a block under its digest. -/
def Keyed (s : Store) : Prop :=
  ∀ key value, s.read key = some value →
    (∃ p, T.payloads p ∧ key = (p.digest cr.toCrypto).toBytes ∧ value = p.encode) ∨
      ∃ b, T.blocks b ∧ key = (b.digest cr).toBytes ∧ value = b.encode

variable {T cr}

theorem keyed_empty : Keyed T cr .empty := fun _ _ h => by cases h

theorem Keyed.write {s : Store} (h : Keyed T cr s) {key value : Bytes}
    (hw : (∃ p, T.payloads p ∧ key = (p.digest cr.toCrypto).toBytes ∧ value = p.encode) ∨
      ∃ b, T.blocks b ∧ key = (b.digest cr).toBytes ∧ value = b.encode) :
    Keyed T cr (s.write key value) := by
  intro key' value' hr
  by_cases hk : key' = key
  · subst hk
    rw [Store.read_write_self, Option.some.injEq] at hr
    exact hr ▸ hw
  · rw [Store.read_write_of_ne s hk] at hr
    exact h key' value' hr

variable (hfree : cr.CollisionFree T.Hashed) (hclean : T.Clean cr)

include hfree hclean

theorem transactions_digest {p : Payload} (hp : T.payloads p) :
    T.transactions cr (p.digest cr.toCrypto) = p.transactions := by
  have hex : ∃ q, T.payloads q ∧ q.digest cr.toCrypto = p.digest cr.toCrypto := ⟨p, hp, rfl⟩
  obtain ⟨hq, hdigest⟩ := hex.choose_spec
  rw [Traffic.transactions, dif_pos hex]
  exact hclean.unsplit _ _ hq hp (hfree _ _ (.inl ⟨_, hq, rfl⟩) (.inl ⟨p, hp, rfl⟩) hdigest)

/-- What is read for a payload digest of a block is the transactions of its payload. -/
theorem readPayload_eq {s : Store} (hs : Keyed T cr s) {b : Block} (hb : T.blocks b) {d : Digest}
    (hd : d ∈ b.payload) {txs : List ByteVec} (h : readPayload s d = .ok txs) :
    txs = T.transactions cr d := by
  unfold readPayload at h
  split at h
  · rename_i bytes hread
    rcases hs _ _ hread with ⟨p, hp, hkey, rfl⟩ | ⟨b', hb', hkey, rfl⟩
    · rw [Digest.toBytes_injective hkey, transactions_digest hfree hclean hp]
      rw [Payload.tryFrom_encode] at h
      exact (Except.ok.inj h).symm
    · exact absurd (Digest.toBytes_injective hkey ▸ hd) (hclean.listed b b' hb hb')
  · cases h

/-- What is read under the digest of a block is a block with the same preimage. -/
theorem read_block {s : Store} (hs : Keyed T cr s) {a : Block} (ha : T.blocks a) {bytes : Bytes}
    (h : s.read (a.digest cr).toBytes = some bytes) :
    ∃ b, T.blocks b ∧ bytes = b.encode ∧ b.preimage = a.preimage := by
  rcases hs _ _ h with ⟨p, hp, hkey, -⟩ | ⟨b, hb, hkey, rfl⟩
  · have hpre := hfree _ _ (.inr ⟨a, ha, rfl⟩) (.inl ⟨p, hp, rfl⟩) (Digest.toBytes_injective hkey)
    exact absurd hpre.symm (hclean.apart p a hp ha)
  · have hpre := hfree _ _ (.inr ⟨a, ha, rfl⟩) (.inr ⟨b, hb, rfl⟩) (Digest.toBytes_injective hkey)
    exact ⟨b, hb, rfl, hpre.symm⟩

end

/-! ## The walk -/

section

variable {T : Traffic} {cr : BatchCrypto} {c : List Block} (hfree : cr.CollisionFree T.Hashed)
  (hdefault : ∀ x, T.Hashed x → cr.sha512 x ≠ .default) (hbase : cr.Base64RoundTrip)
  (hclean : T.Clean cr) (hc : Chain cr c) (hblocks : ∀ b ∈ c, T.blocks b)

include hfree hc hblocks

/-- Only the first block of a chain has the digest of genesis. -/
theorem no_prefix_of_genesis {pre post : List Block} {a : Block} (hsplit : c = pre ++ a :: post)
    (h : a.digest cr = Block.genesis.digest cr) : pre = [] := by
  have hpre : a.preimage = Block.genesis.preimage :=
    hfree _ _ (.inr ⟨a, hblocks a (by simp [hsplit]), rfl⟩) (.inr ⟨_, T.genesis, rfl⟩) h
  have hround : a.round = 0 := (Block.preimage_inj hpre).2.1
  have hsorted := hc.sorted
  rw [hsplit, List.pairwise_append] at hsorted
  apply List.eq_nil_iff_forall_not_mem.mpr
  intro b hb
  have hlt := hsorted.2.2 b hb a (by simp)
  rw [hround] at hlt
  exact absurd hlt (Fin.not_lt_zero _)

include hdefault hbase hclean

/-- **The parent of a block of the chain is the block before it**, up to what the digest leaves
out. -/
theorem getParentBlock_chain {s : Store} (hs : Keyed T cr s) {pre post : List Block}
    {a blk : Block} (hsplit : c = pre ++ a :: post) (hblk : blk.preimage = a.preimage)
    {r : Option Block} (h : getParentBlock cr s blk = .ok r) :
    (r = none ∧ pre = []) ∨ ∃ pre' a' parent, r = some parent ∧ pre = pre' ++ [a'] ∧
      T.blocks parent ∧ parent.preimage = a'.preimage := by
  have hdigest : blk.digest cr = a.digest cr := congrArg cr.sha512 hblk
  unfold getParentBlock at h
  split at h
  · rename_i hgenesis
    cases h
    exact .inl ⟨rfl, no_prefix_of_genesis hfree hc hblocks hsplit (hdigest ▸ hgenesis)⟩
  rename_i hgenesis
  rcases List.eq_nil_or_concat' pre with rfl | ⟨pre', a', rfl⟩
  · obtain ⟨g, rest, hg, hfirst⟩ := hc.first
    rw [hg, List.nil_append, List.cons.injEq] at hsplit
    exact absurd (hdigest.trans (hsplit.1 ▸ hfirst)) hgenesis
  have ha' : T.blocks a' := hblocks a' (by simp [hsplit])
  have hlink : a.parentDigest cr = a'.digest cr := by
    have hl := hc.linked
    rw [hsplit, List.append_assoc, List.singleton_append, List.isChain_append_cons_cons] at hl
    exact hl.2.1.1
  have hhash : blk.qc.hash = a.qc.hash := (Block.preimage_inj hblk).2.2.2
  have hne : a'.digest cr ≠ .default := hdefault _ (.inr ⟨a', ha', rfl⟩)
  split at h
  · rename_i hqc
    cases h
    refine .inr ⟨pre', a', .genesis, rfl, rfl, T.genesis, ?_⟩
    have heq : a.qc.eq .genesis = true := by
      by_contra hqca
      rw [Block.parentDigest, if_neg hqca, Block.parent, ← hhash, (QC.eq_genesis.mp hqc).1] at hlink
      exact hne hlink.symm
    rw [Block.parentDigest, if_pos heq] at hlink
    exact hfree _ _ (.inr ⟨_, T.genesis, rfl⟩) (.inr ⟨a', ha', rfl⟩) hlink
  · rename_i hqc
    split at h
    · rename_i bytes hread
      have hparent : blk.parent = a'.digest cr := by
        by_cases hqca : a.qc.eq .genesis = true
        · have hkey : blk.parent = .default := hhash.trans (QC.eq_genesis.mp hqca).1
          rw [hkey] at hread
          rcases hs _ _ hread with ⟨p, hp, hk, -⟩ | ⟨b, hb, hk, -⟩
          · exact absurd (Digest.toBytes_injective hk).symm (hdefault _ (.inl ⟨p, hp, rfl⟩))
          · exact absurd (Digest.toBytes_injective hk).symm (hdefault _ (.inr ⟨b, hb, rfl⟩))
        · rw [Block.parentDigest, if_neg hqca] at hlink
          exact hhash.trans hlink
      rw [hparent] at hread
      obtain ⟨b, hb, rfl, hpre⟩ := read_block hfree hclean hs ha' hread
      rw [Block.tryFrom_encode hbase (T.fits b hb)] at h
      cases h
      exact .inr ⟨pre', a', b, rfl, rfl, hb, hpre⟩
    · cases h

end

end AccountabilityGadget.Ledger
