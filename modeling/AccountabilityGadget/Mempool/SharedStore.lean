import AccountabilityGadget.Consensus.Wire
import AccountabilityGadget.Mempool.Core

/-!
# Blocks and payloads in one store

The consensus keeps a block under the hash of author, round, payload and parent; the mempool keeps
a payload under the hash of its transactions.  Both keys are plain digests in the same store.

* `admitted` — the payloads of a sequence of messages that the mempool stores.
* `store_run` — the store after the messages is the store with these payloads written in order.
* `block_survives_iff` — a stored block is still there if and only if none of them concatenates to
  the bytes that the digest of the block is computed from.
-/

set_option autoImplicit false

namespace AccountabilityGadget.Mempool

open Consensus

/-! ## Runs of the mempool -/

variable (env : Env)

def Core.run (s : Core) (ms : List MempoolMessage) : Core := ms.foldl (Core.handle env) s

/-- The payloads that a core stores whose queue has `n` elements at first. -/
def admitted : ℕ → List MempoolMessage → List Payload
  | _, [] => []
  | n, m :: ms =>
    match Core.admits env n m with
    | none => admitted n ms
    | some p => p :: admitted (n + 1) ms

variable {env}

/-- **The messages write the payloads admitted, in order, and nothing else.** -/
theorem store_run (ms : List MempoolMessage) (s : Core) :
    (s.run env ms).store =
      (admitted env s.queue.length ms).foldl (Core.withPayload env) s.store := by
  induction ms generalizing s with
  | nil => rfl
  | cons m ms ih =>
    obtain ⟨hstore, hqueue⟩ := s.handle_frame env m
    have hrun : (s.run env (m :: ms)).store = ((s.handle env m).run env ms).store := rfl
    rw [hrun, ih, admitted]
    cases ha : Core.admits env s.queue.length m with
    | none =>
      rw [ha] at hstore hqueue
      simp only [Option.elim_none] at hstore hqueue
      rw [hstore, hqueue]
    | some p =>
      rw [ha] at hstore hqueue
      simp only [Option.elim_some] at hstore hqueue
      rw [hstore, hqueue, List.length_append, List.length_singleton, List.foldl_cons]

/-- What is read after a sequence of writes: the value before it, or one of the payloads. -/
theorem read_withPayloads (key : Bytes) (ps : List Payload) (s : Store) :
    ((∀ p ∈ ps, (p.digest env.cr).toBytes ≠ key) ∧
        (ps.foldl (Core.withPayload env) s).read key = s.read key) ∨
      ∃ p ∈ ps, (p.digest env.cr).toBytes = key ∧
        (ps.foldl (Core.withPayload env) s).read key = some p.encode := by
  induction ps generalizing s with
  | nil => exact .inl ⟨by simp, rfl⟩
  | cons p ps ih =>
    rw [List.foldl_cons]
    rcases ih (Core.withPayload env s p) with ⟨hne, hread⟩ | ⟨q, hq, hkey, hread⟩
    · by_cases hp : (p.digest env.cr).toBytes = key
      · refine .inr ⟨p, by simp, hp, ?_⟩
        rw [hread, Core.withPayload, hp, Store.read_write_self]
      · refine .inl ⟨by simpa [hp] using hne, ?_⟩
        rw [hread, Core.withPayload, Store.read_write_of_ne _ (Ne.symm hp)]
    · exact .inr ⟨q, List.mem_cons_of_mem _ hq, hkey, hread⟩

/-! ## A block under attack -/

/-- The serialization of a payload that concatenates to what a digest of a block is computed from
is never that of a block: its length is even. -/
theorem encode_ne_of_preimage {p : Payload} {b : Block} (h : p.preimage = b.preimage)
    (d : Block) : p.encode ≠ d.encode := by
  intro he
  have hlen := congrArg List.length he
  rw [p.length_encode, h, b.length_preimage] at hlen
  have hodd := d.length_encode_odd
  omega

variable (cr : BatchCrypto) (parameters : Parameters) (authorities : List PublicKey)

/-- The mempool of a node whose consensus hashes with `cr`. -/
def Env.ofBatch : Env := ⟨cr.toCrypto, parameters, authorities⟩

/-- The strings hashed for a block and for the payloads that the messages make the core store. -/
def Hashed (n : ℕ) (ms : List MempoolMessage) (b : Block) (x : Bytes) : Prop :=
  x = b.preimage ∨ ∃ p ∈ admitted (.ofBatch cr parameters authorities) n ms, x = p.preimage

/-! ### A stored block, and payloads to send -/

/-- The default parameters. -/
def Parameters.default : Parameters := ⟨10000, 100000⟩

def victim : Block := .new sampleBatch .genesis none keyA 1 []

/-- A core that has just stored the block. -/
def victimCore : Core := .new (Store.empty.write (victim.digest sampleBatch).toBytes victim.encode)

theorem read_victimCore :
    victimCore.store.read (victim.digest sampleBatch).toBytes = some victim.encode :=
  Store.read_write_self ..

/-- One transaction: the bytes that the digest of the block is computed from. -/
def forged : Payload := ⟨[⟨victim.preimage, by decide +kernel⟩], by decide⟩

/-- A transaction of two bytes. -/
def harmless : Payload := ⟨[⟨[1, 2], by decide⟩], by decide⟩

def harmlessTraffic : List MempoolMessage := [.ownPayload harmless, .payload harmless]

/-- **A stored block is readable after the messages if and only if none of the payloads that they
make the core store concatenates to the preimage of the block's digest.** -/
theorem block_survives_iff (s : Core) (ms : List MempoolMessage) (b : Block)
    (hstored : s.store.read (b.digest cr).toBytes = some b.encode)
    (hfree : cr.CollisionFree (Hashed cr parameters authorities s.queue.length ms b)) :
    (s.run (.ofBatch cr parameters authorities) ms).store.read (b.digest cr).toBytes =
        some b.encode ↔
      ∀ p ∈ admitted (.ofBatch cr parameters authorities) s.queue.length ms,
        p.preimage ≠ b.preimage := by
  rw [store_run]
  rcases read_withPayloads (b.digest cr).toBytes
      (admitted (.ofBatch cr parameters authorities) s.queue.length ms) s.store with
    ⟨hne, hread⟩ | ⟨p, hp, hkey, hread⟩
  · apply iff_of_true (hread.trans hstored)
    intro p hp hpre
    exact hne p hp (congrArg (fun x => (cr.sha512 x).toBytes) hpre)
  · have hpre : p.preimage = b.preimage :=
      hfree _ _ (.inr ⟨p, hp, rfl⟩) (.inl rfl) (Digest.toBytes_injective hkey)
    refine iff_of_false ?_ fun h => h p hp hpre
    intro h
    rw [hread, Option.some.injEq] at h
    exact encode_ne_of_preimage hpre b h

theorem block_survives_harmless :
    (victimCore.run (.ofBatch sampleBatch .default []) harmlessTraffic).store.read
        (victim.digest sampleBatch).toBytes = some victim.encode := by
  have hfree : sampleBatch.CollisionFree
      (Hashed sampleBatch .default [] 0 harmlessTraffic victim) := by
    intro x y hx hy h
    have hmem : ∀ z, Hashed sampleBatch .default [] 0 harmlessTraffic victim z →
        z = victim.preimage ∨ z = harmless.preimage := by
      rintro z (rfl | ⟨p, hp, rfl⟩)
      · exact .inl rfl
      · have hp' : p ∈ [harmless, harmless] := hp
        simp only [List.mem_cons, List.not_mem_nil, or_false, or_self] at hp'
        exact .inr (by rw [hp'])
    have hne : sampleBatch.sha512 victim.preimage ≠ sampleBatch.sha512 harmless.preimage := by
      decide +kernel
    rcases hmem x hx with rfl | rfl <;> rcases hmem y hy with rfl | rfl
    · rfl
    · exact absurd h hne
    · exact absurd h.symm hne
    · rfl
  apply (block_survives_iff sampleBatch .default [] victimCore _ victim read_victimCore hfree).mpr
  intro p hp
  have hp' : p ∈ [harmless, harmless] := hp
  simp only [List.mem_cons, List.not_mem_nil, or_false, or_self] at hp'
  rw [hp']
  decide +kernel

/-- A payload within the maximal size replaces the block, though no two strings hashed collide. -/
theorem block_lost_forged :
    forged.size ≤ Parameters.default.maxPayloadSize ∧
      sampleBatch.CollisionFree (Hashed sampleBatch .default [] 0 [.payload forged] victim) ∧
      victimCore.store.read (victim.digest sampleBatch).toBytes = some victim.encode ∧
      (victimCore.run (.ofBatch sampleBatch .default []) [.payload forged]).store.read
        (victim.digest sampleBatch).toBytes ≠ some victim.encode := by
  have hpre : forged.preimage = victim.preimage := List.append_nil _
  refine ⟨by decide +kernel, ?_, read_victimCore, ?_⟩
  · have hmem : ∀ z, Hashed sampleBatch .default [] 0 [.payload forged] victim z →
        z = victim.preimage := by
      rintro z (rfl | ⟨p, hp, rfl⟩)
      · rfl
      · have hp' : p ∈ [forged] := hp
        rw [List.mem_singleton.mp hp', hpre]
    exact fun x y hx hy _ => (hmem x hx).trans (hmem y hy).symm
  · have hrun : (victimCore.run (.ofBatch sampleBatch .default []) [.payload forged]).store.read
        (forged.digest sampleBatch.toCrypto).toBytes = some forged.encode :=
      Store.read_write_self ..
    have hkey : forged.digest sampleBatch.toCrypto = victim.digest sampleBatch :=
      congrArg sampleBatch.sha512 hpre
    rw [← hkey, hrun, Ne, Option.some.injEq]
    exact encode_ne_of_preimage hpre victim

end AccountabilityGadget.Mempool
