import AccountabilityGadget.Ledger.AnalyzeBlock
import AccountabilityGadget.Lib.History

/-!
# Digests that are queued twice (`mempool/src/core.rs`, `gossip/src/lib.rs`)

The queue of the mempool was a set and is a vector now; both handlers of payloads push to it without
looking.  An own payload comes twice: from the payload maker, and from the gossip, which replays to
the node what the node publishes.

* `Core.serve` — what the core of the mempool handles, and what it answers to the consensus.
* `Core.replays` — the payloads that the gossip hands back.
* `Node.fromBlock` — what `analyze_block` hands over while it processes one block.
* `no_duplicates_iff` — digests are queued, proposed and delivered once if and only if no payload
  arrives while its digest is queued.
* `replayed_duplicate`, `queued_twice` — an own payload that is replayed before it is proposed is
  queued twice.
-/

set_option autoImplicit false

namespace AccountabilityGadget

namespace Mempool

/-- What comes from the two channels of the core. -/
inductive Request where
  | message (m : MempoolMessage)
  /-- `made` is what the payload maker answers. -/
  | get (max : ℕ) (made : Option Payload)
  | cleanup (digests : List Digest)
  deriving DecidableEq

namespace Core

variable (env : Env)

/-- The core after a request, and the digests that the consensus gets. -/
def serve (s : Core) : Request → Core × List Digest
  | .message m => (s.handle env m, [])
  | .get max made => s.handleGet env max made
  | .cleanup digests => (s.cleanup digests, [])

def serveAll (s : Core) (rs : List Request) : Core := rs.foldl (fun s r => (s.serve env r).1) s

/-- What the gossip replays: the payloads that the core has sent. -/
def replays (s : Core) : List MempoolMessage :=
  s.sent.filterMap fun
    | (.payload p, _) => some (.payload p)
    | _ => none

/-- A payload that the request makes the core admit is not queued yet. -/
def Fresh (s : Core) : Request → Prop
  | .message m => ∀ p, admits env s.queue.length m = some p → p.digest env.cr ∉ s.queue
  | _ => True

variable {env} {s : Core}

theorem serveAll_concat (rs : List Request) (r : Request) :
    s.serveAll env (rs ++ [r]) = ((s.serveAll env rs).serve env r).1 := by
  rw [serveAll, serveAll, List.foldl_append, List.foldl_cons, List.foldl_nil]

/-- The queue after a message has no duplicates if and only if the message is fresh. -/
theorem nodup_handle_iff (h : s.queue.Nodup) (m : MempoolMessage) :
    (s.handle env m).queue.Nodup ↔ s.Fresh env (.message m) := by
  rw [(s.handle_frame env m).2]
  cases ha : admits env s.queue.length m with
  | none =>
    refine iff_of_true h ?_
    intro p hp
    rw [ha] at hp
    cases hp
  | some p =>
    rw [Option.elim_some, List.nodup_append]
    constructor
    · rintro ⟨-, -, hdis⟩ q hq
      rw [ha, Option.some.injEq] at hq
      subst hq
      intro hmem
      exact hdis _ hmem _ (List.mem_singleton_self _) rfl
    · intro hfresh
      refine ⟨h, List.nodup_singleton _, ?_⟩
      intro d hd d' hd' he
      rw [List.mem_singleton.mp hd'] at he
      exact hfresh p ha (he ▸ hd)

/-- A request of the consensus takes from the queue, and what it answers has no duplicates. -/
theorem nodup_handleGet (h : s.queue.Nodup) (max : ℕ) (made : Option Payload) :
    (s.handleGet env max made).1.queue.Nodup ∧ (s.handleGet env max made).2.Nodup := by
  unfold handleGet getPayload
  by_cases hempty : s.queue = []
  · rw [if_pos hempty]
    cases made with
    | none => exact ⟨h, List.nodup_nil⟩
    | some p =>
      simp only [processOwnPayload]
      split_ifs
      · exact ⟨h, List.nodup_singleton _⟩
      · exact ⟨h, List.nodup_nil⟩
  · rw [if_neg hempty]
    exact ⟨h.filter _, h.sublist (List.take_sublist _ _)⟩

theorem nodup_serve_iff (h : s.queue.Nodup) (r : Request) :
    (s.serve env r).1.queue.Nodup ∧ (s.serve env r).2.Nodup ↔ s.Fresh env r := by
  cases r with
  | message m =>
    rw [← nodup_handle_iff h]
    exact and_iff_left List.nodup_nil
  | get max made => exact iff_of_true (nodup_handleGet h max made) trivial
  | cleanup digests => exact iff_of_true ⟨h.filter _, List.nodup_nil⟩ trivial

/-- A payload that is stored as the node's own is replayed. -/
theorem mem_replays {s' : Core} {p : Payload} (h : s.handleOwnPayload env p = .ok s') :
    .payload p ∈ s'.replays := by
  unfold handleOwnPayload processOwnPayload at h
  split_ifs at h
  cases h
  exact List.mem_filterMap.mpr
    ⟨(.payload p, none), List.mem_append_right _ (List.mem_singleton_self _), rfl⟩

/-- **An own payload of admissible size that is replayed before it leaves the queue is queued
twice.** -/
theorem replayed_duplicate {p : Payload} (hroom : s.queue.length < env.parameters.queueCapacity)
    (hsize : p.size ≤ env.parameters.maxPayloadSize) :
    .payload p ∈ (s.handle env (.ownPayload p)).replays ∧
      ((s.handle env (.ownPayload p)).handle env (.payload p)).queue =
        s.queue ++ [p.digest env.cr, p.digest env.cr] := by
  constructor
  · have hok : s.handleOwnPayload env p = .ok (s.handle env (.ownPayload p)) := by
      simp only [handle, handleOwnPayload, processOwnPayload, if_pos hroom]
      rfl
    exact mem_replays hok
  · rw [(handle_frame env _ _).2, (handle_frame env _ _).2]
    simp only [admits, if_pos hroom, if_pos hsize, Option.elim_some, List.append_assoc,
      List.cons_append, List.nil_append]

end Core

end Mempool

namespace Ledger

open Encoding Mempool Consensus

/-- A transaction that goes to the ledger, with its place in the payload of a digest. -/
structure Delivery where
  digest : Digest
  place : ℕ
  tx : ByteVec
  deriving DecidableEq

namespace Node

variable (cr : BatchCrypto) (parameters : Parameters) (authorities : List PublicKey)

/-- What the next step of the task hands over. -/
def delivered (n : Node) : List Delivery :=
  match n.phase with
  | .processing _ (digest :: _) =>
    match readPayload n.mempool.store digest with
    | .ok txs => txs.zipIdx.map fun tx => ⟨digest, tx.2, tx.1⟩
    | .error _ => []
  | _ => []

/-- What the task hands over, in a run, until it is through with the block that it processes. -/
def fromBlock (n : Node) : List Input → List Delivery
  | [] => []
  | i :: is =>
    match n.phase with
    | .processing _ (_ :: _) =>
      (if i = .analyze then n.delivered else []) ++
        (n.step cr parameters authorities i).elim [] fun n => n.fromBlock is
    | _ => []

variable {cr parameters authorities} {n n' : Node}

/-- The ledger grows by what is delivered. -/
theorem ledger_analyze (h : n.analyze cr = some n') :
    n'.ledger = n.ledger ++ n.delivered.map Delivery.tx := by
  obtain ⟨mempool, committed, commit, round, phase, ledger⟩ := n
  simp only [analyze, delivered] at h ⊢
  split at h
  · split at h <;> cases h
    exact (List.append_nil _).symm
  · split at h <;> cases h <;> exact (List.append_nil _).symm
  · split at h
    · rename_i he
      cases h
      simp only [he, List.map_nil, List.append_nil]
    · rename_i txs he
      cases h
      simp only [he, List.map_map]
      exact congrArg (ledger ++ ·) (List.zipIdx_map_fst 0 txs).symm
  · cases h
    exact (List.append_nil _).symm
  · split_ifs at h <;> cases h <;> exact (List.append_nil _).symm
  · cases h

theorem delivered_of_processing {blks : List Block} {d : Digest} {ds : List Digest}
    (h : n.phase = .processing blks (d :: ds)) :
    n.delivered.Nodup ∧ ∀ x ∈ n.delivered, x.digest = d := by
  simp only [delivered, h]
  split
  · rename_i txs _
    constructor
    · refine List.Nodup.of_map Delivery.place ?_
      rw [List.map_map]
      exact (List.zipIdx_map_snd 0 txs) ▸ List.nodup_range'
    · intro x hx
      obtain ⟨tx, -, rfl⟩ := List.mem_map.mp hx
      rfl
  · exact ⟨List.nodup_nil, by simp⟩

/-- The other inputs leave the task alone. -/
theorem phase_step {i : Input} (hi : i ≠ .analyze)
    (h : n.step cr parameters authorities i = some n') :
    n'.phase = n.phase := by
  cases i with
  | analyze => exact absurd rfl hi
  | message m => cases h; rfl
  | get max made => cases h; rfl
  | cleanup digests => cases h; rfl
  | store b => cases h; rfl
  | commit b => cases h; rfl

theorem phase_analyze {blks : List Block} {d : Digest} {ds : List Digest}
    (h : n.phase = .processing blks (d :: ds)) (hs : n.analyze cr = some n') :
    n'.phase = .processing blks ds ∨ ∃ p, n'.phase = .stopped p := by
  simp only [analyze, h] at hs
  split at hs <;> cases hs
  · exact .inr ⟨_, rfl⟩
  · exact .inl rfl

/-- What is delivered while a list of digests without duplicates is processed. -/
theorem fromBlock_nodup (is : List Input) {blks : List Block} {ds : List Digest} (hds : ds.Nodup)
    (h : n.phase = .processing blks ds) :
    (n.fromBlock cr parameters authorities is).Nodup ∧
      ∀ x ∈ n.fromBlock cr parameters authorities is, x.digest ∈ ds := by
  induction is generalizing n ds with
  | nil => exact ⟨List.nodup_nil, by simp [fromBlock]⟩
  | cons i is ih =>
    cases ds with
    | nil => simp [fromBlock, h]
    | cons d ds =>
      obtain ⟨hd, hds'⟩ := List.nodup_cons.mp hds
      simp only [fromBlock, h]
      by_cases hi : i = .analyze
      · subst hi
        obtain ⟨hnodup, hdigest⟩ := delivered_of_processing h
        -- the rest of the run delivers what is below the remaining digests
        have hrest : ∀ l, l = (n.step cr parameters authorities .analyze).elim []
            (fun n => n.fromBlock cr parameters authorities is) →
            l.Nodup ∧ ∀ x ∈ l, x.digest ∈ ds := by
          rintro l rfl
          cases hs : n.step cr parameters authorities .analyze with
          | none => exact ⟨List.nodup_nil, by simp⟩
          | some n' =>
            rcases phase_analyze h hs with hp | ⟨p, hp⟩
            · exact ih hds' hp
            · cases is <;> simp [fromBlock, hp]
        obtain ⟨hnodup', hmem⟩ := hrest _ rfl
        rw [if_pos rfl]
        constructor
        · refine List.nodup_append.mpr ⟨hnodup, hnodup', ?_⟩
          rintro x hx y hy rfl
          exact hd (hdigest x hx ▸ hmem x hy)
        · intro x hx
          rcases List.mem_append.mp hx with hx | hx
          · exact List.mem_cons.mpr (.inl (hdigest x hx))
          · exact List.mem_cons_of_mem _ (hmem x hx)
      · rw [if_neg hi, List.nil_append]
        cases hs : n.step cr parameters authorities i with
        | none => exact ⟨List.nodup_nil, by simp⟩
        | some n' => exact ih hds ((phase_step hi hs).trans h)

end Node

section

variable (cr : BatchCrypto) (parameters : Parameters) (authorities : List PublicKey)

/-- Nothing is queued, proposed or delivered twice because of a request. -/
structure NoDuplicate (s : Mempool.Core) (r : Request) : Prop where
  queue : (s.serve (.ofBatch cr parameters authorities) r).1.queue.Nodup
  answer : (s.serve (.ofBatch cr parameters authorities) r).2.Nodup
  /-- From a block with this answer as its payload, whatever else happens at the node. -/
  delivered : ∀ b : Block, b.payload = (s.serve (.ofBatch cr parameters authorities) r).2 →
    ∀ (n n' : Node) (blks : List Block) (is : List Input), n.phase = .processing (b :: blks) [] →
      n.analyze cr = some n' → (n'.fromBlock cr parameters authorities is).Nodup

variable {cr parameters authorities} {s : Mempool.Core} {r : Request}

theorem noDuplicate_of (hqueue : (s.serve (.ofBatch cr parameters authorities) r).1.queue.Nodup)
    (hanswer : (s.serve (.ofBatch cr parameters authorities) r).2.Nodup) :
    NoDuplicate cr parameters authorities s r := by
  refine ⟨hqueue, hanswer, ?_⟩
  intro b hb n n' blks is hphase hs
  simp only [Node.analyze, hphase] at hs
  split_ifs at hs <;> cases hs
  · exact (Node.fromBlock_nodup is (hb ▸ hanswer) rfl).1
  · exact (Node.fromBlock_nodup is List.nodup_nil rfl).1

variable (cr parameters authorities) in
/-- What the core of a node is after the requests. -/
def served (store : Store) (rs : List Request) : Mempool.Core :=
  (Mempool.Core.new store).serveAll (.ofBatch cr parameters authorities) rs

theorem served_nodup {store : Store} {rs : List Request}
    (h : Justified (fun pre => NoDuplicate cr parameters authorities
      (served cr parameters authorities store pre)) rs) :
    (served cr parameters authorities store rs).queue.Nodup := by
  rcases List.eq_nil_or_concat rs with rfl | ⟨rs, r, rfl⟩
  · exact List.nodup_nil
  · rw [List.concat_eq_append] at h ⊢
    rw [served, Mempool.Core.serveAll_concat]
    exact (justified_concat.mp h).2.queue

end

/-- **When nothing is queued, proposed or delivered twice.**  In a sequence of requests from an empty
queue: if and only if no payload arrives while its digest is queued. -/
theorem no_duplicates_iff (cr : BatchCrypto) (parameters : Parameters) (authorities : List PublicKey)
    (store : Store) (rs : List Request) :
    Justified (fun pre => NoDuplicate cr parameters authorities
      (served cr parameters authorities store pre)) rs ↔
    Justified (fun pre => (served cr parameters authorities store pre).Fresh
      (.ofBatch cr parameters authorities)) rs := by
  induction rs using List.reverseRecOn with
  | nil => exact iff_of_true justified_nil justified_nil
  | append_singleton rs r ih =>
    rw [justified_concat, justified_concat, ← ih]
    refine and_congr_right fun h => ?_
    rw [← Mempool.Core.nodup_serve_iff (served_nodup h)]
    constructor
    · intro hr
      exact ⟨hr.queue, hr.answer⟩
    · rintro ⟨hqueue, hanswer⟩
      exact noDuplicate_of hqueue hanswer

/-! ### An own payload that comes back -/

/-- The core that has handled the own payload, and then what the gossip replays. -/
def replayRequests : List Request :=
  .message (.ownPayload harmless) ::
    (served sampleBatch .default [] .empty [.message (.ownPayload harmless)]).replays.map .message

/-- A block with the answer of the core as its payload. -/
def twiceBlock : Block :=
  .new sampleBatch .genesis none keyA 1
    ((served sampleBatch .default [] .empty replayRequests).serve
      (.ofBatch sampleBatch .default []) (.get 512 none)).2

/-- The task before this block, on the store of the core. -/
def twiceNode : Node :=
  { Node.new with
    mempool := served sampleBatch .default [] .empty replayRequests
    phase := .processing [twiceBlock] [] }

/-- **An own payload that is replayed is queued, proposed and delivered twice.** -/
theorem queued_twice :
    replayRequests = [.message (.ownPayload harmless), .message (.payload harmless)] ∧
    (served sampleBatch .default [] .empty replayRequests).queue =
      [harmless.digest sampleBatch.toCrypto, harmless.digest sampleBatch.toCrypto] ∧
    twiceBlock.payload =
      [harmless.digest sampleBatch.toCrypto, harmless.digest sampleBatch.toCrypto] ∧
    (Machine.exec (Node.step sampleBatch .default []) twiceNode
      [.analyze, .analyze, .analyze]).map Node.ledger =
        some (harmless.transactions ++ harmless.transactions) ∧
    ¬ Justified (fun pre => NoDuplicate sampleBatch .default []
      (served sampleBatch .default [] .empty pre)) replayRequests := by
  refine ⟨by decide +kernel, by decide +kernel, by decide +kernel, by decide +kernel, ?_⟩
  intro h
  exact absurd (served_nodup h) (by decide +kernel)

end Ledger

end AccountabilityGadget
