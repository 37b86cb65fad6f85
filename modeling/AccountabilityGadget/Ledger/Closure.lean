import AccountabilityGadget.Consensus.Agreement
import AccountabilityGadget.Consensus.Ancestors
import AccountabilityGadget.Ledger.AnalyzeBlock

/-!
# From a committed block down to genesis

The task `analyze_block` reads the ancestors of a committed block while the consensus core goes on,
stores more blocks and replaces blocks by others with the same digest.

* `walk` — the loop of the task, with the store that each read sees.
* `Represents`, `represents_written` — the core's view of the bytes in the store, and the bytes that
  a core writes.
* `walk_ends` — down from a stored block, every block read was first stored before the one above it.
* `stored_blocks_closed` — every stored block has the certificate of genesis or its parent in the
  store, the parents of parents are there, and every walk ends at genesis.
-/

set_option autoImplicit false

namespace AccountabilityGadget.Ledger

open Encoding Consensus
open Network (block1 block2 block3)

/-! ## The walk -/

/-- The loop of `analyze_block` at the block `blk`, after `n` reads, the `k`-th from the `k`-th
store. -/
def walk (cr : BatchCrypto) : ℕ → (ℕ → Store) → List Block → Block → Phase
  | 0, _, blks, blk => .walking blks blk
  | n + 1, stores, blks, blk =>
    match getParentBlock cr (stores 0) blk with
    | .error p => .stopped p
    | .ok none => .processing (blk :: blks) []
    | .ok (some parent) => walk cr n (fun k => stores (k + 1)) (blk :: blks) parent

variable {cr : BatchCrypto}

/-- It is what the task does in one step. -/
theorem analyze_walking {n : Node} {blks : List Block} {blk : Block}
    (h : n.phase = .walking blks blk) :
    (n.analyze cr).map Node.phase = some (walk cr 1 (fun _ => n.mempool.store) blks blk) := by
  unfold Node.analyze walk
  rw [h]
  dsimp only
  cases getParentBlock cr n.mempool.store blk with
  | error p => rfl
  | ok parent => cases parent <;> rfl

/-- The core's view of a store: what `bincode::deserialize` makes of each value. -/
def Represents (cr : Crypto) (bytes : Store)
    (store : Digest → Option (Except (Fault DecodeError) Block)) : Prop :=
  ∀ d, store d = (bytes.read d.toBytes).map (Block.tryFrom cr)

/-- A block in the view is read from the store. -/
theorem Represents.getParentBlock {bytes : Store}
    {store : Digest → Option (Except (Fault DecodeError) Block)}
    (h : Represents cr.toCrypto bytes store) {b p : Block}
    (hb : b.digest cr ≠ Block.genesis.digest cr) (hqc : b.qc.eq .genesis = false)
    (hp : store b.qc.hash = some (.ok p)) : getParentBlock cr bytes b = .ok (some p) := by
  have hread := h b.qc.hash
  rw [hp] at hread
  obtain ⟨v, hv, hdec⟩ := Option.map_eq_some_iff.mp hread.symm
  unfold Ledger.getParentBlock
  rw [if_neg hb, hqc, if_neg Bool.false_ne_true, Block.parent, hv]
  dsimp only
  rw [hdec]
  rfl

/-! ## The blocks that a core stores -/

def Effect.store? : Effect → Option Block
  | .store b => some b
  | _ => none

/-- The blocks that a core has stored, in order. -/
def stored (log : List Effect) : List Block := log.filterMap Effect.store?

/-- The store of a core that is the only one to write. -/
def written (cr : BatchCrypto) (log : List Effect) : Store :=
  (stored log).foldl (storeBlock cr) .empty

theorem mem_stored {log : List Effect} {b : Block} : b ∈ stored log ↔ .store b ∈ log := by
  rw [stored, List.mem_filterMap]
  constructor
  · rintro ⟨e, he, hb⟩
    cases e <;> cases hb
    exact he
  · exact fun h => ⟨_, h, rfl⟩

theorem Represents.storeBlock {bytes : Store}
    {store : Digest → Option (Except (Fault DecodeError) Block)}
    (h : Represents cr.toCrypto bytes store) (hbase : cr.Base64RoundTrip) {b : Block}
    (hb : b.Fits) : Represents cr.toCrypto (storeBlock cr bytes b)
      (Function.update store (b.digest cr) (some (.ok b))) := by
  intro d
  unfold Ledger.storeBlock
  by_cases hd : d = b.digest cr
  · rw [hd, Function.update_self, Store.read_write_self, Option.map_some,
      Block.tryFrom_encode hbase hb]
  · rw [Function.update_of_ne hd, Store.read_write_of_ne]
    · exact h d
    · exact fun hkey => hd (Digest.toBytes_injective hkey)

/-- **The bytes that a core writes are what it sees.** -/
theorem represents_written {env : Consensus.Env} (hbase : env.cr.Base64RoundTrip)
    {s : Consensus.Core} (hr : ((Core.machine env).restrict
      fun _ i => ∀ d v, i ≠ .storeWrite d v).Reachable s) (hfits : ∀ b ∈ stored s.log, b.Fits) :
    Represents env.cr.toCrypto (written env.cr s.log) s.store := by
  induction hr with
  | init h =>
    rw [show _ = Core.new env from h]
    exact fun d => rfl
  | @step s s' i _ hs ih =>
    rcases Core.step_cases hs.2 with ⟨hstore, es, hlog, hes⟩ | ⟨d, v, rfl, -⟩ |
      ⟨b, b0, b1, -, -, hstore, es, hlog, hes⟩
    · have hquiet : stored es = [] := by
        apply List.eq_nil_iff_forall_not_mem.mpr
        intro b hb
        exact hes _ (mem_stored.mp hb)
      have hsame : stored s'.log = stored s.log := by
        rw [hlog, stored, List.filterMap_append]
        exact (congrArg _ hquiet).trans (List.append_nil _)
      rw [hsame] at hfits
      rw [hstore, written, hsame]
      exact ih hfits
    · exact absurd rfl (hs.1 d v)
    · have hquiet : stored es = [] := by
        apply List.eq_nil_iff_forall_not_mem.mpr
        intro c hc
        rcases hes _ (mem_stored.mp hc) with hq | hq | ⟨hq, -⟩
        · exact hq
        · cases hq
        · cases hq
      have hone : stored s'.log = stored s.log ++ [b] := by
        rw [hlog, stored, List.filterMap_append]
        exact congrArg (stored s.log ++ b :: ·) hquiet
      rw [hone] at hfits
      rw [hstore, written, hone, List.foldl_append]
      exact (ih fun c hc => hfits c (List.mem_append_left _ hc)).storeBlock hbase
        (hfits b (by simp))

/-- The preimages of stored blocks are in `S`. -/
def StoredIn (S : Bytes → Prop) (s : Consensus.Core) : Prop := ∀ b, .store b ∈ s.log → S b.preimage

/-- The runs of a core in which block keys are written by the core only. -/
def blockRuns (env : Consensus.Env) (S : Bytes → Prop) : Machine Consensus.Core Core.Input :=
  ((Core.machine env).within (StoredIn S)).restrict (OwnBlocks env)

variable {env : Consensus.Env} {S : Bytes → Prop} {s s' : Consensus.Core}

/-- What holds of every state of these runs. -/
structure BlocksInv (env : Consensus.Env) (S : Bytes → Prop) (s : Consensus.Core) : Prop where
  rooted : Rooted env s
  storedIn : StoredIn S s
  running : s.call ≠ .stopped (.expect "We should have all ancestors of delivered blocks")

theorem blocksInv_of_reachable (hr : (blockRuns env S).Reachable s) : BlocksInv env S s := by
  refine Machine.invariant ?_ ?_ hr
  · intro s h
    refine ⟨?_, h.2, ?_⟩
    · rw [show s = Core.new env from h.1]
      exact rooted_new
    · rw [show s = Core.new env from h.1]
      unfold Core.new
      dsimp only
      split <;> exact fun h => by cases h
  · intro s i s' h hs
    exact ⟨h.rooted.step hs.1 hs.2.1, hs.2.2, h.rooted.not_stopped hs.2.1 h.running⟩

theorem log_leads (hl : (blockRuns env S).Leads s s') : s.log <+: s'.log := by
  induction hl with
  | refl => exact List.prefix_rfl
  | tail _ hst ih =>
    obtain ⟨i, hi⟩ := hst
    obtain ⟨es, hlog, -⟩ := Core.step_writes hi.2.1
    exact ih.trans ⟨es, hlog.symm⟩

/-- A core that goes on while the task reads, and the store at each read. -/
structure Schedule (env : Consensus.Env) (S : Bytes → Prop) (s : Consensus.Core) where
  core : ℕ → Consensus.Core
  store : ℕ → Store
  start : core 0 = s
  leads : ∀ k, (blockRuns env S).Leads (core k) (core (k + 1))
  represents : ∀ k, Represents env.cr.toCrypto (store k) (core k).store

/-- What is left of the schedule after the first read. -/
def Schedule.rest (σ : Schedule env S s) : Schedule env S (σ.core 1) :=
  ⟨fun k => σ.core (k + 1), fun k => σ.store (k + 1), rfl, fun k => σ.leads (k + 1),
    fun k => σ.represents (k + 1)⟩

theorem walk_genesis {stores : ℕ → Store} {blks : List Block} {blk : Block}
    (h : blk.digest cr = Block.genesis.digest cr) :
    walk cr 1 stores blks blk = .processing (blk :: blks) [] := by
  unfold walk getParentBlock
  rw [if_pos h]

section

variable (hfree : env.cr.CollisionFree S) (hdefault : ∀ x, S x → env.cr.sha512 x ≠ .default)

include hfree hdefault

/-- **Every walk down from a stored block ends.**  The induction is on the log up to the first block
with the digest of the current one: its parent is on the log before. -/
theorem walk_ends (pre : List Effect) : ∀ {s : Consensus.Core} (σ : Schedule env S s)
    (blks : List Block) (blk : Block), (blockRuns env S).Reachable s → pre <+: s.log →
    .store blk ∈ s.log → (∃ c, .store c ∈ pre ∧ c.digest env.cr = blk.digest env.cr) →
    ∃ n ≤ (stored pre).length + 1, ∃ blks', walk env.cr n σ.store blks blk =
      .processing blks' [] := by
  induction pre using List.reverseRecOn with
  | nil =>
    rintro s σ blks blk - - - ⟨c, hc, -⟩
    cases hc
  | append_singleton pre e ih =>
    intro s σ blks blk hr hpre hblk ⟨c, hc, hcd⟩
    have hlen : (stored pre).length ≤ (stored (pre ++ [e])).length := by
      rw [stored, stored, List.filterMap_append, List.length_append]
      omega
    by_cases hearlier : ∃ c, .store c ∈ pre ∧ c.digest env.cr = blk.digest env.cr
    · obtain ⟨n, hn, hwalk⟩ := ih σ blks blk hr ((List.prefix_append pre [e]).trans hpre) hblk
        hearlier
      exact ⟨n, by omega, hwalk⟩
    -- the block with the digest of the current one that was stored first
    obtain rfl : e = .store c := by
      rcases List.mem_append.mp hc with hc | hc
      · exact absurd ⟨c, hc, hcd⟩ hearlier
      · exact (List.mem_singleton.mp hc).symm
    have hone : (stored (pre ++ [.store c])).length = (stored pre).length + 1 := by
      rw [stored, List.filterMap_append, List.length_append]
      rfl
    by_cases hgenesis : blk.digest env.cr = Block.genesis.digest env.cr
    · exact ⟨1, by omega, _, walk_genesis hgenesis⟩
    cases hqc : blk.qc.eq .genesis with
    | true =>
      have hread : getParentBlock env.cr (σ.store 0) blk = .ok (some .genesis) := by
        rw [getParentBlock, if_neg hgenesis, if_pos hqc]
      refine ⟨2, by omega, .genesis :: blk :: blks, ?_⟩
      rw [walk, hread]
      exact walk_genesis rfl
    | false =>
      obtain ⟨hrooted, hin, -⟩ := blocksInv_of_reachable hr
      obtain ⟨p, hp, hpd⟩ := (hrooted.parent hblk).resolve_left (by simp [hqc])
      obtain ⟨-, hplog⟩ := hrooted.keyed _ _ hp
      have hread : getParentBlock env.cr (σ.store 0) blk = .ok (some p) :=
        (σ.represents 0).getParentBlock hgenesis hqc (by rw [σ.start]; exact hp)
      have hclog : .store c ∈ s.log := hpre.subset hc
      have hhash : c.qc.hash = blk.qc.hash :=
        (Block.preimage_inj (hfree _ _ (hin c hclog) (hin blk hblk) hcd)).2.2.2
      -- the parent of the first block was there before it
      have hbefore : ∃ d, .store d ∈ pre ∧ d.digest env.cr = p.digest env.cr := by
        rcases hrooted.grounded.initial hpre pre _ [] rfl c rfl with hg | ⟨d, hd, hdd⟩
        · have hzero : p.digest env.cr = .default := by
            rw [hpd, ← hhash]
            exact (QC.eq_genesis.mp hg).1
          exact absurd hzero (hdefault _ (hin p hplog))
        · exact ⟨d, hd, by rw [hdd, hhash, hpd]⟩
      have hlater : (blockRuns env S).Leads s (σ.core 1) := by
        have hleads := σ.leads 0
        rw [σ.start] at hleads
        exact hleads
      have hlog := log_leads hlater
      obtain ⟨n, hn, hwalk⟩ := ih σ.rest (blk :: blks) p (hr.leads hlater)
        (((List.prefix_append pre _).trans hpre).trans hlog) (hlog.subset hplog) hbefore
      refine ⟨n + 1, by omega, ?_⟩
      rw [walk, hread]
      exact hwalk

end

/-- What is claimed of the blocks in the store. -/
structure ClosedUnderParents (env : Consensus.Env) (S : Bytes → Prop) (s : Consensus.Core) :
    Prop where
  parent : ∀ d b, s.store d = some (.ok b) → b.qc.eq .genesis = true ∨
    ∃ p, s.store b.qc.hash = some (.ok p) ∧ p.digest env.cr = b.qc.hash
  /-- Only the decoder can panic, on a foreign value with the key of the parent. -/
  ancestors : ∀ b p, s.getAncestors b = .error (.panic p) →
    p = .slice ∧ s.store b.parent = some (.error (.panic p))
  running : s.call ≠ .stopped (.expect "We should have all ancestors of delivered blocks")
  /-- The walk from a committed block, from now on. -/
  walk : ∀ b0 b1 b, .commit b0 b1 b ∈ s.log → ∀ σ : Schedule env S s,
    ∃ n ≤ (stored s.log).length + 1, ∃ blks, walk env.cr n σ.store [] b0 = .processing blks []

/-- **Stored blocks are closed under parents**, in every run in which block keys are written by the
core only. -/
theorem stored_blocks_closed (env : Consensus.Env) (S : Bytes → Prop)
    (hfree : env.cr.CollisionFree S) (hdefault : ∀ x, S x → env.cr.sha512 x ≠ .default)
    (s : Consensus.Core) (hr : (blockRuns env S).Reachable s) : ClosedUnderParents env S s := by
  obtain ⟨hrooted, -, hrunning⟩ := blocksInv_of_reachable hr
  refine ⟨?_, ?_, hrunning, ?_⟩
  · intro d b hb
    exact hrooted.parent (hrooted.keyed d b hb).2
  · intro b p ha
    exact ⟨hrooted.faults _ _ (hrooted.getAncestors ha), hrooted.getAncestors ha⟩
  · intro b0 b1 b hc σ
    rcases hrooted.committed b0 b1 b hc with rfl | hb0
    · exact ⟨1, by omega, _, walk_genesis rfl⟩
    · exact walk_ends hfree hdefault s.log σ [] b0 hr List.prefix_rfl hb0 ⟨b0, hb0, rfl⟩

/-! ## A leader that commits its first block -/

def commitRun : List Core.Input :=
  [.payload [], .next, .next, .payload [], .next, .next, .payload [], .next]

def commitPreimages : List Bytes := [block1, block2, block3].map Block.preimage

/-- Anything but a write of another task. -/
def notStoreWrite : Core.Input → Bool
  | .storeWrite _ _ => false
  | _ => true

/-- The first block is committed, and there is a store to walk through. -/
theorem stored_blocks_closed_leader : ∃ s : Consensus.Core,
    .commit block1 block2 block3 ∈ s.log ∧
      Nonempty (Schedule (sampleEnv keyA) (· ∈ commitPreimages) s) ∧
      ClosedUnderParents (sampleEnv keyA) (· ∈ commitPreimages) s := by
  have hrun : ((Machine.execIf (fun _ => notStoreWrite)
      (fun s i => (Core.step (sampleEnv keyA) s i).filter fun s =>
        (stored s.log).all fun b => commitPreimages.contains b.preimage)
      (Core.new (sampleEnv keyA)) commitRun).any fun s =>
        decide (.commit block1 block2 block3 ∈ s.log) &&
          decide (stored s.log = [block1, block2, block3])) = true := by
    decide +kernel
  rw [Option.any_eq_true] at hrun
  obtain ⟨s, hs, h⟩ := hrun
  obtain ⟨hcommit, hstored⟩ := Bool.and_eq_true_iff.mp h
  have hfree : ∀ x ∈ commitPreimages, sampleBatch.sha512 x ≠ .default ∧
      ∀ y ∈ commitPreimages, sampleBatch.sha512 x = sampleBatch.sha512 y → x = y := by
    decide +kernel
  have hown : (((Core.machine (sampleEnv keyA)).within (StoredIn (· ∈ commitPreimages))).restrict
      fun _ i => ∀ d v, i ≠ .storeWrite d v).Reachable s := by
    refine Machine.reachable_execIf_within ?_ ?_ (.init ⟨rfl, fun b hb => by cases hb⟩) hs
    · rintro s i hi d v rfl
      cases hi
    · intro s hs b hb
      exact List.contains_iff_mem.mp (List.all_eq_true.mp hs b (mem_stored.mpr hb))
  have hr : (blockRuns (sampleEnv keyA) (· ∈ commitPreimages)).Reachable s := by
    apply Machine.Reachable.mono ?_ ?_ hown
    · exact fun _ h => h
    · intro s i t h
      refine ⟨?_, h.2⟩
      cases i with
      | storeWrite d v => exact absurd rfl (h.1 d v)
      | _ => trivial
  have hwrites : ((Core.machine (sampleEnv keyA)).restrict
      fun _ i => ∀ d v, i ≠ .storeWrite d v).Reachable s := by
    apply Machine.Reachable.mono ?_ ?_ hown
    · exact fun _ h => h.1
    · exact fun _ _ _ h => ⟨h.1, h.2.1⟩
  refine ⟨s, of_decide_eq_true hcommit, ⟨?_⟩, stored_blocks_closed (sampleEnv keyA) _
    (fun x y hx hy => (hfree x hx).2 y hy) (fun x hx => (hfree x hx).1) s hr⟩
  refine ⟨fun _ => s, fun _ => written sampleBatch s.log, rfl, fun _ => .refl, fun _ =>
    represents_written sampleCrypto_base64RoundTrip hwrites ?_⟩
  rw [of_decide_eq_true hstored]
  intro b hb
  simp only [List.mem_cons, List.not_mem_nil, or_false] at hb
  rcases hb with rfl | rfl | rfl <;>
    exact ⟨by decide, (fun tc htc => by cases htc), by decide⟩

end AccountabilityGadget.Ledger
