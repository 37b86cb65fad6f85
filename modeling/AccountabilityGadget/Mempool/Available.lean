import AccountabilityGadget.Consensus.Ready
import AccountabilityGadget.Mempool.Replica

/-!
# The payloads of processed blocks are there

`handle_proposal` asks the mempool for the payloads of a block before the block is processed, and
the mempool answers through a channel.

* `Replica.Handshake` — the answer that the core waits for is the one to its own question.
* `Replica.payloads_available` — a node that proposes, stores or votes for a block has stored what
  the block lists.
-/

set_option autoImplicit false

namespace AccountabilityGadget.Mempool

open Consensus

/-- The consensus waits for an answer to it. -/
def ConsensusMempoolMessage.IsRequest : ConsensusMempoolMessage → Bool
  | .get _ | .verify _ => true
  | .cleanup _ _ => false

/-- A value in the database is a payload or a block, under its digest. -/
def Keyed (cr : BatchCrypto) (s : Store) : Prop :=
  ∀ (d : Digest) v, s.read d.toBytes = some v →
    (∃ p : Payload, p.digest cr.toCrypto = d ∧ v = p.encode) ∨
      ∃ b : Block, b.digest cr = d ∧ v = b.encode

namespace Keyed

variable {cr : BatchCrypto} {s : Store} (h : Keyed cr s)

include h

theorem withPayload {env : Env} (henv : env.cr = cr.toCrypto) (p : Payload) :
    Keyed cr (Core.withPayload env s p) := by
  intro d v hv
  by_cases hd : d = p.digest env.cr
  · rw [hd, Core.withPayload, Store.read_write_self, Option.some.injEq] at hv
    exact .inl ⟨p, by rw [hd, henv], hv.symm⟩
  · rw [Core.withPayload, Store.read_write_of_ne _ fun he => hd (Digest.toBytes_injective he)] at hv
    exact h d v hv

theorem write (b : Block) : Keyed cr (s.write (b.digest cr).toBytes b.encode) := by
  intro d v hv
  by_cases hd : d = b.digest cr
  · rw [hd, Store.read_write_self, Option.some.injEq] at hv
    exact .inr ⟨b, hd.symm, hv.symm⟩
  · rw [Store.read_write_of_ne _ fun he => hd (Digest.toBytes_injective he)] at hv
    exact h d v hv

end Keyed

theorem read_write_ne_none {s : Store} {key : Bytes} (h : s.read key ≠ none) (key' value : Bytes) :
    (s.write key' value).read key ≠ none := by
  by_cases hk : key = key'
  · rw [hk, Store.read_write_self]
    exact Option.some_ne_none _
  · rwa [Store.read_write_of_ne _ hk]

namespace Replica

variable (env : Setup)

/-- The node has stored something under the digest. -/
def Stored (r : Replica) (d : Digest) : Prop := r.mempool.store.read d.toBytes ≠ none

def Available (r : Replica) (b : Block) : Prop := ∀ d ∈ b.payload, r.Stored d

/-- The store has a payload or a block with the digest. -/
def Holds (cr : BatchCrypto) (r : Replica) (d : Digest) : Prop :=
  (∃ p : Payload, p.digest cr.toCrypto = d ∧ r.mempool.store.read d.toBytes = some p.encode) ∨
    ∃ b : Block, b.digest cr = d ∧ r.mempool.store.read d.toBytes = some b.encode

/-- The questions in the channel. -/
def requests (r : Replica) : List ConsensusMempoolMessage := r.channel.filter (·.IsRequest)

/-- What an answer to the call says about the store. -/
def Promise (r : Replica) : Call → Answer → Prop
  | .verifying b, .status st => st = .accept → r.Available b
  | .generateProposal _, .payload ds => ∀ d ∈ ds, r.Stored d
  | _, _ => False

/-- A core that waits has asked one question, or one answer to it is on its way. -/
def Handshake (r : Replica) : Prop :=
  r.requests = (env.request r.consensus.call).toList ∧ r.answers = [] ∨
    env.request r.consensus.call ≠ none ∧ r.requests = [] ∧
      ∃ a, r.answers = [a] ∧ r.Promise r.consensus.call a

structure Inv (r : Replica) : Prop where
  keyed : Keyed env.consensus.cr r.mempool.store
  queue : ∀ d ∈ r.mempool.queue, r.Stored d
  ready : ∀ b, r.consensus.Ready b → r.Available b
  log : ∀ b, .propose b ∈ r.consensus.log ∨ .store b ∈ r.consensus.log ∨
    .vote b ∈ r.consensus.log → r.Available b
  handshake : Handshake env r

/-- The synchronizer of the mempool hands a block back when its payloads are stored, and the network
delivers no `LoopBack` messages. -/
def Served (r : Replica) : Input → Prop
  | .consensus (.payloadReady b) => r.Available b
  | .consensus (.deliver (.loopBack _)) => False
  | _ => True

variable {env} {r r' : Replica} {b : Block}

theorem Available.mono (h : r.Available b) (hs : ∀ d, r.Stored d → r'.Stored d) : r'.Available b :=
  fun d hd => hs d (h d hd)

theorem Promise.mono {call : Call} {a : Answer} (h : r.Promise call a)
    (hs : ∀ d, r.Stored d → r'.Stored d) : r'.Promise call a := by
  unfold Promise at h ⊢
  split at h
  · exact fun hst => (h hst).mono hs
  · exact fun d hd => hs d (h d hd)
  · exact h.elim

/-! ### Questions -/

theorem requests_cons_cleanup {ds : List Digest} {n : RoundNumber}
    {ms : List ConsensusMempoolMessage} :
    (.cleanup ds n :: ms : List ConsensusMempoolMessage).filter (·.IsRequest) =
      ms.filter (·.IsRequest) :=
  List.filter_cons_of_neg (by simp [ConsensusMempoolMessage.IsRequest])

theorem isRequest_of_request {call : Call} {m : ConsensusMempoolMessage}
    (h : env.request call = some m) : m.IsRequest = true := by
  unfold Setup.request at h
  split at h
  · split at h
    · cases h
    · cases h
      rfl
  · cases h
    rfl
  · cases h

/-- The core that asks is the core that waits. -/
theorem awaiting_of_request {s : Consensus.Core} (h : env.request s.call ≠ none) :
    s.Awaiting env.consensus := by
  unfold Setup.request at h
  split at h
  · rename_i tc hcall
    split at h
    · exact absurd rfl h
    · rename_i hboycott
      exact .inr ⟨Bool.eq_false_iff.mpr hboycott, tc, hcall⟩
  · rename_i b hcall
    exact .inl ⟨b, hcall⟩
  · exact absurd rfl h

theorem call_of_get {call : Call} {max : ℕ} (h : env.request call = some (.get max)) :
    ∃ tc, call = .generateProposal tc := by
  unfold Setup.request at h
  split at h
  · exact ⟨_, rfl⟩
  · cases h
  · cases h

theorem call_of_verify {call : Call} (h : env.request call = some (.verify b)) :
    call = .verifying b := by
  unfold Setup.request at h
  split at h
  · split at h <;> cases h
  · cases h
    rfl
  · cases h

/-- The messages of a step of the consensus contain a question if it starts to wait. -/
theorem requests_withConsensus (c : Consensus.Core) :
    (r.withConsensus env c).requests =
      r.requests ++ if c.call = r.consensus.call then [] else (env.request c.call).toList := by
  have hcleanups : ∀ es : List Effect, (es.filterMap Effect.cleanup?).filter (·.IsRequest) = [] := by
    intro es
    rw [List.filter_eq_nil_iff]
    intro m hm
    obtain ⟨e, -, he⟩ := List.mem_filterMap.mp hm
    cases e <;> cases he
    simp [ConsensusMempoolMessage.IsRequest]
  have hrequest : (env.request c.call).toList.filter (·.IsRequest) = (env.request c.call).toList := by
    rw [List.filter_eq_self]
    intro m hm
    exact isRequest_of_request (Option.mem_toList.mp hm)
  unfold requests withConsensus
  dsimp only
  rw [List.filter_append, List.filter_append, hcleanups, List.append_nil]
  congr 1
  split
  · rfl
  · exact hrequest

/-! ### The mempool -/

/-- The answer to `Get` lists digests of the queue, or that of the payload just stored. -/
theorem handleGet_answer (menv : Env) (s : Core) (max : ℕ) (made : Option Payload) :
    (s.handleGet menv max made).1.queue ⊆ s.queue ∧ ∀ d ∈ (s.handleGet menv max made).2,
      d ∈ s.queue ∨ (s.handleGet menv max made).1.store.read d.toBytes ≠ none := by
  unfold Core.handleGet Core.getPayload
  by_cases hempty : s.queue = []
  · rw [if_pos hempty]
    cases made with
    | none => exact ⟨List.Subset.refl _, fun d hd => by cases hd⟩
    | some p =>
      simp only [Core.processOwnPayload]
      by_cases hq : s.queue.length < menv.parameters.queueCapacity
      · rw [if_pos hq]
        refine ⟨List.Subset.refl _, fun d hd => .inr ?_⟩
        rw [List.mem_singleton.mp hd]
        exact (Store.read_write_self ..).trans_ne (Option.some_ne_none _)
      · rw [if_neg hq]
        exact ⟨List.Subset.refl _, fun d hd => by cases hd⟩
  · rw [if_neg hempty]
    exact ⟨List.filter_subset_self _, fun d hd => .inl (List.mem_of_mem_take hd)⟩

/-- A step of the mempool. -/
theorem Inv.mempool (h : Inv env r) {m : Core} {channel : List ConsensusMempoolMessage}
    {answers : List Answer} {payloads : List Payload} {pushed : List Digest}
    (hkeyed : Keyed env.consensus.cr m.store)
    (hstored : ∀ d, r.Stored d → m.store.read d.toBytes ≠ none)
    (hqueue : ∀ d ∈ m.queue, m.store.read d.toBytes ≠ none)
    (hshake : Handshake env { r.withMempool env m with
      channel := channel, answers := answers, payloads := payloads, pushed := pushed }) :
    Inv env { r.withMempool env m with
      channel := channel, answers := answers, payloads := payloads, pushed := pushed } where
  keyed := hkeyed
  queue := hqueue
  ready b hb := (h.ready b hb).mono hstored
  log b hb := (h.log b hb).mono hstored
  handshake := hshake

/-- A question that is still in the channel, or an answer that stays true. -/
theorem Handshake.mono (h : Handshake env r) (hrequests : r'.requests = r.requests)
    (hanswers : r'.answers = r.answers) (hcall : r'.consensus.call = r.consensus.call)
    (hs : ∀ d, r.Stored d → r'.Stored d) : Handshake env r' := by
  unfold Handshake
  rw [hrequests, hanswers, hcall]
  exact h.imp_right fun ⟨hne, he, a, ha, hp⟩ => ⟨hne, he, a, ha, hp.mono hs⟩

theorem Inv.message (h : Inv env r) {m : MempoolMessage}
    (hs : r.step env (.message m) = some r') : Inv env r' := by
  obtain ⟨hstore, hqueue⟩ := r.mempool.handle_frame env.mempool m
  have hgrows : ∀ d, r.Stored d → (r.mempool.handle env.mempool m).store.read d.toBytes ≠ none := by
    intro d hd
    rw [hstore]
    cases Core.admits env.mempool r.mempool.queue.length m with
    | none => exact hd
    | some p => exact read_write_ne_none hd _ _
  cases hs
  refine h.mempool ?_ hgrows ?_ (h.handshake.mono rfl rfl rfl hgrows)
  · rw [hstore]
    cases Core.admits env.mempool r.mempool.queue.length m with
    | none => exact h.keyed
    | some p => exact h.keyed.withPayload rfl p
  · intro d hd
    cases ha : Core.admits env.mempool r.mempool.queue.length m with
    | none =>
      rw [hqueue, ha] at hd
      exact hgrows d (h.queue d hd)
    | some p =>
      rw [hqueue, ha] at hd
      rcases List.mem_append.mp hd with hd | hd
      · exact hgrows d (h.queue d hd)
      · rw [List.mem_singleton.mp hd, hstore, ha]
        exact (Store.read_write_self ..).trans_ne (Option.some_ne_none _)

/-- A question in the channel is the one that the core waits for. -/
theorem Handshake.asked (h : Handshake env r) {m : ConsensusMempoolMessage}
    {ms : List ConsensusMempoolMessage} (hchannel : r.channel = m :: ms) (hm : m.IsRequest = true) :
    env.request r.consensus.call = some m ∧ ms.filter (·.IsRequest) = [] ∧ r.answers = [] := by
  unfold Handshake requests at h
  rw [hchannel, List.filter_cons_of_pos hm] at h
  rcases h with ⟨he, hanswers⟩ | ⟨-, he, -⟩
  · cases hr : env.request r.consensus.call with
    | none =>
      rw [hr] at he
      cases he
    | some m' =>
      rw [hr] at he
      obtain ⟨rfl, hms⟩ := List.cons.inj he
      exact ⟨rfl, hms, hanswers⟩
  · cases he

/-- The mempool takes a message from the channel. -/
theorem Inv.serve (h : Inv env r) {made : Option Payload} {storeError : Bool}
    (hs : r.step env (.serve made storeError) = some r') : Inv env r' := by
  unfold step at hs
  dsimp only at hs
  split at hs
  · cases hs
  · rename_i m ms hchannel
    cases hs
    cases m with
    | cleanup ds n =>
      refine h.mempool h.keyed (fun d hd => hd) (fun d hd => h.queue d (List.mem_of_mem_filter hd)) ?_
      refine h.handshake.mono ?_ rfl rfl fun d hd => hd
      unfold requests
      rw [hchannel, requests_cons_cleanup]
    | get max =>
      obtain ⟨hrequest, hms, hanswers⟩ := h.handshake.asked hchannel rfl
      obtain ⟨hqueue, hanswer⟩ := handleGet_answer env.mempool r.mempool max made
      have hgrows : ∀ d, r.Stored d →
          (r.mempool.handleGet env.mempool max made).1.store.read d.toBytes ≠ none := by
        intro d hd
        rcases r.mempool.store_handleGet env.mempool max made with hstore | ⟨p, -, hstore⟩
        · rw [hstore]
          exact hd
        · rw [hstore]
          exact read_write_ne_none hd _ _
      refine h.mempool ?_ hgrows (fun d hd => hgrows d (h.queue d (hqueue hd))) ?_
      · rcases r.mempool.store_handleGet env.mempool max made with hstore | ⟨p, -, hstore⟩
        · rw [hstore]
          exact h.keyed
        · rw [hstore]
          exact h.keyed.withPayload rfl p
      · obtain ⟨tc, hcall⟩ := call_of_get hrequest
        refine .inr ⟨hrequest.trans_ne (Option.some_ne_none _), hms,
          .payload (r.mempool.handleGet env.mempool max made).2, ?_, ?_⟩
        · exact congrArg (· ++ _) hanswers
        · show Promise _ r.consensus.call _
          rw [hcall]
          exact fun d hd => (hanswer d hd).elim (fun hq => hgrows d (h.queue d hq)) id
    | verify b =>
      obtain ⟨hrequest, hms, hanswers⟩ := h.handshake.asked hchannel rfl
      refine ⟨h.keyed, h.queue, h.ready, h.log, .inr ⟨hrequest.trans_ne (Option.some_ne_none _),
        hms, _, congrArg (· ++ _) hanswers, ?_⟩⟩
      show Promise _ r.consensus.call _
      rw [call_of_verify hrequest]
      intro hst d hd
      split at hst
      · cases hst
      · split at hst
        · rename_i hverify
          have hsome := List.all_eq_true.mp hverify d hd
          exact Option.isSome_iff_ne_none.mp hsome
        · cases hst

/-! ### The consensus -/

/-- The blocks that a step of the consensus writes. -/
theorem writeBlocks {cr : BatchCrypto} (bs : List Block) {s : Store} (h : Keyed cr s) :
    Keyed cr (bs.foldl (fun store b => store.write (b.digest cr).toBytes b.encode) s) ∧
      ∀ key, s.read key ≠ none →
        (bs.foldl (fun store b => store.write (b.digest cr).toBytes b.encode) s).read key ≠ none := by
  induction bs generalizing s with
  | nil => exact ⟨h, fun _ hkey => hkey⟩
  | cons b bs ih =>
    obtain ⟨hkeyed, hread⟩ := ih (h.write b)
    exact ⟨hkeyed, fun key hkey => hread key (read_write_ne_none hkey _ _)⟩

/-- A step of the consensus. -/
theorem Inv.withConsensus (h : Inv env r) {i : Consensus.Core.Input} {c : Consensus.Core}
    {answers : List Answer} (hs : r.consensus.step env.consensus i = some c)
    (haccept : ∀ b, i = .status .accept → r.consensus.call = .verifying b → r.Available b)
    (hown : ∀ ds, i = .payload ds → ∀ d ∈ ds, r.Stored d)
    (hwoken : ∀ b, i = .payloadReady b → r.Available b)
    (hloopBack : ∀ b, i ≠ .deliver (.loopBack b))
    (hshake : Handshake env ({ r with answers := answers }.withConsensus env c)) :
    Inv env ({ r with answers := answers }.withConsensus env c) := by
  obtain ⟨hkeyed, hread⟩ := writeBlocks
    ((c.log.drop r.consensus.log.length).filterMap Effect.stored?) h.keyed
  have hgrows : ∀ d, r.Stored d → ({ r with answers := answers }.withConsensus env c).Stored d :=
    fun d => hread d.toBytes
  refine ⟨hkeyed, fun d hd => hgrows d (h.queue d hd), ?_, ?_, hshake⟩
  · intro b hb
    refine Available.mono (r := r) ?_ hgrows
    cases Consensus.Core.step_ready hs hb with
    | before hbefore => exact h.ready b hbefore
    | accepted hi hcall => exact haccept b hi hcall
    | own hi => exact hown _ hi
    | woken hi => exact hwoken b hi
    | loopBack hi => exact absurd hi (hloopBack b)
  · intro b hb
    refine Available.mono (r := r) ?_ hgrows
    rcases hb with hb | hb | hb
    · rcases Consensus.Core.step_processed hs hb with hold | hi
      · exact h.log b (.inl hold)
      · exact hown _ hi
    · rcases Consensus.Core.step_processed hs hb with hold | hready
      · exact h.log b (.inr (.inl hold))
      · exact h.ready b hready
    · rcases Consensus.Core.step_processed hs hb with hold | hready
      · exact h.log b (.inr (.inr hold))
      · exact h.ready b hready

/-- A step that is not an answer. -/
theorem Inv.consensus (h : Inv env r) {i : Consensus.Core.Input}
    (hserved : r.Served (.consensus i)) (hs : r.step env (.consensus i) = some r') : Inv env r' := by
  have hstep : (∀ st, i ≠ .status st) ∧ (∀ ds, i ≠ .payload ds) ∧
      ∃ c, r.consensus.step env.consensus i = some c ∧ r.withConsensus env c = r' := by
    cases i with
    | payload ds => cases hs
    | status st => cases hs
    | storeWrite d v => cases hs
    | _ => exact ⟨by simp, by simp, Option.map_eq_some_iff.mp hs⟩
  obtain ⟨hstatus, hpayload, c, hc, rfl⟩ := hstep
  refine h.withConsensus hc (fun b hi => absurd hi (hstatus _)) (fun ds hi => absurd hi (hpayload ds))
    ?_ ?_ ?_
  · rintro b rfl
    exact hserved
  · rintro b rfl
    exact hserved
  · by_cases hrequest : env.request r.consensus.call = none
    · -- the core may start to wait
      have hshake := h.handshake
      unfold Handshake at hshake
      rw [hrequest] at hshake
      obtain ⟨he, hanswers⟩ := hshake.resolve_right fun hne => hne.1 rfl
      refine .inl ⟨?_, hanswers⟩
      rw [requests_withConsensus, he]
      split
      · rename_i hcall
        show _ = (env.request c.call).toList
        rw [hcall, hrequest]
        rfl
      · rfl
    · rcases Consensus.Core.step_await (awaiting_of_request hrequest) hc with
        ⟨st, hi⟩ | ⟨ds, hi⟩ | ⟨hcall, hlog⟩
      · exact absurd hi (hstatus st)
      · exact absurd hi (hpayload ds)
      · refine h.handshake.mono ?_ rfl hcall ?_
        · rw [requests_withConsensus, if_pos hcall, List.append_nil]
        · intro d hd
          exact (writeBlocks _ h.keyed).2 d.toBytes hd

/-- The core receives the answer that it waits for. -/
theorem Inv.answer (h : Inv env r) (hs : r.step env .answer = some r') : Inv env r' := by
  unfold step at hs
  dsimp only at hs
  split at hs
  · cases hs
  · rename_i a rest hanswers
    obtain ⟨c, hc, rfl⟩ := Option.map_eq_some_iff.mp hs
    obtain ⟨hne, he, a', ha', hpromise⟩ := h.handshake.resolve_left fun hno => by
      rw [hanswers] at hno
      cases hno.2
    obtain ⟨rfl, rfl⟩ : a = a' ∧ rest = [] := by
      rw [hanswers] at ha'
      exact List.cons.inj ha'
    have hidle : ¬ c.Awaiting env.consensus := by
      refine Consensus.Core.step_answered hc ?_
      cases a with
      | payload ds => exact .inr ⟨ds, rfl⟩
      | status st => exact .inl ⟨st, rfl⟩
    refine h.withConsensus hc ?_ ?_ (fun b => by cases a <;> simp [Answer.input])
      (fun b => by cases a <;> simp [Answer.input]) ?_
    · intro b hi hcall
      rw [hcall] at hpromise
      cases a with
      | payload ds => cases hi
      | status st =>
        cases hi
        exact hpromise rfl
    · intro ds hi
      cases a with
      | payload ds' =>
        cases hi
        obtain ⟨tc, hcall⟩ : ∃ tc, r.consensus.call = .generateProposal tc := by
          cases Consensus.Core.step_takes hc with
          | payload hcall => exact ⟨_, hcall⟩
        rw [hcall] at hpromise
        exact hpromise
      | status st => cases hi
    · have hnone : env.request c.call = none := not_not.mp fun hr => hidle (awaiting_of_request hr)
      refine .inl ⟨?_, rfl⟩
      rw [requests_withConsensus]
      show r.requests ++ (if c.call = r.consensus.call then [] else (env.request c.call).toList) =
        (env.request c.call).toList
      rw [he, hnone]
      split <;> rfl

/-- **Step lemma.** -/
theorem Inv.step (h : Inv env r) {i : Input} (hserved : r.Served i)
    (hs : r.step env i = some r') : Inv env r' := by
  cases i with
  | message m => exact h.message hs
  | serve made storeError => exact h.serve hs
  | answer => exact h.answer hs
  | consensus i => exact h.consensus hserved hs

theorem inv_new : Inv env (new env) where
  keyed d v hv := by cases hv
  queue d hd := by cases hd
  ready b hb := by
    rcases hb with hb | hb
    · cases hb
    · unfold new Consensus.Core.new at hb
      dsimp only at hb
      split at hb <;> cases hb
  log b hb := by rcases hb with hb | hb | hb <;> cases hb
  handshake := by
    refine .inl ⟨List.filter_eq_self.mpr ?_, rfl⟩
    intro m hm
    exact isRequest_of_request (Option.mem_toList.mp hm)

theorem inv_reachable (hr : ((machine env).restrict Served).Reachable r) : Inv env r := by
  refine Machine.invariant (P := fun r => Inv env r) ?_ ?_ hr
  · intro r h
    rw [show r = new env from h]
    exact inv_new
  · intro r i r' h hs
    exact h.step hs.1 hs.2

/-- What is stored under a digest is a payload or a block. -/
theorem Inv.holds (h : Inv env r) (hb : .propose b ∈ r.consensus.log ∨ .store b ∈ r.consensus.log ∨
    .vote b ∈ r.consensus.log) : ∀ d ∈ b.payload, r.Holds env.consensus.cr d := by
  intro d hd
  obtain ⟨v, hv⟩ := Option.ne_none_iff_exists'.mp (h.log b hb d hd)
  exact (h.keyed d v hv).imp (fun ⟨p, hp, he⟩ => ⟨p, hp, he ▸ hv⟩)
    fun ⟨c, hc, he⟩ => ⟨c, hc, he ▸ hv⟩

/-- **The payloads of a block are stored before it is processed.**  In every run without `LoopBack`
messages from the network, a node that proposes, stores or votes for a block has, under each digest
that the block lists, a payload or a block with that digest. -/
theorem payloads_available (env : Setup) (r : Replica)
    (hr : ((machine env).restrict Served).Reachable r) (b : Block)
    (hb : .propose b ∈ r.consensus.log ∨ .store b ∈ r.consensus.log ∨ .vote b ∈ r.consensus.log) :
    ∀ d ∈ b.payload, r.Holds env.consensus.cr d :=
  (inv_reachable hr).holds hb

/-- The leader of the first round stores its block, and the payload is there. -/
theorem payloads_available_lead : ∃ r : Replica, ∃ b, .store b ∈ r.consensus.log ∧
    b.payload ≠ [] ∧ ∀ d ∈ b.payload, r.Holds sampleBatch d := by
  have hrun : ((Machine.exec (step orphanSetup) (new orphanSetup)
      (lead ++ [.consensus .next])).any fun r => r.consensus.log.contains (.store orphan)) = true := by
    decide +kernel
  rw [Option.any_eq_true] at hrun
  obtain ⟨r, hexec, hstored⟩ := hrun
  have hlog : .store orphan ∈ r.consensus.log := List.contains_iff_mem.mp hstored
  refine ⟨r, orphan, hlog, by decide, payloads_available orphanSetup r
    (Machine.reachable_exec_restrict ?_ (.init rfl) hexec) orphan (.inr (.inl hlog))⟩
  intro i hi r'
  simp only [lead, List.cons_append, List.nil_append, List.mem_cons, List.not_mem_nil,
    or_false] at hi
  rcases hi with rfl | rfl | rfl | rfl <;> trivial

end Replica

end AccountabilityGadget.Mempool
