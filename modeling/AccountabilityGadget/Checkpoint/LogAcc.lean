import AccountabilityGadget.Checkpoint.Accountability
import AccountabilityGadget.LongestChain.Manager

/-!
# `LOGacc` only grows

The tree manager pushes every decided checkpoint without a check, so that the accountable ledger
grows rests on the votes: among more than two thirds that accepted a block is an honest authority,
which has checked the block against the last checkpoint.

* `checkpoints` — the blocks among the events of the extractor.
* `RespectsCheckpoints` — what the accepts of honest authorities in a ledger promise.
* `checkpoints_pairwise` — then each checkpoint extends all earlier ones.
* `manager_checkpoints` — the manager's list is the blocks among the events it has consumed.
* `log_acc_grows` — both together.
-/

set_option autoImplicit false

namespace AccountabilityGadget

open Ancestry

/-- The block of a decision. -/
def CheckpointEvent.decided : CheckpointEvent → Option Digest
  | .newCheckpoint _ b => b
  | .newProposal _ _ => none

/-- The block of a decision in an iteration before `i`. -/
def CheckpointEvent.decidedBefore (i : ℕ) : CheckpointEvent → Option Digest
  | .newCheckpoint j b => if j < i then b else none
  | .newProposal _ _ => none

/-- The blocks among the decisions, in order. -/
def checkpoints (evs : List CheckpointEvent) : List Digest := evs.filterMap CheckpointEvent.decided

/-- The last block decided before iteration `i`, or genesis. -/
def lastCheckpointBefore (cr : Crypto) (evs : List CheckpointEvent) (i : ℕ) : Digest :=
  (evs.filterMap (CheckpointEvent.decidedBefore i)).getLast?.getD (LcBlock.genesisDigest cr)

/-- The valid accepts of authorities outside `byz` are for blocks that extend the last checkpoint
the extractor sends on this ledger before the iteration. -/
def RespectsCheckpoints (cr : Crypto) (committee : CheckpointCommittee) (ord : ℕ → VoteOrder)
    (t : LcBlockTree) (byz : Finset PublicKey) (L : List Bytes) : Prop :=
  ∀ tx ∈ L, ∀ a i b, validVote cr committee tx = some (a, .accept i b) → a ∉ byz →
    t.isPrefixOf (lastCheckpointBefore cr (Extractor.events ord cr committee L) i) b = .ok true

theorem checkpoints_snoc (evs : List CheckpointEvent) (i : ℕ) (v : Option Digest) :
    checkpoints (evs ++ [.newCheckpoint i v]) = checkpoints evs ++ v.toList := by
  rw [checkpoints, List.filterMap_append]
  cases v <;> rfl

/-- In a numbered list the decisions before iteration `i` are the first `i` ones. -/
theorem decidedBefore_eq_take {evs : List CheckpointEvent}
    (hn : ∀ (m : ℕ) e, evs[m]? = some e → ∃ v, e = CheckpointEvent.newCheckpoint m v) (i : ℕ) :
    evs.filterMap (CheckpointEvent.decidedBefore i) = checkpoints (evs.take i) := by
  have htake : (evs.take i).filterMap (CheckpointEvent.decidedBefore i) =
      checkpoints (evs.take i) := by
    apply List.filterMap_congr
    intro e he
    obtain ⟨m, hm⟩ := List.mem_iff_getElem?.mp he
    rw [List.getElem?_take] at hm
    split_ifs at hm with hlt
    obtain ⟨v, rfl⟩ := hn m e hm
    simp [CheckpointEvent.decidedBefore, CheckpointEvent.decided, hlt]
  have hdrop : (evs.drop i).filterMap (CheckpointEvent.decidedBefore i) = [] := by
    rw [List.filterMap_eq_nil_iff]
    intro e he
    obtain ⟨m, hm⟩ := List.mem_iff_getElem?.mp he
    rw [List.getElem?_drop] at hm
    obtain ⟨v, rfl⟩ := hn _ e hm
    simp [CheckpointEvent.decidedBefore]
  rw [← htake, ← List.append_nil (List.filterMap _ (evs.take i)), ← hdrop, ← List.filterMap_append,
    List.take_append_drop]

/-- More than two thirds of the committee contain an authority outside a smaller third. -/
theorem exists_honest {committee : CheckpointCommittee} {A byz : Finset PublicKey}
    (hA : 2 * committee.size < 3 * A.card) (hb : 3 * byz.card < committee.size) :
    ∃ a ∈ A, a ∉ byz :=
  Finset.exists_mem_notMem_of_card_lt_card (by omega)

/-- **A decided block extends the last checkpoint before it.** -/
theorem decided_extends {cr : Crypto} {committee : CheckpointCommittee} {ord : ℕ → VoteOrder}
    {t : LcBlockTree} {byz : Finset PublicKey} {L : List Bytes}
    (hb : 3 * byz.card < committee.size) (hr : RespectsCheckpoints cr committee ord t byz L)
    {i : ℕ} {b : Digest} (h : .newCheckpoint i (some b) ∈ Extractor.events ord cr committee L) :
    t.isPrefixOf (lastCheckpointBefore cr (Extractor.events ord cr committee L) i) b = .ok true := by
  obtain ⟨A, -, hA, hacc⟩ := decided_accepts h
  obtain ⟨a, ha, hab⟩ := exists_honest hA hb
  obtain ⟨tx, htx, hv⟩ := hacc a ha
  exact hr tx htx a i b hv hab

/-- In a chain every element but the last is related to the last. -/
theorem pairwise_last {α : Type} {R : α → α → Prop} {l : List α} {z : α} (h : l.Pairwise R)
    (hz : l.getLast? = some z) : ∀ c ∈ l, c = z ∨ R c z := by
  obtain ⟨ys, rfl⟩ := List.getLast?_eq_some_iff.mp hz
  intro c hc
  rcases List.mem_append.mp hc with hc | hc
  · exact .inr ((List.pairwise_append.mp h).2.2 c hc z (by simp))
  · exact .inl (List.mem_singleton.mp hc)

/-- **The checkpoints of a ledger form a chain in the order of emission.** -/
theorem checkpoints_pairwise {cr : Crypto} {committee : CheckpointCommittee} {ord : ℕ → VoteOrder}
    {t : LcBlockTree} (hw : LcBlockTree.WellFormed cr t) {byz : Finset PublicKey} {L : List Bytes}
    (hb : 3 * byz.card < committee.size) (hr : RespectsCheckpoints cr committee ord t byz L) :
    (checkpoints (Extractor.events ord cr committee L)).Pairwise t.Ext := by
  have hn : ∀ (m : ℕ) e, (Extractor.events ord cr committee L)[m]? = some e →
      ∃ v, e = CheckpointEvent.newCheckpoint m v := fun m e h => Extractor.events_numbered h
  have hstep : ∀ m, (checkpoints ((Extractor.events ord cr committee L).take m)).Pairwise t.Ext := by
    intro m
    induction m with
    | zero => exact .nil
    | succ m ih =>
      rw [List.take_add_one]
      cases he : (Extractor.events ord cr committee L)[m]? with
      | none => simpa using ih
      | some e =>
        obtain ⟨v, rfl⟩ := hn m e he
        rw [Option.toList_some, checkpoints_snoc]
        cases v with
        | none => simpa using ih
        | some b =>
          have hext := hw.ext_of_isPrefixOf (decided_extends hb hr (List.mem_of_getElem? he))
          rw [lastCheckpointBefore, decidedBefore_eq_take hn] at hext
          refine List.pairwise_append.mpr ⟨ih, by simp, fun c hc b' hb' => ?_⟩
          rw [show b' = b by simpa [eq_comm] using hb']
          cases hlast : (checkpoints ((Extractor.events ord cr committee L).take m)).getLast? with
          | none =>
            rw [List.getLast?_eq_none_iff] at hlast
            rw [hlast] at hc
            cases hc
          | some z =>
            rw [hlast, Option.getD_some] at hext
            rcases pairwise_last ih hlast c hc with rfl | h
            · exact hext
            · exact h.trans hext
  have h := hstep (Extractor.events ord cr committee L).length
  rwa [List.take_length] at h

/-! ## The manager's list -/

/-- The event that an input of the manager carries. -/
def Manager.Input.event? : Manager.Input → Option CheckpointEvent
  | .checkpointEvent _ e => some e
  | _ => none

/-- The iterations of the decisions for a block, in order. -/
def checkpointIterations (evs : List CheckpointEvent) : List ℕ :=
  evs.filterMap fun
    | .newCheckpoint i (some _) => some i
    | _ => none

theorem onCheckpointEvent_eq (cr : Crypto) (params : TreeParameters) (ord : HashOrder Digest)
    (m : Manager) (e : CheckpointEvent) :
    (m.onCheckpointEvent cr params ord e).lcblocktree = m.lcblocktree ∧
    (m.onCheckpointEvent cr params ord e).checkpoints = m.checkpoints ++ checkpoints [e] ∧
    (m.onCheckpointEvent cr params ord e).checkpointsIterations =
      m.checkpointsIterations ++ checkpointIterations [e] := by
  cases e with
  | newProposal i b => exact ⟨rfl, (List.append_nil _).symm, (List.append_nil _).symm⟩
  | newCheckpoint i cp =>
    cases cp with
    | none => exact ⟨rfl, (List.append_nil _).symm, (List.append_nil _).symm⟩
    | some cp =>
      obtain ⟨tips, logs, stopped, he⟩ := Manager.announce_frame cr params ord
        { m with
          checkpoints := m.checkpoints ++ [cp]
          checkpointsIterations := m.checkpointsIterations ++ [i] }
      rw [Manager.onCheckpointEvent, he]
      exact ⟨rfl, rfl, rfl⟩

theorem step_checkpoints {cr : Crypto} {params : TreeParameters} {m : Manager} (i : Manager.Input) :
    (m.step cr params i).checkpoints = m.checkpoints ++ checkpoints i.event?.toList := by
  cases i with
  | message ord v =>
    rw [Manager.step, (Manager.onMessage_cases cr params ord m v).1]
    exact (List.append_nil _).symm
  | checkpointEvent ord e => exact (onCheckpointEvent_eq cr params ord m e).2.1
  | command ord cmd =>
    rw [Manager.step]
    split <;> exact (List.append_nil _).symm

/-- **The manager's list is made of the decisions that it has consumed, in order.** -/
theorem manager_checkpoints (cr : Crypto) (params : TreeParameters) :
    ∀ (is : List Manager.Input) (m : Manager), ∃ is', is' <+: is ∧
      (Manager.run cr params m is).checkpoints =
        m.checkpoints ++ checkpoints (is'.filterMap Manager.Input.event?)
  | [], m => ⟨[], List.nil_prefix, by simp [Manager.run, checkpoints]⟩
  | i :: is, m => by
    rw [Manager.run]
    split
    · obtain ⟨is', hp, he⟩ := manager_checkpoints cr params is (m.step cr params i)
      refine ⟨i :: is', (List.prefix_cons_inj i).mpr hp, ?_⟩
      rw [he, step_checkpoints, List.append_assoc, checkpoints, checkpoints, checkpoints,
        ← List.filterMap_append]
      cases hi : i.event? <;> simp [hi]
    · exact ⟨[], List.nil_prefix, by simp [checkpoints]⟩

theorem checkpoints_prefix {evs evs' : List CheckpointEvent} (h : evs <+: evs') :
    checkpoints evs <+: checkpoints evs' := h.filterMap _

/-- **`LOGacc` only grows.**  With fewer than a third Byzantine authorities, on a ledger whose
honest accepts extend the last checkpoint before them, the decided blocks form a chain in the order
of emission, and so does the list of every manager that consumes these decisions. -/
theorem log_acc_grows (cr : Crypto) (committee : CheckpointCommittee) (params : TreeParameters)
    (ord : ℕ → VoteOrder) (bs : List LcBlock) (byz : Finset PublicKey) (L : List Bytes)
    (hc : LcBlockTree.NoCollision cr bs) (hb : 3 * byz.card < committee.size)
    (hr : RespectsCheckpoints cr committee ord (LcBlockTree.addAll cr (.new cr) bs) byz L) :
    (checkpoints (Extractor.events ord cr committee L)).Pairwise (fun c c' =>
      (LcBlockTree.addAll cr (.new cr) bs).isPrefixOf c c' = .ok true) ∧
    ∀ is : List Manager.Input,
      is.filterMap Manager.Input.event? <+: Extractor.events ord cr committee L →
      (Manager.run cr params (.new cr) is).checkpoints.Pairwise fun c c' =>
        (LcBlockTree.addAll cr (.new cr) bs).isPrefixOf c c' = .ok true := by
  have hw := LcBlockTree.wellFormed_addAll hc (LcBlockTree.wellFormed_new cr)
    (LcBlockTree.within_new bs) fun b h => h
  have hmem : ∀ c ∈ checkpoints (Extractor.events ord cr committee L),
      (LcBlockTree.addAll cr (.new cr) bs).Mem c := by
    intro c hcmem
    obtain ⟨e, he, hd⟩ := List.mem_filterMap.mp hcmem
    cases e with
    | newProposal i b => cases hd
    | newCheckpoint i v =>
      cases hd
      exact (LcBlockTree.mem_of_isPrefixOf (decided_extends hb hr he)).2
  have hchain : (checkpoints (Extractor.events ord cr committee L)).Pairwise (fun c c' =>
      (LcBlockTree.addAll cr (.new cr) bs).isPrefixOf c c' = .ok true) :=
    (checkpoints_pairwise hw hb hr).imp_of_mem fun _ hc' h => hw.isPrefixOf_true (hmem _ hc') h
  refine ⟨hchain, ?_⟩
  intro is his
  obtain ⟨is', hp, he⟩ := manager_checkpoints cr params is (.new cr)
  rw [he]
  have hpre := checkpoints_prefix ((hp.filterMap Manager.Input.event?).trans his)
  exact hchain.sublist (by simpa [Manager.new] using hpre.sublist)

/-- Genesis and its child, accepted one after the other. -/
theorem log_acc_grows_two :
    (checkpoints (Extractor.events (fun _ => .stored) sampleCrypto soleCommittee
        [soleVote (.accept 0 (LcBlock.genesisDigest sampleCrypto)),
          soleVote (.accept 1 (Manager.sampleChild.digest sampleCrypto))])).Pairwise fun c c' =>
      (LcBlockTree.addAll sampleCrypto (.new sampleCrypto) [Manager.sampleChild]).isPrefixOf c c' =
        .ok true := by
  refine (log_acc_grows sampleCrypto soleCommittee ⟨0, 0⟩ (fun _ => .stored) [Manager.sampleChild] ∅
    [soleVote (.accept 0 (LcBlock.genesisDigest sampleCrypto)),
      soleVote (.accept 1 (Manager.sampleChild.digest sampleCrypto))]
    Manager.noCollision_sampleChild (by decide) fun tx htx a i b hv _ => ?_).1
  simp only [List.mem_cons, List.not_mem_nil, or_false] at htx
  rcases htx with rfl | rfl
  · rw [validVote_soleVote (by decide)] at hv
    cases hv
    decide +kernel
  · rw [validVote_soleVote (by decide)] at hv
    cases hv
    decide +kernel

end AccountabilityGadget
