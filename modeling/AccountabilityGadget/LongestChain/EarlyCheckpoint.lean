import AccountabilityGadget.LongestChain.Manager

/-!
# Checkpoints that the tree manager does not know yet

The manager unwraps the leading tip of its latest checkpoint after every new block, every new
checkpoint and in three of its commands, so it lives as long as that checkpoint is in its tree.

* `Serving` — what a live manager has received: the blocks of its tree, the checkpoints in their
  order, all of them blocks of the tree.
* `Serving.step`, `stops_of_early` — one input keeps it, unless it is the decision of an unknown
  block, which stops the manager.
* `serves_iff_timely` — the manager outlives a run, with every block and every checkpoint taken in
  and every command answered, exactly when no decision of the run is early.
-/

set_option autoImplicit false

namespace AccountabilityGadget.Manager

open LcBlockTree

/-! ## Runs -/

/-- The digests known after an input. -/
def Input.learn (cr : Crypto) (known : List Digest) (i : Input) : List Digest :=
  match i.block? with
  | none => known
  | some b => b.digest cr :: known

def Input.checkpoint? : Input → Option Digest
  | .checkpointEvent _ (.newCheckpoint _ cp) => cp
  | _ => none

/-- A message is a block whose parent is known. -/
def Input.InOrder (known : List Digest) : Input → Prop
  | .message _ v => ∃ b p, LcBlock.tryFrom v = .ok b ∧ b.parent = some p ∧ p ∈ known
  | _ => True

/-- A decided block is known. -/
def Input.Timely (known : List Digest) (i : Input) : Prop := ∀ cp, i.checkpoint? = some cp → cp ∈ known

/-- Every input satisfies `C` together with the digests known before it. -/
def Along (cr : Crypto) (C : List Digest → Input → Prop) : List Digest → List Input → Prop
  | _, [] => True
  | known, i :: is => C known i ∧ Along cr C (i.learn cr known) is

/-- The blocks and the decisions that a run brings. -/
def delivered (is : List Input) : List LcBlock := is.filterMap Input.block?

def decided (is : List Input) : List Digest := is.filterMap Input.checkpoint?

theorem delivered_cons (i : Input) (is : List Input) :
    delivered (i :: is) = i.block?.toList ++ delivered is := by
  cases h : i.block? <;> simp [delivered, h]

theorem decided_cons (i : Input) (is : List Input) :
    decided (i :: is) = i.checkpoint?.toList ++ decided is := by
  cases h : i.checkpoint? <;> simp [decided, h]

/-! ## A live manager -/

variable {cr : Crypto} {params : TreeParameters} {m : Manager} {bs : List LcBlock}
  {known cps : List Digest}

structure Serving (cr : Crypto) (bs : List LcBlock) (known cps : List Digest) (m : Manager) :
    Prop where
  sound : Sound cr bs m
  live : m.stopped = none
  mem_iff : ∀ d, m.lcblocktree.Mem d ↔ d ∈ known
  checkpoints : m.checkpoints = cps
  iterations : m.checkpointsIterations.length = m.checkpoints.length
  decided : ∀ d ∈ m.checkpoints, d ∈ known

theorem serving_new (cr : Crypto) (bs : List LcBlock) :
    Serving cr bs [LcBlock.genesisDigest cr] [] (new cr) := by
  refine ⟨sound_new cr bs, rfl, fun d => ?_, rfl, rfl, fun d h => by cases h⟩
  by_cases hd : d = LcBlock.genesisDigest cr
  · subst hd; simp [Mem, new, LcBlockTree.new]
  · simp [Mem, new, LcBlockTree.new, hd]

/-- The latest checkpoint is in the tree, if all of them are. -/
theorem mem_latestCheckpoint (hw : WellFormed cr m.lcblocktree)
    (h : ∀ d ∈ m.checkpoints, m.lcblocktree.Mem d) : m.lcblocktree.Mem (m.latestCheckpoint cr) := by
  rw [latestCheckpoint]
  cases hl : m.checkpoints.getLast? with
  | none => exact hw.mem_genesis
  | some d => exact h d (List.mem_of_getLast? hl)

theorem Serving.mem_latest (hs : Serving cr bs known cps m) :
    m.lcblocktree.Mem (m.latestCheckpoint cr) :=
  mem_latestCheckpoint hs.sound.tree fun d hd => (hs.mem_iff d).mpr (hs.decided d hd)

theorem head_isOk (hw : WellFormed cr m.lcblocktree) (which : String) {d : Digest}
    (hd : m.lcblocktree.Mem d) : ∃ x, m.head which d = .ok x := by
  obtain ⟨h, hh⟩ := hw.heightHonest_ok hd
  exact ⟨(h, m.lcblocktree.heightOf d, d), by
    simp only [head, hh, hw.height_eq hd, expect_ok, bind, Except.bind]; rfl⟩

theorem sendTip_isOk (hw : WellFormed cr m.lcblocktree)
    (hm : m.lcblocktree.Mem (m.latestCheckpoint cr)) (ord : HashOrder Digest) :
    ∃ m', m.sendTip cr ord = .ok m' := by
  obtain ⟨tip, htip, hmem, -⟩ := hw.leadingTip_spec ord hm
  obtain ⟨blk, hb⟩ := LcBlockTree.mem_iff.mp hmem
  have hblk : m.lcblocktree.block tip = .ok blk := by rw [block, hb]
  exact ⟨_, by simp only [sendTip, htip, hblk, unwrap_ok, bind, Except.bind]; rfl⟩

theorem log_isOk (hw : WellFormed cr m.lcblocktree) (params : TreeParameters)
    (hm : m.lcblocktree.Mem (m.latestCheckpoint cr)) (ord : HashOrder Digest) :
    ∃ m', m.log cr params ord = .ok m' := by
  obtain ⟨tip, d, r, htip, hd, hr, hcr, -⟩ := hw.higher_of_k_deep ord hm params.lctreeLogavaKDeep
  have hk : m.higherKDeep cr ord params.lctreeLogavaKDeep = .ok r := by
    simp only [higherKDeep, htip, hd, hr, expect_ok, bind, Except.bind]
  obtain ⟨acc, hacc⟩ := head_isOk hw "LOGacc" hm
  obtain ⟨ava, hava⟩ := head_isOk hw "LOGava" (mem_of_isPrefixOf hcr).2
  exact ⟨_, by simp only [Manager.log, hk, hacc, hava, bind, Except.bind]; rfl⟩

/-- **With a known checkpoint the manager announces the new tip and lives on.** -/
theorem announce_live (hw : WellFormed cr m.lcblocktree) (params : TreeParameters)
    (hm : m.lcblocktree.Mem (m.latestCheckpoint cr)) (ord : HashOrder Digest) :
    (m.announce cr params ord).stopped = m.stopped := by
  obtain ⟨m', ht⟩ := sendTip_isOk hw hm ord
  obtain ⟨tips, rfl⟩ := sendTip_ok ht
  obtain ⟨m'', hl⟩ := log_isOk (m := { m with tips }) hw params hm ord
  obtain ⟨logAva, acc, ava, -, -, -, rfl⟩ := log_ok hl
  simp only [announce, ht, hl]

/-- **With an unknown checkpoint it stops.** -/
theorem announce_stops (hw : WellFormed cr m.lcblocktree) (params : TreeParameters)
    (hm : ¬ m.lcblocktree.Mem (m.latestCheckpoint cr)) (ord : HashOrder Digest) :
    (m.announce cr params ord).stopped ≠ none := by
  cases ht : m.lcblocktree.leadingTipExtending ord (m.latestCheckpoint cr) with
  | ok tip => exact absurd (hw.mem_of_leadingTip ht) hm
  | error p =>
    have hs : m.sendTip cr ord = .error p := by simp only [sendTip, ht, bind, Except.bind]
    simp [announce, hs, stop]

/-! ## One input -/

theorem Serving.message (hs : Serving cr bs known cps m) (hc : NoCollision cr bs)
    (ord : HashOrder Digest) {v : Bytes} {b : LcBlock} {p : Digest} (hv : LcBlock.tryFrom v = .ok b)
    (hp : b.parent = some p) (hk : p ∈ known) (hb : b ∈ bs) :
    Serving cr bs (b.digest cr :: known) cps (m.onMessage cr params ord v) := by
  obtain ⟨t, ht⟩ := hs.sound.tree.add_isOk hp ((hs.mem_iff p).mpr hk)
  have hf := hc.unique hs.sound.tree hs.sound.blocks hb
  have hw := hs.sound.tree.add hf ht
  have hmem : ∀ d, t.Mem d ↔ d ∈ b.digest cr :: known := by
    intro d
    rw [List.mem_cons, ← hs.mem_iff]
    constructor
    · intro hd
      obtain ⟨x, hx⟩ := LcBlockTree.mem_iff.mp hd
      rcases (lcblocks_add hf ht d x).mp hx with hx | ⟨-, hx⟩
      · exact .inr (LcBlockTree.mem_iff.mpr ⟨x, hx⟩)
      · exact .inl hx.symm
    · rintro (rfl | hd)
      · exact LcBlockTree.mem_iff.mpr ⟨b, (lcblocks_add hf ht _ b).mpr (.inr ⟨rfl, rfl⟩)⟩
      · exact (hs.sound.tree.add_extends hf ht).mem hd
  have hdec : ∀ d ∈ m.checkpoints, d ∈ b.digest cr :: known := fun d hd =>
    List.mem_cons_of_mem _ (hs.decided d hd)
  have hsound : Sound cr bs (m.onMessage cr params ord v) := hs.sound.onMessage hc (by
    intro b' hb'
    rw [hv, Except.ok.injEq] at hb'
    exact hb' ▸ hb)
  have hstep : m.onMessage cr params ord v =
      ({ m with lcblocktree := t } : Manager).announce cr params ord := by
    rw [onMessage, hv, expect_ok]
    simp only [ht]
  have hlive := announce_live (m := { m with lcblocktree := t }) hw params
    (mem_latestCheckpoint hw fun d hd => (hmem d).mpr (hdec d hd)) ord
  obtain ⟨tips, logs, stopped, he⟩ := announce_frame cr params ord { m with lcblocktree := t }
  rw [hstep, he] at hsound ⊢
  rw [he] at hlive
  exact ⟨hsound, hlive.trans hs.live, hmem, hs.checkpoints, hs.iterations, hdec⟩

theorem Serving.newCheckpoint (hs : Serving cr bs known cps m) (ord : HashOrder Digest) (i : ℕ)
    {cp : Digest} (hk : cp ∈ known) :
    Serving cr bs known (cps ++ [cp])
      (m.onCheckpointEvent cr params ord (.newCheckpoint i (some cp))) := by
  have hsound := hs.sound.onCheckpointEvent params ord (.newCheckpoint i (some cp))
  have hdec : ∀ d ∈ m.checkpoints ++ [cp], d ∈ known := by
    intro d hd
    rcases List.mem_append.mp hd with hd | hd
    · exact hs.decided d hd
    · rw [List.mem_singleton.mp hd]; exact hk
  rw [onCheckpointEvent] at hsound ⊢
  have hlive := announce_live (m :=
      { m with
        checkpoints := m.checkpoints ++ [cp]
        checkpointsIterations := m.checkpointsIterations ++ [i] })
    hs.sound.tree params
    (mem_latestCheckpoint hs.sound.tree fun d hd => (hs.mem_iff d).mpr (hdec d hd)) ord
  obtain ⟨tips, logs, stopped, he⟩ := announce_frame cr params ord
    { m with
      checkpoints := m.checkpoints ++ [cp]
      checkpointsIterations := m.checkpointsIterations ++ [i] }
  rw [he] at hsound hlive ⊢
  refine ⟨hsound, hlive.trans hs.live, hs.mem_iff, ?_, ?_, hdec⟩
  · simp only [hs.checkpoints]
  · simp only [List.length_append, hs.iterations, List.length_singleton]

/-! ## Commands -/

theorem isPrefixOf_unknown {t : LcBlockTree} {a b : Digest} (h : ¬ (t.Mem a ∧ t.Mem b)) :
    ok (t.isPrefixOf a b) = .ok none := by
  rw [isPrefixOf, isPrefixOfFuel]
  by_cases ha : t.lcblocks a = none
  · rw [if_pos ha]; rfl
  · rw [if_neg ha]
    cases hb : t.lcblocks b with
    | none => rfl
    | some y => exact absurd ⟨Option.isSome_iff_ne_none.mpr ha, LcBlockTree.mem_iff.mpr ⟨y, hb⟩⟩ h

/-- The ancestry test answers or rejects. -/
theorem ok_isPrefixOf {t : LcBlockTree} (hw : WellFormed cr t) (a b : Digest) :
    ∃ c, ok (t.isPrefixOf a b) = .ok c := by
  by_cases h : t.Mem a ∧ t.Mem b
  · obtain ⟨r, hr, -⟩ := hw.isPrefixOf_ok h.1 h.2
    exact ⟨some r, by rw [hr]; rfl⟩
  · exact ⟨none, isPrefixOf_unknown h⟩

theorem ok_height {t : LcBlockTree} (hw : WellFormed cr t) (d : Digest) :
    ∃ c, ok (t.height d) = .ok c := by
  by_cases h : t.Mem d
  · exact ⟨some (t.heightOf d), by rw [hw.height_eq h]; rfl⟩
  · refine ⟨none, ?_⟩
    have hn : t.lcblocks d = none := Option.not_isSome_iff_eq_none.mp h
    rw [height, if_pos hn]
    rfl

/-- **A live manager answers every command, for every digest.** -/
theorem Serving.answers (hs : Serving cr bs known cps m) (params : TreeParameters)
    (ord : HashOrder Digest) (cmd : ManagerCmd) : ∃ a, m.answer cr params ord cmd = .ok a := by
  have hw := hs.sound.tree
  obtain ⟨tip, htip, -⟩ := hw.leadingTip_spec ord hs.mem_latest
  cases cmd with
  | getCurrentProposal =>
    obtain ⟨d, hd⟩ := hs.sound.proposal_exists ord params.proposeKDeep hs.mem_latest
    exact ⟨.digest d, by simp only [answer, hd]; rfl⟩
  | validateProposal d =>
    obtain ⟨c1, h1⟩ := ok_isPrefixOf hw (m.latestCheckpoint cr) d
    obtain ⟨c2, h2⟩ := ok_isPrefixOf hw d tip
    simp only [answer, validateProposal, h1, htip, h2, bind, Except.bind]
    cases c1 with
    | none => exact ⟨.valid false, rfl⟩
    | some b1 =>
      cases c2 with
      | none => exact ⟨.valid false, rfl⟩
      | some b2 => exact ⟨.valid (b1 && b2), rfl⟩
  | getHeightOfBlock d =>
    obtain ⟨c, hc⟩ := ok_height hw d
    exact ⟨.height c, by simp only [answer, hc]; rfl⟩
  | getCurrentTip => exact ⟨.digest tip, by simp only [answer, htip]; rfl⟩
  | getParentOfBlock d =>
    simp only [answer, parent]
    cases m.lcblocktree.lcblocks d with
    | none => exact ⟨.parent none, rfl⟩
    | some b => exact ⟨.parent (some b.parent), rfl⟩
  | getBlock d =>
    simp only [answer, block]
    cases m.lcblocktree.lcblocks d with
    | none => exact ⟨.block none, rfl⟩
    | some b => exact ⟨.block (some b), rfl⟩

/-! ## Whole runs -/

/-- **Step lemma.**  A timely input keeps the manager serving. -/
theorem Serving.step (hs : Serving cr bs known cps m) (hc : NoCollision cr bs)
    (params : TreeParameters) {i : Input} (hi : ∀ b, i.block? = some b → b ∈ bs)
    (ho : i.InOrder known) (ht : i.Timely known) :
    Serving cr bs (i.learn cr known) (cps ++ i.checkpoint?.toList) (m.step cr params i) := by
  have hnone : ∀ j : Input, j.checkpoint? = none → cps ++ j.checkpoint?.toList = cps := by
    intro j hj
    rw [hj, Option.toList_none, List.append_nil]
  cases i with
  | message ord v =>
    obtain ⟨b, p, hv, hp, hk⟩ := ho
    have hblk : (Input.message ord v).block? = some b := by
      simp only [Input.block?, hv]; rfl
    have hlearn : (Input.message ord v).learn cr known = b.digest cr :: known := by
      simp only [Input.learn, hblk]
    rw [hlearn, hnone (.message ord v) rfl]
    exact hs.message hc ord hv hp hk (hi b hblk)
  | checkpointEvent ord e =>
    cases e with
    | newProposal i b => rw [hnone (.checkpointEvent ord (.newProposal i b)) rfl]; exact hs
    | newCheckpoint i cp =>
      cases cp with
      | none => rw [hnone (.checkpointEvent ord (.newCheckpoint i none)) rfl]; exact hs
      | some cp => exact hs.newCheckpoint ord i (ht cp rfl)
  | command ord cmd =>
    obtain ⟨a, ha⟩ := hs.answers params ord cmd
    simp only [Manager.step, ha]
    rw [hnone (.command ord cmd) rfl]
    exact hs

/-- An early decision stops it. -/
theorem stops_of_early (hs : Serving cr bs known cps m) (params : TreeParameters) {i : Input}
    (ht : ¬ i.Timely known) : (m.step cr params i).stopped ≠ none := by
  cases i with
  | message ord v => exact absurd (fun cp h => by cases h) ht
  | command ord cmd => exact absurd (fun cp h => by cases h) ht
  | checkpointEvent ord e =>
    cases e with
    | newProposal i b => exact absurd (fun cp h => by cases h) ht
    | newCheckpoint i cp =>
      cases cp with
      | none => exact absurd (fun cp h => by cases h) ht
      | some cp =>
        have hcp : cp ∉ known := fun hk => ht fun d hd => by cases hd; exact hk
        have hlast : ({ m with
            checkpoints := m.checkpoints ++ [cp]
            checkpointsIterations := m.checkpointsIterations ++ [i] } : Manager).latestCheckpoint cr
            = cp := by
          simp only [latestCheckpoint, List.getLast?_concat, Option.getD_some]
        exact announce_stops (m :=
            { m with
              checkpoints := m.checkpoints ++ [cp]
              checkpointsIterations := m.checkpointsIterations ++ [i] })
          hs.sound.tree params (by rw [hlast]; exact fun h => hcp ((hs.mem_iff cp).mp h)) ord

/-- What is expected of the manager after a run: it has not failed, it has taken in every block and
every checkpoint, `dump_dot` finds an iteration for each checkpoint, and it answers commands. -/
structure Serves (cr : Crypto) (params : TreeParameters) (is : List Input) (m : Manager) : Prop where
  live : m.stopped = none
  blocks : ∀ b ∈ delivered is, m.lcblocktree.lcblocks (b.digest cr) = some b
  checkpoints : m.checkpoints = decided is
  iterations : m.checkpointsIterations.length = m.checkpoints.length
  answers : ∀ ord cmd, ∃ a, m.answer cr params ord cmd = .ok a

/-- **Run lemma.**  While nothing is early the manager serves. -/
theorem run_serving (params : TreeParameters) (hc : NoCollision cr bs) :
    ∀ {is : List Input} {m : Manager} {known cps : List Digest}, Serving cr bs known cps m →
      (∀ b ∈ delivered is, b ∈ bs) → Along cr Input.InOrder known is →
      Along cr Input.Timely known is →
      ∃ known', (∀ d ∈ known, d ∈ known') ∧ (∀ b ∈ delivered is, b.digest cr ∈ known') ∧
        Serving cr bs known' (cps ++ decided is) (run cr params m is)
  | [], m, known, cps, hs, _, _, _ =>
    ⟨known, fun _ h => h, fun _ h => (by cases h), by simpa [decided, run] using hs⟩
  | i :: is, m, known, cps, hs, hb, ⟨ho, ho'⟩, ⟨ht, ht'⟩ => by
    rw [delivered_cons] at hb ⊢
    have hi : ∀ b, i.block? = some b → b ∈ bs := fun b h => hb b (by simp [h])
    obtain ⟨known', hsub, hmem, hrun⟩ := run_serving params hc (hs.step hc params hi ho ht)
      (fun b h => hb b (List.mem_append_right _ h)) ho' ht'
    have hlearn : ∀ d ∈ known, d ∈ i.learn cr known := by
      intro d hd
      unfold Input.learn
      split
      · exact hd
      · exact List.mem_cons_of_mem _ hd
    refine ⟨known', fun d hd => hsub d (hlearn d hd), ?_, ?_⟩
    · intro b h
      rcases List.mem_append.mp h with h | h
      · have hbi : i.block? = some b := Option.mem_toList.mp h
        exact hsub _ (by simp [Input.learn, hbi])
      · exact hmem b h
    · rw [run, if_pos hs.live, decided_cons, ← List.append_assoc]
      exact hrun

/-- A run that the manager outlives has nothing early. -/
theorem timely_of_run (params : TreeParameters) (hc : NoCollision cr bs) :
    ∀ {is : List Input} {m : Manager} {known cps : List Digest}, Serving cr bs known cps m →
      (∀ b ∈ delivered is, b ∈ bs) → Along cr Input.InOrder known is →
      (run cr params m is).stopped = none → Along cr Input.Timely known is
  | [], _, _, _, _, _, _, _ => trivial
  | i :: is, m, known, cps, hs, hb, ⟨ho, ho'⟩, hlive => by
    rw [delivered_cons] at hb
    have hi : ∀ b, i.block? = some b → b ∈ bs := fun b h => hb b (by simp [h])
    rw [run, if_pos hs.live] at hlive
    by_cases ht : i.Timely known
    · exact ⟨ht, timely_of_run params hc (hs.step hc params hi ho ht)
        (fun b h => hb b (List.mem_append_right _ h)) ho' hlive⟩
    · have hstop := stops_of_early hs params ht
      refine absurd ?_ hstop
      cases is with
      | nil => exact hlive
      | cons j is =>
        rw [run, if_neg hstop] at hlive
        exact hlive

/-- **The manager outlives a run exactly when no decision of the run is early.** -/
theorem serves_iff_timely (cr : Crypto) (params : TreeParameters) (is : List Input)
    (hc : NoCollision cr (delivered is))
    (ho : Along cr Input.InOrder [LcBlock.genesisDigest cr] is) :
    Serves cr params is (run cr params (new cr) is) ↔
      Along cr Input.Timely [LcBlock.genesisDigest cr] is := by
  constructor
  · intro h
    exact timely_of_run params hc (serving_new cr _) (fun _ hb => hb) ho h.live
  · intro ht
    obtain ⟨known, -, hmem, hs⟩ := run_serving params hc (serving_new cr _) (fun _ hb => hb) ho ht
    refine ⟨hs.live, ?_, hs.checkpoints, hs.iterations, fun ord cmd => hs.answers params ord cmd⟩
    intro b hb
    obtain ⟨x, hx⟩ := LcBlockTree.mem_iff.mp ((hs.mem_iff _).mpr (hmem b hb))
    rw [hx, hc.unique hs.sound.tree hs.sound.blocks hb x hx]

/-! ## One block and its decision, in both orders -/

def blockMessage : Input := .message .stored sampleChild.encode

def blockDecision : Input :=
  .checkpointEvent .stored (.newCheckpoint 0 (some (sampleChild.digest sampleCrypto)))

theorem blockMessage_block : blockMessage.block? = some sampleChild := by
  rw [blockMessage, Input.block?, LcBlock.tryFrom_encode]; rfl

theorem blockMessage_inOrder {known : List Digest}
    (h : LcBlock.genesisDigest sampleCrypto ∈ known) : blockMessage.InOrder known :=
  ⟨sampleChild, _, LcBlock.tryFrom_encode _, rfl, h⟩

theorem blockMessage_learn (known : List Digest) : blockMessage.learn sampleCrypto known =
    sampleChild.digest sampleCrypto :: known := by
  simp only [Input.learn, blockMessage_block]

theorem serves_iff_timely_blockMessage :
    Serves sampleCrypto ⟨0, 0⟩ [blockMessage, blockDecision]
      (run sampleCrypto ⟨0, 0⟩ (new sampleCrypto) [blockMessage, blockDecision]) := by
  have hd : delivered [blockMessage, blockDecision] = [sampleChild] := by
    rw [delivered_cons, blockMessage_block, delivered_cons]; rfl
  refine (serves_iff_timely sampleCrypto ⟨0, 0⟩ [blockMessage, blockDecision]
    (by rw [hd]; exact noCollision_sampleChild)
    ⟨blockMessage_inOrder (by simp), trivial, trivial⟩).mpr ⟨fun cp h => (by cases h), ?_, trivial⟩
  intro cp h
  rw [blockMessage_learn]
  cases h
  simp

/-- The block reaches a first manager, and the decision a second one, before the block does: the
unwraps behind `leading_tip_extending` stop the second. -/
theorem early_decision_stops :
    Along sampleCrypto Input.InOrder [LcBlock.genesisDigest sampleCrypto]
      [blockDecision, blockMessage] ∧
    (run sampleCrypto ⟨0, 0⟩ (new sampleCrypto) [blockMessage]).stopped = none ∧
    (run sampleCrypto ⟨0, 0⟩ (new sampleCrypto) [blockMessage]).lcblocktree.Mem
      (sampleChild.digest sampleCrypto) ∧
    (run sampleCrypto ⟨0, 0⟩ (new sampleCrypto) [blockDecision, blockMessage]).stopped
      = some .unwrap := by
  refine ⟨⟨trivial, blockMessage_inOrder (by simp [Input.learn, blockDecision, Input.block?]),
    trivial⟩, by decide +kernel, by rw [Mem]; decide +kernel, by decide +kernel⟩

end AccountabilityGadget.Manager
