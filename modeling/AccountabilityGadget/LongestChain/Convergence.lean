import AccountabilityGadget.LongestChain.Mining

/-!
# Convergence of the block trees (`mynode/src/lcblocktreemanager.rs`, `mynode/src/lcblocks.rs`)

The tree of a manager is what it has been handed, whatever the order, except for the set of tips: a block
that is handed on again becomes a tip once more.

* `LcBlockTree.queries_congr` — the queries do not read the tips; the leading tip does not depend on them
  either (`WellFormed.leadingTip_congr`).
* `MiningNode.Sound.agree` — nodes with the same blocks and the same checkpoint agree on everything.
* `Inv.catchUp` — a node can be handed the whole topic in its order.
* `network_converges` — the views of the nodes can be brought together from every state.
-/

set_option autoImplicit false

namespace AccountabilityGadget

open Encoding

/-! ## Trees with the same blocks -/

namespace LcBlockTree

variable {cr : Crypto} {t t' : LcBlockTree}

theorem WellFormed.precomputedHeight_congr (hw : WellFormed cr t) (hw' : WellFormed cr t')
    (hb : t.lcblocks = t'.lcblocks) : t.precomputedHeight = t'.precomputedHeight := by
  have hpar : t.parentOf = t'.parentOf := by
    funext d
    simp only [parentOf, hb]
  have hmem : t.Mem = t'.Mem := by
    funext d
    simp only [Mem, hb]
  have G' : Ancestry.Graded t.parentOf t'.heightOf t.Mem := by
    rw [hpar, hmem]
    exact hw'.graded
  funext d
  by_cases hd : t.Mem d
  · rw [hw.height_eq_heightOf hd, hw'.height_eq_heightOf (hmem ▸ hd), hw.graded.height_unique G' hd]
  · have hnone : t.precomputedHeight d = none :=
      Option.not_isSome_iff_eq_none.mp fun h => hd ((hw.heights d).mp h)
    have hnone' : t'.precomputedHeight d = none :=
      Option.not_isSome_iff_eq_none.mp fun h => hd (hmem ▸ (hw'.heights d).mp h)
    rw [hnone, hnone']

theorem isPrefixOfFuel_congr (hb : t.lcblocks = t'.lcblocks)
    (hh : t.precomputedHeight = t'.precomputedHeight) (a : Digest) :
    ∀ (n : ℕ) (b : Digest), t.isPrefixOfFuel n a b = t'.isPrefixOfFuel n a b
  | 0, _ => rfl
  | n + 1, b => by
    have ih := isPrefixOfFuel_congr hb hh a n
    simp only [isPrefixOfFuel, hb, hh, ih]

theorem kDeep_congr (hb : t.lcblocks = t'.lcblocks) :
    ∀ (k : ℕ) (b : Digest), t.kDeep k b = t'.kDeep k b
  | 0, _ => rfl
  | k + 1, b => by
    have ih := kDeep_congr hb k
    simp only [kDeep, hb, ih]

/-- The queries read the blocks and the heights only. -/
structure SameQueries (t t' : LcBlockTree) : Prop where
  isPrefixOf : t.isPrefixOf = t'.isPrefixOf
  kDeep : t.kDeep = t'.kDeep
  higherOf : t.higherOf = t'.higherOf
  height : t.height = t'.height
  parent : t.parent = t'.parent
  block : t.block = t'.block

theorem queries_congr (hb : t.lcblocks = t'.lcblocks)
    (hh : t.precomputedHeight = t'.precomputedHeight) : SameQueries t t' where
  isPrefixOf := by
    funext a b
    rw [LcBlockTree.isPrefixOf, LcBlockTree.isPrefixOf, isPrefixOfFuel_congr hb hh, hh]
  kDeep := by
    funext k b
    exact kDeep_congr hb k b
  higherOf := by
    funext a b
    simp only [LcBlockTree.higherOf, hb, hh]
  height := by
    funext b
    simp only [LcBlockTree.height, hb, hh]
  parent := by
    funext b
    simp only [LcBlockTree.parent, hb]
  block := by
    funext b
    simp only [LcBlockTree.block, hb]

end LcBlockTree

/-! ## Nodes with the same view -/

namespace Manager

variable {cr : Crypto} {m m' : Manager}

/-- Managers with the same tree apart from the tips, the same checkpoint and the same leading tip give the
same answers. -/
theorem answer_congr (hq : LcBlockTree.SameQueries m.lcblocktree m'.lcblocktree)
    (hcp : m.latestCheckpoint cr = m'.latestCheckpoint cr) {ord ord' : HashOrder Digest}
    (htip : m.lcblocktree.leadingTipExtending ord (m'.latestCheckpoint cr) =
      m'.lcblocktree.leadingTipExtending ord' (m'.latestCheckpoint cr))
    (params : TreeParameters) (cmd : ManagerCmd) :
    m.answer cr params ord cmd = m'.answer cr params ord' cmd := by
  cases cmd with
  | getCurrentProposal => simp only [answer, higherKDeep, hcp, htip, hq.kDeep, hq.higherOf]
  | validateProposal d => simp only [answer, validateProposal, hcp, htip, hq.isPrefixOf]
  | getHeightOfBlock d => simp only [answer, hq.height]
  | getCurrentTip => simp only [answer, hcp, htip]
  | getParentOfBlock d => simp only [answer, hq.parent]
  | getBlock d => simp only [answer, hq.block]

end Manager

namespace MiningNode

variable {cr : Crypto} {bs bs' : List LcBlock} {n n' : MiningNode}

theorem Sound.filed_target (h : n.Sound cr bs) :
    n.manager.lcblocktree.Filed (n.manager.target cr) := by
  rw [Manager.target]
  cases hl : n.manager.tips.getLast? with
  | none => exact h.tree.filed_genesis
  | some tip => exact h.tips tip (List.mem_of_getLast? hl)

/-- **Nodes with the same blocks and the same checkpoint agree**: they have told their miners the same
tip, and give the same answers. -/
theorem Sound.agree (h : n.Sound cr bs) (h' : n'.Sound cr bs') (params : TreeParameters)
    (hb : n.manager.lcblocktree.lcblocks = n'.manager.lcblocktree.lcblocks)
    (hcp : n.manager.latestCheckpoint cr = n'.manager.latestCheckpoint cr) :
    n.manager.target cr = n'.manager.target cr ∧ ∀ ord ord' cmd,
      n.manager.answer cr params ord cmd = n'.manager.answer cr params ord' cmd := by
  -- the sets of tips may differ, but not what leads
  have htip : ∀ ord ord', n.manager.lcblocktree.leadingTipExtending ord
      (n'.manager.latestCheckpoint cr) = n'.manager.lcblocktree.leadingTipExtending ord'
        (n'.manager.latestCheckpoint cr) := fun ord ord' =>
    h.tree.leadingTip_congr h'.tree h.covered h'.covered hb ord ord' (hcp ▸ h.mem_latest)
  constructor
  · have hdigest : (n.manager.target cr).1 = (n'.manager.target cr).1 := by
      have heq := htip .stored .stored
      rw [← hcp, h.target, hcp, h'.target, Except.ok.injEq] at heq
      exact heq
    obtain ⟨blk, hblk, hslot⟩ := h.filed_target
    obtain ⟨blk', hblk', hslot'⟩ := h'.filed_target
    rw [hb, hdigest, hblk', Option.some.injEq] at hblk
    exact Prod.ext hdigest (by rw [← hslot, ← hslot', hblk])
  · intro ord ord' cmd
    have hq := LcBlockTree.queries_congr hb (h.tree.precomputedHeight_congr h'.tree hb)
    exact Manager.answer_congr hq hcp (htip ord ord') params cmd

/-- A proposal is accepted by every node with the same view. -/
theorem Sound.accepts (h : n.Sound cr bs) (h' : n'.Sound cr bs')
    (hb : n.manager.lcblocktree.lcblocks = n'.manager.lcblocktree.lcblocks)
    (hcp : n.manager.latestCheckpoint cr = n'.manager.latestCheckpoint cr)
    {params : TreeParameters} {ord ord' : HashOrder Digest} {d : Digest}
    (hd : n.manager.answer cr params ord .getCurrentProposal = .ok (.digest d)) :
    n'.manager.answer cr params ord' (.validateProposal d) = .ok (.valid true) := by
  rw [← (h.agree h' params hb hcp).2 ord ord' (.validateProposal d)]
  obtain ⟨known, cps, hs⟩ := h.serving
  simp only [Manager.answer] at hd ⊢
  cases hk : n.manager.higherKDeep cr ord params.proposeKDeep with
  | error p =>
    rw [hk] at hd
    cases hd
  | ok d' =>
    rw [hk] at hd
    cases hd
    rw [hs.sound.proposal_validates ord hk]
    rfl

end MiningNode

/-! ## Catching up -/

namespace MiningNetwork

section Attached

variable {P : Type} {cr : Crypto} {s : MiningNetwork P}

/-- An entry of a stranger, after the others: a block on a published block. -/
def Attached (cr : Crypto) (topic : List (Option P × Bytes)) (e : Option P × Bytes) : Prop :=
  e.1 = none → ∃ b q, LcBlock.tryFrom e.2 = .ok b ∧ b.parent = some q ∧
    (q = LcBlock.genesisDigest cr ∨ ∃ x ∈ blocks topic, x.digest cr = q)

/-- Every entry of the topic is a block on a block that was published before. -/
theorem Inv.attached (h : Inv cr s) (ha : Justified (Attached cr) s.topic)
    {pre post : List (Option P × Bytes)} {e : Option P × Bytes} (hs : s.topic = pre ++ e :: post) :
    ∃ b q, LcBlock.tryFrom e.2 = .ok b ∧ b.parent = some q ∧
      (q = LcBlock.genesisDigest cr ∨ ∃ x ∈ blocks pre, x.digest cr = q) := by
  cases horigin : e.1 with
  | none => exact ha pre e post hs horigin
  | some p =>
    obtain ⟨b, parent, hv, hp, hparent, -⟩ := h.mined pre e post hs p horigin
    refine ⟨b, _, by rw [hv, LcBlock.tryFrom_encode], hp, ?_⟩
    rcases hparent with rfl | hparent
    · exact .inl rfl
    · exact .inr ⟨parent, hparent, rfl⟩

/-- What is kept while blocks are handed on. -/
structure Later (s t : MiningNetwork P) : Prop where
  topic : t.topic = s.topic
  checkpoints : ∀ p, (t.nodes p).manager.checkpoints = (s.nodes p).manager.checkpoints
  miner : ∀ p, (t.nodes p).miner = (s.nodes p).miner
  delivered : ∀ p, ∀ v ∈ (s.nodes p).delivered, v ∈ (t.nodes p).delivered

theorem Later.refl (s : MiningNetwork P) : Later s s :=
  ⟨rfl, fun _ => rfl, fun _ => rfl, fun _ _ hv => hv⟩

theorem Later.trans {t u : MiningNetwork P} (h : Later s t) (h' : Later t u) : Later s u where
  topic := h'.topic.trans h.topic
  checkpoints := fun p => (h'.checkpoints p).trans (h.checkpoints p)
  miner := fun p => (h'.miner p).trans (h.miner p)
  delivered := fun p v hv => h'.delivered p v (h.delivered p v hv)

/-- A node has been handed all of these. -/
def Holds (s : MiningNetwork P) (p : P) (topic : List (Option P × Bytes)) : Prop :=
  ∀ e ∈ topic, e.2 ∈ (s.nodes p).delivered

/-- A node that has been handed the topic has filed it. -/
theorem Inv.lcblocks_iff (h : Inv cr s) {p : P} (hp : s.Holds p s.topic) (d : Digest) (b : LcBlock) :
    (s.nodes p).manager.lcblocktree.lcblocks d = some b ↔
      b.digest cr = d ∧ (b = .genesis ∨ b ∈ blocks s.topic) := by
  constructor
  · intro hb
    obtain ⟨known, cps, hs⟩ := (h.nodes p).serving
    exact ⟨hs.sound.tree.digest d b hb, hs.sound.blocks d b hb⟩
  · rintro ⟨hd, hb⟩
    refine ((h.nodes p).files d b).mpr ⟨hd, hb.imp_right fun hb => ?_⟩
    obtain ⟨e, he, hv⟩ := mem_blocks.mp hb
    exact ⟨e.2, hp e he, hv⟩

/-- What two nodes with one view agree on. -/
structure Agrees (cr : Crypto) (params : TreeParameters) (s : MiningNetwork P) (p q : P) : Prop where
  target : (s.nodes p).manager.target cr = (s.nodes q).manager.target cr
  answers : ∀ ord ord' cmd, (s.nodes p).manager.answer cr params ord cmd =
    (s.nodes q).manager.answer cr params ord' cmd
  accepts : ∀ ord ord' d,
    (s.nodes p).manager.answer cr params ord .getCurrentProposal = .ok (.digest d) →
      (s.nodes q).manager.answer cr params ord' (.validateProposal d) = .ok (.valid true)

theorem Inv.agrees (h : Inv cr s) (params : TreeParameters) {p q : P}
    (hb : (s.nodes p).manager.lcblocktree.lcblocks = (s.nodes q).manager.lcblocktree.lcblocks)
    (hcp : (s.nodes p).manager.latestCheckpoint cr = (s.nodes q).manager.latestCheckpoint cr) :
    Agrees cr params s p q where
  target := ((h.nodes p).agree (h.nodes q) params hb hcp).1
  answers := ((h.nodes p).agree (h.nodes q) params hb hcp).2
  accepts := fun _ _ _ hd => (h.nodes p).accepts (h.nodes q) hb hcp hd

end Attached

variable {P : Type} [DecidableEq P] {cr : Crypto} (params : TreeParameters)
  (mining : P → MinerParameters) {s : MiningNetwork P}

/-- The next entry of the topic is handed to a node. -/
theorem Inv.deliver (h : Inv cr s) (hc : LcBlockTree.NoCollision cr (blocks s.topic))
    (ha : Justified (Attached cr) s.topic) {p : P} {pre post : List (Option P × Bytes)}
    {e : Option P × Bytes} (hs : s.topic = pre ++ e :: post) (hpre : s.Holds p pre) :
    ∃ t, (machine cr params mining).step s (.manage p (.message .stored e.2)) t ∧ Later s t ∧
      t.Holds p (pre ++ [e]) ∧ Inv cr t := by
  obtain ⟨b, q, hv, hq, hparent⟩ := h.attached ha hs
  -- what was published before has been handed over, so the parent is in the tree
  have hmem : (s.nodes p).manager.lcblocktree.Mem q := by
    rcases hparent with rfl | ⟨x, hx, rfl⟩
    · exact (h.nodes p).tree.mem_genesis
    · obtain ⟨e', he', hx⟩ := mem_blocks.mp hx
      exact LcBlockTree.mem_iff.mpr
        ⟨x, ((h.nodes p).files _ x).mpr ⟨rfl, .inr ⟨e'.2, hpre e' he', hx⟩⟩⟩
  have hfits : (s.nodes p).manager.Fits (.message .stored e.2) := by
    refine ⟨?_, nofun⟩
    intro ord v hin
    obtain ⟨-, rfl⟩ := Manager.Input.message.inj hin
    exact ⟨b, q, hv, hq, hmem⟩
  have hcarries : s.Carries (.message .stored e.2) :=
    List.mem_map.mpr ⟨e, by rw [hs]; simp, rfl⟩
  have hstep : s.step cr params mining (.manage p (.message .stored e.2)) =
      some (s.turn p ((s.nodes p).manage cr params (.message .stored e.2))) := by
    rw [MiningNetwork.step]
    exact if_pos ⟨(h.nodes p).live, hcarries⟩
  refine ⟨_, ⟨hfits, hstep⟩, ⟨rfl, ?_, ?_, ?_⟩, ?_,
    h.step (i := .manage p (.message .stored e.2)) hc hfits hstep⟩
  · exact turn_cases (C := fun q n => n.manager.checkpoints = (s.nodes q).manager.checkpoints)
      (Manager.onMessage_cases cr params .stored (s.nodes p).manager e.2).1 fun _ => rfl
  · exact turn_cases (C := fun q n => n.miner = (s.nodes q).miner) rfl fun _ => rfl
  · exact turn_cases (C := fun q n => ∀ v ∈ (s.nodes q).delivered, v ∈ n.delivered)
      (fun _ hv => List.mem_append_left _ hv) fun _ _ hv => hv
  · intro e' he'
    rw [turn_self]
    rcases List.mem_append.mp he' with he' | he'
    · exact List.mem_append_left _ (hpre e' he')
    · rw [List.mem_singleton.mp he']
      exact List.mem_append_right _ (List.mem_singleton_self _)

/-- **A node catches up** with the topic: the induction is on what it has still to be handed. -/
theorem Inv.catchUp (p : P) : ∀ (post pre : List (Option P × Bytes)) {s : MiningNetwork P}, Inv cr s →
    LcBlockTree.NoCollision cr (blocks s.topic) → Justified (Attached cr) s.topic →
    s.topic = pre ++ post → s.Holds p pre →
    ∃ t, (machine cr params mining).Leads s t ∧ Later s t ∧ t.Holds p s.topic ∧ Inv cr t
  | [], pre, s, h, _, _, hs, hpre => by
    rw [List.append_nil] at hs
    exact ⟨s, .refl, .refl s, hs ▸ hpre, h⟩
  | e :: post, pre, s, h, hc, ha, hs, hpre => by
    obtain ⟨t, hst, hlater, hholds, ht⟩ :=
      h.deliver params mining hc ha hs hpre
    rw [← hlater.topic] at hc ha
    have htopic : t.topic = pre ++ [e] ++ post := by
      rw [hlater.topic, hs, List.append_assoc, List.singleton_append]
    obtain ⟨u, htu, hlater', hholds', hu⟩ := Inv.catchUp p post (pre ++ [e]) ht hc ha htopic hholds
    exact ⟨u, .head ⟨_, hst⟩ htu, hlater.trans hlater', hlater.topic ▸ hholds', hu⟩

/-- So do the nodes of a list. -/
theorem Inv.catchUpAll : ∀ (ps : List P) {s : MiningNetwork P}, Inv cr s →
    LcBlockTree.NoCollision cr (blocks s.topic) → Justified (Attached cr) s.topic →
    ∃ t, (machine cr params mining).Leads s t ∧ Later s t ∧ (∀ p ∈ ps, t.Holds p s.topic) ∧ Inv cr t
  | [], s, h, _, _ => ⟨s, .refl, .refl s, nofun, h⟩
  | p :: ps, s, h, hc, ha => by
    obtain ⟨t, hst, hlater, hholds, ht⟩ :=
      Inv.catchUp params mining p s.topic [] h hc ha rfl nofun
    rw [← hlater.topic] at hc ha
    obtain ⟨u, htu, hlater', hall, hu⟩ := Inv.catchUpAll ps ht hc ha
    refine ⟨u, hst.trans htu, hlater.trans hlater', ?_, hu⟩
    intro q hq
    rcases List.mem_cons.mp hq with rfl | hq
    · exact fun e he => hlater'.delivered _ _ (hholds e he)
    · exact hlater.topic ▸ hall q hq

/-- **The views of the nodes converge.**  In every state of an orderly run, two nodes that have been handed
the same blocks, in whatever order and however often, and have the same latest checkpoint, have told their
miners the same tip, answer every command alike and accept each other's proposals.  And if strangers
publish blocks after their parents, any nodes can be handed all that has been published, and then those
with the same latest checkpoint agree. -/
theorem network_converges (cr : Crypto) (params : TreeParameters) (mining : P → MinerParameters)
    (s : MiningNetwork P) (hr : (machine cr params mining).Reachable s)
    (hc : LcBlockTree.NoCollision cr (blocks s.topic)) :
    (∀ p q, (∀ b, (∃ v ∈ (s.nodes p).delivered, LcBlock.tryFrom v = .ok b) ↔
        ∃ v ∈ (s.nodes q).delivered, LcBlock.tryFrom v = .ok b) →
      (s.nodes p).manager.latestCheckpoint cr = (s.nodes q).manager.latestCheckpoint cr →
      Agrees cr params s p q) ∧
    (Justified (Attached cr) s.topic → ∀ ps : List P, ∃ t, (machine cr params mining).Leads s t ∧
      t.topic = s.topic ∧
      (∀ p, (t.nodes p).manager.checkpoints = (s.nodes p).manager.checkpoints ∧
        (t.nodes p).miner = (s.nodes p).miner) ∧
      (∀ p ∈ ps, ∀ d b, (t.nodes p).manager.lcblocktree.lcblocks d = some b ↔
        b.digest cr = d ∧ (b = .genesis ∨ b ∈ blocks s.topic)) ∧
      ∀ p ∈ ps, ∀ q ∈ ps,
        (s.nodes p).manager.latestCheckpoint cr = (s.nodes q).manager.latestCheckpoint cr →
        Agrees cr params t p q) := by
  have h := inv_reachable hr hc
  constructor
  · intro p q hsame hcp
    refine h.agrees params ?_ hcp
    funext d
    refine Option.ext fun b => ?_
    rw [(h.nodes p).files, (h.nodes q).files, hsame]
  · intro ha ps
    obtain ⟨t, hst, hlater, hholds, ht⟩ :=
      Inv.catchUpAll params mining ps h hc ha
    have hfiled : ∀ p ∈ ps, ∀ d b, (t.nodes p).manager.lcblocktree.lcblocks d = some b ↔
        b.digest cr = d ∧ (b = .genesis ∨ b ∈ blocks s.topic) := by
      intro p hp d b
      rw [ht.lcblocks_iff (hlater.topic ▸ hholds p hp), hlater.topic]
    refine ⟨t, hst, hlater.topic, fun p => ⟨hlater.checkpoints p, hlater.miner p⟩, hfiled, ?_⟩
    intro p hp q hq hcp
    refine ht.agrees params ?_ ?_
    · funext d
      refine Option.ext fun b => ?_
      rw [hfiled p hp, hfiled q hq]
    · simp only [Manager.latestCheckpoint, hlater.checkpoints] at hcp ⊢
      exact hcp

/-- Both nodes can get the first block, and agree then. -/
theorem network_converges_first : ∃ t,
    (machine lengthCrypto ⟨0, 0⟩ firstMining).Leads firstSent t ∧
    (∀ p, (t.nodes p).manager.lcblocktree.lcblocks (firstBlock.digest lengthCrypto) =
      some firstBlock) ∧
    Agrees lengthCrypto ⟨0, 0⟩ t false true := by
  have hattached : Justified (Attached lengthCrypto) firstSent.topic :=
    justified_concat.mpr ⟨justified_nil, nofun⟩
  obtain ⟨t, hst, -, -, hfiled, hagrees⟩ := (network_converges lengthCrypto ⟨0, 0⟩ firstMining firstSent
    firstSent_reachable noCollision_firstSent).2 hattached [false, true]
  refine ⟨t, hst, ?_, hagrees false (by simp) true (by simp) rfl⟩
  intro p
  refine (hfiled p (by cases p <;> simp) _ _).mpr ⟨rfl, .inr ?_⟩
  exact mem_blocks.mpr ⟨_, List.mem_singleton_self _, LcBlock.tryFrom_encode _⟩

end MiningNetwork

end AccountabilityGadget
