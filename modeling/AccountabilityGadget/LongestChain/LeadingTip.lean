import Mathlib.Data.Prod.Lex
import AccountabilityGadget.LongestChain.Tree

/-!
# The leading tip

* `tipKey` — the order of `tie_break`: greater height, then adversarial, then smaller digest.
* `tieBreak_eq` — `tie_break` returns the greater of two known blocks.
* `leadingTipExtending_eq` — the loop over the tips is a scan for a maximum (`Scan.pick`).
* `leadingTip_spec` — the leading tip exists, descends from the checkpoint and is a maximum of the
  checkpoint and the tips that descend from it.
* `leadingTip_orderFree` — it does not depend on the enumeration of the tips.
* `higher_of_k_deep` — the higher of a checkpoint and the block `k` below the leading tip lies
  between the checkpoint and that tip.
* `Covered` — every block has a tip above it; `leadingTip_leads`: so the leading tip wins against
  all descendants of the checkpoint, not only against tips.
* `leading_tip_maximum` — the maximum, the totality of `tie_break` and the independence of the order
  of arrival, together.
-/

set_option autoImplicit false

namespace AccountabilityGadget.LcBlockTree

open Ancestry

def adversarial (t : LcBlockTree) (d : Digest) : Bool :=
  (t.lcblocks d).any LcBlock.isAdversarial

/-- Greater height, then adversarial before honest, then smaller digest. -/
def tipKey (t : LcBlockTree) (d : Digest) : ℕ ×ₗ Bool ×ₗ Digestᵒᵈ :=
  toLex (t.heightOf d, toLex (t.adversarial d, OrderDual.toDual d))

theorem tipKey_injective (t : LcBlockTree) : Function.Injective t.tipKey := by
  intro x y h
  have h1 := congrArg (fun k => (ofLex (ofLex k).2).2) h
  simpa [tipKey] using h1

theorem tipKey_le {t : LcBlockTree} {x y : Digest} : t.tipKey x ≤ t.tipKey y ↔
    t.heightOf x < t.heightOf y ∨ t.heightOf x = t.heightOf y ∧
      (t.adversarial x < t.adversarial y ∨ t.adversarial x = t.adversarial y ∧ y ≤ x) := by
  simp [tipKey, Prod.Lex.toLex_le_toLex]

variable {cr : Crypto} {t : LcBlockTree} {c d1 d2 : Digest}

/-- **`tie_break` returns the greater of two known blocks.** -/
theorem WellFormed.tieBreak_eq (hw : WellFormed cr t) (h1 : t.Mem d1) (h2 : t.Mem d2) :
    t.tieBreak d1 d2 = .ok (if t.tipKey d2 ≤ t.tipKey d1 then d1 else d2) := by
  obtain ⟨b1, hb1⟩ := mem_iff.mp h1
  obtain ⟨b2, hb2⟩ := mem_iff.mp h2
  have ha1 : t.adversarial d1 = b1.isAdversarial := by simp [adversarial, hb1]
  have ha2 : t.adversarial d2 = b2.isAdversarial := by simp [adversarial, hb2]
  rw [tieBreak, hw.height_eq h1, hw.height_eq h2, hb1, hb2]
  apply congrArg Except.ok
  simp only [tipKey_le, ha1, ha2]
  rcases Nat.lt_trichotomy (t.heightOf d1) (t.heightOf d2) with h | h | h
  · simp [h, Nat.not_lt.mpr h.le, h.ne']
  · cases b1.isAdversarial <;> cases b2.isAdversarial <;>
      rcases lt_trichotomy d1 d2 with hd | rfl | hd
    all_goals first
      | simp [h, hd.le, hd.not_ge, hd]
      | simp
  · simp [h]

theorem mem_of_tieBreak {w : Digest} (h : t.tieBreak d1 d2 = .ok w) : t.Mem d1 ∧ t.Mem d2 := by
  unfold tieBreak at h
  cases h1 : t.height d1 with
  | error e => rw [h1] at h; cases e <;> cases h
  | ok n1 =>
    cases h2 : t.height d2 with
    | error e => rw [h1, h2] at h; cases e <;> cases h
    | ok n2 => exact ⟨mem_of_height h1, mem_of_height h2⟩

/-- The comparison made in the loop. -/
def better (t : LcBlockTree) (x m : Digest) : Bool := decide (t.tipKey m ≤ t.tipKey x)

open Classical in
/-- The tips that descend from the checkpoint. -/
noncomputable def descends (t : LcBlockTree) (c x : Digest) : Bool := decide (t.Ext c x)

@[simp] theorem descends_iff {x : Digest} : t.descends c x = true ↔ t.Ext c x := by simp [descends]

/-- The loop over known tips is a scan for a maximum. -/
theorem WellFormed.leadingTipLoop_eq (hw : WellFormed cr t) (hc : t.Mem c) :
    ∀ {ds : List Digest} {m : Digest}, t.Mem m → (∀ d ∈ ds, t.Mem d) →
      t.leadingTipLoop c m ds = .ok (Scan.pick t.better (t.descends c) m ds)
  | [], _, _, _ => rfl
  | d :: ds, m, hm, hds => by
    have hd : t.Mem d := hds d (by simp)
    have hrest : ∀ x ∈ ds, t.Mem x := fun x hx => hds x (by simp [hx])
    obtain ⟨r, hr, hiff⟩ := hw.isPrefixOf_ok hc hd
    have hdesc : t.descends c d = r := by
      rw [Bool.eq_iff_iff, descends_iff]
      exact hiff.symm
    rw [leadingTipLoop, hw.tieBreak_eq hd hm, Scan.pick]
    by_cases hb : t.tipKey m ≤ t.tipKey d
    · have hbt : t.better d m = true := by simpa [better] using hb
      simp only [hb, if_true, bind, Except.bind, hr, expect_ok, hbt, hdesc, Bool.true_and]
      cases r with
      | false => exact hw.leadingTipLoop_eq hc hm hrest
      | true => exact hw.leadingTipLoop_eq hc hd hrest
    · have hbf : t.better d m = false := by simpa [better] using hb
      have hne : m ≠ d := by rintro rfl; exact hb le_rfl
      simp only [hb, if_false, bind, Except.bind, hne, hbf, Bool.false_and, Bool.false_eq_true]
      exact hw.leadingTipLoop_eq hc hm hrest

theorem WellFormed.leadingTipExtending_eq (hw : WellFormed cr t) (ord : HashOrder Digest)
    (hc : t.Mem c) : t.leadingTipExtending ord c =
      .ok (Scan.pick t.better (t.descends c) c (ord.iter t.idxTips)) :=
  hw.leadingTipLoop_eq hc hc fun d hd => hw.tips d (ord.mem_iter.mp hd)

/-- **The leading tip of a known checkpoint exists, descends from it, and is a maximum of the
checkpoint and the tips that descend from it.** -/
theorem WellFormed.leadingTip_spec (hw : WellFormed cr t) (ord : HashOrder Digest) (hc : t.Mem c) :
    ∃ tip, t.leadingTipExtending ord c = .ok tip ∧ t.Mem tip ∧ t.Ext c tip ∧
      t.tipKey c ≤ t.tipKey tip ∧
      ∀ d ∈ t.idxTips, t.Ext c d → t.tipKey d ≤ t.tipKey tip := by
  obtain ⟨h1, h2, h3⟩ := Scan.pick_spec (t.descends c) (l := ord.iter t.idxTips) (m := c)
    (fun x _ y _ => (by simp [better] : t.better x y = true ↔ t.tipKey y ≤ t.tipKey x))
  refine ⟨_, hw.leadingTipExtending_eq ord hc, ?_, ?_, h2, ?_⟩
  · rcases h1 with h1 | h1
    · rw [h1]; exact hc
    · exact hw.tips _ (ord.mem_iter.mp h1.1)
  · rcases h1 with h1 | h1
    · rw [h1]; exact .refl
    · exact descends_iff.mp h1.2
  · intro d hd hcd
    exact h3 d (ord.mem_iter.mpr hd) (descends_iff.mpr hcd)

/-- **The leading tip does not depend on the enumeration of the tips.** -/
theorem WellFormed.leadingTip_orderFree (hw : WellFormed cr t) (ord ord' : HashOrder Digest)
    (hc : t.Mem c) : t.leadingTipExtending ord c = t.leadingTipExtending ord' c := by
  rw [hw.leadingTipExtending_eq ord hc, hw.leadingTipExtending_eq ord' hc]
  refine congrArg _ (Scan.pick_eq ((ord.perm _).trans (ord'.perm _).symm)
    (fun x _ y _ => (by simp [better] : t.better x y = true ↔ t.tipKey y ≤ t.tipKey x))
    fun x _ y _ h => t.tipKey_injective h)

/-- A leading tip is found for known checkpoints only. -/
theorem WellFormed.mem_of_leadingTip (hw : WellFormed cr t) {ord : HashOrder Digest} {tip : Digest}
    (h : t.leadingTipExtending ord c = .ok tip) : t.Mem c := by
  unfold leadingTipExtending at h
  cases hl : ord.iter t.idxTips with
  | nil => exact absurd (List.nil_perm.mp (hl ▸ ord.perm t.idxTips)) hw.tips_ne
  | cons d ds =>
    rw [hl, leadingTipLoop] at h
    cases ht : t.tieBreak d c with
    | error e => rw [ht] at h; cases h
    | ok w => exact (mem_of_tieBreak ht).2

/-- **The higher of the checkpoint and the block `k` below its leading tip.** -/
theorem WellFormed.higher_of_k_deep (hw : WellFormed cr t) (ord : HashOrder Digest) (hc : t.Mem c)
    (k : ℕ) : ∃ tip d r, t.leadingTipExtending ord c = .ok tip ∧ t.kDeep k tip = .ok d ∧
      t.higherOf c d = .ok r ∧ t.isPrefixOf c r = .ok true ∧ t.isPrefixOf r tip = .ok true ∧
      t.height r = .ok (max (t.heightOf c) (t.heightOf tip - k)) ∧
      t.height c = .ok (t.heightOf c) ∧ t.height tip = .ok (t.heightOf tip) := by
  have G := hw.graded
  obtain ⟨tip, htip, hmt, hct, -⟩ := hw.leadingTip_spec ord hc
  have hdt : t.Ext (up t.parentOf k tip) tip := up_anc k tip
  have hmd : t.Mem (up t.parentOf k tip) := G.mem_anc hmt hdt
  have hh := G.height_up hmt k
  refine ⟨tip, up t.parentOf k tip, _, htip, hw.kDeep_eq k hmt, hw.higherOf_eq hc hmd, ?_⟩
  by_cases hle : t.heightOf (up t.parentOf k tip) ≤ t.heightOf c
  · rw [if_pos hle]
    refine ⟨hw.isPrefixOf_true hc .refl, hw.isPrefixOf_true hmt hct, ?_, hw.height_eq hc,
      hw.height_eq hmt⟩
    rw [hw.height_eq hc, max_eq_left (by omega)]
  · rw [if_neg hle]
    have hcd := G.anc_of_height_le hmt hct hdt (by omega)
    refine ⟨hw.isPrefixOf_true hmd hcd, hw.isPrefixOf_true hmt hdt, ?_, hw.height_eq hc,
      hw.height_eq hmt⟩
    rw [hw.height_eq hmd, hh, max_eq_right (by omega)]

/-! ## The maximum over all descendants -/

/-- Every block has a tip above it. -/
def Covered (t : LcBlockTree) : Prop := ∀ d, t.Mem d → ∃ x ∈ t.idxTips, t.Ext d x

theorem covered_new (cr : Crypto) : Covered (new cr) := by
  intro d hd
  obtain ⟨b, hb⟩ := mem_iff.mp hd
  have hg : d = LcBlock.genesisDigest cr := by
    by_contra hne
    simp [new, Function.update_of_ne hne] at hb
  exact ⟨LcBlock.genesisDigest cr, by simp [new], hg ▸ .refl⟩

/-- The tip that `add` removes is below the one that it inserts. -/
theorem Covered.add {t' : LcBlockTree} {blk : LcBlock} (hcov : Covered t) (hw : WellFormed cr t)
    (hf : ∀ b, t.lcblocks (blk.digest cr) = some b → b = blk) (h : t.add cr blk = .ok t') :
    Covered t' := by
  have hext := hw.add_extends hf h
  have hfile := lcblocks_add hf h
  obtain ⟨p, n, hp, -, rfl⟩ := add_ok h
  intro d hd
  have hblk : Function.update t.lcblocks (blk.digest cr) (some blk) (blk.digest cr) = some blk :=
    Function.update_self _ _ _
  by_cases hold : t.Mem d
  · obtain ⟨x, hx, hdx⟩ := hcov d hold
    by_cases hxp : x = p
    · subst hxp
      exact ⟨blk.digest cr, List.mem_insert_self,
        .step (parentOf_eq_some.mpr ⟨blk, hblk, hp⟩) (hext.ext hdx)⟩
    · refine ⟨x, List.mem_insert_of_mem ?_, hext.ext hdx⟩
      exact (List.mem_erase_of_ne hxp).mpr hx
  · obtain ⟨b, hb⟩ := mem_iff.mp hd
    rcases (hfile d b).mp hb with hb | ⟨-, rfl⟩
    · exact absurd (mem_iff.mpr ⟨b, hb⟩) hold
    · exact ⟨blk.digest cr, List.mem_insert_self, .refl⟩

/-- `tip` wins against every block that is `c` or descends from it. -/
structure Leads (t : LcBlockTree) (c tip : Digest) : Prop where
  mem : t.Mem tip
  ext : t.Ext c tip
  max : ∀ d, t.Mem d → t.Ext c d → d ≠ tip → t.tipKey d < t.tipKey tip

theorem Leads.unique {x y : Digest} (hx : t.Leads c x) (hy : t.Leads c y) : x = y := by
  by_contra hne
  exact lt_asymm (hx.max y hy.mem hy.ext (Ne.symm hne)) (hy.max x hx.mem hx.ext hne)

/-- A descendant other than the block itself is higher, so it wins. -/
theorem WellFormed.tipKey_le_of_ext (hw : WellFormed cr t) (h2 : t.Mem d2) (h : t.Ext d1 d2) :
    t.tipKey d1 ≤ t.tipKey d2 := by
  by_cases hle : t.heightOf d2 ≤ t.heightOf d1
  · rw [hw.graded.eq_of_height h2 h hle]
  · exact tipKey_le.mpr (.inl (by omega))

/-- **The leading tip wins against every block that descends from the checkpoint.** -/
theorem WellFormed.leadingTip_leads (hw : WellFormed cr t) (hcov : Covered t)
    (ord : HashOrder Digest) (hc : t.Mem c) :
    ∃ tip, t.leadingTipExtending ord c = .ok tip ∧ t.Leads c tip := by
  obtain ⟨tip, htip, hm, he, -, hmax⟩ := hw.leadingTip_spec ord hc
  refine ⟨tip, htip, hm, he, ?_⟩
  intro d hd hcd hne
  obtain ⟨x, hx, hdx⟩ := hcov d hd
  have hle : t.tipKey d ≤ t.tipKey tip :=
    (hw.tipKey_le_of_ext (hw.tips x hx) hdx).trans (hmax x hx (hcd.trans hdx))
  exact lt_of_le_of_ne hle fun heq => hne (t.tipKey_injective heq)

/-- Trees with the same blocks have the same leading tips. -/
theorem WellFormed.leadingTip_congr {t' : LcBlockTree} (hw : WellFormed cr t)
    (hw' : WellFormed cr t') (hcov : Covered t) (hcov' : Covered t')
    (hb : t.lcblocks = t'.lcblocks) (ord ord' : HashOrder Digest) (hc : t.Mem c) :
    t.leadingTipExtending ord c = t'.leadingTipExtending ord' c := by
  have hpar : t.parentOf = t'.parentOf := by funext d; simp only [parentOf, hb]
  have hext : t.Ext = t'.Ext := by funext a b; simp only [Ext, hpar]
  have hmem : t.Mem = t'.Mem := by funext d; simp only [Mem, hb]
  have G' : Graded t.parentOf t'.heightOf t.Mem := by rw [hpar, hmem]; exact hw'.graded
  have hkey : ∀ d, t.Mem d → t'.tipKey d = t.tipKey d := by
    intro d hd
    simp only [tipKey, adversarial, hb, hw.graded.height_unique G' hd]
  obtain ⟨tip, htip, hl⟩ := hw.leadingTip_leads hcov ord hc
  obtain ⟨tip', htip', hl'⟩ := hw'.leadingTip_leads hcov' ord' (hmem ▸ hc)
  have hl'' : t.Leads c tip' := by
    refine ⟨hmem ▸ hl'.mem, hext ▸ hl'.ext, ?_⟩
    intro d hd hcd hne
    have := hl'.max d (hmem ▸ hd) (hext ▸ hcd) hne
    rwa [hkey d hd, hkey tip' (hmem ▸ hl'.mem)] at this
  rw [htip, htip', hl.unique hl'']

/-- `tie_break` is a total order on the blocks of the tree. -/
theorem WellFormed.tieBreak_order (hw : WellFormed cr t) :
    IsLinearOrder {d : Digest // t.Mem d} fun x y => t.tieBreak x.1 y.1 = .ok x.1 := by
  have hwins : ∀ x y : {d : Digest // t.Mem d},
      t.tieBreak x.1 y.1 = .ok x.1 ↔ t.tipKey y.1 ≤ t.tipKey x.1 := by
    intro x y
    rw [hw.tieBreak_eq x.2 y.2, Except.ok.injEq, ite_eq_left_iff]
    constructor
    · intro h
      by_contra hlt
      rw [h hlt] at hlt
      exact hlt le_rfl
    · intro h hlt
      exact absurd h hlt
  have htotal : ∀ x y : {d : Digest // t.Mem d},
      t.tipKey y.1 ≤ t.tipKey x.1 ∨ t.tipKey x.1 ≤ t.tipKey y.1 := fun _ _ => le_total _ _
  simp only [hwins]
  exact
    { refl := fun _ => le_rfl
      trans := fun _ _ _ h h' => h'.trans h
      antisymm := fun _ _ h h' => Subtype.ext (t.tipKey_injective (le_antisymm h' h))
      total := htotal }

/-- **The leading tip is the true maximum.**  In every tree made by calls of `add` and for every
enumeration of the tips; when parents come first it depends on the set of added blocks only. -/
theorem leading_tip_maximum (cr : Crypto) (bs : List LcBlock) (hc : NoCollision cr bs)
    (t : LcBlockTree) (ht : t = addAll cr (.new cr) bs) :
    (∀ c ord, t.Mem c → ∃ tip, t.leadingTipExtending ord c = .ok tip ∧ t.Leads c tip) ∧
    IsLinearOrder {d : Digest // t.Mem d} (fun x y => t.tieBreak x.1 y.1 = .ok x.1) ∧
    (∀ x y, t.Mem x → t.Mem y → ∃ w, t.tieBreak x y = .ok w ∧ t.tieBreak y x = .ok w ∧
      (w = x ∨ w = y)) ∧
    ∀ bs', ParentsFirst cr [LcBlock.genesisDigest cr] bs →
      ParentsFirst cr [LcBlock.genesisDigest cr] bs' → (∀ b, b ∈ bs ↔ b ∈ bs') →
      ∀ c ord ord', t.Mem c → t.leadingTipExtending ord c =
        (addAll cr (.new cr) bs').leadingTipExtending ord' c := by
  have hreach : ∀ cs, (∀ b ∈ cs, b ∈ bs) →
      WellFormed cr (addAll cr (.new cr) cs) ∧ Covered (addAll cr (.new cr) cs) := fun cs hcs =>
    addAll_induction hc (fun _ _ _ hw hf ha hcov => hcov.add hw hf ha) (wellFormed_new cr)
      (within_new bs) hcs (covered_new cr)
  obtain ⟨hw, hcov⟩ := hreach bs fun b hb => hb
  subst ht
  refine ⟨fun c ord hm => hw.leadingTip_leads hcov ord hm, hw.tieBreak_order, ?_, ?_⟩
  · intro x y hx hy
    rw [hw.tieBreak_eq hx hy, hw.tieBreak_eq hy hx]
    rcases le_total (tipKey (addAll cr (.new cr) bs) x) (tipKey (addAll cr (.new cr) bs) y)
      with h | h
    · refine ⟨y, ?_, by rw [if_pos h], .inr rfl⟩
      by_cases h' : tipKey (addAll cr (.new cr) bs) y ≤ tipKey (addAll cr (.new cr) bs) x
      · rw [if_pos h', tipKey_injective _ (le_antisymm h h')]
      · rw [if_neg h']
    · refine ⟨x, by rw [if_pos h], ?_, .inl rfl⟩
      by_cases h' : tipKey (addAll cr (.new cr) bs) x ≤ tipKey (addAll cr (.new cr) bs) y
      · rw [if_pos h', tipKey_injective _ (le_antisymm h h')]
      · rw [if_neg h']
  · intro bs' hp hp' hmem c ord ord' hm
    obtain ⟨hw', hcov'⟩ := hreach bs' fun b hb => (hmem b).mpr hb
    have hknown : ∀ d ∈ [LcBlock.genesisDigest cr], (new cr).Mem d := by
      intro d hd
      rw [List.mem_singleton.mp hd]
      exact (wellFormed_new cr).mem_genesis
    refine hw.leadingTip_congr hw' hcov hcov' ?_ ord ord' hm
    funext d
    apply Option.ext
    intro b
    rw [lcblocks_addAll hc (wellFormed_new cr) (within_new bs) (fun b hb => hb) hknown hp,
      lcblocks_addAll hc (wellFormed_new cr) (within_new bs) (fun b hb => (hmem b).mpr hb) hknown hp',
      hmem]

theorem length_nil_lt : ([] : Bytes).length < 2 ^ 64 := by decide

/-- An honest and an adversarial child of genesis. -/
def honestChild : LcBlock := ⟨some (LcBlock.genesisDigest sampleCrypto), LcBlock.genesis.payload, 1⟩

def adversarialChild : LcBlock where
  parent := some (LcBlock.genesisDigest sampleCrypto)
  payload :=
    { text := ⟨[91, 97, 100, 118, 93], by decide, Encoding.utf8Valid_of_ascii (by simp)⟩
      data := ⟨[], length_nil_lt⟩ }
  slot := 1

theorem noCollision_fork : NoCollision sampleCrypto [honestChild, adversarialChild] :=
  noCollision_of_nodup (by decide +kernel)

/-- Of two blocks at one height the adversarial one leads, whichever came first. -/
theorem leading_tip_maximum_fork :
    ∃ tip, Leads (addAll sampleCrypto (.new sampleCrypto) [honestChild, adversarialChild])
        (LcBlock.genesisDigest sampleCrypto) tip ∧
      leadingTipExtending
        (addAll sampleCrypto (.new sampleCrypto) [adversarialChild, honestChild, honestChild])
        .reversed (LcBlock.genesisDigest sampleCrypto) = .ok tip := by
  obtain ⟨h1, -, -, h2⟩ := leading_tip_maximum sampleCrypto [honestChild, adversarialChild]
    noCollision_fork _ rfl
  have hg : (addAll sampleCrypto (.new sampleCrypto) [honestChild, adversarialChild]).Mem
      (LcBlock.genesisDigest sampleCrypto) := by
    rw [Mem]
    decide +kernel
  obtain ⟨tip, htip, hl⟩ := h1 _ .stored hg
  have hmem : ∀ b, b ∈ [honestChild, adversarialChild] ↔
      b ∈ [adversarialChild, honestChild, honestChild] := by
    intro b
    simp only [List.mem_cons, List.not_mem_nil, or_false, or_self]
    exact or_comm
  have hsame := h2 [adversarialChild, honestChild, honestChild] (by decide +kernel)
    (by decide +kernel) hmem (LcBlock.genesisDigest sampleCrypto) .stored .reversed hg
  exact ⟨tip, hl, hsame.symm.trans htip⟩

end AccountabilityGadget.LcBlockTree
