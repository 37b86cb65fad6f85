import AccountabilityGadget.LongestChain.Blocks
import AccountabilityGadget.Lib.Ancestry

/-!
# The block tree as a forest of ancestors

* `WellFormed` — the invariant of `LcBlockTree`: blocks are filed under their digests, genesis is
  the only root, and the precomputed heights count the parent steps to it.
* `WellFormed.add`, `wellFormed_addAll` — `add` keeps it and only adds blocks, as long as the hash
  has no collision among the blocks.
* `lcblocks_addAll` — when parents come first the tree holds exactly the blocks that were added.
* `graded` — a well-formed tree is graded by its heights (`Ancestry.Graded`).
* `isPrefixOf_iff`, `height_eq`, `kDeep_eq`, `higherOf_eq`, `heightHonest_ok` — what the operations
  of the tree compute on known blocks.
-/

set_option autoImplicit false

namespace AccountabilityGadget.LcBlockTree

open Ancestry

/-- The parent pointers of the tree. -/
def parentOf (t : LcBlockTree) (d : Digest) : Option Digest := (t.lcblocks d).bind LcBlock.parent

def heightOf (t : LcBlockTree) (d : Digest) : ℕ := (t.precomputedHeight d).getD 0

/-- The tree has a block with this digest. -/
def Mem (t : LcBlockTree) (d : Digest) : Prop := (t.lcblocks d).isSome

/-- `a` is `b` or an ancestor of `b` in the tree. -/
abbrev Ext (t : LcBlockTree) (a b : Digest) : Prop := Anc t.parentOf a b

structure WellFormed (cr : Crypto) (t : LcBlockTree) : Prop where
  digest : ∀ d b, t.lcblocks d = some b → b.digest cr = d
  genesis : t.lcblocks (LcBlock.genesisDigest cr) = some .genesis
  genesis_height : t.precomputedHeight (LcBlock.genesisDigest cr) = some 0
  heights : ∀ d, (t.precomputedHeight d).isSome ↔ (t.lcblocks d).isSome
  root : ∀ d b, t.lcblocks d = some b → b.parent = none → b = .genesis
  parent : ∀ d b p, t.lcblocks d = some b → b.parent = some p →
    ∃ h, t.precomputedHeight p = some h ∧ t.precomputedHeight d = some (h + 1)
  tips : ∀ d ∈ t.idxTips, t.Mem d
  tips_ne : t.idxTips ≠ []

/-- `t'` has the blocks of `t`, at the same heights. -/
structure Extends (t t' : LcBlockTree) : Prop where
  lcblocks : ∀ d b, t.lcblocks d = some b → t'.lcblocks d = some b
  heights : ∀ d h, t.precomputedHeight d = some h → t'.precomputedHeight d = some h

theorem Extends.refl (t : LcBlockTree) : t.Extends t := ⟨fun _ _ h => h, fun _ _ h => h⟩

variable {cr : Crypto} {t t' : LcBlockTree} {a b d : Digest}

theorem mem_iff : t.Mem d ↔ ∃ blk, t.lcblocks d = some blk := Option.isSome_iff_exists

theorem Extends.mem (h : t.Extends t') (hd : t.Mem d) : t'.Mem d := by
  obtain ⟨blk, hb⟩ := mem_iff.mp hd
  exact mem_iff.mpr ⟨blk, h.lcblocks d blk hb⟩

theorem parentOf_eq_some {p : Digest} :
    t.parentOf d = some p ↔ ∃ blk, t.lcblocks d = some blk ∧ blk.parent = some p :=
  Option.bind_eq_some_iff

theorem Extends.ext (h : t.Extends t') (hab : t.Ext a b) : t'.Ext a b := by
  apply hab.mono
  intro x y hxy
  obtain ⟨blk, hb, hp⟩ := parentOf_eq_some.mp hxy
  exact parentOf_eq_some.mpr ⟨blk, h.lcblocks x blk hb, hp⟩

theorem heightOf_eq {n : ℕ} (h : t.precomputedHeight d = some n) : t.heightOf d = n := by
  rw [heightOf, h]; rfl

theorem WellFormed.height_eq_heightOf (h : WellFormed cr t) (hd : t.Mem d) :
    t.precomputedHeight d = some (t.heightOf d) := by
  obtain ⟨n, hn⟩ := Option.isSome_iff_exists.mp ((h.heights d).mpr hd)
  rw [hn, heightOf_eq hn]

theorem new_genesis (cr : Crypto) :
    (new cr).lcblocks (LcBlock.genesisDigest cr) = some .genesis := by simp [new]

theorem new_genesis_height (cr : Crypto) :
    (new cr).precomputedHeight (LcBlock.genesisDigest cr) = some 0 := by simp [new]

theorem wellFormed_new (cr : Crypto) : WellFormed cr (new cr) := by
  have hsome : ∀ {α : Type} (d : Digest) (x y : α),
      Function.update (fun _ => none) (LcBlock.genesisDigest cr) (some x) d = some y →
        d = LcBlock.genesisDigest cr ∧ y = x := by
    intro α d x y h
    by_cases hd : d = LcBlock.genesisDigest cr
    · subst hd; rw [Function.update_self] at h; cases h; exact ⟨rfl, rfl⟩
    · rw [Function.update_of_ne hd] at h; cases h
  refine ⟨fun d b h => ?_, new_genesis cr, new_genesis_height cr, fun d => ?_,
    fun d b h _ => (hsome d _ b h).2, fun d b p h hp => ?_, fun d hd => ?_, by simp [new]⟩
  · obtain ⟨rfl, rfl⟩ := hsome d _ b h
    rfl
  · by_cases hd : d = LcBlock.genesisDigest cr
    · subst hd; simp [new]
    · simp [new, Function.update_of_ne hd]
  · rw [(hsome d _ b h).2] at hp
    cases hp
  · rw [show d = _ by simpa [new] using hd]
    simp [Mem, new]

/-- A successful `add` knows the parent. -/
theorem add_ok {blk : LcBlock} (h : t.add cr blk = .ok t') :
    ∃ p n, blk.parent = some p ∧ t.precomputedHeight p = some n ∧
      t' = { idxTips := (t.idxTips.erase p).insert (blk.digest cr)
             lcblocks := Function.update t.lcblocks (blk.digest cr) (some blk)
             precomputedHeight :=
               Function.update t.precomputedHeight (blk.digest cr) (some (n + 1)) } := by
  unfold add at h
  split at h
  · cases h
  · rename_i p hp
    split at h
    · cases h
    · rename_i n hn
      cases h
      exact ⟨p, n, hp, hn, rfl⟩

/-- Adding a block again changes neither the blocks nor the heights. -/
theorem WellFormed.add_known (hw : WellFormed cr t) {blk : LcBlock}
    (hk : t.lcblocks (blk.digest cr) = some blk) (h : t.add cr blk = .ok t') :
    t'.lcblocks = t.lcblocks ∧ t'.precomputedHeight = t.precomputedHeight := by
  obtain ⟨p, n, hp, hn, rfl⟩ := add_ok h
  obtain ⟨m, hm, hd⟩ := hw.parent _ _ _ hk hp
  rw [hn, Option.some.injEq] at hm
  subst hm
  exact ⟨by rw [← hk]; exact Function.update_eq_self _ _,
    by rw [← hd]; exact Function.update_eq_self _ _⟩

/-- Adding a new block extends the tree. -/
theorem WellFormed.add_new_extends (hw : WellFormed cr t) {blk : LcBlock}
    (hk : t.lcblocks (blk.digest cr) = none) (h : t.add cr blk = .ok t') : t.Extends t' := by
  obtain ⟨p, n, hp, hn, rfl⟩ := add_ok h
  have hne : ∀ {d}, t.Mem d → d ≠ blk.digest cr := by
    rintro d hd rfl
    rw [Mem, hk] at hd
    cases hd
  refine ⟨?_, ?_⟩
  · intro d b hb
    exact (Function.update_of_ne (hne (mem_iff.mpr ⟨b, hb⟩)) _ _).trans hb
  · intro d m hm
    exact (Function.update_of_ne (hne ((hw.heights d).mp (by rw [hm]; rfl))) _ _).trans hm

theorem WellFormed.add_extends (hw : WellFormed cr t) {blk : LcBlock}
    (hf : ∀ b, t.lcblocks (blk.digest cr) = some b → b = blk) (h : t.add cr blk = .ok t') :
    t.Extends t' := by
  cases hk : t.lcblocks (blk.digest cr) with
  | none => exact hw.add_new_extends hk h
  | some b =>
    obtain ⟨h1, h2⟩ := hw.add_known (hk.trans (congrArg _ (hf b hk))) h
    exact ⟨fun d b hb => h1 ▸ hb, fun d n hn => h2 ▸ hn⟩

/-- **`add` keeps the tree well formed**, if a block under the same digest is the same block. -/
theorem WellFormed.add (hw : WellFormed cr t) {blk : LcBlock}
    (hf : ∀ b, t.lcblocks (blk.digest cr) = some b → b = blk) (h : t.add cr blk = .ok t') :
    WellFormed cr t' := by
  have hext := hw.add_extends hf h
  obtain ⟨p, n, hp, hn, rfl⟩ := add_ok h
  have hcases : ∀ d b, Function.update t.lcblocks (blk.digest cr) (some blk) d = some b →
      d = blk.digest cr ∧ b = blk ∨ t.lcblocks d = some b := by
    intro d b hb
    by_cases hd : d = blk.digest cr
    · subst hd
      rw [Function.update_self, Option.some.injEq] at hb
      exact .inl ⟨rfl, hb.symm⟩
    · rw [Function.update_of_ne hd] at hb
      exact .inr hb
  refine ⟨?_, hext.lcblocks _ _ hw.genesis, hext.heights _ _ hw.genesis_height, ?_, ?_, ?_, ?_, ?_⟩
  · intro d b hb
    rcases hcases d b hb with ⟨rfl, rfl⟩ | hb
    · rfl
    · exact hw.digest d b hb
  · intro d
    by_cases hd : d = blk.digest cr
    · subst hd; simp
    · simp only [Function.update_of_ne hd]
      exact hw.heights d
  · intro d b hb hr
    rcases hcases d b hb with ⟨-, rfl⟩ | hb
    · rw [hp] at hr; cases hr
    · exact hw.root d b hb hr
  · intro d b q hb hq
    rcases hcases d b hb with ⟨rfl, rfl⟩ | hb
    · rw [hp, Option.some.injEq] at hq
      subst hq
      exact ⟨n, hext.heights _ _ hn, Function.update_self _ _ _⟩
    · obtain ⟨m, hm, hd⟩ := hw.parent d b q hb hq
      exact ⟨m, hext.heights _ _ hm, hext.heights _ _ hd⟩
  · intro d hd
    rcases List.mem_insert_iff.mp hd with rfl | hd
    · simp [Mem]
    · exact hext.mem (hw.tips d (List.mem_of_mem_erase hd))
  · intro hnil
    have hmem : blk.digest cr ∈ (t.idxTips.erase p).insert (blk.digest cr) := List.mem_insert_self
    simp only at hnil
    rw [hnil] at hmem
    cases hmem

/-- The blocks of the tree are genesis and the blocks in `bs`. -/
def Within (bs : List LcBlock) (t : LcBlockTree) : Prop :=
  ∀ d b, t.lcblocks d = some b → b = .genesis ∨ b ∈ bs

theorem within_new (bs : List LcBlock) : Within bs (new cr) := by
  intro d b h
  by_cases hd : d = LcBlock.genesisDigest cr
  · subst hd
    simp only [new, Function.update_self, Option.some.injEq] at h
    exact .inl h.symm
  · simp [new, Function.update_of_ne hd] at h

theorem Within.add {bs : List LcBlock} {blk : LcBlock} (hi : Within bs t) (hb : blk ∈ bs)
    (h : t.add cr blk = .ok t') : Within bs t' := by
  obtain ⟨p, n, hp, hn, rfl⟩ := add_ok h
  intro d b hd
  simp only [Function.update_apply] at hd
  split_ifs at hd
  · cases hd; exact .inr hb
  · exact hi d b hd

/-- The hash has no collision among genesis and the blocks in `bs`. -/
def NoCollision (cr : Crypto) (bs : List LcBlock) : Prop :=
  cr.CollisionFree fun x => ∃ b, (b = .genesis ∨ b ∈ bs) ∧ x = b.encode

theorem noCollision_of_nodup {bs : List LcBlock}
    (h : ((.genesis :: bs).map (LcBlock.digest cr)).Nodup) : NoCollision cr bs := by
  rintro x y ⟨b, hb, rfl⟩ ⟨b', hb', rfl⟩ he
  rw [List.inj_on_of_nodup_map h (List.mem_cons.mpr hb) (List.mem_cons.mpr hb') he]

theorem NoCollision.unique {bs : List LcBlock} (hc : NoCollision cr bs) (hw : WellFormed cr t)
    (hi : Within bs t) {blk : LcBlock} (hb : blk ∈ bs) (x : LcBlock)
    (hx : t.lcblocks (blk.digest cr) = some x) : x = blk :=
  LcBlock.encode_injective
    (hc _ _ ⟨x, hi _ x hx, rfl⟩ ⟨blk, .inr hb, rfl⟩ (hw.digest _ x hx))

/-- What one successful `add` keeps holds after a sequence of calls. -/
theorem addAll_induction {bs : List LcBlock} (hc : NoCollision cr bs) {P : LcBlockTree → Prop}
    (hadd : ∀ t b t', WellFormed cr t → (∀ x, t.lcblocks (b.digest cr) = some x → x = b) →
      t.add cr b = .ok t' → P t → P t') :
    ∀ {cs : List LcBlock} {t : LcBlockTree}, WellFormed cr t → Within bs t → (∀ b ∈ cs, b ∈ bs) →
      P t → WellFormed cr (addAll cr t cs) ∧ P (addAll cr t cs)
  | [], _, hw, _, _, hP => ⟨hw, hP⟩
  | b :: cs, t, hw, hi, hcs, hP => by
    have hmem : b ∈ bs := hcs b (by simp)
    have hrest : ∀ x ∈ cs, x ∈ bs := fun x hx => hcs x (by simp [hx])
    have hf := hc.unique hw hi hmem
    rw [addAll]
    cases ha : t.add cr b with
    | error e => exact addAll_induction hc hadd hw hi hrest hP
    | ok t' =>
      exact addAll_induction hc hadd (hw.add hf ha) (hi.add hmem ha) hrest (hadd t b t' hw hf ha hP)

/-- **Every tree that is reached by calls of `add` is well formed.** -/
theorem wellFormed_addAll {bs : List LcBlock} (hc : NoCollision cr bs) {cs : List LcBlock}
    {t : LcBlockTree} (hw : WellFormed cr t) (hi : Within bs t) (hcs : ∀ b ∈ cs, b ∈ bs) :
    WellFormed cr (addAll cr t cs) :=
  (addAll_induction (P := fun _ => True) hc (fun _ _ _ _ _ _ _ => trivial) hw hi hcs trivial).1

theorem WellFormed.mem_genesis (hw : WellFormed cr t) : t.Mem (LcBlock.genesisDigest cr) := by
  rw [Mem, hw.genesis]; rfl

/-- Every block is genesis, or has a parent among the known digests and those before it. -/
def ParentsFirst (cr : Crypto) : List Digest → List LcBlock → Prop
  | _, [] => True
  | known, b :: bs => (b = .genesis ∨ ∃ p ∈ known, b.parent = some p) ∧
    ParentsFirst cr (b.digest cr :: known) bs

instance (cr : Crypto) : ∀ (known : List Digest) (bs : List LcBlock),
    Decidable (ParentsFirst cr known bs)
  | _, [] => .isTrue trivial
  | known, b :: bs =>
    have := instDecidableParentsFirst cr (b.digest cr :: known) bs
    inferInstanceAs (Decidable ((b = .genesis ∨ ∃ p ∈ known, b.parent = some p) ∧
      ParentsFirst cr (b.digest cr :: known) bs))

/-- A block with a known parent is added. -/
theorem WellFormed.add_isOk (hw : WellFormed cr t) {blk : LcBlock} {p : Digest}
    (hp : blk.parent = some p) (hm : t.Mem p) : ∃ t', t.add cr blk = .ok t' := by
  rw [LcBlockTree.add, hp]
  simp only [hw.height_eq_heightOf hm]
  exact ⟨_, rfl⟩

/-- `add` files one more block. -/
theorem lcblocks_add {blk : LcBlock} (hf : ∀ b, t.lcblocks (blk.digest cr) = some b → b = blk)
    (h : t.add cr blk = .ok t') (d : Digest) (b : LcBlock) :
    t'.lcblocks d = some b ↔ t.lcblocks d = some b ∨ b = blk ∧ blk.digest cr = d := by
  obtain ⟨p, n, -, -, rfl⟩ := add_ok h
  by_cases hd : d = blk.digest cr
  · subst hd
    simp only [Function.update_self, Option.some.injEq, and_true]
    constructor
    · intro hb; exact .inr hb.symm
    · rintro (hb | hb)
      · exact (hf b hb).symm
      · exact hb.symm
  · simp only [Function.update_of_ne hd]
    constructor
    · intro hb; exact .inl hb
    · rintro (hb | ⟨-, hb⟩)
      · exact hb
      · exact absurd hb.symm hd

/-- **When parents come first the tree holds exactly the blocks that were added.** -/
theorem lcblocks_addAll {bs : List LcBlock} (hc : NoCollision cr bs) :
    ∀ {cs : List LcBlock} {t : LcBlockTree} {known : List Digest}, WellFormed cr t → Within bs t →
      (∀ b ∈ cs, b ∈ bs) → (∀ d ∈ known, t.Mem d) → ParentsFirst cr known cs → ∀ d b,
      (addAll cr t cs).lcblocks d = some b ↔ t.lcblocks d = some b ∨ b ∈ cs ∧ b.digest cr = d
  | [], _, _, _, _, _, _, _, d, b => by simp [addAll]
  | c :: cs, t, known, hw, hi, hcs, hk, ⟨hc1, hrest⟩, d, b => by
    have hmem : c ∈ bs := hcs c (by simp)
    have hf := hc.unique hw hi hmem
    have hcs' : ∀ x ∈ cs, x ∈ bs := fun x hx => hcs x (by simp [hx])
    rw [addAll]
    rcases hc1 with rfl | ⟨p, hp, hpc⟩
    · have hk' : ∀ d ∈ LcBlock.genesis.digest cr :: known, t.Mem d := by
        intro d hd
        rcases List.mem_cons.mp hd with rfl | hd
        · exact hw.mem_genesis
        · exact hk d hd
      have he : t.add cr .genesis =
          .error "Parent is None, there can be only one genesis block!" := rfl
      simp only [he]
      rw [lcblocks_addAll hc hw hi hcs' hk' hrest, List.mem_cons]
      constructor
      · rintro (h | ⟨h, h'⟩)
        · exact .inl h
        · exact .inr ⟨.inr h, h'⟩
      · rintro (h | ⟨rfl | h, rfl⟩)
        · exact .inl h
        · exact .inl hw.genesis
        · exact .inr ⟨h, rfl⟩
    · obtain ⟨t', ha⟩ := hw.add_isOk hpc (hk p hp)
      have hfile := lcblocks_add hf ha
      have hk' : ∀ d ∈ c.digest cr :: known, t'.Mem d := by
        intro d hd
        rcases List.mem_cons.mp hd with rfl | hd
        · exact mem_iff.mpr ⟨c, (hfile _ _).mpr (.inr ⟨rfl, rfl⟩)⟩
        · exact (hw.add_extends hf ha).mem (hk d hd)
      simp only [ha]
      rw [lcblocks_addAll hc (hw.add hf ha) (hi.add hmem ha) hcs' hk' hrest, hfile, List.mem_cons]
      constructor
      · rintro ((h | ⟨rfl, h⟩) | ⟨h, h'⟩)
        · exact .inl h
        · exact .inr ⟨.inl rfl, h⟩
        · exact .inr ⟨.inr h, h'⟩
      · rintro (h | ⟨rfl | h, h'⟩)
        · exact .inl (.inl h)
        · exact .inl (.inr ⟨rfl, h'⟩)
        · exact .inr ⟨h, h'⟩

/-! ## The operations on known blocks -/

/-- **A well-formed tree is graded by its heights.** -/
theorem WellFormed.graded (hw : WellFormed cr t) : Graded t.parentOf t.heightOf t.Mem := by
  refine ⟨?_, ?_, ?_⟩
  · intro d p _ hp
    obtain ⟨blk, hb, hp⟩ := parentOf_eq_some.mp hp
    obtain ⟨n, hn, -⟩ := hw.parent d blk p hb hp
    exact (hw.heights p).mp (by rw [hn]; rfl)
  · intro d p _ hp
    obtain ⟨blk, hb, hp⟩ := parentOf_eq_some.mp hp
    obtain ⟨n, hn, hd⟩ := hw.parent d blk p hb hp
    rw [heightOf_eq hn, heightOf_eq hd]
  · intro d hd hp
    obtain ⟨blk, hb⟩ := mem_iff.mp hd
    have hg : blk = .genesis := hw.root d blk hb (by simpa [parentOf, hb] using hp)
    have hd' : d = LcBlock.genesisDigest cr := by rw [← hw.digest d blk hb, hg]; rfl
    rw [hd', heightOf_eq hw.genesis_height]

/-- The parent of a block that is filed under its digest. -/
theorem WellFormed.parent_of_mem (hw : WellFormed cr t) {blk : LcBlock}
    (hf : ∀ b, t.lcblocks (blk.digest cr) = some b → b = blk) (hm : t.Mem (blk.digest cr))
    {p : Digest} (hp : blk.parent = some p) :
    t.Mem p ∧ t.heightOf (blk.digest cr) = t.heightOf p + 1 := by
  obtain ⟨b, hb⟩ := mem_iff.mp hm
  have hpar : t.parentOf (blk.digest cr) = some p := parentOf_eq_some.mpr ⟨b, hb, hf b hb ▸ hp⟩
  exact ⟨hw.graded.closed _ p hm hpar, hw.graded.height_parent _ p hm hpar⟩

theorem Extends.heightOf (h : t.Extends t') (hw : WellFormed cr t) (hd : t.Mem d) :
    t'.heightOf d = t.heightOf d :=
  heightOf_eq (h.heights d _ (hw.height_eq_heightOf hd))

/-- With more fuel than the height of the longer block the ancestry test is exact. -/
theorem WellFormed.isPrefixOfFuel_iff (hw : WellFormed cr t) (ha : t.Mem a) :
    ∀ {n : ℕ} {b : Digest}, t.Mem b → t.heightOf b < n →
      ∃ r, t.isPrefixOfFuel n a b = .ok r ∧ (r = true ↔ t.Ext a b)
  | 0, _, _, h => absurd h (Nat.not_lt_zero _)
  | n + 1, b, hb, hn => by
    obtain ⟨x, hx⟩ := mem_iff.mp ha
    obtain ⟨y, hy⟩ := mem_iff.mp hb
    have G := hw.graded
    rw [isPrefixOfFuel, if_neg (by rw [hx]; simp)]
    simp only [hy, hw.height_eq_heightOf ha, hw.height_eq_heightOf hb]
    by_cases hlt : t.heightOf b < t.heightOf a
    · refine ⟨false, by rw [if_pos hlt], ?_⟩
      simp only [Bool.false_eq_true, false_iff]
      intro h
      have := G.height_le hb h
      omega
    · rw [if_neg hlt]
      by_cases heq : b = a
      · exact ⟨true, by rw [if_pos heq], by simp [heq, Anc.refl]⟩
      · rw [if_neg heq]
        cases hp : y.parent with
        | none =>
          have hroot : t.parentOf b = none := by rw [parentOf, hy, Option.bind_some, hp]
          refine ⟨false, rfl, ?_⟩
          simp only [Bool.false_eq_true, false_iff]
          intro h
          exact heq (h.eq_of_root hroot)
        | some p =>
          have hpb : t.parentOf b = some p := parentOf_eq_some.mpr ⟨y, hy, hp⟩
          have hh := G.height_parent b p hb hpb
          obtain ⟨r, hr, hiff⟩ := hw.isPrefixOfFuel_iff ha (G.closed b p hb hpb)
            (show t.heightOf p < n by omega)
          exact ⟨r, hr, hiff.trans (Anc.parent_iff heq hpb)⟩

/-- **On known blocks `is_prefix_of` answers, and decides ancestry.** -/
theorem WellFormed.isPrefixOf_ok (hw : WellFormed cr t) (ha : t.Mem a) (hb : t.Mem b) :
    ∃ r, t.isPrefixOf a b = .ok r ∧ (r = true ↔ t.Ext a b) :=
  hw.isPrefixOfFuel_iff ha hb (Nat.lt_succ_self _)

theorem WellFormed.isPrefixOf_true (hw : WellFormed cr t) (hb : t.Mem b) (h : t.Ext a b) :
    t.isPrefixOf a b = .ok true := by
  obtain ⟨r, hr, hiff⟩ := hw.isPrefixOf_ok (hw.graded.mem_anc hb h) hb
  rw [hr, hiff.mpr h]

/-- An answer of `is_prefix_of` is about known blocks. -/
theorem mem_of_isPrefixOf {r : Bool} (h : t.isPrefixOf a b = .ok r) : t.Mem a ∧ t.Mem b := by
  rw [isPrefixOf, isPrefixOfFuel] at h
  split at h
  · cases h
  · rename_i ha
    split at h
    · cases h
    · rename_i blk hb
      exact ⟨Option.isSome_iff_ne_none.mpr ha, mem_iff.mpr ⟨blk, hb⟩⟩

theorem WellFormed.ext_of_isPrefixOf (hw : WellFormed cr t) (h : t.isPrefixOf a b = .ok true) :
    t.Ext a b := by
  obtain ⟨ha, hb⟩ := mem_of_isPrefixOf h
  obtain ⟨r, hr, hiff⟩ := hw.isPrefixOf_ok ha hb
  rw [h, Except.ok.injEq] at hr
  exact hiff.mp hr.symm

theorem WellFormed.height_eq (hw : WellFormed cr t) (hb : t.Mem b) :
    t.height b = .ok (t.heightOf b) := by
  have hne : t.lcblocks b ≠ none := Option.isSome_iff_ne_none.mp hb
  rw [height, if_neg hne, hw.height_eq_heightOf hb]

theorem mem_of_height {n : ℕ} (h : t.height b = .ok n) : t.Mem b := by
  rw [height] at h
  split_ifs at h with hb
  exact Option.isSome_iff_ne_none.mpr hb

theorem WellFormed.kDeep_eq (hw : WellFormed cr t) :
    ∀ (k : ℕ) {b : Digest}, t.Mem b → t.kDeep k b = .ok (up t.parentOf k b)
  | 0, _, _ => rfl
  | k + 1, b, hb => by
    obtain ⟨blk, hblk⟩ := mem_iff.mp hb
    have hpar : t.parentOf b = blk.parent := by rw [parentOf, hblk]; rfl
    simp only [kDeep, up, hblk, hpar]
    cases hp : blk.parent with
    | none => rfl
    | some p => exact hw.kDeep_eq k (hw.graded.closed b p hb (hpar.trans hp))

theorem WellFormed.higherOf_eq (hw : WellFormed cr t) (ha : t.Mem a) (hb : t.Mem b) :
    t.higherOf a b = .ok (if t.heightOf b ≤ t.heightOf a then a else b) := by
  rw [higherOf, if_neg (Option.isSome_iff_ne_none.mp ha), if_neg (Option.isSome_iff_ne_none.mp hb),
    hw.height_eq_heightOf ha, hw.height_eq_heightOf hb]

theorem WellFormed.heightHonestFuel_ok (hw : WellFormed cr t) :
    ∀ {n : ℕ} {b : Digest}, t.Mem b → t.heightOf b < n → ∃ h, t.heightHonestFuel n b = .ok h
  | 0, _, _, h => absurd h (Nat.not_lt_zero _)
  | n + 1, b, hb, hn => by
    obtain ⟨blk, hblk⟩ := mem_iff.mp hb
    rw [heightHonestFuel, hblk]
    cases hp : blk.parent with
    | none => exact ⟨0, by simp only [hp]⟩
    | some p =>
      have hpb : t.parentOf b = some p := parentOf_eq_some.mpr ⟨blk, hblk, hp⟩
      have hh := hw.graded.height_parent b p hb hpb
      obtain ⟨h, he⟩ := hw.heightHonestFuel_ok (hw.graded.closed b p hb hpb)
        (show t.heightOf p < n by omega)
      exact ⟨_, by simp only [hp, he, unwrap_ok]; rfl⟩

theorem WellFormed.heightHonest_ok (hw : WellFormed cr t) (hb : t.Mem b) :
    ∃ h, t.heightHonest b = .ok h :=
  hw.heightHonestFuel_ok hb (Nat.lt_succ_self _)

end AccountabilityGadget.LcBlockTree
