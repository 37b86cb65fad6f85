import Mathlib.Data.List.Induction
import AccountabilityGadget.LongestChain.Tree

/-!
# The tips of the block tree

* `Leaf` — a block of the tree that is the parent of none; `HasChild` — the opposite.
* `Revived` — a block with a child is added once more, and nothing on top of it afterwards.
* `mem_idxTips_iff` — the tips are the leaves and the revived blocks.
* `idx_tips_leaves_iff` — the tips are exactly the leaves unless some block was revived;
  `idx_tips_leaves_not` is a tree in which one was.
-/

set_option autoImplicit false

namespace AccountabilityGadget.LcBlockTree

open Ancestry

/-- Some block of the tree names `d` as its parent. -/
def HasChild (t : LcBlockTree) (d : Digest) : Prop := ∃ x, t.parentOf x = some d

/-- A block of the tree that is the parent of no block of the tree. -/
def Leaf (t : LcBlockTree) (d : Digest) : Prop := t.Mem d ∧ ¬ t.HasChild d

/-- The block under `d` was added when it had a child already, and no block on top of it was added
after that. -/
def Revived (cr : Crypto) (bs : List LcBlock) (d : Digest) : Prop :=
  ∃ pre b post, bs = pre ++ b :: post ∧ b.digest cr = d ∧ b.parent ≠ none ∧
    (addAll cr (new cr) pre).HasChild d ∧ ∀ c ∈ post, c.parent ≠ some d

variable {cr : Crypto} {t t' : LcBlockTree} {d : Digest} {bs : List LcBlock} {blk : LcBlock}

theorem addAll_append (cr : Crypto) :
    ∀ (t : LcBlockTree) (bs cs : List LcBlock),
      addAll cr t (bs ++ cs) = addAll cr (addAll cr t bs) cs
  | _, [], _ => rfl
  | t, b :: bs, cs => by
    rw [List.cons_append, addAll, addAll]
    cases t.add cr b with
    | error e => exact addAll_append cr t bs cs
    | ok t' => exact addAll_append cr t' bs cs

theorem NoCollision.mono {cs : List LcBlock} (hcs : ∀ b ∈ cs, b ∈ bs) (hc : NoCollision cr bs) :
    NoCollision cr cs := by
  rintro x y ⟨b, hb, rfl⟩ ⟨b', hb', rfl⟩
  exact hc _ _ ⟨b, hb.imp_right (hcs b), rfl⟩ ⟨b', hb'.imp_right (hcs b'), rfl⟩

theorem Within.addAll :
    ∀ {cs : List LcBlock} {t : LcBlockTree}, Within bs t → (∀ b ∈ cs, b ∈ bs) →
      Within bs (addAll cr t cs)
  | [], _, hi, _ => hi
  | c :: cs, t, hi, hcs => by
    rw [LcBlockTree.addAll]
    have hrest : ∀ b ∈ cs, b ∈ bs := fun b hb => hcs b (by simp [hb])
    cases ha : t.add cr c with
    | error e => exact Within.addAll hi hrest
    | ok t' => exact Within.addAll (hi.add (hcs c (by simp)) ha) hrest

theorem HasChild.mem (hw : WellFormed cr t) (h : t.HasChild d) : t.Mem d := by
  obtain ⟨x, hx⟩ := h
  obtain ⟨blk, hb, -⟩ := parentOf_eq_some.mp hx
  exact hw.graded.closed x d (mem_iff.mpr ⟨blk, hb⟩) hx

/-- A new block gives its parent a child, and nobody else. -/
theorem hasChild_add {p : Digest} (hf : ∀ b, t.lcblocks (blk.digest cr) = some b → b = blk)
    (hp : blk.parent = some p) (h : t.add cr blk = .ok t') :
    t'.HasChild d ↔ t.HasChild d ∨ d = p := by
  have hfile := lcblocks_add hf h
  constructor
  · rintro ⟨x, hx⟩
    obtain ⟨b, hb, hbp⟩ := parentOf_eq_some.mp hx
    rcases (hfile x b).mp hb with hb | ⟨rfl, -⟩
    · exact .inl ⟨x, parentOf_eq_some.mpr ⟨b, hb, hbp⟩⟩
    · rw [hp, Option.some.injEq] at hbp
      exact .inr hbp.symm
  · rintro (⟨x, hx⟩ | rfl)
    · obtain ⟨b, hb, hbp⟩ := parentOf_eq_some.mp hx
      exact ⟨x, parentOf_eq_some.mpr ⟨b, (hfile x b).mpr (.inl hb), hbp⟩⟩
    · exact ⟨blk.digest cr, parentOf_eq_some.mpr ⟨blk, (hfile _ _).mpr (.inr ⟨rfl, rfl⟩), hp⟩⟩

/-- The tips are listed once each. -/
theorem nodup_idxTips_add (hn : t.idxTips.Nodup) (h : t.add cr blk = .ok t') :
    t'.idxTips.Nodup := by
  obtain ⟨p, n, -, -, rfl⟩ := add_ok h
  exact (hn.erase p).insert

theorem mem_idxTips_add {p : Digest} (hn : t.idxTips.Nodup) (hp : blk.parent = some p)
    (h : t.add cr blk = .ok t') :
    d ∈ t'.idxTips ↔ d = blk.digest cr ∨ d ≠ p ∧ d ∈ t.idxTips := by
  obtain ⟨q, n, hq, -, rfl⟩ := add_ok h
  rw [hp, Option.some.injEq] at hq
  subst hq
  rw [List.mem_insert_iff, hn.mem_erase_iff]

/-! ## Tips, leaves and revived blocks -/

/-- What one more call can revive. -/
theorem revived_concat {b : LcBlock} :
    Revived cr (bs ++ [b]) d ↔ (Revived cr bs d ∧ b.parent ≠ some d) ∨
      (b.digest cr = d ∧ b.parent ≠ none ∧ (addAll cr (new cr) bs).HasChild d) := by
  constructor
  · rintro ⟨pre, c, post, hbs, hd, hp, hch, hpost⟩
    rcases List.eq_nil_or_concat post with rfl | ⟨post, x, rfl⟩
    · obtain ⟨rfl, hc⟩ := List.append_inj' hbs rfl
      cases hc
      exact .inr ⟨hd, hp, hch⟩
    · rw [List.concat_eq_append] at hbs hpost
      have hbs' : bs ++ [b] = (pre ++ c :: post) ++ [x] := by rw [hbs]; simp
      obtain ⟨rfl, hx⟩ := List.append_inj' hbs' rfl
      cases hx
      refine .inl ⟨⟨pre, c, post, rfl, hd, hp, hch, ?_⟩, hpost b (by simp)⟩
      intro y hy
      exact hpost y (by simp [hy])
  · rintro (⟨⟨pre, c, post, rfl, hd, hp, hch, hpost⟩, hb⟩ | ⟨hd, hp, hch⟩)
    · refine ⟨pre, c, post ++ [b], by simp, hd, hp, hch, ?_⟩
      intro y hy
      rcases List.mem_append.mp hy with hy | hy
      · exact hpost y hy
      · rw [List.mem_singleton.mp hy]
        exact hb
    · exact ⟨bs, b, [], rfl, hd, hp, hch, fun _ h => by cases h⟩

/-- Where a block is revived: between blocks on top of it and blocks that are not. -/
theorem Revived.split (hr : Revived cr bs d) : ∃ n b, bs[n]? = some b ∧ b.digest cr = d ∧
    (∃ c ∈ bs.take n, c.parent = some d) ∧ ∀ c ∈ bs.drop (n + 1), c.parent ≠ some d := by
  obtain ⟨pre, b, post, rfl, hd, -, ⟨x, hx⟩, hpost⟩ := hr
  obtain ⟨c, hc, hp⟩ := parentOf_eq_some.mp hx
  refine ⟨pre.length, b, by simp, hd, ⟨c, ?_, hp⟩, by simpa using hpost⟩
  rw [List.take_left]
  rcases (within_new pre).addAll (fun _ h => h) x c hc with rfl | hc
  · cases hp
  · exact hc

/-- The tips after a sequence of calls. -/
structure TipsOf (cr : Crypto) (bs : List LcBlock) (t : LcBlockTree) : Prop where
  nodup : t.idxTips.Nodup
  revived : ∀ d, Revived cr bs d → t.HasChild d
  mem : ∀ d, d ∈ t.idxTips ↔ t.Leaf d ∨ Revived cr bs d

theorem tipsOf_new (cr : Crypto) : TipsOf cr [] (new cr) := by
  have hnone : ∀ d, ¬ Revived cr [] d := by
    rintro d ⟨pre, b, post, h, -⟩
    exact absurd h (by simp)
  refine ⟨by simp [new], fun d h => absurd h (hnone d), ?_⟩
  intro d
  rw [show (new cr).idxTips = [LcBlock.genesisDigest cr] from rfl, List.mem_singleton]
  constructor
  · rintro rfl
    refine .inl ⟨(wellFormed_new cr).mem_genesis, ?_⟩
    rintro ⟨x, hx⟩
    obtain ⟨blk, hb, hp⟩ := parentOf_eq_some.mp hx
    rcases within_new [] x blk hb with rfl | h
    · cases hp
    · cases h
  · rintro (⟨hm, -⟩ | h)
    · obtain ⟨blk, hb⟩ := mem_iff.mp hm
      rcases within_new [] d blk hb with rfl | h
      · exact ((wellFormed_new cr).digest d _ hb).symm
      · cases h
    · exact absurd h (hnone d)

/-- A call that is refused changes neither the tips nor what is revived. -/
theorem TipsOf.add_error {b : LcBlock} {e : String} (ht : TipsOf cr bs t)
    (hw : WellFormed cr t) (htree : addAll cr (new cr) bs = t)
    (hf : ∀ x, t.lcblocks (b.digest cr) = some x → x = b) (h : t.add cr b = .error e) :
    TipsOf cr (bs ++ [b]) t := by
  have hsame : ∀ d, Revived cr (bs ++ [b]) d ↔ Revived cr bs d := by
    intro d
    rw [revived_concat, htree]
    constructor
    · rintro (⟨hr, -⟩ | ⟨rfl, hp, hch⟩)
      · exact hr
      · -- a known block has a known parent, so the call succeeds
        obtain ⟨x, hx⟩ := mem_iff.mp (hch.mem hw)
        obtain ⟨p, hbp⟩ := Option.ne_none_iff_exists'.mp hp
        have hpar : t.parentOf (b.digest cr) = some p :=
          parentOf_eq_some.mpr ⟨x, hx, (hf x hx) ▸ hbp⟩
        obtain ⟨t', ha⟩ := hw.add_isOk hbp (hw.graded.closed _ p (hch.mem hw) hpar)
        rw [h] at ha
        cases ha
    · intro hr
      refine .inl ⟨hr, ?_⟩
      intro hp
      obtain ⟨t', ha⟩ := hw.add_isOk hp ((ht.revived d hr).mem hw)
      rw [h] at ha
      cases ha
  exact ⟨ht.nodup, fun d hd => ht.revived d ((hsame d).mp hd), fun d => by rw [hsame, ht.mem]⟩

/-- What becomes of the leaves when a block is added. -/
theorem leaf_add {p : Digest} (hw : WellFormed cr t)
    (hf : ∀ x, t.lcblocks (blk.digest cr) = some x → x = blk) (hp : blk.parent = some p)
    (h : t.add cr blk = .ok t') :
    t'.Leaf d ↔ (d = blk.digest cr ∧ ¬ t.HasChild d) ∨ (d ≠ p ∧ t.Leaf d) := by
  have hfile := lcblocks_add hf h
  have hmem : t'.Mem d ↔ t.Mem d ∨ d = blk.digest cr := by
    rw [mem_iff, mem_iff]
    constructor
    · rintro ⟨b, hb⟩
      rcases (hfile d b).mp hb with hb | ⟨-, hd⟩
      · exact .inl ⟨b, hb⟩
      · exact .inr hd.symm
    · rintro (⟨b, hb⟩ | rfl)
      · exact ⟨b, (hfile d b).mpr (.inl hb)⟩
      · exact ⟨blk, (hfile _ _).mpr (.inr ⟨rfl, rfl⟩)⟩
  have hne : blk.digest cr ≠ p := by
    intro he
    -- a block that is its own parent is one level above itself
    have hw' := hw.add hf h
    have hb := (hfile _ _).mpr (.inr ⟨rfl, rfl⟩)
    obtain ⟨n, hn, hn'⟩ := hw'.parent _ _ _ hb hp
    rw [he, hn, Option.some.injEq] at hn'
    omega
  rw [Leaf, hmem, hasChild_add hf hp h]
  constructor
  · rintro ⟨hm | rfl, hno⟩
    · exact .inr ⟨fun hd => hno (.inr hd), hm, fun hc => hno (.inl hc)⟩
    · exact .inl ⟨rfl, fun hc => hno (.inl hc)⟩
  · rintro (⟨rfl, hno⟩ | ⟨hd, hm, hno⟩)
    · exact ⟨.inr rfl, by rintro (hc | hc) <;> contradiction⟩
    · exact ⟨.inl hm, by rintro (hc | hc) <;> contradiction⟩

theorem TipsOf.add_ok {b : LcBlock} (ht : TipsOf cr bs t) (hw : WellFormed cr t)
    (htree : addAll cr (new cr) bs = t) (hf : ∀ x, t.lcblocks (b.digest cr) = some x → x = b)
    (h : t.add cr b = .ok t') : TipsOf cr (bs ++ [b]) t' := by
  obtain ⟨p, n, hp, -, -⟩ := LcBlockTree.add_ok h
  refine ⟨nodup_idxTips_add ht.nodup h, ?_, ?_⟩
  · intro d hd
    rw [hasChild_add hf hp h]
    rcases revived_concat.mp hd with ⟨hr, -⟩ | ⟨-, -, hch⟩
    · exact .inl (ht.revived d hr)
    · exact .inl (htree ▸ hch)
  · intro d
    rw [mem_idxTips_add ht.nodup hp h, ht.mem, leaf_add hw hf hp h, revived_concat, htree, hp]
    constructor
    · rintro (rfl | ⟨hd, hl | hr⟩)
      · by_cases hch : t.HasChild (b.digest cr)
        · exact .inr (.inr ⟨rfl, by simp, hch⟩)
        · exact .inl (.inl ⟨rfl, hch⟩)
      · exact .inl (.inr ⟨hd, hl⟩)
      · exact .inr (.inl ⟨hr, fun he => hd (Option.some.inj he).symm⟩)
    · rintro ((⟨rfl, -⟩ | ⟨hd, hl⟩) | (⟨hr, hd⟩ | ⟨rfl, -, -⟩))
      · exact .inl rfl
      · exact .inr ⟨hd, .inl hl⟩
      · exact .inr ⟨fun he => hd (congrArg some he.symm), .inr hr⟩
      · exact .inl rfl

/-- **The tips are the leaves and the revived blocks**, after every sequence of calls. -/
theorem tipsOf_addAll {all : List LcBlock} (hc : NoCollision cr all) {bs : List LcBlock}
    (hbs : ∀ b ∈ bs, b ∈ all) : TipsOf cr bs (addAll cr (new cr) bs) := by
  induction bs using List.reverseRecOn with
  | nil => exact tipsOf_new cr
  | append_singleton bs b ih =>
    have hbs' : ∀ x ∈ bs, x ∈ all := fun x hx => hbs x (by simp [hx])
    have ht := ih hbs'
    have hi : Within all (addAll cr (new cr) bs) := (within_new all).addAll hbs'
    have hw := wellFormed_addAll hc (wellFormed_new cr) (within_new all) hbs'
    have hf := hc.unique hw hi (hbs b (by simp))
    rw [addAll_append]
    simp only [addAll]
    cases ha : (addAll cr (new cr) bs).add cr b with
    | error e => exact ht.add_error hw rfl hf ha
    | ok t' => exact ht.add_ok hw rfl hf ha

/-- **The tips are exactly the leaves if and only if no block was revived**: no block that has a
child in the tree is added again without a block on top of it being added after that. -/
theorem idx_tips_leaves_iff (cr : Crypto) (bs : List LcBlock) (hc : NoCollision cr bs) :
    (∀ d, d ∈ (addAll cr (new cr) bs).idxTips ↔ (addAll cr (new cr) bs).Leaf d) ↔
      ∀ d, ¬ Revived cr bs d := by
  have ht : TipsOf cr bs (addAll cr (new cr) bs) := tipsOf_addAll hc fun b hb => hb
  constructor
  · intro h d hr
    have hl := (h d).mp ((ht.mem d).mpr (.inr hr))
    exact hl.2 (ht.revived d hr)
  · intro h d
    rw [ht.mem]
    simp [h d]

/-- A chain of two blocks on genesis. -/
def sampleParent : LcBlock := ⟨some (LcBlock.genesisDigest sampleCrypto), LcBlock.genesis.payload, 1⟩

def sampleChild : LcBlock := ⟨some (sampleParent.digest sampleCrypto), LcBlock.genesis.payload, 2⟩

/-- The chain, and both blocks once more. -/
def repeated : List LcBlock := [sampleParent, sampleChild, sampleParent, sampleChild]

/-- The repeated parent is no tip, since its child is repeated after it. -/
theorem idx_tips_leaves_iff_repeated : NoCollision sampleCrypto repeated ∧
    ∀ d, d ∈ (addAll sampleCrypto (new sampleCrypto) repeated).idxTips ↔
      (addAll sampleCrypto (new sampleCrypto) repeated).Leaf d := by
  have hchain : NoCollision sampleCrypto [sampleParent, sampleChild] :=
    noCollision_of_nodup (by decide +kernel)
  have hc : NoCollision sampleCrypto repeated := hchain.mono (by simp [repeated])
  refine ⟨hc, (idx_tips_leaves_iff sampleCrypto repeated hc).mpr ?_⟩
  intro d hr
  obtain ⟨n, b, hb, rfl, hchild, hlast⟩ := hr.split
  have hdec : ∀ n < 4, ∀ b ∈ repeated[n]?,
      (∃ c ∈ repeated.take n, c.parent = some (b.digest sampleCrypto)) →
        ¬ ∀ c ∈ repeated.drop (n + 1), c.parent ≠ some (b.digest sampleCrypto) := by
    decide +kernel
  exact hdec n (List.getElem?_eq_some_iff.mp hb).1 b hb hchild hlast

/-- **A repeated block becomes a tip again**, below the block on top of it. -/
theorem idx_tips_leaves_not :
    NoCollision sampleCrypto [sampleParent, sampleChild, sampleParent] ∧
    (let t := addAll sampleCrypto (new sampleCrypto) [sampleParent, sampleChild, sampleParent]
     sampleParent.digest sampleCrypto ∈ t.idxTips ∧ t.HasChild (sampleParent.digest sampleCrypto)) := by
  refine ⟨?_, by decide +kernel, sampleChild.digest sampleCrypto, by decide +kernel⟩
  have hc : NoCollision sampleCrypto [sampleParent, sampleChild] :=
    noCollision_of_nodup (by decide +kernel)
  exact NoCollision.mono (by simp) hc

end AccountabilityGadget.LcBlockTree
