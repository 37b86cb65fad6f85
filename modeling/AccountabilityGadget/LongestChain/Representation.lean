import AccountabilityGadget.LongestChain.LeadingTip
import AccountabilityGadget.LongestChain.Tips

/-!
# The representation invariant of the block tree

* `addInPlace` — `add` as it runs on the tree, map by map; `addInPlace_eq`: a call that returns an
  error has written nothing, and any other call has the effect of `add`.
* `addCalls_eq` — a sequence of calls.
* `WellFormed.heightHonestFuel_eq` — `height_honest` counts the honest blocks along the path to
  genesis, one call for each block on it.
* `Represents` — what the three maps of the tree and the two heights say about each other.
* `representation` — it holds after every sequence of calls.
-/

set_option autoImplicit false

namespace AccountabilityGadget.LcBlockTree

open Ancestry

/-- `add`, statement by statement: what has been written before an early return stays. -/
def addInPlace (cr : Crypto) (blk : LcBlock) : ExceptT String (StateM LcBlockTree) Unit := do
  let blkDigest := blk.digest cr
  match blk.parent with
  | none => throw "Parent is None, there can be only one genesis block!"
  | some blkParentDigest =>
    match (← get).precomputedHeight blkParentDigest with
    | none => throw "Parent is unknown!"
    | some blkParentHeight =>
      modify fun t => { t with idxTips := t.idxTips.erase blkParentDigest }
      modify fun t => { t with idxTips := t.idxTips.insert blkDigest }
      modify fun t => { t with lcblocks := Function.update t.lcblocks blkDigest (some blk) }
      let newHeight := blkParentHeight + 1
      modify fun t =>
        { t with precomputedHeight := Function.update t.precomputedHeight blkDigest (some newHeight) }

/-- The result of a call and the tree after it. -/
def callAdd (cr : Crypto) (t : LcBlockTree) (blk : LcBlock) : Except String Unit × LcBlockTree :=
  (addInPlace cr blk).run.run t

/-- The tree after a sequence of calls. -/
def addCalls (cr : Crypto) (t : LcBlockTree) (bs : List LcBlock) : LcBlockTree :=
  bs.foldl (fun t blk => (callAdd cr t blk).2) t

variable {cr : Crypto} {t : LcBlockTree} {b : Digest}

/-- Reading the state does not change it. -/
theorem run_get_bind {σ ε α : Type} (f : σ → ExceptT ε (StateM σ) α) (s : σ) :
    (get >>= f : ExceptT ε (StateM σ) α).run.run s = (f s).run.run s := rfl

/-- **A call that returns an error leaves the tree as it was**, and any other is `add`. -/
theorem callAdd_eq (cr : Crypto) (t : LcBlockTree) (blk : LcBlock) :
    callAdd cr t blk =
      match t.add cr blk with
      | .error e => (.error e, t)
      | .ok t' => (.ok (), t') := by
  unfold callAdd addInPlace add
  cases hp : blk.parent with
  | none => rfl
  | some p =>
    simp only
    rw [run_get_bind]
    cases hh : t.precomputedHeight p with
    | none => rfl
    | some h => rfl

theorem addCalls_eq (cr : Crypto) :
    ∀ (t : LcBlockTree) (bs : List LcBlock), addCalls cr t bs = addAll cr t bs
  | _, [] => rfl
  | t, blk :: bs => by
    have hcons : addCalls cr t (blk :: bs) = addCalls cr (callAdd cr t blk).2 bs := rfl
    rw [hcons, callAdd_eq, addAll]
    cases t.add cr blk with
    | error e => exact addCalls_eq cr t bs
    | ok t' => exact addCalls_eq cr t' bs

/-! ## The honest height -/

/-- The honest blocks other than genesis among `l`. -/
def honestCount (cr : Crypto) (t : LcBlockTree) (l : List Digest) : ℕ :=
  l.countP fun d => d ≠ LcBlock.genesisDigest cr ∧ ¬ t.adversarial d

/-- Only genesis has no parent. -/
theorem WellFormed.parentOf_none_iff (hw : WellFormed cr t) (hb : t.Mem b) :
    t.parentOf b = none ↔ b = LcBlock.genesisDigest cr := by
  obtain ⟨blk, hblk⟩ := mem_iff.mp hb
  have hpar : t.parentOf b = blk.parent := by rw [parentOf, hblk, Option.bind_some]
  rw [hpar]
  constructor
  · intro hp
    rw [← hw.digest b blk hblk, hw.root b blk hblk hp]
    rfl
  · rintro rfl
    rw [hw.genesis, Option.some.injEq] at hblk
    rw [← hblk]
    rfl

/-- **`height_honest` counts the honest blocks along the path to genesis**, with one call for each
block of the path. -/
theorem WellFormed.heightHonestFuel_eq (hw : WellFormed cr t) {l : List Digest}
    (h : Path t.parentOf b l) (hb : t.Mem b) :
    ∀ n, l.length ≤ n → t.heightHonestFuel n b = .ok (honestCount cr t l) := by
  induction h with
  | @root b hp =>
    intro n hn
    obtain ⟨blk, hblk⟩ := mem_iff.mp hb
    obtain ⟨n, rfl⟩ : ∃ m, n = m + 1 := ⟨n - 1, by rw [List.length_singleton] at hn; omega⟩
    have hpar : blk.parent = none := by simpa [parentOf, hblk] using hp
    have hg := (hw.parentOf_none_iff hb).mp hp
    rw [heightHonestFuel, hblk]
    simp [hpar, honestCount, hg]
  | @step b p l hp _ ih =>
    intro n hn
    obtain ⟨blk, hblk, hpar⟩ := parentOf_eq_some.mp hp
    obtain ⟨n, rfl⟩ : ∃ m, n = m + 1 := ⟨n - 1, by rw [List.length_cons] at hn; omega⟩
    have hrec := ih (hw.graded.closed b p hb hp) n (by rw [List.length_cons] at hn; omega)
    have hne : b ≠ LcBlock.genesisDigest cr := by
      intro hg
      rw [(hw.parentOf_none_iff hb).mpr hg] at hp
      cases hp
    have hadv : t.adversarial b = blk.isAdversarial := by simp [adversarial, hblk]
    rw [heightHonestFuel, hblk]
    simp only [hpar, hrec, unwrap_ok]
    have hcount : honestCount cr t (b :: l) =
        honestCount cr t l + if blk.isAdversarial then 0 else 1 := by
      rw [honestCount, List.countP_cons, hadv]
      cases blk.isAdversarial <;> simp [hne, honestCount]
    rw [hcount]

/-! ## The representation -/

/-- What the maps of the tree and its heights say about each other. -/
structure Represents (cr : Crypto) (t : LcBlockTree) : Prop where
  keys : ∀ d, (t.lcblocks d).isSome ↔ (t.precomputedHeight d).isSome
  digest : ∀ d b, t.lcblocks d = some b → b.digest cr = d
  genesis : t.lcblocks (LcBlock.genesisDigest cr) = some .genesis
  /-- Genesis is the only block without parent. -/
  root : ∀ d b, t.lcblocks d = some b → (b.parent = none ↔ b = .genesis)
  parent : ∀ d b p, t.lcblocks d = some b → b.parent = some p → t.Mem p
  /-- Every block has one chain of parents, which ends at genesis. -/
  path : ∀ d, t.Mem d → ∃ l, Path t.parentOf d l ∧ l.getLast? = some (LcBlock.genesisDigest cr)
  /-- The heights count the steps of the chain, `height_honest` its honest blocks; its recursion
  ends after one call for each block. -/
  precomputedHeight : ∀ d l, t.Mem d → Path t.parentOf d l →
    t.precomputedHeight d = some (l.length - 1) ∧ t.height d = .ok (l.length - 1)
  heightHonest : ∀ d l, t.Mem d → Path t.parentOf d l →
    t.heightHonest d = .ok (honestCount cr t l) ∧
      ∀ n, l.length ≤ n → t.heightHonestFuel n d = .ok (honestCount cr t l)
  leaves : ∀ d, t.Leaf d → d ∈ t.idxTips
  tips : ∀ d ∈ t.idxTips, t.Mem d

theorem WellFormed.path_genesis (hw : WellFormed cr t) (hb : t.Mem b) {l : List Digest}
    (h : Path t.parentOf b l) : l.getLast? = some (LcBlock.genesisDigest cr) := by
  obtain ⟨r, hr, hroot⟩ := h.getLast
  have hmem : t.Mem r := hw.graded.mem_anc hb (h.anc_iff.mp (List.mem_of_getLast? hr))
  rw [hr, (hw.parentOf_none_iff hmem).mp hroot]

theorem WellFormed.represents (hw : WellFormed cr t) (hl : ∀ d, t.Leaf d → d ∈ t.idxTips) :
    Represents cr t where
  keys d := (hw.heights d).symm
  digest := hw.digest
  genesis := hw.genesis
  root d b hb := by
    constructor
    · exact hw.root d b hb
    · rintro rfl
      rfl
  parent d b p hb hp := by
    obtain ⟨n, hn, -⟩ := hw.parent d b p hb hp
    exact (hw.heights p).mp (by rw [hn]; rfl)
  path d hd := by
    obtain ⟨l, hp⟩ := hw.graded.exists_path hd
    exact ⟨l, hp, hw.path_genesis hd hp⟩
  precomputedHeight d l hd hp := by
    have hlen := hw.graded.height_path hd hp
    have heq : t.heightOf d = l.length - 1 := by omega
    rw [← heq]
    exact ⟨hw.height_eq_heightOf hd, hw.height_eq hd⟩
  heightHonest d l hd hp := by
    have hlen := hw.graded.height_path hd hp
    refine ⟨hw.heightHonestFuel_eq hp hd _ ?_, hw.heightHonestFuel_eq hp hd⟩
    exact hlen.le
  leaves := hl
  tips := hw.tips

/-- **The representation invariant**, after every sequence of calls of `add`; a call that returns an
error leaves the three maps as they were. -/
theorem representation (cr : Crypto) (bs : List LcBlock) (hc : NoCollision cr bs) :
    Represents cr (addCalls cr (new cr) bs) ∧
      ∀ blk e t', callAdd cr (addCalls cr (new cr) bs) blk = (.error e, t') →
        t' = addCalls cr (new cr) bs := by
  constructor
  · rw [addCalls_eq]
    have ht : TipsOf cr bs (addAll cr (new cr) bs) := tipsOf_addAll hc fun b hb => hb
    have hw : WellFormed cr (addAll cr (new cr) bs) :=
      wellFormed_addAll hc (wellFormed_new cr) (within_new bs) fun b hb => hb
    exact hw.represents fun d hd => (ht.mem d).mpr (.inl hd)
  · intro blk e t' h
    rw [callAdd_eq] at h
    split at h
    · exact (congrArg Prod.snd h).symm
    · cases h

/-- A chain of two blocks on genesis, the lower one added once more. -/
theorem representation_sample :
    NoCollision sampleCrypto [sampleParent, sampleChild, sampleParent] ∧
      Represents sampleCrypto
        (addCalls sampleCrypto (new sampleCrypto) [sampleParent, sampleChild, sampleParent]) := by
  have hc : NoCollision sampleCrypto [sampleParent, sampleChild] :=
    noCollision_of_nodup (by decide +kernel)
  have hc' : NoCollision sampleCrypto [sampleParent, sampleChild, sampleParent] :=
    NoCollision.mono (by simp) hc
  exact ⟨hc', (representation sampleCrypto _ hc').1⟩

end AccountabilityGadget.LcBlockTree
