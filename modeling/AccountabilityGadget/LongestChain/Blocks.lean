import AccountabilityGadget.Crypto
import AccountabilityGadget.Lib.Scan

/-!
# Longest-chain blocks and their tree (`mynode/src/lcblocks.rs`)

* `LcBlock.encode`, `LcBlock.digest` — the serialization of a block and its hash.
* `LcBlock.decode_inverts`, `LcBlock.encode_injective` — the round trip.
* `LcBlockTree` — blocks and heights by digest, and the set of tips.
* `add`, `isPrefixOf`, `tieBreak`, `leadingTipExtending`, `kDeep`, `higherOf`, `height`,
  `heightHonest`, `parent`, `block` — the operations, with their error texts and panics.

The recursion of `is_prefix_of` and `height_honest` follows parents with one unit of fuel for each
level of the tree; running out of it stands for a stack overflow.
-/

set_option autoImplicit false

namespace AccountabilityGadget

open Encoding

/-! ## Blocks -/

/-- The text and the filler bytes of a block. -/
structure LcBlockPayload where
  text : Text
  data : ByteVec
  deriving DecidableEq

/-- `LcBlockPayload::new`: the text, and 22000 zero bytes. -/
def LcBlockPayload.new (s : Text) : LcBlockPayload where
  text := s
  data := ⟨List.replicate 22000 0, by rw [List.length_replicate]; omega⟩

structure LcBlock where
  parent : Option Digest
  payload : LcBlockPayload
  slot : U64
  deriving DecidableEq

namespace LcBlock

/-- The default block with the text `Genesis`. -/
def genesis : LcBlock where
  parent := none
  payload :=
    { text := ⟨[71, 101, 110, 101, 115, 105, 115], by decide, utf8Valid_of_ascii (by simp)⟩
      data := ⟨[], by decide⟩ }
  slot := 0

/-- The text ends with `[adv]`. -/
def isAdversarial (b : LcBlock) : Bool := [91, 97, 100, 118, 93].isSuffixOf b.payload.text.bytes

def encode (b : LcBlock) : Bytes :=
  encOpt Digest.toBytes b.parent ++ encStr b.payload.text.bytes ++ encStr b.payload.data.bytes ++
    leBytes 8 b.slot.val

def decode : Decoder (Fault DecodeError) LcBlock := do
  let parent ← opt Digest.decode
  let text ← text
  let data ← byteVec
  let slot ← u64
  return ⟨parent, ⟨text, data⟩, slot⟩

/-- `bincode::deserialize`: trailing bytes are ignored. -/
def tryFrom (value : Bytes) : Except (Fault DecodeError) LcBlock :=
  match decode.run value with
  | .error e => .error e
  | .ok (b, _) => .ok b

def digest (cr : Crypto) (b : LcBlock) : Digest := cr.sha512 b.encode

/-- The digest of the genesis block. -/
def genesisDigest (cr : Crypto) : Digest := genesis.digest cr

theorem decode_inverts (b : LcBlock) : Inverts encode decode b := by
  intro rest
  rw [encode, List.append_assoc, List.append_assoc, List.append_assoc, decode, run_bind,
    run_opt fun d _ => Digest.decode_inverts d]
  simp only
  rw [run_bind, run_text b.payload.text]
  simp only
  rw [run_bind, run_byteVec b.payload.data]
  simp only
  rw [run_bind, run_u64 b.slot]
  rfl

theorem tryFrom_encode (b : LcBlock) : tryFrom b.encode = .ok b := by
  have h := decode_inverts b []
  rw [List.append_nil] at h
  rw [tryFrom, h]

theorem encode_injective {a b : LcBlock} (h : a.encode = b.encode) : a = b :=
  (decode_inverts a).injective (decode_inverts b) h

end LcBlock

/-! ## The tree -/

structure LcBlockTree where
  lcblocks : Digest → Option LcBlock
  precomputedHeight : Digest → Option ℕ
  /-- A `HashSet`; the list is one enumeration of it. -/
  idxTips : List Digest

namespace LcBlockTree

def new (cr : Crypto) : LcBlockTree where
  lcblocks := Function.update (fun _ => none) (LcBlock.genesisDigest cr) (some .genesis)
  precomputedHeight := Function.update (fun _ => none) (LcBlock.genesisDigest cr) (some 0)
  idxTips := [LcBlock.genesisDigest cr]

variable (t : LcBlockTree)

def add (cr : Crypto) (blk : LcBlock) : Except String LcBlockTree :=
  match blk.parent with
  | none => .error "Parent is None, there can be only one genesis block!"
  | some blkParentDigest =>
    match t.precomputedHeight blkParentDigest with
    | none => .error "Parent is unknown!"
    | some blkParentHeight => .ok
      { idxTips := (t.idxTips.erase blkParentDigest).insert (blk.digest cr)
        lcblocks := Function.update t.lcblocks (blk.digest cr) (some blk)
        precomputedHeight :=
          Function.update t.precomputedHeight (blk.digest cr) (some (blkParentHeight + 1)) }

/-- One call of `is_prefix_of` and those that it makes. -/
def isPrefixOfFuel : ℕ → Digest → Digest → Except (Fault String) Bool
  | 0, _, _ => .error (.panic .stackOverflow)
  | n + 1, short, long =>
    if t.lcblocks short = none then .error (.reject "Unknown block blk_short_digest!")
    else match t.lcblocks long with
    | none => .error (.reject "Unknown block blk_long_digest!")
    | some blk =>
      match t.precomputedHeight short, t.precomputedHeight long with
      | some hs, some hl =>
        if hl < hs then .ok false
        else if long = short then .ok true
        else match blk.parent with
        | none => .ok false
        | some d => isPrefixOfFuel n short d
      | _, _ => .error (.panic .index)

def isPrefixOf (short long : Digest) : Except (Fault String) Bool :=
  t.isPrefixOfFuel ((t.precomputedHeight long).getD 0 + 1) short long

def height (b : Digest) : Except (Fault String) ℕ :=
  if t.lcblocks b = none then .error (.reject "Unknown block!")
  else match t.precomputedHeight b with
  | none => .error (.panic .index)
  | some h => .ok h

/-- One call of `height_honest` and those that it makes. -/
def heightHonestFuel : ℕ → Digest → Except (Fault String) ℕ
  | 0, _ => .error (.panic .stackOverflow)
  | n + 1, b =>
    match t.lcblocks b with
    | none => .error (.reject "Unknown block!")
    | some blk =>
      match blk.parent with
      | none => .ok 0
      | some d =>
        match unwrap (heightHonestFuel n d) with
        | .error p => .error (.panic p)
        | .ok h => .ok (h + if blk.isAdversarial then 0 else 1)

def heightHonest (b : Digest) : Except (Fault String) ℕ :=
  t.heightHonestFuel ((t.precomputedHeight b).getD 0 + 1) b

def parent (b : Digest) : Except (Fault String) (Option Digest) :=
  match t.lcblocks b with
  | none => .error (.reject "Unknown block!")
  | some blk => .ok blk.parent

def block (b : Digest) : Except (Fault String) LcBlock :=
  match t.lcblocks b with
  | none => .error (.reject "Unknown block!")
  | some blk => .ok blk

def tieBreak (d1 d2 : Digest) : Except Panic Digest := do
  let h1 ← unwrap (t.height d1)
  let h2 ← unwrap (t.height d2)
  let b1 ← index (t.lcblocks d1)
  let b2 ← index (t.lcblocks d2)
  return if h2 < h1 then d1
    else if h1 < h2 then d2
    else if b1.isAdversarial ∧ ¬ b2.isAdversarial then d1
    else if b2.isAdversarial ∧ ¬ b1.isAdversarial then d2
    else if d1 < d2 then d1 else d2

/-- The loop over the tips, which `ord` enumerates. -/
def leadingTipLoop (blkCheckpoint : Digest) : Digest → List Digest → Except Panic Digest
  | maxHeightTip, [] => .ok maxHeightTip
  | maxHeightTip, d :: ds => do
    let winner ← t.tieBreak d maxHeightTip
    if winner = d then
      let descends ← expect "unexpected error in comparing blocks" (t.isPrefixOf blkCheckpoint d)
      leadingTipLoop blkCheckpoint (if descends then d else maxHeightTip) ds
    else leadingTipLoop blkCheckpoint maxHeightTip ds

def leadingTipExtending (ord : HashOrder Digest) (blkCheckpoint : Digest) : Except Panic Digest :=
  t.leadingTipLoop blkCheckpoint blkCheckpoint (ord.iter t.idxTips)

def kDeep : ℕ → Digest → Except Panic Digest
  | 0, b => .ok b
  | k + 1, b =>
    match t.lcblocks b with
    | none => .error .index
    | some blk =>
      match blk.parent with
      | none => .ok b
      | some d => kDeep k d

def higherOf (b1 b2 : Digest) : Except (Fault String) Digest :=
  if t.lcblocks b1 = none then .error (.reject "Unknown block b1!")
  else if t.lcblocks b2 = none then .error (.reject "Unknown block b2!")
  else match t.precomputedHeight b1, t.precomputedHeight b2 with
  | some h1, some h2 => .ok (if h2 ≤ h1 then b1 else b2)
  | _, _ => .error (.panic .index)

/-- A sequence of calls of `add`; a call that fails changes nothing. -/
def addAll (cr : Crypto) : LcBlockTree → List LcBlock → LcBlockTree
  | t, [] => t
  | t, b :: bs =>
    match t.add cr b with
    | .error _ => addAll cr t bs
    | .ok t' => addAll cr t' bs

end LcBlockTree

end AccountabilityGadget
