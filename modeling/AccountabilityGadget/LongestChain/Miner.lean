import Mathlib.Order.Fin.Basic
import AccountabilityGadget.LongestChain.Manager
import AccountabilityGadget.Lib.Latest

/-!
# The miner (`mynode/src/miner.rs`)

* `Miner.receive`, `Miner.tick` — the two branches of its loop: a tip to mine on, and the slot
  clock with its lottery.
* `Miner.after` — the miner after a sequence of tips and ticks.
* `blocksFromFutureSlots_after` — the deferred tips are the received ones for slots still to come.
* `mined_slot_lt` — every mined block is for a later slot than its parent.
* `current_parent_latest_iff` — the miner extends the latest tip unless a deferred tip, once
  released, overtakes a newer one; `current_parent_latest_not` is a run in which that happens.
-/

set_option autoImplicit false

namespace AccountabilityGadget

open Encoding Latest

/-- The arguments of `MyMiner::run` that a mined block depends on. -/
structure MinerParameters where
  name : PublicKey
  produceAdversarialBlocks : Bool

/-- The variables of the loop. -/
structure Miner where
  currentParent : Digest
  acceptBlocksForSlot : U64
  blocksFromFutureSlots : List (Digest × U64)
  /-- The blocks sent on `tx_outbound_msgs`, each under its digest. -/
  outbound : List LcBlock

namespace Miner

/-! ## The text of a mined block -/

/-- `Display for u64`. -/
def decimal (n : ℕ) : Bytes := (Nat.toDigits 10 n).map fun c => UInt8.ofNat c.toNat

/-- `By {name} at {t_slot}`, and ` [adv]` behind it for an adversarial block. -/
def payloadBytes (params : MinerParameters) (tSlot : U64) : Bytes :=
  [66, 121, 32] ++ params.name.toBase64.take 16 ++ [32, 97, 116, 32] ++ decimal tSlot.val ++
    if params.produceAdversarialBlocks then [32, 91, 97, 100, 118, 93] else []

theorem decimal_digit {n : ℕ} {b : UInt8} (h : b ∈ decimal n) : 48 ≤ b.toNat ∧ b.toNat ≤ 57 := by
  obtain ⟨c, hc, rfl⟩ := List.mem_map.mp h
  have hd : c.isDigit = true := Nat.isDigit_of_mem_toDigits (by omega) (by omega) hc
  simp only [Char.isDigit, Bool.and_eq_true, decide_eq_true_eq] at hd
  have h1 : 48 ≤ c.toNat := hd.1
  have h2 : c.toNat ≤ 57 := hd.2
  rw [UInt8.toNat_ofNat', Nat.mod_eq_of_lt (by omega)]
  exact ⟨h1, h2⟩

theorem length_decimal (n : U64) : (decimal n.val).length ≤ 20 := by
  rw [decimal, List.length_map, Nat.length_toDigits_le_iff (by omega) (by omega)]
  have := n.isLt
  omega

theorem ascii_of_all {bs : Bytes} (h : (bs.all fun b => b.toNat < 128) = true) :
    ∀ b ∈ bs, b.toNat < 128 :=
  fun b hb => of_decide_eq_true (List.all_eq_true.mp h b hb)

theorem payloadBytes_ascii (params : MinerParameters) (tSlot : U64) :
    ∀ b ∈ payloadBytes params tSlot, b.toNat < 128 := by
  intro b hb
  simp only [payloadBytes, List.mem_append] at hb
  rcases hb with (((hb | hb) | hb) | hb) | hb
  · exact ascii_of_all (by decide) b hb
  · exact Base64.encode_ascii _ b (List.mem_of_mem_take hb)
  · exact ascii_of_all (by decide) b hb
  · have := decimal_digit hb
    omega
  · split at hb
    · exact ascii_of_all (by decide) b hb
    · cases hb

theorem length_payloadBytes (params : MinerParameters) (tSlot : U64) :
    (payloadBytes params tSlot).length < 2 ^ 64 := by
  have h1 := length_decimal tSlot
  have h2 : (params.name.toBase64.take 16).length ≤ 16 := List.length_take_le _ _
  simp only [payloadBytes, List.length_append]
  split <;> simp only [List.length_cons, List.length_nil] <;> omega

def lcblkPayloadString (params : MinerParameters) (tSlot : U64) : Text where
  bytes := payloadBytes params tSlot
  length_lt := length_payloadBytes params tSlot
  valid := utf8Valid_of_ascii (payloadBytes_ascii params tSlot)

/-! ## The loop -/

def new (cr : Crypto) : Miner := ⟨LcBlock.genesisDigest cr, 0, [], []⟩

variable (params : MinerParameters) (m : Miner)

/-- The block of a won lottery. -/
def lcblk (tSlot : U64) : LcBlock :=
  ⟨some m.currentParent, .new (lcblkPayloadString params tSlot), tSlot⟩

/-- A tip: mined on at once, or deferred to its slot. -/
def receive (tip : Digest × U64) : Miner :=
  if tip.2 ≤ m.acceptBlocksForSlot then { m with currentParent := tip.1 }
  else { m with blocksFromFutureSlots := m.blocksFromFutureSlots ++ [tip] }

/-- A new slot: the block goes out before the tips of the slot are accepted, and the deferred tips
are received once more. -/
def tick (tSlot : U64) (won : Bool) : Miner :=
  m.blocksFromFutureSlots.foldl receive
    { m with
      acceptBlocksForSlot := tSlot
      blocksFromFutureSlots := []
      outbound := if won then m.outbound ++ [m.lcblk params tSlot] else m.outbound }

/-- What the `select!` waits for; a tick carries the slot and the outcome of the lottery. -/
inductive Input where
  | tip (targetParent : Digest) (targetSlot : U64)
  | tick (tSlot : U64) (won : Bool)
  deriving DecidableEq

def step : Input → Miner
  | .tip targetParent targetSlot => m.receive (targetParent, targetSlot)
  | .tick tSlot won => m.tick params tSlot won

/-- The miner after a sequence of inputs. -/
def after (cr : Crypto) (is : List Input) : Miner := is.foldl (step params) (new cr)

/-- The tips that were received. -/
def tips (is : List Input) : List (Digest × U64) :=
  is.filterMap fun
    | .tip targetParent targetSlot => some (targetParent, targetSlot)
    | .tick _ _ => none

/-- The slots that were ticked. -/
def ticks (is : List Input) : List U64 :=
  is.filterMap fun
    | .tip _ _ => none
    | .tick tSlot _ => some tSlot

/-- The last slot that was ticked. -/
def lastSlot (is : List Input) : U64 := (ticks is).getLast?.getD 0

/-- The tip received last for a slot that has been ticked. -/
def latestTip (cr : Crypto) (is : List Input) : Digest :=
  (latest (fun tip => tip.2 ≤ lastSlot is) (tips is)).elim (LcBlock.genesisDigest cr) Prod.fst

/-- Of the deferred tips that the tick releases, the newest is older than the newest tip for a slot
up to the last tick, and names another block. -/
def Overtakes (is : List Input) (tSlot : U64) : Prop :=
  Overtaken (fun tip : Digest × U64 => tip.2 ≤ lastSlot is)
    (fun tip => lastSlot is < tip.2 ∧ tip.2 ≤ tSlot) Prod.fst (tips is)

/-! ## What the loop does -/

variable {params m} {cr : Crypto} {is : List Input}

/-- A mined block is marked `[adv]` exactly on an adversarial node. -/
theorem isAdversarial_lcblk (params : MinerParameters) (m : Miner) (tSlot : U64) :
    (m.lcblk params tSlot).isAdversarial = params.produceAdversarialBlocks := by
  rw [Bool.eq_iff_iff, LcBlock.isAdversarial, List.isSuffixOf_iff_suffix]
  simp only [lcblk, LcBlockPayload.new, lcblkPayloadString, payloadBytes]
  cases params.produceAdversarialBlocks with
  | true =>
    simp only [if_true, iff_true]
    exact (show ([91, 97, 100, 118, 93] : Bytes) <:+ [32, 91, 97, 100, 118, 93] by decide).trans
      (List.suffix_append _ _)
  | false =>
    simp only [Bool.false_eq_true, if_false, List.append_nil, iff_false]
    intro hsuf
    have hne : decimal tSlot.val ≠ [] := by simp [decimal]
    have hlast := hsuf.getLast (by simp)
    rw [List.getLast_append_of_ne_nil _ hne] at hlast
    have := decimal_digit (List.getLast_mem hne)
    rw [← hlast] at this
    revert this
    decide

/-- Receiving a list of tips again keeps the ones for later slots and mines on the last other. -/
theorem foldl_receive (l : List (Digest × U64)) (m : Miner) :
    l.foldl receive m =
      { m with
        currentParent :=
          (latest (fun tip => tip.2 ≤ m.acceptBlocksForSlot) l).elim m.currentParent Prod.fst
        blocksFromFutureSlots :=
          m.blocksFromFutureSlots ++ l.filter (m.acceptBlocksForSlot < ·.2) } := by
  induction l using List.reverseRecOn with
  | nil => simp
  | append_singleton l x ih =>
    rw [List.foldl_append, ih, List.foldl_cons, List.foldl_nil, receive, latest_concat,
      List.filter_append]
    by_cases hx : x.2 ≤ m.acceptBlocksForSlot
    · simp [hx, not_lt.mpr hx]
    · simp [hx, not_le.mp hx]

theorem after_concat (is : List Input) (i : Input) :
    after params cr (is ++ [i]) = (after params cr is).step params i := by
  rw [after, List.foldl_append]
  rfl

@[simp] theorem tips_concat_tip (is : List Input) (d : Digest) (s : U64) :
    tips (is ++ [.tip d s]) = tips is ++ [(d, s)] := by
  simp [tips]

@[simp] theorem tips_concat_tick (is : List Input) (s : U64) (won : Bool) :
    tips (is ++ [.tick s won]) = tips is := by
  simp [tips]

@[simp] theorem ticks_concat_tip (is : List Input) (d : Digest) (s : U64) :
    ticks (is ++ [.tip d s]) = ticks is := by
  simp [ticks]

@[simp] theorem ticks_concat_tick (is : List Input) (s : U64) (won : Bool) :
    ticks (is ++ [.tick s won]) = ticks is ++ [s] := by
  simp [ticks]

@[simp] theorem lastSlot_concat_tip (is : List Input) (d : Digest) (s : U64) :
    lastSlot (is ++ [.tip d s]) = lastSlot is := by
  simp [lastSlot]

@[simp] theorem lastSlot_concat_tick (is : List Input) (s : U64) (won : Bool) :
    lastSlot (is ++ [.tick s won]) = s := by
  simp [lastSlot]

/-- The slots that are ticked grow. -/
abbrev Increasing (is : List Input) : Prop := (ticks is).Pairwise (· < ·)

theorem Increasing.of_concat {i : Input} (h : Increasing (is ++ [i])) : Increasing is := by
  cases i with
  | tip d s => simpa [Increasing] using h
  | tick s won =>
    rw [Increasing, ticks_concat_tick] at h
    exact (List.pairwise_append.mp h).1

theorem Increasing.lastSlot_le {s : U64} {won : Bool} (h : Increasing (is ++ [.tick s won])) :
    lastSlot is ≤ s := by
  rw [Increasing, ticks_concat_tick] at h
  rw [lastSlot]
  cases hl : (ticks is).getLast? with
  | none => exact Fin.zero_le _
  | some t =>
    have hlt := (List.pairwise_append.mp h).2.2 t (List.mem_of_getLast? hl) s (by simp)
    exact hlt.le

/-- A positive tick is later than the last one. -/
theorem Increasing.lastSlot_lt {s : U64} {won : Bool} (h : Increasing (is ++ [.tick s won]))
    (hs : 0 < s) : lastSlot is < s := by
  rw [Increasing, ticks_concat_tick] at h
  rw [lastSlot]
  cases hl : (ticks is).getLast? with
  | none => exact hs
  | some t => exact (List.pairwise_append.mp h).2.2 t (List.mem_of_getLast? hl) s (by simp)

theorem acceptBlocksForSlot_after (params : MinerParameters) (cr : Crypto) (is : List Input) :
    (after params cr is).acceptBlocksForSlot = lastSlot is := by
  induction is using List.reverseRecOn with
  | nil => rfl
  | append_singleton is i ih =>
    rw [after_concat]
    cases i with
    | tip d s =>
      rw [step, receive]
      split <;> simp [ih]
    | tick s won =>
      rw [step, tick, foldl_receive]
      simp

/-- **The deferred tips are the received ones for slots still to come**, in their order. -/
theorem blocksFromFutureSlots_after (params : MinerParameters) (cr : Crypto) {is : List Input}
    (h : Increasing is) :
    (after params cr is).blocksFromFutureSlots = (tips is).filter (lastSlot is < ·.2) := by
  induction is using List.reverseRecOn with
  | nil => rfl
  | append_singleton is i ih =>
    have ih := ih h.of_concat
    rw [after_concat]
    cases i with
    | tip d s =>
      rw [step, receive, acceptBlocksForSlot_after]
      by_cases hs : s ≤ lastSlot is
      · simp [hs, not_lt.mpr hs, ih]
      · simp [hs, not_le.mp hs, ih]
    | tick s won =>
      have hle := h.lastSlot_le
      rw [step, tick, foldl_receive, ih]
      simp only [List.nil_append, List.filter_filter, tips_concat_tick, lastSlot_concat_tick]
      apply List.filter_congr
      intro tip _
      by_cases hs : s < tip.2
      · simp [hs, lt_of_le_of_lt hle hs]
      · simp [hs]

/-- A tip is mined on at once if its slot has been ticked. -/
theorem currentParent_after_tip (params : MinerParameters) (cr : Crypto) (is : List Input)
    (d : Digest) (s : U64) :
    (after params cr (is ++ [.tip d s])).currentParent =
      if s ≤ lastSlot is then d else (after params cr is).currentParent := by
  rw [after_concat, step, receive, acceptBlocksForSlot_after]
  split <;> rfl

/-- A tick moves the miner to the newest tip that it releases. -/
theorem currentParent_after_tick (params : MinerParameters) (cr : Crypto) {is : List Input}
    {s : U64} {won : Bool} (h : Increasing (is ++ [.tick s won])) :
    (after params cr (is ++ [.tick s won])).currentParent =
      (latest (fun tip => lastSlot is < tip.2 ∧ tip.2 ≤ s) (tips is)).elim
        (after params cr is).currentParent Prod.fst := by
  rw [after_concat, step, tick, foldl_receive, blocksFromFutureSlots_after params cr h.of_concat]
  simp only [latest_filter, Bool.decide_and]

theorem outbound_after_tip (params : MinerParameters) (cr : Crypto) (is : List Input)
    (d : Digest) (s : U64) :
    (after params cr (is ++ [.tip d s])).outbound = (after params cr is).outbound := by
  rw [after_concat, step, receive]
  split <;> rfl

theorem outbound_after_tick (params : MinerParameters) (cr : Crypto) (is : List Input)
    (s : U64) (won : Bool) :
    (after params cr (is ++ [.tick s won])).outbound =
      if won then (after params cr is).outbound ++ [(after params cr is).lcblk params s]
      else (after params cr is).outbound := by
  rw [after_concat, step, tick, foldl_receive]

/-- Every block sent out was mined at a tick, on the parent of that time. -/
theorem mem_outbound_after {b : LcBlock} (h : b ∈ (after params cr is).outbound) :
    ∃ pre s post, is = pre ++ .tick s true :: post ∧ b = (after params cr pre).lcblk params s := by
  induction is using List.reverseRecOn with
  | nil => cases h
  | append_singleton is i ih =>
    have hold : b ∈ (after params cr is).outbound → ∃ pre s post,
        is ++ [i] = pre ++ .tick s true :: post ∧ b = (after params cr pre).lcblk params s := by
      intro h
      obtain ⟨pre, s, post, rfl, hb⟩ := ih h
      exact ⟨pre, s, post ++ [i], by simp, hb⟩
    cases i with
    | tip d s =>
      rw [outbound_after_tip] at h
      exact hold h
    | tick s won =>
      rw [outbound_after_tick] at h
      cases won with
      | false => exact hold h
      | true =>
        rcases List.mem_append.mp h with h | h
        · exact hold h
        · exact ⟨is, s, [], rfl, List.mem_singleton.mp h⟩

/-! ## Slots grow along mined blocks -/

/-- Each tip comes with the slot of a block under its digest. -/
def TrueTips (cr : Crypto) (ts : List (Digest × U64)) : Prop :=
  ∀ tip ∈ ts, ∃ blk : LcBlock, blk.digest cr = tip.1 ∧ blk.slot = tip.2

/-- The current parent is genesis or a received tip for a slot that has been ticked. -/
theorem currentParent_source (params : MinerParameters) (cr : Crypto) {is : List Input}
    (h : Increasing is) :
    (after params cr is).currentParent = LcBlock.genesisDigest cr ∨
      ∃ s, ((after params cr is).currentParent, s) ∈ tips is ∧ s ≤ lastSlot is := by
  induction is using List.reverseRecOn with
  | nil => exact .inl rfl
  | append_singleton is i ih =>
    have ih := ih h.of_concat
    cases i with
    | tip d s =>
      rw [currentParent_after_tip, tips_concat_tip, lastSlot_concat_tip]
      split_ifs with hs
      · exact .inr ⟨s, by simp, hs⟩
      · apply ih.imp_right
        rintro ⟨s', hs', hle⟩
        exact ⟨s', by simp [hs'], hle⟩
    | tick s won =>
      rw [currentParent_after_tick params cr h, tips_concat_tick, lastSlot_concat_tick]
      cases hl : latest (fun tip => lastSlot is < tip.2 ∧ tip.2 ≤ s) (tips is) with
      | none =>
        apply ih.imp_right
        rintro ⟨s', hs', hle⟩
        exact ⟨s', hs', hle.trans h.lastSlot_le⟩
      | some tip =>
        have ht := test_of_latest hl
        simp only [decide_eq_true_eq] at ht
        exact .inr ⟨tip.2, mem_of_latest hl, ht.2⟩

theorem Increasing.of_append {pre post : List Input} (h : Increasing (pre ++ post)) :
    Increasing pre := by
  rw [Increasing, ticks, List.filterMap_append] at h
  exact (List.pairwise_append.mp h).1

/-- **A deferred tip stays** while only earlier slots are ticked. -/
theorem mem_blocksFromFutureSlots {pre post : List Input} {d : Digest} {s : U64}
    (h : Increasing (pre ++ .tip d s :: post)) (hs : lastSlot pre < s)
    (hpost : ∀ t ∈ ticks post, t < s) :
    (d, s) ∈ (after params cr (pre ++ .tip d s :: post)).blocksFromFutureSlots := by
  rw [blocksFromFutureSlots_after params cr h]
  have hmem : (d, s) ∈ tips (pre ++ .tip d s :: post) := by simp [tips]
  have hlast : lastSlot (pre ++ .tip d s :: post) < s := by
    have htick : ticks (pre ++ .tip d s :: post) = ticks pre ++ ticks post := by simp [ticks]
    rw [lastSlot, htick, List.getLast?_append]
    cases hl : (ticks post).getLast? with
    | none => exact hs
    | some t => exact hpost t (List.mem_of_getLast? hl)
  exact List.mem_filter.mpr ⟨hmem, by simpa using hlast⟩

/-- **Mined chains have strictly increasing slots.**  Every mined block names genesis or a tip
received before it, of a smaller slot; a tip for a later slot is kept until that slot is ticked. -/
theorem mined_slot_lt (params : MinerParameters) (cr : Crypto) (is : List Input)
    (hticks : Increasing is) (hpos : ∀ s ∈ ticks is, 0 < s) (htrue : TrueTips cr (tips is)) :
    (∀ b ∈ (after params cr is).outbound, ∃ (pre post : List Input) (blk : LcBlock),
      is = pre ++ .tick b.slot true :: post ∧ b.parent = some (blk.digest cr) ∧
      (blk = .genesis ∨ (blk.digest cr, blk.slot) ∈ tips pre) ∧ blk.slot < b.slot) ∧
    ∀ pre d s post, is = pre ++ .tip d s :: post → lastSlot pre < s →
      (∀ t ∈ ticks post, t < s) → (d, s) ∈ (after params cr is).blocksFromFutureSlots := by
  constructor
  · intro b hb
    obtain ⟨pre, s, post, rfl, rfl⟩ := mem_outbound_after hb
    have hinc : Increasing (pre ++ [.tick s true]) := by
      have hsplit : Increasing (pre ++ [.tick s true] ++ post) := by simpa using hticks
      exact hsplit.of_append
    have hlt : lastSlot pre < s := hinc.lastSlot_lt (hpos s (by simp [ticks]))
    rcases currentParent_source params cr hinc.of_concat with hg | ⟨n, hn, hle⟩
    · exact ⟨pre, post, .genesis, rfl, congrArg some hg, .inl rfl, hpos s (by simp [ticks])⟩
    · obtain ⟨blk, hd, hs⟩ := htrue _ (by
        rw [tips, List.filterMap_append]
        exact List.mem_append_left _ hn)
      simp only at hd hs
      refine ⟨pre, post, blk, rfl, congrArg some hd.symm, .inr ?_, ?_⟩
      · rw [hd, hs]
        exact hn
      · rw [hs]
        exact lt_of_le_of_lt hle hlt
  · rintro pre d s post rfl hs hpost
    exact mem_blocksFromFutureSlots hticks hs hpost

def sampleParameters : MinerParameters := ⟨⟨.zero⟩, false⟩

/-- A tip that is deferred for one slot, and then mined on. -/
def sampleInputs : List Input :=
  [.tip (Manager.sampleChild.digest sampleCrypto) 1, .tick 1 false, .tick 2 true]

/-- The block of slot 2 has a parent of an earlier slot. -/
theorem mined_slot_lt_sample :
    (after sampleParameters sampleCrypto sampleInputs).outbound.length = 1 ∧
    ∀ b ∈ (after sampleParameters sampleCrypto sampleInputs).outbound, ∃ blk : LcBlock,
      b.parent = some (blk.digest sampleCrypto) ∧ blk.slot < b.slot := by
  refine ⟨by decide +kernel, ?_⟩
  intro b hb
  have htrue : TrueTips sampleCrypto (tips sampleInputs) := by
    intro tip htip
    rw [show tip = (Manager.sampleChild.digest sampleCrypto, 1) from List.mem_singleton.mp htip]
    exact ⟨Manager.sampleChild, rfl, rfl⟩
  obtain ⟨pre, post, blk, -, hp, -, hlt⟩ :=
    (mined_slot_lt sampleParameters sampleCrypto sampleInputs (by decide)
      (by simp [ticks, sampleInputs]) htrue).1 b hb
  exact ⟨blk, hp, hlt⟩

/-! ## The latest tip -/

theorem latestTip_concat_tip (cr : Crypto) (is : List Input) (d : Digest) (s : U64) :
    latestTip cr (is ++ [.tip d s]) = if s ≤ lastSlot is then d else latestTip cr is := by
  rw [latestTip, tips_concat_tip, lastSlot_concat_tip, latest_concat]
  by_cases hs : s ≤ lastSlot is
  · simp [hs]
  · simp [hs, latestTip]

/-- The tips up to a tick are those up to the last one and those that the tick releases. -/
theorem latestTip_concat_tick (cr : Crypto) {is : List Input} {s : U64} {won : Bool}
    (h : lastSlot is ≤ s) :
    latestTip cr (is ++ [.tick s won]) =
      (latest (fun tip => decide (tip.2 ≤ lastSlot is) ||
        decide (lastSlot is < tip.2 ∧ tip.2 ≤ s)) (tips is)).elim
          (LcBlock.genesisDigest cr) Prod.fst := by
  rw [latestTip, tips_concat_tick, lastSlot_concat_tick]
  congr 1
  apply latest_congr
  intro tip _
  rw [← Bool.decide_or, decide_eq_decide]
  constructor
  · intro hle
    rcases le_or_gt tip.2 (lastSlot is) with h' | h'
    · exact .inl h'
    · exact .inr ⟨h', hle⟩
  · rintro (h' | ⟨-, h'⟩)
    · exact h'.trans h
    · exact h'

/-- A tick keeps the miner on the latest tip unless it releases a tip that overtakes it. -/
theorem latestTip_tick_iff {s : U64} {won : Bool} (h : Increasing (is ++ [.tick s won]))
    (hp : (after params cr is).currentParent = latestTip cr is) :
    (after params cr (is ++ [.tick s won])).currentParent =
      latestTip cr (is ++ [.tick s won]) ↔ ¬ Overtakes is s := by
  rw [currentParent_after_tick params cr h, latestTip_concat_tick cr h.lastSlot_le, Overtakes]
  cases hl : latest (fun tip => lastSlot is < tip.2 ∧ tip.2 ≤ s) (tips is) with
  | none =>
    have hnone := latest_eq_none.mp hl
    have hor : latest (fun tip => decide (tip.2 ≤ lastSlot is) ||
        decide (lastSlot is < tip.2 ∧ tip.2 ≤ s)) (tips is) =
        latest (fun tip => decide (tip.2 ≤ lastSlot is)) (tips is) := by
      apply latest_congr
      intro tip htip
      rw [hnone tip htip, Bool.or_false]
    rw [hor]
    constructor
    · rintro - ⟨l₁, x, l₂, y, l₃, htips, hx, -⟩
      exact Bool.false_ne_true ((hnone x (by simp [htips])).symm.trans hx)
    · intro _
      exact hp
  | some x =>
    rw [← latest_or_iff hl]
    cases hy : latest (fun tip => decide (tip.2 ≤ lastSlot is) ||
        decide (lastSlot is < tip.2 ∧ tip.2 ≤ s)) (tips is) with
    | none =>
      have := latest_eq_none.mp hy x (mem_of_latest hl)
      rw [Bool.or_eq_false_iff, test_of_latest hl] at this
      cases this.2
    | some y =>
      simp only [Option.elim_some, Option.map_some, Option.some.injEq]
      exact eq_comm

/-- **The miner mines on the latest known tip, after every input, exactly when no tick releases a
deferred tip that overtakes a newer one.** -/
theorem current_parent_latest_iff (params : MinerParameters) (cr : Crypto) (is : List Input)
    (h : Increasing is) :
    (∀ pre, pre <+: is → (after params cr pre).currentParent = latestTip cr pre) ↔
      ∀ pre s won, pre ++ [.tick s won] <+: is → ¬ Overtakes pre s := by
  constructor
  · intro hall pre s won hpre
    obtain ⟨post, rfl⟩ := hpre
    have hp := hall pre ⟨.tick s won :: post, by simp⟩
    exact (latestTip_tick_iff h.of_append hp).mp (hall _ ⟨post, rfl⟩)
  · intro hno
    induction is using List.reverseRecOn with
    | nil =>
      intro pre hpre
      rw [List.prefix_nil.mp hpre]
      rfl
    | append_singleton is i ih =>
      have ih := ih h.of_concat (by
        intro pre s won hpre
        exact hno pre s won (hpre.trans (List.prefix_append is [i])))
      intro pre hpre
      rcases List.prefix_concat_iff.mp hpre with rfl | hpre
      · have hp := ih is (List.prefix_refl is)
        cases i with
        | tip d s => rw [currentParent_after_tip, latestTip_concat_tip, hp]
        | tick s won => exact (latestTip_tick_iff h hp).mpr (hno is s won (List.prefix_refl _))
      · exact ih pre hpre

/-- A child of genesis for slot 2. -/
def lateChild : LcBlock := { Manager.sampleChild with slot := 2 }

/-- A tip for slot 2 comes before that slot, after a tip that is mined on. -/
def waitingInputs : List Input :=
  [.tip (Manager.sampleChild.digest sampleCrypto) 1, .tick 1 false,
    .tip (lateChild.digest sampleCrypto) 2, .tick 2 true]

/-- The deferred tip is the newer one. -/
theorem current_parent_latest_iff_waiting : Increasing waitingInputs ∧
    ∀ pre, pre <+: waitingInputs → (after sampleParameters sampleCrypto pre).currentParent =
      latestTip sampleCrypto pre := by
  refine ⟨by decide, ?_⟩
  apply (current_parent_latest_iff sampleParameters sampleCrypto waitingInputs (by decide)).mpr
  rintro pre s won ⟨post, hpre⟩
  -- the two ticks
  obtain ⟨rfl, rfl⟩ | ⟨rfl, rfl⟩ : pre = waitingInputs.take 1 ∧ s = 1 ∨
      pre = waitingInputs.take 3 ∧ s = 2 := by
    rcases pre with _ | ⟨a, _ | ⟨b, _ | ⟨c, _ | ⟨d, pre⟩⟩⟩⟩ <;>
      simp [waitingInputs] at hpre ⊢
    · exact ⟨hpre.1, hpre.2.1.1⟩
    · exact ⟨⟨hpre.1, hpre.2.1, hpre.2.2.1⟩, hpre.2.2.2.1.1⟩
  · exact (latest_or_iff (x := (Manager.sampleChild.digest sampleCrypto, 1)) rfl).mp rfl
  · exact (latest_or_iff (x := (lateChild.digest sampleCrypto, 2)) rfl).mp rfl

/-- The tip for slot 2 comes first and is released last. -/
def overtakingInputs : List Input :=
  [.tip (lateChild.digest sampleCrypto) 2, .tip (Manager.sampleChild.digest sampleCrypto) 1,
    .tick 1 false, .tick 2 false]

/-- **A deferred tip displaces a newer one**: the miner goes back to the older tip. -/
theorem current_parent_latest_not :
    Increasing overtakingInputs ∧
    latestTip sampleCrypto overtakingInputs = Manager.sampleChild.digest sampleCrypto ∧
    (after sampleParameters sampleCrypto overtakingInputs).currentParent =
      lateChild.digest sampleCrypto ∧
    lateChild.digest sampleCrypto ≠ Manager.sampleChild.digest sampleCrypto := by
  refine ⟨by decide, rfl, rfl, by decide +kernel⟩

end Miner

/-! ## The tips of the block-tree manager -/

namespace Manager

open Miner

variable {cr : Crypto} {params : TreeParameters} {ord : HashOrder Digest} {m m' : Manager}

theorem sendTip_trueTips (hw : LcBlockTree.WellFormed cr m.lcblocktree) (ht : TrueTips cr m.tips)
    (h : m.sendTip cr ord = .ok m') : TrueTips cr m'.tips := by
  unfold sendTip at h
  cases htip : m.lcblocktree.leadingTipExtending ord (m.latestCheckpoint cr) with
  | error p => rw [htip] at h; cases h
  | ok d =>
    simp only [htip, bind, Except.bind] at h
    rw [LcBlockTree.block] at h
    cases hb : m.lcblocktree.lcblocks d with
    | none => rw [hb] at h; cases h
    | some blk =>
      rw [hb] at h
      cases h
      intro tip hmem
      rcases List.mem_append.mp hmem with hmem | hmem
      · exact ht tip hmem
      · rw [List.mem_singleton] at hmem
        subst hmem
        exact ⟨blk, hw.digest d blk hb, rfl⟩

theorem announce_trueTips (hw : LcBlockTree.WellFormed cr m.lcblocktree) (ht : TrueTips cr m.tips)
    (params : TreeParameters) (ord : HashOrder Digest) :
    TrueTips cr (m.announce cr params ord).tips := by
  unfold announce
  cases hs : m.sendTip cr ord with
  | error p => exact ht
  | ok m₁ =>
    have ht₁ := sendTip_trueTips hw ht hs
    cases hl : m₁.log cr params ord with
    | error p => simp only [hl]; exact ht₁
    | ok m₂ =>
      obtain ⟨logAva, acc, ava, -, -, -, rfl⟩ := log_ok hl
      simpa only [hl] using ht₁

theorem step_trueTips {bs : List LcBlock} (hc : LcBlockTree.NoCollision cr bs)
    (hs : Sound cr bs m) (ht : TrueTips cr m.tips) {i : Input}
    (hi : ∀ b, i.block? = some b → b ∈ bs) : TrueTips cr (m.step cr params i).tips := by
  cases i with
  | message ord v =>
    simp only [Manager.step, Manager.onMessage]
    cases he : expect "failed to deserialize what is expected to be LcBlock!"
        (LcBlock.tryFrom v) with
    | error p => exact ht
    | ok blk =>
      cases ha : m.lcblocktree.add cr blk with
      | error e => simp only [ha]; exact ht
      | ok t' =>
        have hb : blk ∈ bs := hi blk (by simp [Input.block?, expect_eq_ok.mp he, Except.toOption])
        have hw := hs.tree.add (hc.unique hs.tree hs.blocks hb) ha
        simpa only [ha] using announce_trueTips (m := { m with lcblocktree := t' }) hw ht params ord
  | checkpointEvent ord e =>
    cases e with
    | newProposal n b => exact ht
    | newCheckpoint n cp =>
      cases cp with
      | none => exact ht
      | some cp =>
        exact announce_trueTips (m := { m with
          checkpoints := m.checkpoints ++ [cp]
          checkpointsIterations := m.checkpointsIterations ++ [n] }) hs.tree ht params ord
  | command ord cmd =>
    simp only [Manager.step]
    split
    · exact ht
    · exact ht

/-- **The manager sends each tip with its true slot.** -/
theorem run_trueTips (params : TreeParameters) {bs : List LcBlock}
    (hc : LcBlockTree.NoCollision cr bs) :
    ∀ {is : List Input} {m : Manager}, Sound cr bs m → TrueTips cr m.tips →
      (∀ i ∈ is, ∀ b, i.block? = some b → b ∈ bs) → TrueTips cr (run cr params m is).tips
  | [], _, _, ht, _ => ht
  | i :: is, m, hs, ht, hi => by
    rw [run]
    split
    · exact run_trueTips params hc (hs.step hc (hi i (by simp)))
        (step_trueTips hc hs ht (hi i (by simp))) fun j hj => hi j (by simp [hj])
    · exact ht

end Manager

end AccountabilityGadget
