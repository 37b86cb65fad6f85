import Mathlib.Logic.Relation
import AccountabilityGadget.Lib.Quorum

/-!
# Safety of the two-chain commit rule

Blocks are named by a type `δ`; a block carries a certificate for its parent.  Voters have stakes,
and some of them are faulty.

* `Electorate` — voters, stakes and a quorum threshold above which two quorums share a voter that
  is not faulty (`Electorate.common`).
* `Ballot`, `Record` — what the voters that are not faulty have signed: votes and timeouts.
* `Record.Lawful` — the voting rules: one block a round, a block only above its certificate, a
  timeout reports at least the certificates of the earlier votes, and a block that skips rounds is
  justified by a quorum of timeouts or by the earlier votes of its voter.
* `Lawful.extends_of_committed` — every certified block from the round of a commit on extends the
  committed block.
* `Lawful.comparable` — two committed blocks lie on one chain.
* `Path`, `Lawful.exists_spine` — the ballots down to the root, and one path with every commit.
-/

set_option autoImplicit false

namespace AccountabilityGadget.TwoChain

variable {α δ : Type*} [DecidableEq α]

/-- Voters with stakes, any two quorums of which overlap outside the faulty voters. -/
structure Electorate (α : Type*) [DecidableEq α] where
  voters : Finset α
  stake : α → ℕ
  faulty : Finset α
  threshold : ℕ
  overlap : Quorum.weight stake voters + Quorum.weight stake (voters ∩ faulty) < 2 * threshold

namespace Electorate

variable (E : Electorate α)

structure IsQuorum (Q : Finset α) : Prop where
  subset : Q ⊆ E.voters
  weight : E.threshold ≤ Quorum.weight E.stake Q

variable {E}

/-- **Two quorums share a voter that is not faulty.** -/
theorem common {A B : Finset α} (hA : E.IsQuorum A) (hB : E.IsQuorum B) :
    ∃ a ∈ A, a ∈ B ∧ a ∉ E.faulty := by
  have hov := E.overlap
  have ha := hA.weight
  have hb := hB.weight
  obtain ⟨a, hab, haF⟩ := Quorum.exists_common_of_weight (w := E.stake) (F := E.faulty)
    hA.subset hB.subset (by omega)
  exact ⟨a, (Finset.mem_inter.mp hab).1, (Finset.mem_inter.mp hab).2, haF⟩

end Electorate

/-- A vote: a block and its round, the parent that the block's certificate is for and the round of
that certificate. -/
structure Ballot (δ : Type*) where
  block : δ
  round : ℕ
  parent : δ
  qcRound : ℕ

/-- What the voters that are not faulty have signed. -/
structure Record (α δ : Type*) where
  voted : α → Ballot δ → Prop
  /-- A timeout for a round, with the round of the highest certificate known. -/
  timedOut : α → ℕ → ℕ → Prop

namespace Record

variable (R : Record α δ) (E : Electorate α) (root : δ)

/-- A quorum has voted for `d` in round `r`. -/
def Certified (d : δ) (r : ℕ) : Prop :=
  ∃ Q, E.IsQuorum Q ∧ ∀ a ∈ Q, a ∉ E.faulty → ∃ b, R.voted a b ∧ b.block = d ∧ b.round = r

/-- A certificate for `d` of round `r`, or the one of the root. -/
def Valid (d : δ) (r : ℕ) : Prop := d = root ∧ r = 0 ∨ R.Certified E d r

/-- A quorum has timed out in round `r`, with certificates up to round `q`. -/
def TimedOutBelow (r q : ℕ) : Prop :=
  ∃ Q, E.IsQuorum Q ∧ ∀ a ∈ Q, a ∉ E.faulty → ∃ h, R.timedOut a r h ∧ h ≤ q

/-- The voting rules. -/
structure Lawful : Prop where
  unique : ∀ a b b', R.voted a b → R.voted a b' → b.round = b'.round → b.block = b'.block
  coherent : ∀ a a' b b', R.voted a b → R.voted a' b' → b.block = b'.block → b = b'
  below : ∀ a b, R.voted a b → b.qcRound < b.round
  valid : ∀ a b, R.voted a b → R.Valid E root b.parent b.qcRound
  timeout : ∀ a b r h, R.voted a b → R.timedOut a r h → b.round ≤ r → b.qcRound ≤ h
  justified : ∀ a b, R.voted a b → b.round = b.qcRound + 1 ∨
    R.TimedOutBelow E (b.round - 1) b.qcRound ∨
    ∀ b', R.voted a b' → b'.round < b.round → b'.qcRound ≤ b.qcRound

/-- `e` is the parent of `d` on some ballot. -/
def Parent (d e : δ) : Prop := ∃ a b, R.voted a b ∧ b.block = d ∧ b.parent = e

/-- `d` is `e` or extends it. -/
def Extends : δ → δ → Prop := Relation.ReflTransGen R.Parent

/-- `d` of round `r` is committed: a certified block of the next round carries its certificate. -/
def Committed (d : δ) (r : ℕ) : Prop :=
  ∃ a b, R.voted a b ∧ R.Certified E b.block b.round ∧ b.parent = d ∧ b.qcRound = r ∧
    b.round = r + 1

variable {R E root}

/-- A certified block has a ballot. -/
theorem Certified.exists_ballot {d : δ} {r : ℕ} (h : R.Certified E d r) :
    ∃ a b, R.voted a b ∧ b.block = d ∧ b.round = r := by
  obtain ⟨Q, hQ, hv⟩ := h
  obtain ⟨a, ha, -, haF⟩ := Electorate.common hQ hQ
  exact ⟨a, hv a ha haF⟩

namespace Lawful

variable (L : R.Lawful E root)

include L

theorem round_pos {d : δ} {r : ℕ} (h : R.Certified E d r) : 0 < r := by
  obtain ⟨a, b, hv, -, rfl⟩ := h.exists_ballot
  have := L.below a b hv
  omega

/-- Two certificates of one round are for one block. -/
theorem eq_of_valid {d e : δ} {r : ℕ} (hd : R.Valid E root d r) (he : R.Valid E root e r) :
    d = e := by
  rcases hd with ⟨rfl, rfl⟩ | hd
  · rcases he with ⟨rfl, -⟩ | he
    · rfl
    · exact absurd (L.round_pos he) (Nat.lt_irrefl 0)
  · rcases he with ⟨rfl, rfl⟩ | he
    · exact absurd (L.round_pos hd) (Nat.lt_irrefl 0)
    · obtain ⟨Q, hQ, hv⟩ := hd
      obtain ⟨Q', hQ', hv'⟩ := he
      obtain ⟨a, ha, ha', haF⟩ := Electorate.common hQ hQ'
      obtain ⟨b, hb, rfl, hr⟩ := hv a ha haF
      obtain ⟨b', hb', rfl, hr'⟩ := hv' a ha' haF
      exact L.unique a b b' hb hb' (hr.trans hr'.symm)

/-- A voter of a certified block that skips rounds past a commit has a certificate of at least the
round of the commit. -/
theorem le_qcRound {a : α} {b b₁ : Ballot δ} {r₀ : ℕ} (hb : R.voted a b) (hb₁ : R.voted a b₁)
    (hc : R.Certified E b₁.block b₁.round) (hq : b₁.qcRound = r₀) (hr : b₁.round = r₀ + 1)
    (hlt : r₀ + 1 < b.round) : r₀ ≤ b.qcRound := by
  rcases L.justified a b hb with h | ⟨Q, hQ, ht⟩ | h
  · omega
  · -- a voter of the quorum of timeouts has voted for `b₁` before it timed out
    obtain ⟨Q₁, hQ₁, hv⟩ := hc
    obtain ⟨c, hcQ, hcQ₁, hcF⟩ := Electorate.common hQ hQ₁
    obtain ⟨k, hk, hkq⟩ := ht c hcQ hcF
    obtain ⟨b₂, hb₂, hblock, -⟩ := hv c hcQ₁ hcF
    have heq : b₂ = b₁ := L.coherent c a b₂ b₁ hb₂ hb₁ hblock
    subst heq
    have := L.timeout c b₂ (b.round - 1) k hb₂ hk (by omega)
    omega
  · have := h b₁ hb₁ (by omega)
    omega

/-- **Every certified block from the round of a commit on extends the committed block.** -/
theorem extends_of_committed {d₀ : δ} {r₀ : ℕ} (hc : R.Committed E d₀ r₀) (r : ℕ) :
    ∀ d, R.Valid E root d r → r₀ ≤ r → R.Extends d d₀ := by
  obtain ⟨a₁, b₁, hv₁, hcert₁, hp, hq, hr⟩ := hc
  have h₀ : R.Valid E root d₀ r₀ := by
    rw [← hp, ← hq]
    exact L.valid a₁ b₁ hv₁
  induction r using Nat.strong_induction_on with
  | _ r ih =>
    intro d hd hle
    rcases Nat.eq_or_lt_of_le hle with rfl | hlt
    · rw [L.eq_of_valid hd h₀]
      exact .refl
    · have hcert : R.Certified E d r := by
        rcases hd with ⟨-, rfl⟩ | hd
        · omega
        · exact hd
      rcases Nat.eq_or_lt_of_le hlt with heq | hskip
      · have hd₁ : d = b₁.block := by
          have hround : b₁.round = r := by omega
          exact L.eq_of_valid hd (.inr (hround ▸ hcert₁))
        exact .single ⟨a₁, b₁, hv₁, hd₁.symm, hp⟩
      · obtain ⟨Q, hQ, hv⟩ := hcert
        obtain ⟨Q₁, hQ₁, hv'⟩ := hcert₁
        obtain ⟨a, ha, ha₁, haF⟩ := Electorate.common hQ hQ₁
        obtain ⟨b, hb, rfl, rfl⟩ := hv a ha haF
        obtain ⟨b₂, hb₂, hblock, -⟩ := hv' a ha₁ haF
        have heq : b₂ = b₁ := L.coherent a a₁ b₂ b₁ hb₂ hv₁ hblock
        subst heq
        have hge : r₀ ≤ b.qcRound := L.le_qcRound hb hb₂ ⟨Q₁, hQ₁, hv'⟩ hq hr hskip
        have hrest := ih b.qcRound (L.below a b hb) b.parent (L.valid a b hb) hge
        exact .head ⟨a, b, hb, rfl, rfl⟩ hrest

/-- **Agreement**: two committed blocks lie on one chain. -/
theorem comparable {d d' : δ} {r r' : ℕ} (h : R.Committed E d r) (h' : R.Committed E d' r') :
    R.Extends d d' ∨ R.Extends d' d := by
  have hvalid : ∀ {e : δ} {q : ℕ}, R.Committed E e q → R.Valid E root e q := by
    rintro e q ⟨a, b, hv, -, rfl, rfl, -⟩
    exact L.valid a b hv
  rcases Nat.le_total r r' with hle | hle
  · exact .inr (L.extends_of_committed h r' d' (hvalid h') hle)
  · exact .inl (L.extends_of_committed h' r d (hvalid h) hle)

end Lawful

/-! ## Paths to the root -/

/-- The ballots from the root up to a block, each for the parent that the next one names. -/
inductive Path (R : Record α δ) (root : δ) : List (Ballot δ) → δ → ℕ → Prop where
  | root : Path R root [] root 0
  | snoc {l : List (Ballot δ)} {a : α} {b : Ballot δ} : Path R root l b.parent b.qcRound →
      R.voted a b → b.qcRound < b.round → Path R root (l ++ [b]) b.block b.round

/-- `b` carries a certificate for the block of `a`, which is of a lower round. -/
def Follows (a b : Ballot δ) : Prop := b.parent = a.block ∧ a.round < b.round

namespace Path

variable {l : List (Ballot δ)} {d e : δ} {r : ℕ}

omit [DecidableEq α]

theorem voted (h : R.Path root l d r) : ∀ b ∈ l, ∃ a, R.voted a b := by
  induction h with
  | root => exact fun _ hb => by cases hb
  | @snoc l a c _ hv _ ih =>
    intro b hb
    rcases List.mem_append.mp hb with hb | hb
    · exact ih b hb
    · exact List.mem_singleton.mp hb ▸ ⟨a, hv⟩

theorem le (h : R.Path root l d r) : ∀ b ∈ l, b.round ≤ r := by
  induction h with
  | root => exact fun _ hb => by cases hb
  | snoc _ _ hlt ih =>
    intro b hb
    rcases List.mem_append.mp hb with hb | hb
    · exact (ih b hb).trans hlt.le
    · exact List.mem_singleton.mp hb ▸ le_refl _

/-- A path ends at its block, or is that of the root. -/
theorem last (h : R.Path root l d r) :
    (l = [] ∧ d = root ∧ r = 0) ∨ ∃ l' b, l = l' ++ [b] ∧ b.block = d ∧ b.round = r := by
  cases h with
  | root => exact .inl ⟨rfl, rfl, rfl⟩
  | snoc _ _ _ => exact .inr ⟨_, _, rfl, rfl, rfl⟩

/-- The first ballot names the root. -/
theorem head (h : R.Path root l d r) : ∀ b ∈ l.head?, b.parent = root ∧ 0 < b.round := by
  induction h with
  | root => exact fun _ hb => by cases hb
  | @snoc l a c hp _ hlt ih =>
    intro b hb
    rcases hp.last with ⟨rfl, hroot, hr⟩ | ⟨l', b', rfl, -, -⟩
    · simp only [List.nil_append, List.head?_cons, Option.mem_some_iff] at hb
      subst hb
      exact ⟨hroot, by omega⟩
    · rw [List.head?_append_of_ne_nil _ (by simp)] at hb
      exact ih b hb

theorem isChain (h : R.Path root l d r) : l.IsChain Follows := by
  induction h with
  | root => exact .nil
  | @snoc l a c hp _ hlt ih =>
    rw [List.isChain_append]
    refine ⟨ih, .singleton _, ?_⟩
    intro x hx y hy
    simp only [List.head?_cons, Option.mem_some_iff] at hy
    subst hy
    rcases hp.last with ⟨rfl, -, -⟩ | ⟨l', b', rfl, hblock, hround⟩
    · cases hx
    · rw [List.getLast?_append_of_ne_nil _ (by simp)] at hx
      simp only [List.getLast?_singleton, Option.mem_some_iff] at hx
      subst hx
      exact ⟨hblock.symm, hround ▸ hlt⟩

end Path

namespace Lawful

variable (L : R.Lawful E root)

include L

/-- A certified block has a path to the root. -/
theorem exists_path (r : ℕ) : ∀ d, R.Valid E root d r → ∃ l, R.Path root l d r := by
  induction r using Nat.strong_induction_on with
  | _ r ih =>
    rintro d (⟨rfl, rfl⟩ | hd)
    · exact ⟨[], .root⟩
    · obtain ⟨a, b, hv, rfl, rfl⟩ := hd.exists_ballot
      have hlt := L.below a b hv
      obtain ⟨l, hl⟩ := ih b.qcRound hlt b.parent (L.valid a b hv)
      exact ⟨l ++ [b], hl.snoc hv hlt⟩

/-- **A path has every ancestor of its block.** -/
theorem mem_path (hroot : ∀ a b, R.voted a b → b.block ≠ root) {l : List (Ballot δ)} {d e : δ}
    {r : ℕ} (h : R.Path root l d r) (hde : R.Extends d e) :
    e = root ∨ ∃ b ∈ l, b.block = e := by
  induction h with
  | root =>
    rcases Relation.ReflTransGen.cases_head hde with rfl | ⟨c, ⟨a, b, hv, hb, -⟩, -⟩
    · exact .inl rfl
    · exact absurd hb (hroot a b hv)
  | @snoc l a b _ hv _ ih =>
    rcases Relation.ReflTransGen.cases_head hde with rfl | ⟨c, ⟨a', b', hv', hb', rfl⟩, hce⟩
    · exact .inr ⟨b, by simp, rfl⟩
    · rw [L.coherent a' a b' b hv' hv hb'] at hce
      exact (ih hce).imp_right fun ⟨x, hx, hxe⟩ => ⟨x, by simp [hx], hxe⟩

theorem valid_of_committed {d : δ} {r : ℕ} (h : R.Committed E d r) : R.Valid E root d r := by
  obtain ⟨a, b, hv, -, rfl, rfl, -⟩ := h
  exact L.valid a b hv

/-- The ballots of a path to a certified block are for certified blocks. -/
theorem certified_of_mem_path {l : List (Ballot δ)} {d : δ} {r : ℕ} (h : R.Path root l d r)
    (hd : R.Valid E root d r) : ∀ b ∈ l, R.Certified E b.block b.round := by
  induction h with
  | root => exact fun b hb => by cases hb
  | @snoc l a b _ hv hlt ih =>
    intro x hx
    rcases List.mem_append.mp hx with hx | hx
    · exact ih (L.valid a b hv) x hx
    · rw [List.mem_singleton.mp hx]
      exact hd.resolve_left fun hroot => by omega

/-- **One path has every committed block.**  If the rounds of the commits are bounded, it leads up to
one of them. -/
theorem exists_spine (hroot : ∀ a b, R.voted a b → b.block ≠ root) {n : ℕ}
    (hn : ∀ d r, R.Committed E d r → r < n) : ∃ l d r, R.Path root l d r ∧
      (r = 0 ∨ R.Committed E d r) ∧
      ∀ e q, R.Committed E e q → e = root ∨ ∃ b ∈ l, b.block = e := by
  induction n with
  | zero => exact ⟨[], root, 0, .root, .inl rfl, fun e q h => absurd (hn e q h) (Nat.not_lt_zero q)⟩
  | succ n ih =>
    by_cases htop : ∃ d, R.Committed E d n
    · obtain ⟨d, hd⟩ := htop
      obtain ⟨l, hl⟩ := L.exists_path n d (L.valid_of_committed hd)
      refine ⟨l, d, n, hl, .inr hd, fun e q he => ?_⟩
      exact L.mem_path hroot hl (L.extends_of_committed he n d (L.valid_of_committed hd)
        (Nat.lt_succ_iff.mp (hn e q he)))
    · refine ih fun d r h => lt_of_le_of_ne (Nat.lt_succ_iff.mp (hn d r h)) ?_
      rintro rfl
      exact htop ⟨d, h⟩

end Lawful

end Record

end AccountabilityGadget.TwoChain
