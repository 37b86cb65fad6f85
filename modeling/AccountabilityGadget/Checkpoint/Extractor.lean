import Mathlib.Data.List.TakeWhile
import AccountabilityGadget.Checkpoint.Messages
import AccountabilityGadget.Lib.Quorum
import AccountabilityGadget.Lib.Scan

/-!
# The checkpoint extractor (`mynode/src/cpextractor.rs`)

The extractor reads the ledger one transaction at a time.  Its state is the iteration number and
the votes counted in it; `step` is one pass through the body of the vote loop.

* `decision_eq_iff` — as long as no more than `n` keys vote, the two threshold tests hold of at
  most one outcome, and the scan of the hash map finds it in every enumeration order.
* `handle` — one pass for a transaction that does not panic, in terms of `validVote`;
  `step_eq` says that `step` panics on a `ShortKey` and is `handle` otherwise.
* `run` — a whole ledger, each event with the ledger position at which it is sent.
* `run_prefixes`, `run_readable` — events only accumulate, and a ledger gives the events of
  its part before the first `ShortKey`.

The `f32` comparisons with `2n/3` and `n/3` are exact rational ones here.
-/

set_option autoImplicit false

namespace AccountabilityGadget

open CheckpointTransaction (tryFrom ShortKey)

inductive Vote where
  | reject
  | accept (b : Digest)
  deriving DecidableEq

/-- `HashMap<PublicKey, Vote>`. -/
abbrev Votes := AList fun _ : PublicKey => Vote

/-- An enumeration order of the vote map. -/
abbrev VoteOrder := HashOrder (Sigma fun _ : PublicKey => Vote)

/-- The digest of an `Accept` vote. -/
def Vote.accepted : Vote → Option Digest
  | reject => none
  | accept b => some b

/-- Strictly more than two thirds accept a block, or at least one third rejects. -/
def Reached (n : ℕ) (supporters : Vote → Finset PublicKey) : Option Digest → Prop
  | some b => 2 * n < 3 * (supporters (.accept b)).card
  | none => n ≤ 3 * (supporters .reject).card

instance (n : ℕ) (supporters : Vote → Finset PublicKey) :
    (v : Option Digest) → Decidable (Reached n supporters v)
  | some b => inferInstanceAs (Decidable (2 * n < 3 * (supporters (.accept b)).card))
  | none => inferInstanceAs (Decidable (n ≤ 3 * (supporters .reject).card))

@[simp] theorem reached_some {n : ℕ} {supporters : Vote → Finset PublicKey} {b : Digest} :
    Reached n supporters (some b) ↔ 2 * n < 3 * (supporters (.accept b)).card := .rfl

@[simp] theorem reached_none {n : ℕ} {supporters : Vote → Finset PublicKey} :
    Reached n supporters none ↔ n ≤ 3 * (supporters .reject).card := .rfl

/-- **At most one outcome reaches its threshold.** -/
theorem Reached.unique {n : ℕ} {supporters : Vote → Finset PublicKey} {U : Finset PublicKey}
    (hU : U.card ≤ n) (hsub : ∀ v, supporters v ⊆ U)
    (hdis : ∀ a v w, a ∈ supporters v → a ∈ supporters w → v = w) {x y : Option Digest}
    (hx : Reached n supporters x) (hy : Reached n supporters y) : x = y := by
  cases x with
  | none =>
    cases y with
    | none => rfl
    | some b =>
      obtain ⟨a, ha, ha'⟩ := Quorum.exists_common_third hU (hsub _) (hsub _) hy hx
      cases hdis a _ _ ha ha'
  | some b =>
    cases y with
    | none =>
      obtain ⟨a, ha, ha'⟩ := Quorum.exists_common_third hU (hsub _) (hsub _) hx hy
      cases hdis a _ _ ha ha'
    | some b' =>
      have hc := Quorum.card_inter_third hU (hsub _) (hsub _) hx hy
      have hpos : 0 < (supporters (.accept b) ∩ supporters (.accept b')).card := by omega
      obtain ⟨a, ha⟩ := Finset.card_pos.mp hpos
      rw [Finset.mem_inter] at ha
      cases hdis a _ _ ha.1 ha.2
      rfl

structure Extractor where
  currentIteration : ℕ
  currentVotes : Votes

namespace Extractor

def new : Extractor := ⟨0, ∅⟩

/-- The match on `vote.action`. -/
def record (s : Extractor) (author : PublicKey) (action : CheckpointAction) : Votes :=
  match action with
  | .accept i b =>
    if i = s.currentIteration then s.currentVotes.insert author (.accept b) else s.currentVotes
  | .reject i =>
    if i = s.currentIteration then s.currentVotes.insert author .reject else s.currentVotes
  | .propose _ _ => s.currentVotes

/-- `current_votes.values()`. -/
def values (ord : VoteOrder) (votes : Votes) : List Vote := (ord.iter votes.entries).map Sigma.snd

/-- The tests for the end of the iteration: every accepted block in turn, then the rejects. -/
def decision (ord : VoteOrder) (n : ℕ) (votes : Votes) : Option (Option Digest) :=
  let bs := ((values ord votes).filterMap Vote.accepted).eraseDups
  match bs.find? fun b => 2 * n < 3 * (values ord votes).count (.accept b) with
  | some b => some (some b)
  | none => if n ≤ 3 * (values ord votes).count .reject then some none else none

/-- One transaction of the ledger: the next state and the event sent, if any. -/
def step (ord : VoteOrder) (cr : Crypto) (committee : CheckpointCommittee) (s : Extractor)
    (tx : Bytes) : Except Panic (Extractor × Option CheckpointEvent) :=
  match tryFrom cr tx with
  | .error (.panic p) => .error p
  | .error (.reject _) => .ok (s, none)
  | .ok vote =>
    match vote.verifySignature cr committee with
    | .error _ => .ok (s, none)
    | .ok () =>
      let currentVotes := s.record vote.author vote.action
      match decision ord committee.size currentVotes with
      | some v => .ok (⟨s.currentIteration + 1, ∅⟩, some (.newCheckpoint s.currentIteration v))
      | none => .ok ({ s with currentVotes }, none)

/-- The ledger from position `k` on; `ord p` is the order of the vote map at position `p`. -/
def run (ord : ℕ → VoteOrder) (cr : Crypto) (committee : CheckpointCommittee) :
    ℕ → Extractor → List Bytes → List (ℕ × CheckpointEvent) × Except Panic Extractor
  | _, s, [] => ([], .ok s)
  | k, s, tx :: L =>
    match step (ord k) cr committee s tx with
    | .error p => ([], .error p)
    | .ok (s', ev) =>
      let r := run ord cr committee (k + 1) s' L
      ((ev.map fun e => (k, e)).toList ++ r.1, r.2)

/-- The events a new extractor sends for a ledger. -/
def events (ord : ℕ → VoteOrder) (cr : Crypto) (committee : CheckpointCommittee)
    (L : List Bytes) : List CheckpointEvent := (run ord cr committee 0 new L).1.map Prod.snd

/-! ## The threshold tests -/

@[simp] theorem mem_values {ord : VoteOrder} {votes : Votes} {v : Vote} :
    v ∈ values ord votes ↔ ∃ a, a ∈ Scan.keysOf votes v := by
  simp only [values, List.mem_map, HashOrder.mem_iter, Scan.mem_keysOf]
  constructor
  · rintro ⟨⟨a, w⟩, h, rfl⟩
    exact ⟨a, AList.mem_lookup_iff.mpr h⟩
  · rintro ⟨a, h⟩
    exact ⟨⟨a, v⟩, AList.mem_lookup_iff.mp h, rfl⟩

theorem count_values (ord : VoteOrder) (votes : Votes) (v : Vote) :
    (values ord votes).count v = (Scan.keysOf votes v).card := by
  rw [← Scan.count_values, values]
  exact ((ord.perm _).map _).count_eq v

/-- What the scan returns has reached its threshold. -/
theorem decision_reached {ord : VoteOrder} {n : ℕ} {votes : Votes} {v : Option Digest}
    (h : decision ord n votes = some v) : Reached n (Scan.keysOf votes) v := by
  unfold decision at h
  simp only [count_values] at h
  split at h
  · rename_i b hb
    cases h
    simpa using List.find?_some hb
  · split at h
    · rename_i hr
      cases h
      exact hr
    · cases h

/-- The scan finds an outcome when some outcome has reached its threshold. -/
theorem decision_ne_none (ord : VoteOrder) {n : ℕ} {votes : Votes} {v : Option Digest}
    (h : Reached n (Scan.keysOf votes) v) : decision ord n votes ≠ none := by
  intro hd
  unfold decision at hd
  simp only [count_values] at hd
  split at hd
  · cases hd
  · rename_i hnone
    rw [List.find?_eq_none] at hnone
    split at hd
    · cases hd
    · rename_i hr
      cases v with
      | none => exact hr h
      | some b =>
        rw [reached_some] at h
        have hpos : 0 < (Scan.keysOf votes (.accept b)).card := by omega
        obtain ⟨a, ha⟩ := Finset.card_pos.mp hpos
        refine hnone b ?_ (by simpa using h)
        rw [List.mem_eraseDups, List.mem_filterMap]
        exact ⟨.accept b, mem_values.mpr ⟨a, ha⟩, rfl⟩

/-- **The scan returns the outcome that has reached its threshold, in every order.** -/
theorem decision_eq_iff {ord : VoteOrder} {n : ℕ} {votes : Votes} {U : Finset PublicKey}
    (hU : U.card ≤ n) (hsub : ∀ v, Scan.keysOf votes v ⊆ U) {v : Option Digest} :
    decision ord n votes = some v ↔ Reached n (Scan.keysOf votes) v := by
  refine ⟨decision_reached, ?_⟩
  intro h
  obtain ⟨w, hw⟩ := Option.ne_none_iff_exists'.mp (decision_ne_none ord h)
  rw [hw, Reached.unique hU hsub (fun a v w hv hw => ?_) h (decision_reached hw)]
  rw [Scan.mem_keysOf] at hv hw
  exact Option.some.inj (hv.symm.trans hw)

/-! ## One transaction -/

/-- The body of the vote loop for a vote that decodes and verifies. -/
def count (ord : VoteOrder) (n : ℕ) (s : Extractor) (vote : PublicKey × CheckpointAction) :
    Extractor × Option CheckpointEvent :=
  match decision ord n (s.record vote.1 vote.2) with
  | some v => (⟨s.currentIteration + 1, ∅⟩, some (.newCheckpoint s.currentIteration v))
  | none => ({ s with currentVotes := s.record vote.1 vote.2 }, none)

/-- A transaction that does not panic: anything but a valid vote is skipped. -/
def handle (ord : VoteOrder) (cr : Crypto) (committee : CheckpointCommittee) (s : Extractor)
    (tx : Bytes) : Extractor × Option CheckpointEvent :=
  match validVote cr committee tx with
  | none => (s, none)
  | some vote => count ord committee.size s vote

variable {ord : ℕ → VoteOrder} {cr : Crypto} {committee : CheckpointCommittee}

/-- **`step` panics on a short author text and does what `handle` says on any other input.** -/
theorem step_eq (o : VoteOrder) (s : Extractor) (tx : Bytes) :
    step o cr committee s tx =
      if ShortKey cr tx then .error .slice else .ok (handle o cr committee s tx) := by
  have hp := CheckpointTransaction.tryFrom_panic_iff cr tx
  unfold step handle validVote
  cases ht : tryFrom cr tx with
  | error e =>
    cases e with
    | panic p =>
      obtain ⟨rfl, hk⟩ := (hp p).mp ht
      simp [hk]
    | reject e =>
      have hk : ¬ ShortKey cr tx := fun hk => by simpa [ht] using (hp .slice).mpr ⟨rfl, hk⟩
      simp [hk]
  | ok vote =>
    have hk : ¬ ShortKey cr tx := fun hk => by simpa [ht] using (hp .slice).mpr ⟨rfl, hk⟩
    rw [if_neg hk]
    cases hv : vote.verifySignature cr committee with
    | error e => simp [hv]
    | ok u =>
      simp only [hv, if_true, count]
      split <;> rfl

theorem step_shortKey {o : VoteOrder} {s : Extractor} {tx : Bytes} (h : ShortKey cr tx) :
    step o cr committee s tx = .error .slice := by
  rw [step_eq, if_pos h]

theorem step_not_shortKey {o : VoteOrder} {s : Extractor} {tx : Bytes} (h : ¬ ShortKey cr tx) :
    step o cr committee s tx = .ok (handle o cr committee s tx) := by
  rw [step_eq, if_neg h]

theorem handle_valid {o : VoteOrder} {s : Extractor} {tx : Bytes}
    {vote : PublicKey × CheckpointAction} (h : validVote cr committee tx = some vote) :
    handle o cr committee s tx = count o committee.size s vote := by
  rw [handle, h]

theorem handle_invalid {o : VoteOrder} {s : Extractor} {tx : Bytes}
    (h : validVote cr committee tx = none) : handle o cr committee s tx = (s, none) := by
  rw [handle, h]

/-! ## Whole ledgers -/

theorem run_shortKey {k : ℕ} {s : Extractor} {tx : Bytes} {L : List Bytes} (h : ShortKey cr tx) :
    run ord cr committee k s (tx :: L) = ([], .error .slice) := by
  rw [run, step_shortKey h]

theorem run_cons {k : ℕ} {s : Extractor} {tx : Bytes} {L : List Bytes} (h : ¬ ShortKey cr tx) :
    run ord cr committee k s (tx :: L) =
      let r := run ord cr committee (k + 1) (handle (ord k) cr committee s tx).1 L
      (((handle (ord k) cr committee s tx).2.map fun e => (k, e)).toList ++ r.1, r.2) := by
  rw [run, step_not_shortKey h]

/-- The part of a ledger before its first short author text. -/
def readable (cr : Crypto) (L : List Bytes) : List Bytes := L.takeWhile fun tx => ¬ ShortKey cr tx

theorem mem_readable {L : List Bytes} {tx : Bytes} (h : tx ∈ readable cr L) : ¬ ShortKey cr tx := by
  simpa using List.mem_takeWhile_imp h

theorem readable_prefix (cr : Crypto) (L : List Bytes) : readable cr L <+: L :=
  List.takeWhile_prefix _

/-- A ledger is its readable part, or a short author text follows that part. -/
theorem readable_cases (cr : Crypto) (L : List Bytes) :
    readable cr L = L ∨ ∃ tx post, L = readable cr L ++ tx :: post ∧ ShortKey cr tx := by
  induction L with
  | nil => exact .inl rfl
  | cons tx L ih =>
    rw [readable, List.takeWhile_cons]
    by_cases h : ShortKey cr tx
    · exact .inr ⟨tx, L, by simp [h], h⟩
    · simp only [h, not_false_eq_true, decide_true, if_true]
      rcases ih with ih | ⟨tx', post, he, hk⟩
      · exact .inl (congrArg _ ih)
      · exact .inr ⟨tx', post, congrArg _ he, hk⟩

/-- The events of a ledger are those of its readable part. -/
theorem run_readable : ∀ (L : List Bytes) (k : ℕ) (s : Extractor),
    (run ord cr committee k s L).1 = (run ord cr committee k s (readable cr L)).1
  | [], _, _ => rfl
  | tx :: L, k, s => by
    by_cases h : ShortKey cr tx
    · rw [run_shortKey h, readable, List.takeWhile_cons]
      simp [h, run]
    · have hr : readable cr (tx :: L) = tx :: readable cr L := by
        simp [readable, h]
      rw [hr, run_cons h, run_cons h]
      simp only
      rw [run_readable L (k + 1)]

/-- **The run of a ledger starts with the run of any of its prefixes.** -/
theorem run_prefixes : ∀ (L L' : List Bytes) (k : ℕ) (s : Extractor),
    (run ord cr committee k s L).1 <+: (run ord cr committee k s (L ++ L')).1
  | [], _, _, _ => List.nil_prefix
  | tx :: L, L', k, s => by
    rw [List.cons_append]
    by_cases h : ShortKey cr tx
    · rw [run_shortKey h]
      exact List.nil_prefix
    · rw [run_cons h, run_cons h]
      exact (List.prefix_append_right_inj _).mpr (run_prefixes L L' (k + 1) _)

/-- A ledger without short author texts is processed to its end. -/
theorem run_ok : ∀ {L : List Bytes} (k : ℕ) (s : Extractor), (∀ tx ∈ L, ¬ ShortKey cr tx) →
    ∃ s', (run ord cr committee k s L).2 = .ok s'
  | [], _, s, _ => ⟨s, rfl⟩
  | tx :: L, k, s, h => by
    rw [run_cons (h tx (by simp))]
    exact run_ok (k + 1) _ fun tx' h' => h tx' (by simp [h'])

end Extractor

end AccountabilityGadget
