import AccountabilityGadget.Checkpoint.Extractor

/-!
# What the checkpoint tally decides

The tally is stated on the ledger alone, without the extractor: the latest valid vote of an
authority in a segment of the ledger, the supporters of a vote, and the first transaction at
which an outcome reaches its threshold.

* `latestVote`, `supporters`, `Decides`, `Decisions` — the abstract tally.
* `Tracks`, `handle_tracks` — the extractor's vote map holds the latest votes of the segment that
  it has read in its iteration.
* `skim_decisions` — the extractor that skips what it cannot decode computes the decisions.
* `tally_correct_iff` — the extractor of the source does so exactly when no short author text
  comes before a deciding transaction.
* `survives_iff` — it survives a ledger exactly when no short author text is in it.
-/

set_option autoImplicit false

namespace AccountabilityGadget

open CheckpointTransaction (tryFrom ShortKey)
open Encoding (encStr str run_str Inverts Decoder utf8Valid_of_ascii)

/-! ## The abstract tally -/

/-- A valid vote, as a ballot in iteration `i`. -/
def ballot (i : ℕ) : PublicKey × CheckpointAction → Option (PublicKey × Vote)
  | (a, .accept j b) => if j = i then some (a, .accept b) else none
  | (a, .reject j) => if j = i then some (a, .reject) else none
  | (_, .propose _ _) => none

variable (cr : Crypto) (committee : CheckpointCommittee)

/-- The ballots cast in a segment of the ledger. -/
def ballots (i : ℕ) (seg : List Bytes) : List (PublicKey × Vote) :=
  seg.filterMap fun tx => (validVote cr committee tx).bind (ballot i)

/-- The latest valid vote of an authority in iteration `i`. -/
def latestVote (i : ℕ) (seg : List Bytes) (a : PublicKey) : Option Vote :=
  (((ballots cr committee i seg).filter fun x => x.1 = a).getLast?).map Prod.snd

/-- The authorities with stake whose latest vote is `v`. -/
def supporters (i : ℕ) (seg : List Bytes) (v : Vote) : Finset PublicKey :=
  committee.voters.filter fun a => latestVote cr committee i seg a = some v

/-- After the last transaction of `seg`, a valid vote, the outcome `v` has reached its threshold. -/
def Decides (i : ℕ) (seg : List Bytes) (v : Option Digest) : Prop :=
  (∃ tx, seg.getLast? = some tx ∧ (validVote cr committee tx).isSome) ∧
    Reached committee.size (supporters cr committee i seg) v

/-- The decisions of a ledger from position `k` and iteration `i` on, each with its position. -/
inductive Decisions : ℕ → ℕ → List Bytes → List (ℕ × CheckpointEvent) → Prop where
  | stop {k i : ℕ} {L : List Bytes} :
      (∀ seg v, seg <+: L → ¬ Decides cr committee i seg v) → Decisions k i L []
  | decide {k i : ℕ} {seg rest : List Bytes} {v : Option Digest} {ds : List (ℕ × CheckpointEvent)} :
      Decides cr committee i seg v →
      (∀ pre w, pre <+: seg → pre ≠ seg → ¬ Decides cr committee i pre w) →
      Decisions (k + seg.length) (i + 1) rest ds →
      Decisions k i (seg ++ rest) ((k + seg.length - 1, .newCheckpoint i v) :: ds)

variable {cr committee}

theorem latestVote_nil (i : ℕ) (a : PublicKey) : latestVote cr committee i [] a = none := rfl

theorem latestVote_snoc (i : ℕ) (seg : List Bytes) (tx : Bytes) (a : PublicKey) :
    latestVote cr committee i (seg ++ [tx]) a =
      match (validVote cr committee tx).bind (ballot i) with
      | none => latestVote cr committee i seg a
      | some x => if x.1 = a then some x.2 else latestVote cr committee i seg a := by
  unfold latestVote ballots
  cases h : (validVote cr committee tx).bind (ballot i) with
  | none => simp [List.filterMap_append, h]
  | some x =>
    by_cases hx : x.1 = a
    · simp [List.filterMap_append, h, hx]
    · simp [List.filterMap_append, h, hx]

theorem ballot_author {i : ℕ} {vote : PublicKey × CheckpointAction} {x : PublicKey × Vote}
    (h : ballot i vote = some x) : x.1 = vote.1 := by
  unfold ballot at h
  split at h
  · split_ifs at h; cases h; rfl
  · split_ifs at h; cases h; rfl
  · cases h

theorem ballot_eq_accept {i : ℕ} {vote : PublicKey × CheckpointAction} {a : PublicKey}
    {b : Digest} (h : ballot i vote = some (a, .accept b)) : vote = (a, .accept i b) := by
  unfold ballot at h
  split at h
  · split_ifs at h with hi; cases h; rw [hi]
  · split_ifs at h; cases h
  · cases h

/-- A latest vote was cast by a valid transaction of the segment. -/
theorem exists_of_latestVote {i : ℕ} {seg : List Bytes} {a : PublicKey} {v : Vote}
    (h : latestVote cr committee i seg a = some v) :
    ∃ tx ∈ seg, (validVote cr committee tx).bind (ballot i) = some (a, v) := by
  unfold latestVote at h
  rw [Option.map_eq_some_iff] at h
  obtain ⟨x, hx, rfl⟩ := h
  have hm := List.mem_of_getLast? hx
  simp only [ballots, List.mem_filter, List.mem_filterMap, decide_eq_true_eq] at hm
  obtain ⟨⟨tx, htx, hb⟩, rfl⟩ := hm
  exact ⟨tx, htx, hb⟩

theorem latestVote_voter {i : ℕ} {seg : List Bytes} {a : PublicKey} {v : Vote}
    (h : latestVote cr committee i seg a = some v) : a ∈ committee.voters := by
  obtain ⟨tx, -, hb⟩ := exists_of_latestVote h
  obtain ⟨vote, hv, hb⟩ := Option.bind_eq_some_iff.mp hb
  rw [show a = vote.1 from ballot_author hb]
  exact validVote_stake hv

@[simp] theorem mem_supporters {i : ℕ} {seg : List Bytes} {a : PublicKey} {v : Vote} :
    a ∈ supporters cr committee i seg v ↔ latestVote cr committee i seg a = some v := by
  simp only [supporters, Finset.mem_filter, and_iff_right_iff_imp]
  exact latestVote_voter

/-- **At most one outcome reaches its threshold in a segment.** -/
theorem reached_unique {i : ℕ} {seg : List Bytes} {v w : Option Digest}
    (hv : Reached committee.size (supporters cr committee i seg) v)
    (hw : Reached committee.size (supporters cr committee i seg) w) : v = w := by
  refine Reached.unique CheckpointCommittee.card_voters_le (fun v => Finset.filter_subset _ _) ?_
    hv hw
  intro a x y hx hy
  exact Option.some.inj ((mem_supporters.mp hx).symm.trans (mem_supporters.mp hy))

theorem Decides.ne_nil {i : ℕ} {seg : List Bytes} {v : Option Digest}
    (h : Decides cr committee i seg v) : seg ≠ [] := by
  rintro rfl
  obtain ⟨⟨tx, htx, -⟩, -⟩ := h
  cases htx

/-- More than two thirds of the committee accepted a decided block. -/
theorem Decides.accepted {i : ℕ} {seg : List Bytes} {b : Digest}
    (h : Decides cr committee i seg (some b)) :
    2 * committee.size < 3 * (supporters cr committee i seg (.accept b)).card := h.2

/-- The supporters of a block have valid `Accept` transactions in the segment. -/
theorem exists_accept {i : ℕ} {seg : List Bytes} {a : PublicKey} {b : Digest}
    (h : a ∈ supporters cr committee i seg (.accept b)) :
    ∃ tx ∈ seg, validVote cr committee tx = some (a, .accept i b) := by
  obtain ⟨tx, htx, hb⟩ := exists_of_latestVote (mem_supporters.mp h)
  obtain ⟨vote, hv, hb⟩ := Option.bind_eq_some_iff.mp hb
  exact ⟨tx, htx, by rw [hv, ballot_eq_accept hb]⟩

/-! ## Decisions -/

/-- Two deciding prefixes of one ledger without earlier ones are the same. -/
theorem first_unique {i : ℕ} {seg seg' L : List Bytes} {v w : Option Digest}
    (hs : seg <+: L) (hs' : seg' <+: L) (hv : Decides cr committee i seg v)
    (hw : Decides cr committee i seg' w)
    (hf : ∀ pre w, pre <+: seg → pre ≠ seg → ¬ Decides cr committee i pre w)
    (hf' : ∀ pre w, pre <+: seg' → pre ≠ seg' → ¬ Decides cr committee i pre w) :
    seg = seg' ∧ v = w := by
  have heq : seg = seg' := by
    by_contra hne
    rcases List.prefix_or_prefix_of_prefix hs hs' with h | h
    · exact hf' seg v h hne hv
    · exact hf seg' w h (Ne.symm hne) hw
  subst heq
  exact ⟨rfl, reached_unique hv.2 hw.2⟩

/-- **A ledger has one list of decisions.** -/
theorem Decisions.functional {k i : ℕ} {L : List Bytes} {ds ds' : List (ℕ × CheckpointEvent)}
    (h : Decisions cr committee k i L ds) (h' : Decisions cr committee k i L ds') : ds = ds' := by
  induction h generalizing ds' with
  | stop hn =>
    cases h' with
    | stop => rfl
    | decide hd => exact absurd hd (hn _ _ (List.prefix_append _ _))
  | @decide k i seg rest v ds hd hf _ ih =>
    generalize hL : seg ++ rest = L at h'
    cases h' with
    | stop hn => exact absurd hd (hn _ _ (hL ▸ List.prefix_append _ _))
    | @decide _ _ seg' rest' w ds' hd' hf' hr' =>
      obtain ⟨rfl, rfl⟩ := first_unique (hL ▸ List.prefix_append _ _) (List.prefix_append _ _)
        hd hd' hf hf'
      rw [List.append_cancel_left hL] at ih
      rw [ih hr']

/-- Decisions are numbered without gap or repeat. -/
theorem Decisions.numbered {k i : ℕ} {L : List Bytes} {ds : List (ℕ × CheckpointEvent)}
    (h : Decisions cr committee k i L ds) :
    ∀ (m : ℕ) (e : ℕ × CheckpointEvent), ds[m]? = some e → ∃ v, e.2 = .newCheckpoint (i + m) v := by
  induction h with
  | stop => intro m e he; simp at he
  | decide _ _ _ ih =>
    intro m e he
    cases m with
    | zero => simp only [List.getElem?_cons_zero, Option.some.injEq] at he; subst he; exact ⟨_, rfl⟩
    | succ m =>
      obtain ⟨v, hv⟩ := ih m e (by simpa using he)
      exact ⟨v, by rw [hv]; congr 1; omega⟩

/-- Where a decision comes from: a segment of the ledger that decides it at its last position. -/
theorem Decisions.segment {k i : ℕ} {L : List Bytes} {ds : List (ℕ × CheckpointEvent)}
    (h : Decisions cr committee k i L ds) : ∀ d ∈ ds, ∃ pre seg post j v, L = pre ++ seg ++ post ∧
      d = (k + pre.length + seg.length - 1, .newCheckpoint j v) ∧ Decides cr committee j seg v := by
  induction h with
  | stop => simp
  | @decide k i seg rest v ds hd hf _ ih =>
    intro d hmem
    rcases List.mem_cons.mp hmem with rfl | hmem
    · exact ⟨[], seg, rest, i, v, rfl, rfl, hd⟩
    · obtain ⟨pre, seg', post, j, w, rfl, rfl, hd'⟩ := ih d hmem
      refine ⟨seg ++ pre, seg', post, j, w, by simp, ?_, hd'⟩
      rw [List.length_append, Nat.add_assoc k seg.length]

/-! ## The extractor computes the decisions -/

namespace Extractor

/-- The events of an extractor that skips the transactions it cannot decode. -/
def skim (ord : ℕ → VoteOrder) (cr : Crypto) (committee : CheckpointCommittee) :
    ℕ → Extractor → List Bytes → List (ℕ × CheckpointEvent)
  | _, _, [] => []
  | k, s, tx :: L =>
    ((handle (ord k) cr committee s tx).2.map fun e => (k, e)).toList ++
      skim ord cr committee (k + 1) (handle (ord k) cr committee s tx).1 L

variable {ord : ℕ → VoteOrder}

theorem run_eq_skim : ∀ {L : List Bytes} (k : ℕ) (s : Extractor), (∀ tx ∈ L, ¬ ShortKey cr tx) →
    (run ord cr committee k s L).1 = skim ord cr committee k s L
  | [], _, _, _ => rfl
  | tx :: L, k, s, h => by
    rw [run_cons (h tx (by simp)), skim]
    exact congrArg _ (run_eq_skim (k + 1) _ fun tx' h' => h tx' (by simp [h']))

/-- Skimming a ledger starts with skimming its prefix; what follows is sent later. -/
theorem skim_append (ord : ℕ → VoteOrder) (cr : Crypto) (committee : CheckpointCommittee) :
    ∀ (L L' : List Bytes) (k : ℕ) (s : Extractor), ∃ s', skim ord cr committee k s (L ++ L') =
      skim ord cr committee k s L ++ skim ord cr committee (k + L.length) s' L'
  | [], _, k, s => ⟨s, rfl⟩
  | tx :: L, L', k, s => by
    obtain ⟨s', h⟩ := skim_append ord cr committee L L' (k + 1) (handle (ord k) cr committee s tx).1
    refine ⟨s', ?_⟩
    rw [List.cons_append, skim, h, skim, List.append_assoc, List.length_cons,
      show k + 1 + L.length = k + (L.length + 1) by omega]

theorem skim_position : ∀ {L : List Bytes} {k : ℕ} {s : Extractor},
    ∀ d ∈ skim ord cr committee k s L, k ≤ d.1 ∧ d.1 < k + L.length
  | [], _, _, _, h => by cases h
  | tx :: L, k, s, d, h => by
    rw [skim, List.mem_append] at h
    rw [List.length_cons]
    rcases h with h | h
    · rw [Option.mem_toList, Option.map_eq_some_iff] at h
      obtain ⟨e, -, rfl⟩ := h
      exact ⟨le_rfl, by omega⟩
    · have := skim_position d h
      omega

/-- The vote map holds the latest votes of the segment read in the current iteration. -/
structure Tracks (cr : Crypto) (committee : CheckpointCommittee) (s : Extractor) (i : ℕ)
    (seg : List Bytes) : Prop where
  iteration : s.currentIteration = i
  votes : ∀ a, s.currentVotes.lookup a = latestVote cr committee i seg a

theorem tracks_fresh (i : ℕ) : Tracks cr committee ⟨i, ∅⟩ i [] :=
  ⟨rfl, fun a => by rw [latestVote_nil]; exact AList.lookup_empty a⟩

theorem record_lookup (s : Extractor) (vote : PublicKey × CheckpointAction) (a : PublicKey) :
    (s.record vote.1 vote.2).lookup a =
      match ballot s.currentIteration vote with
      | none => s.currentVotes.lookup a
      | some x => if x.1 = a then some x.2 else s.currentVotes.lookup a := by
  have hins : ∀ b v, (s.currentVotes.insert b v).lookup a =
      if b = a then some v else s.currentVotes.lookup a := by
    intro b v
    by_cases h : b = a
    · rw [if_pos h, h, AList.lookup_insert]
    · rw [if_neg h, AList.lookup_insert_ne (Ne.symm h)]
  obtain ⟨b, act⟩ := vote
  cases act with
  | propose j c => rfl
  | accept j c =>
    simp only [record, ballot]
    split_ifs with hj
    · exact hins _ _
    · rfl
  | reject j =>
    simp only [record, ballot]
    split_ifs with hj
    · exact hins _ _
    · rfl

/-- Counting a valid vote keeps the vote map on the latest votes. -/
theorem Tracks.record {s : Extractor} {i : ℕ} {seg : List Bytes} {tx : Bytes}
    {vote : PublicKey × CheckpointAction} (h : Tracks cr committee s i seg)
    (hv : validVote cr committee tx = some vote) :
    Tracks cr committee { s with currentVotes := s.record vote.1 vote.2 } i (seg ++ [tx]) := by
  refine ⟨h.iteration, ?_⟩
  intro a
  rw [record_lookup, latestVote_snoc, hv, Option.bind_some, h.iteration, h.votes]

theorem Tracks.keysOf {s : Extractor} {i : ℕ} {seg : List Bytes}
    (h : Tracks cr committee s i seg) : Scan.keysOf s.currentVotes = supporters cr committee i seg := by
  funext v
  ext a
  rw [Scan.mem_keysOf, mem_supporters, h.votes]

/-- **One transaction: it decides the iteration, or the vote map stays on the latest votes.** -/
theorem Tracks.handle {s : Extractor} {i : ℕ} {seg : List Bytes} (h : Tracks cr committee s i seg)
    (o : VoteOrder) (tx : Bytes) :
    (∃ v, Decides cr committee i (seg ++ [tx]) v ∧
      handle o cr committee s tx = (⟨i + 1, ∅⟩, some (.newCheckpoint i v))) ∨
    ((∀ v, ¬ Decides cr committee i (seg ++ [tx]) v) ∧ (handle o cr committee s tx).2 = none ∧
      Tracks cr committee (Extractor.handle o cr committee s tx).1 i (seg ++ [tx])) := by
  have hlast : (seg ++ [tx]).getLast? = some tx := by simp
  cases hv : validVote cr committee tx with
  | none =>
    refine .inr ⟨fun v hd => ?_, by rw [handle_invalid hv], ?_⟩
    · obtain ⟨⟨tx', htx, hsome⟩, -⟩ := hd
      rw [hlast, Option.some.injEq] at htx
      rw [← htx, hv] at hsome
      cases hsome
    · rw [handle_invalid hv]
      exact ⟨h.iteration, fun a => by rw [latestVote_snoc, hv, h.votes]; rfl⟩
  | some vote =>
    have ht := h.record hv
    have hk := ht.keysOf
    simp only at hk
    have hdec : ∀ v, decision o committee.size (s.record vote.1 vote.2) = some v ↔
        Decides cr committee i (seg ++ [tx]) v := by
      intro v
      rw [decision_eq_iff CheckpointCommittee.card_voters_le
        (fun w => by rw [hk]; exact Finset.filter_subset _ _), hk]
      exact ⟨fun hr => ⟨⟨tx, hlast, by rw [hv]; rfl⟩, hr⟩, fun hd => hd.2⟩
    rw [handle_valid hv, count]
    cases hd : decision o committee.size (s.record vote.1 vote.2) with
    | none =>
      refine .inr ⟨?_, rfl, ht⟩
      intro v hc
      rw [(hdec v).mpr hc] at hd
      cases hd
    | some v => exact .inl ⟨v, (hdec v).mp hd, by rw [← h.iteration]⟩

/-- **An extractor that skips what it cannot decode sends the decisions of the ledger.** -/
theorem skim_decisions (ord : ℕ → VoteOrder) : ∀ {L : List Bytes} (k : ℕ) {i : ℕ}
    {seg : List Bytes} {s : Extractor}, Tracks cr committee s i seg → (∀ pre v, pre <+: seg → ¬ Decides cr committee i pre v) →
    Decisions cr committee k i (seg ++ L) (skim ord cr committee (k + seg.length) s L)
  | [], _, _, _, _, _, hf => by
    rw [List.append_nil]
    exact .stop hf
  | tx :: L, k, i, seg, s, ht, hf => by
    have hlen : k + seg.length + 1 = k + (seg ++ [tx]).length := by
      rw [List.length_append, List.length_singleton]; omega
    have hsplit : seg ++ tx :: L = (seg ++ [tx]) ++ L := by simp
    have hpre : ∀ pre, pre <+: seg ++ [tx] → pre ≠ seg ++ [tx] → pre <+: seg := by
      intro pre hp hne
      rcases List.prefix_concat_iff.mp hp with h | h
      · exact absurd h hne
      · exact h
    rw [skim, hsplit, hlen]
    rcases ht.handle (ord (k + seg.length)) tx with ⟨v, hd, he⟩ | ⟨hn, he, ht'⟩
    · rw [he]
      have hrest := skim_decisions ord (L := L) (k + (seg ++ [tx]).length)
        (tracks_fresh (i + 1) : Tracks cr committee _ _ _) (by
          intro pre w hp hd'
          rw [List.prefix_nil] at hp
          exact hd'.ne_nil hp)
      have := Decisions.decide (k := k) hd (fun pre w hp hne => hf pre w (hpre pre hp hne)) hrest
      rwa [show k + (seg ++ [tx]).length - 1 = k + seg.length by omega] at this
    · rw [he]
      apply skim_decisions ord k ht'
      intro pre v hp
      by_cases hpe : pre = seg ++ [tx]
      · rw [hpe]; exact hn v
      · exact hf pre v (hpre pre hp hpe)

/-- The decisions of a ledger, computed. -/
theorem skim_new (ord : ℕ → VoteOrder) (cr : Crypto) (committee : CheckpointCommittee)
    (L : List Bytes) : Decisions cr committee 0 0 L (skim ord cr committee 0 new L) :=
  skim_decisions ord 0 (tracks_fresh 0) fun _ _ hp hd => hd.ne_nil (List.prefix_nil.mp hp)

/-! ## The extractor of the source -/

/-- **The events of a ledger are the decisions of its readable part.** -/
theorem run_decisions (ord : ℕ → VoteOrder) (L : List Bytes) :
    Decisions cr committee 0 0 (readable cr L) (run ord cr committee 0 new L).1 := by
  rw [run_readable, run_eq_skim 0 new fun tx => mem_readable]
  exact skim_new ord cr committee _

theorem events_orderFree (ord ord' : ℕ → VoteOrder) (L : List Bytes) :
    events ord cr committee L = events ord' cr committee L :=
  congrArg _ ((run_decisions ord L).functional (run_decisions ord' L))

theorem events_prefix {ord ord' : ℕ → VoteOrder} {L L' : List Bytes} (h : L' <+: L) :
    events ord' cr committee L' <+: events ord cr committee L := by
  obtain ⟨L'', rfl⟩ := h
  rw [events_orderFree ord' ord]
  exact (run_prefixes L' L'' 0 new).map _

theorem events_numbered {ord : ℕ → VoteOrder} {L : List Bytes} {m : ℕ} {e : CheckpointEvent}
    (h : (events ord cr committee L)[m]? = some e) : ∃ v, e = .newCheckpoint m v := by
  rw [events, List.getElem?_map, Option.map_eq_some_iff] at h
  obtain ⟨d, hd, rfl⟩ := h
  obtain ⟨v, hv⟩ := (run_decisions ord L).numbered m d hd
  exact ⟨v, by rw [hv, Nat.zero_add]⟩

/-- A checkpoint that is sent was decided by a segment of the ledger. -/
theorem events_segment {ord : ℕ → VoteOrder} {L : List Bytes} {i : ℕ} {v : Option Digest}
    (h : .newCheckpoint i v ∈ events ord cr committee L) :
    ∃ pre seg post, L = pre ++ seg ++ post ∧ Decides cr committee i seg v := by
  rw [events, List.mem_map] at h
  obtain ⟨d, hd, he⟩ := h
  obtain ⟨pre, seg, post, j, w, hL, rfl, hdec⟩ := (run_decisions ord L).segment d hd
  cases he
  obtain ⟨rest, hrest⟩ := readable_prefix cr L
  exact ⟨pre, seg, post ++ rest, by rw [← hrest, hL]; simp, hdec⟩

/-- What the tally is for: one decision per iteration, at the first transaction that reaches a
threshold, the same in every order of the vote map, and never taken back. -/
structure TallyCorrect (cr : Crypto) (committee : CheckpointCommittee) (L : List Bytes) : Prop where
  decided : ∀ ord, Decisions cr committee 0 0 L (run ord cr committee 0 new L).1
  numbered : ∀ ord m e, (events ord cr committee L)[m]? = some e →
    ∃ v, e = CheckpointEvent.newCheckpoint m v
  exclusive : ∀ i seg v w, Reached committee.size (supporters cr committee i seg) v →
    Reached committee.size (supporters cr committee i seg) w → v = w
  orderFree : ∀ ord ord', events ord cr committee L = events ord' cr committee L
  prefixes : ∀ ord ord' L', L' <+: L → events ord' cr committee L' <+: events ord cr committee L

/-- No short author text comes before a deciding transaction. -/
def DecidedInTime (cr : Crypto) (committee : CheckpointCommittee) (L : List Bytes) : Prop :=
  ∀ ds, Decisions cr committee 0 0 L ds → ∀ d ∈ ds, ∀ tx ∈ L.take d.1, ¬ ShortKey cr tx

theorem skim_shortKey {k : ℕ} {s : Extractor} {tx : Bytes} {L : List Bytes} (h : ShortKey cr tx) :
    skim ord cr committee k s (tx :: L) = skim ord cr committee (k + 1) s L := by
  rw [skim, handle_invalid (validVote_shortKey h)]
  rfl

/-- The events of a ledger are its decisions exactly when all of them are in its readable part. -/
theorem run_decisions_iff (ord : ℕ → VoteOrder) (L : List Bytes) :
    Decisions cr committee 0 0 L (run ord cr committee 0 new L).1 ↔ DecidedInTime cr committee L := by
  have hread : (run ord cr committee 0 new L).1 = skim ord cr committee 0 new (readable cr L) := by
    rw [run_readable, run_eq_skim 0 new fun tx => mem_readable]
  rw [hread]
  constructor
  · intro h ds hds d hd tx htx
    rw [← h.functional hds] at hd
    have hlt := (skim_position d hd).2
    obtain ⟨rest, hrest⟩ := readable_prefix cr L
    rw [← hrest, List.take_append_of_le_length (by omega)] at htx
    exact mem_readable (List.mem_of_mem_take htx)
  · intro h
    rcases readable_cases cr L with hL | ⟨tx, post, hL, hk⟩
    · rw [hL]
      exact skim_new ord cr committee L
    · obtain ⟨s', hs⟩ := skim_append ord cr committee (readable cr L) (tx :: post) 0 new
      rw [← hL, skim_shortKey hk] at hs
      -- what the tail would decide comes after the short author text
      have htail : skim ord cr committee (0 + (readable cr L).length + 1) s' post = [] := by
        rw [List.eq_nil_iff_forall_not_mem]
        intro d hd
        have hpos := (skim_position d hd).1
        refine h _ (skim_new ord cr committee L) d (by rw [hs]; exact List.mem_append_right _ hd) tx ?_ hk
        rw [hL, List.take_append, List.mem_append]
        right
        rw [show d.1 - (readable cr L).length = (d.1 - (readable cr L).length - 1) + 1 by omega]
        simp
      have := skim_new ord cr committee L
      rwa [hs, htail, List.append_nil] at this

/-- **The tally is correct exactly on the ledgers that are decided before the first transaction
with a short author text.** -/
theorem tally_correct_iff (cr : Crypto) (committee : CheckpointCommittee) (L : List Bytes) :
    TallyCorrect cr committee L ↔ DecidedInTime cr committee L :=
  ⟨fun h => (run_decisions_iff (fun _ => .stored) L).mp (h.decided _), fun h =>
    { decided := fun ord => (run_decisions_iff ord L).mpr h
      numbered := fun _ _ _ => events_numbered
      exclusive := fun _ _ _ _ => reached_unique
      orderFree := fun ord ord' => events_orderFree ord ord' L
      prefixes := fun _ _ _ => events_prefix }⟩

/-! ### A short author text before the decision -/

/-- Eight zero bytes in base64, in the place of the author. -/
def shortKeyTx : Bytes := encStr (Base64.encode (List.replicate 8 0))

theorem shortKey_shortKeyTx : ShortKey sampleCrypto shortKeyTx := by
  refine ⟨Base64.encode (List.replicate 8 0), [], ?_, List.replicate 8 0, Base64.decode_encode _,
    by decide⟩
  have h : Inverts encStr (str : Decoder (Fault DecodeError) Bytes)
      (Base64.encode (List.replicate 8 0)) :=
    run_str (by rw [Base64.length_encode]; decide) (utf8Valid_of_ascii (Base64.encode_ascii _))
  simpa [shortKeyTx] using h []

theorem decides_soleVote (pre : List Bytes) :
    Decides sampleCrypto soleCommittee 0 (pre ++ [soleVote (.accept 0 .default)]) (some .default) := by
  refine ⟨⟨soleVote (.accept 0 .default), by simp, by rw [validVote_soleVote (by decide)]; rfl⟩, ?_⟩
  have hmem : (⟨.zero⟩ : PublicKey) ∈
      supporters sampleCrypto soleCommittee 0 (pre ++ [soleVote (.accept 0 .default)]) (.accept .default) := by
    rw [mem_supporters, latestVote_snoc, validVote_soleVote (by decide)]
    rfl
  have hpos := Finset.card_pos.mpr ⟨_, hmem⟩
  rw [reached_some, show soleCommittee.size = 1 by decide]
  omega

/-- **The decision after a short author text is lost.** -/
theorem not_tally_correct_shortKeyTx :
    ¬ TallyCorrect sampleCrypto soleCommittee [shortKeyTx, soleVote (.accept 0 .default)] := by
  intro h
  have hd := h.decided fun _ => .stored
  rw [run_shortKey shortKey_shortKeyTx] at hd
  generalize hL : [shortKeyTx, soleVote (.accept 0 .default)] = L at hd
  cases hd with
  | stop hn => exact hn ([shortKeyTx] ++ [soleVote (.accept 0 .default)]) _ (hL ▸ List.prefix_rfl) (decides_soleVote _)

/-! ## Surviving a ledger -/

/-- Nothing in the ledger stops the extractor, and what is not a valid vote has no effect. -/
structure Survives (cr : Crypto) (committee : CheckpointCommittee) (L : List Bytes) : Prop where
  decodes : ∀ tx ∈ L, (∃ t, tryFrom cr tx = .ok t) ∨ ∃ e, tryFrom cr tx = .error (.reject e)
  completes : ∀ ord, ∃ s, (run ord cr committee 0 new L).2 = .ok s
  skips : ∀ ord s, ∀ tx ∈ L, validVote cr committee tx = none →
    step ord cr committee s tx = .ok (s, none)
  deletes : ∀ ord ord', events ord cr committee L =
    events ord' cr committee (L.filter fun tx => (validVote cr committee tx).isSome)

theorem Tracks.orderFree {s : Extractor} {i : ℕ} {seg : List Bytes}
    (h : Tracks cr committee s i seg) (o o' : VoteOrder) (tx : Bytes) :
    Extractor.handle o cr committee s tx = Extractor.handle o' cr committee s tx := by
  cases hv : validVote cr committee tx with
  | none => rw [handle_invalid hv, handle_invalid hv]
  | some vote =>
    have hsub : ∀ w, Scan.keysOf (s.record vote.1 vote.2) w ⊆ committee.voters := by
      intro w
      rw [show Scan.keysOf (s.record vote.1 vote.2) = _ from (h.record hv).keysOf]
      exact Finset.filter_subset _ _
    have hdec : decision o committee.size (s.record vote.1 vote.2) =
        decision o' committee.size (s.record vote.1 vote.2) := by
      ext v
      rw [decision_eq_iff CheckpointCommittee.card_voters_le hsub,
        decision_eq_iff CheckpointCommittee.card_voters_le hsub]
    rw [handle_valid hv, handle_valid hv, count, count, hdec]

/-- Deleting what is not a valid vote changes no event. -/
theorem skim_filter (ord ord' : ℕ → VoteOrder) : ∀ {L : List Bytes} (k k' : ℕ) {s : Extractor}
    {i : ℕ} {seg : List Bytes}, Tracks cr committee s i seg →
    (skim ord cr committee k s L).map Prod.snd = (skim ord' cr committee k' s
      (L.filter fun tx => (validVote cr committee tx).isSome)).map Prod.snd
  | [], _, _, _, _, _, _ => rfl
  | tx :: L, k, k', s, i, seg, h => by
    cases hv : validVote cr committee tx with
    | none =>
      rw [skim, handle_invalid hv, List.filter_cons_of_neg (by simp [hv])]
      exact skim_filter ord ord' (k + 1) k' h
    | some vote =>
      have hnext : ∃ j seg', Tracks cr committee
          (Extractor.handle (ord k) cr committee s tx).1 j seg' := by
        rcases h.handle (ord k) tx with ⟨v, -, he⟩ | ⟨-, -, ht⟩
        · exact ⟨i + 1, [], by rw [he]; exact tracks_fresh _⟩
        · exact ⟨i, _, ht⟩
      obtain ⟨j, seg', ht⟩ := hnext
      rw [List.filter_cons_of_pos (by simp [hv]), skim, skim, List.map_append, List.map_append,
        skim_filter ord ord' (k + 1) (k' + 1) ht, h.orderFree (ord k) (ord' k') tx]
      cases (Extractor.handle (ord' k') cr committee s tx).2 <;> rfl

/-- **The extractor survives exactly the ledgers without a short author text.** -/
theorem survives_iff (cr : Crypto) (committee : CheckpointCommittee) (L : List Bytes) :
    Survives cr committee L ↔ ∀ tx ∈ L, ¬ ShortKey cr tx := by
  constructor
  · intro h tx htx hk
    have hp := (CheckpointTransaction.tryFrom_panic_iff cr tx .slice).mpr ⟨rfl, hk⟩
    rcases h.decodes tx htx with ⟨t, ht⟩ | ⟨e, he⟩
    · rw [hp] at ht; cases ht
    · rw [hp] at he; cases he
  · intro h
    refine ⟨?_, fun ord => run_ok 0 new h, ?_, ?_⟩
    · intro tx htx
      cases ht : tryFrom cr tx with
      | ok t => exact .inl ⟨t, rfl⟩
      | error e =>
        cases e with
        | reject e => exact .inr ⟨e, rfl⟩
        | panic p =>
          exact absurd ((CheckpointTransaction.tryFrom_panic_iff cr tx p).mp ht).2 (h tx htx)
    · intro ord s tx htx hv
      rw [step_not_shortKey (h tx htx), handle_invalid hv]
    · intro ord ord'
      rw [events, events, run_eq_skim 0 new h,
        run_eq_skim 0 new fun tx htx => h tx (List.mem_of_mem_filter htx)]
      exact skim_filter ord ord' 0 0 (tracks_fresh 0)

/-- **Eight zero bytes for an author stop the extractor.** -/
theorem not_survives_shortKeyTx : ¬ Survives sampleCrypto soleCommittee [shortKeyTx] := by
  intro h
  obtain ⟨s, hs⟩ := h.completes fun _ => .stored
  rw [run_shortKey shortKey_shortKeyTx] at hs
  cases hs

end Extractor

end AccountabilityGadget
