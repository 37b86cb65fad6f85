import AccountabilityGadget.Transport.NetSender
import Mathlib.Data.List.Flatten
import Mathlib.Data.List.Nodup

/-!
# Messages arrive in order and at most once

* `Inv` — a worker of an address that has not ended is the last one for it, and the next message for
  the address goes to it; `Inv.step`, `inv_reachable`.
* `deliveredAt` — the channel of the receiver at an address; `deliveredBy` — what came over one
  connection.
* `delivers_in_order` — what is delivered at an address was sent there, at most once and over each
  connection in order; it is what was sent first, as long as no worker has ended.
-/

set_option autoImplicit false

namespace AccountabilityGadget.Transport

/-! ## Lists with increasing keys -/

/-- The last elements of a list with increasing keys come after the others. -/
theorem filter_lt_succ {α : Type*} (key : α → Option ℕ) (n : ℕ) : ∀ {l : List α},
    (l.filterMap key).Pairwise (· ≤ ·) →
      l.filter (fun x => (key x).any (· < n)) ++ l.filter (fun x => key x = some n) =
        l.filter fun x => (key x).any (· < n + 1)
  | [], _ => rfl
  | x :: l, h => by
    cases hx : key x with
    | none =>
      rw [List.filterMap_cons_none hx] at h
      simpa [hx] using filter_lt_succ key n h
    | some i =>
      rw [List.filterMap_cons_some hx, List.pairwise_cons] at h
      have ih := filter_lt_succ key n h.2
      rcases lt_trichotomy i n with hlt | rfl | hgt
      · have hlt' : i < n + 1 := by omega
        rw [List.filter_cons_of_pos (by simp [hx, hlt]), List.filter_cons_of_neg (by simp [hx, hlt.ne]),
          List.filter_cons_of_pos (by simp only [hx, Option.any_some, hlt', decide_true]),
          List.cons_append, ih]
      · have hnone : l.filter (fun x => (key x).any (· < i)) = [] := by
          rw [List.filter_eq_nil_iff]
          intro y hy hlt
          obtain ⟨j, hj, hji⟩ := Option.any_eq_true _ _ |>.mp hlt
          have hle := h.1 j (List.mem_filterMap.mpr ⟨y, hy, hj⟩)
          have hji : j < i := by simpa using hji
          omega
        rw [hnone, List.nil_append] at ih
        simp [hx, hnone, ih]
      · have hge : ¬ i < n := by omega
        have hgt' : ¬ i < n + 1 := by omega
        rw [List.filter_cons_of_neg (by simp [hx, hge]), List.filter_cons_of_neg (by simp [hx, hgt.ne']),
          List.filter_cons_of_neg (by simp only [hx, Option.any_some, hgt', decide_false,
            Bool.false_eq_true, not_false_eq_true]), ih]

/-- The elements of a list with increasing keys, key by key. -/
theorem flatMap_range_filter {α : Type*} (key : α → Option ℕ) {l : List α}
    (h : (l.filterMap key).Pairwise (· ≤ ·)) (n : ℕ) :
    ((List.range n).flatMap fun i => l.filter fun x => key x = some i) =
      l.filter fun x => (key x).any (· < n) := by
  induction n with
  | zero =>
    symm
    rw [List.range_zero, List.flatMap_nil, List.filter_eq_nil_iff]
    intro x _
    cases key x <;> simp
  | succ n ih =>
    rw [List.range_succ, List.flatMap_append, ih, List.flatMap_singleton, filter_lt_succ key n h]

/-- The parts of a list are the list. -/
theorem flatMap_range_filter_perm {α : Type*} (key : α → ℕ) {l : List α} (n : ℕ) :
    ((List.range n).flatMap fun i => l.filter fun x => key x = i).Perm
      (l.filter fun x => key x < n) := by
  induction n with
  | zero => simp
  | succ n ih =>
    rw [List.range_succ, List.flatMap_append, List.flatMap_singleton]
    refine (ih.append_right _).trans ?_
    have hparts := List.filter_append_perm (fun x => key x < n) (l.filter fun x => key x < n + 1)
    rw [List.filter_filter, List.filter_filter] at hparts
    refine List.Perm.trans (List.Perm.of_eq ?_) hparts
    congr 1 <;>
    · apply List.filter_congr
      intro x _
      grind

variable {A M : Type*} {decode : Bytes → Option M} {w w' : Worker A M} {s s' : Transport A M}

section

variable [DecidableEq A]

/-! ## What becomes of the messages -/

/-- The bytes, once for each address. -/
def expand (m : NetMessage A) : List (A × Bytes) := m.addresses.map fun a => (a, m.bytes)

/-- What the loop has still to hand to a worker. -/
def Loop.rest : Loop A → List (A × Bytes)
  | .idle => []
  | .sending bytes addresses => addresses.map fun a => (a, bytes)
  | .spawned bytes _ address rest => (address, bytes) :: rest.map fun a => (a, bytes)

def Handed.key (e : Handed A) : A × Bytes := (e.address, e.bytes)

/-- The workers that have taken what goes to an address, in the order of the messages. -/
def takers (s : Transport A M) (a : A) : List ℕ :=
  (s.handed.filter fun e => e.address = a).filterMap (·.worker)

variable (decode) in
structure Inv (s : Transport A M) : Prop where
  sent : s.transmitted.flatMap expand =
    s.handed.map Handed.key ++ s.loop.rest ++ s.transmit.flatMap expand
  worker : ∀ id w, s.workers id = some w →
    id < s.nextId ∧ WorkerInv decode w ∧ w.taken = s.takenBy id
  address : ∀ e ∈ s.handed, ∀ id, e.worker = some id →
    ∃ w, s.workers id = some w ∧ w.address = e.address
  lost : ∀ e ∈ s.handed, e.worker = none →
    ∃ id w, s.workers id = some w ∧ w.address = e.address ∧ w.link = .closed
  senders : ∀ a id, s.senders a = some id → ∃ w, s.workers id = some w ∧ w.address = a
  spawned : ∀ bytes id a rest, s.loop = .spawned bytes id a rest →
    ∃ w, s.workers id = some w ∧ w.address = a
  /-- A worker that has not ended will get the next message for its address. -/
  owner : ∀ id w, s.workers id = some w → w.link ≠ .closed →
    s.senders w.address = some id ∨ ∃ bytes rest, s.loop = .spawned bytes id w.address rest
  /-- It is the last one for its address. -/
  last : ∀ id w id' w', s.workers id = some w → s.workers id' = some w' →
    w'.address = w.address → w.link ≠ .closed → id' ≤ id
  order : ∀ a, (s.takers a).Pairwise (· ≤ ·)
  came : ∀ e ∈ s.deliver, ∃ w, s.workers e.worker = some w ∧ w.address = e.address
  delivered : ∀ id w, s.workers id = some w →
    (s.deliver.filter fun e => e.worker = id).map (·.message) = w.delivered

/-- Nothing has been handed to a worker that is not there. -/
theorem Inv.takenBy_next (h : Inv decode s) : s.takenBy s.nextId = [] := by
  rw [takenBy, List.map_eq_nil_iff, List.filter_eq_nil_iff]
  intro e he hid
  obtain ⟨w, hw, -⟩ := h.address e he s.nextId (by simpa using hid)
  exact (h.worker _ w hw).1.ne rfl

/-- A step of the loop, or of other tasks, that leaves the workers alone. -/
theorem Inv.quiet (h : Inv decode s) (hworkers : s'.workers = s.workers)
    (hnext : s'.nextId = s.nextId) (hhanded : s'.handed = s.handed) (hsenders : s'.senders = s.senders)
    (hdeliver : s'.deliver = s.deliver)
    (sent : s'.transmitted.flatMap expand =
      s'.handed.map Handed.key ++ s'.loop.rest ++ s'.transmit.flatMap expand)
    (hloop : ∀ bytes id a rest, s'.loop = .spawned bytes id a rest ↔
      s.loop = .spawned bytes id a rest) : Inv decode s' := by
  refine ⟨sent, ?_, ?_, ?_, ?_, ?_, ?_, ?_, ?_, ?_, ?_⟩
  · rw [hworkers, hnext]
    intro id w hw
    obtain ⟨hid, hinv, ht⟩ := h.worker id w hw
    exact ⟨hid, hinv, by rw [ht, takenBy, takenBy, hhanded]⟩
  · rw [hhanded, hworkers]
    exact h.address
  · rw [hhanded, hworkers]
    exact h.lost
  · rw [hsenders, hworkers]
    exact h.senders
  · intro bytes id a rest hl
    rw [hworkers]
    exact h.spawned bytes id a rest ((hloop bytes id a rest).mp hl)
  · rw [hworkers, hsenders]
    intro id w hw hlive
    refine (h.owner id w hw hlive).imp_right ?_
    rintro ⟨bytes, rest, hl⟩
    exact ⟨bytes, rest, (hloop bytes id w.address rest).mpr hl⟩
  · rw [hworkers]
    exact h.last
  · intro a
    rw [takers, hhanded]
    exact h.order a
  · rw [hdeliver, hworkers]
    exact h.came
  · rw [hdeliver, hworkers]
    exact h.delivered

/-- A worker, its connection or its reader makes a step, in which `ms` are delivered. -/
theorem Inv.connection {id : ℕ} (ms : List M) (h : Inv decode s) (hw : s.workers id = some w)
    (hinv : WorkerInv decode w') (hsame : SameWorker w w') (hms : w'.delivered = w.delivered ++ ms) :
    Inv decode { s.set id w' with deliver := s.deliver ++ ms.map fun m => ⟨w.address, id, m⟩ } := by
  have hkept : ∀ {j v}, s.workers j = some v →
      ∃ v', (s.set id w').workers j = some v' ∧ v'.address = v.address ∧
        (v.link = .closed → v'.link = .closed) :=
    fun hv => workers_kept hw hsame.address hsame.link hv
  have hbefore : ∀ {j v'}, (s.set id w').workers j = some v' →
      ∃ v, s.workers j = some v ∧ v'.address = v.address ∧
        (v'.link ≠ .closed → v.link ≠ .closed) :=
    fun hv => workers_before hw hsame.address hsame.link hv
  refine ⟨h.sent, ?_, ?_, ?_, ?_, ?_, ?_, ?_, h.order, ?_, ?_⟩
  · intro j v hv
    change Function.update s.workers id (some w') j = some v at hv
    by_cases hj : j = id
    · subst hj
      rw [Function.update_self, Option.some.injEq] at hv
      subst hv
      obtain ⟨hid, -, ht⟩ := h.worker j w hw
      exact ⟨hid, hinv, hsame.taken.trans ht⟩
    · rw [Function.update_of_ne hj] at hv
      exact h.worker j v hv
  · intro e he j hj
    obtain ⟨v, hv, ha⟩ := h.address e he j hj
    obtain ⟨v', hv', ha', -⟩ := hkept hv
    exact ⟨v', hv', ha'.trans ha⟩
  · intro e he hnone
    obtain ⟨j, v, hv, ha, hc⟩ := h.lost e he hnone
    obtain ⟨v', hv', ha', hc'⟩ := hkept hv
    exact ⟨j, v', hv', ha'.trans ha, hc' hc⟩
  · intro a j hj
    obtain ⟨v, hv, ha⟩ := h.senders a j hj
    obtain ⟨v', hv', ha', -⟩ := hkept hv
    exact ⟨v', hv', ha'.trans ha⟩
  · intro bytes j a rest hl
    obtain ⟨v, hv, ha⟩ := h.spawned bytes j a rest hl
    obtain ⟨v', hv', ha', -⟩ := hkept hv
    exact ⟨v', hv', ha'.trans ha⟩
  · intro j v' hv' hlive
    obtain ⟨v, hv, ha, hlive'⟩ := hbefore hv'
    rw [ha]
    exact h.owner j v hv (hlive' hlive)
  · intro j v' j' u' hv' hu' ha hlive
    obtain ⟨v, hv, hav, hlive'⟩ := hbefore hv'
    obtain ⟨u, hu, hau, -⟩ := hbefore hu'
    exact h.last j v j' u hv hu (hau.symm.trans (ha.trans hav)) (hlive' hlive)
  · intro e he
    rcases List.mem_append.mp he with he | he
    · obtain ⟨v, hv, ha⟩ := h.came e he
      obtain ⟨v', hv', ha', -⟩ := hkept hv
      exact ⟨v', hv', ha'.trans ha⟩
    · obtain ⟨m, -, rfl⟩ := List.mem_map.mp he
      exact ⟨w', Function.update_self .., hsame.address⟩
  · intro j v hv
    change Function.update s.workers id (some w') j = some v at hv
    show ((s.deliver ++ _).filter _).map _ = _
    rw [List.filter_append, List.map_append]
    by_cases hj : j = id
    · subst hj
      rw [Function.update_self, Option.some.injEq] at hv
      rw [← hv, hms, h.delivered j w hw, List.filter_map, List.map_map]
      simp [Function.comp_def]
    · rw [Function.update_of_ne hj] at hv
      rw [h.delivered j v hv, List.filter_map, List.map_map]
      simp [Function.comp_def, Ne.symm hj]

/-- A worker is made when no other one for its address is left. -/
theorem Inv.spawn {bytes : Bytes} {a : A} {rest : List A} (h : Inv decode s)
    (hl : s.loop = .sending bytes (a :: rest))
    (hdead : ∀ id w, s.workers id = some w → w.address = a → w.link = .closed) :
    Inv decode (s.spawn bytes a rest) := by
  have hfresh : ∀ j v, s.workers j = some v → j ≠ s.nextId :=
    fun j v hv => (h.worker j v hv).1.ne
  have hkept : ∀ j v, s.workers j = some v → (s.spawn bytes a rest).workers j = some v :=
    fun j v hv => (Function.update_of_ne (hfresh j v hv) ..).trans hv
  have hcases : ∀ j v, (s.spawn bytes a rest).workers j = some v →
      j = s.nextId ∧ v = spawnWorker a ∨ s.workers j = some v := by
    intro j v hv
    change Function.update s.workers s.nextId (some (spawnWorker a)) j = some v at hv
    by_cases hj : j = s.nextId
    · rw [hj, Function.update_self, Option.some.injEq] at hv
      exact .inl ⟨hj, hv.symm⟩
    · rw [Function.update_of_ne hj] at hv
      exact .inr hv
  refine ⟨?_, ?_, ?_, ?_, ?_, ?_, ?_, ?_, h.order, ?_, ?_⟩
  · have hsent := h.sent
    rw [hl] at hsent
    exact hsent
  · intro j v hv
    rcases hcases j v hv with ⟨rfl, rfl⟩ | hv
    · exact ⟨Nat.lt_succ_self _, workerInv_spawnWorker decode a, h.takenBy_next.symm⟩
    · obtain ⟨hid, hinv, ht⟩ := h.worker j v hv
      exact ⟨Nat.lt_succ_of_lt hid, hinv, ht⟩
  · intro e he j hj
    obtain ⟨v, hv, ha⟩ := h.address e he j hj
    exact ⟨v, hkept j v hv, ha⟩
  · intro e he hnone
    obtain ⟨j, v, hv, ha, hc⟩ := h.lost e he hnone
    exact ⟨j, v, hkept j v hv, ha, hc⟩
  · intro a' j hj
    obtain ⟨v, hv, ha⟩ := h.senders a' j hj
    exact ⟨v, hkept j v hv, ha⟩
  · intro bytes' j a' rest' hspawned
    cases hspawned
    exact ⟨spawnWorker a, Function.update_self .., rfl⟩
  · intro j v hv hlive
    rcases hcases j v hv with ⟨rfl, rfl⟩ | hv
    · exact .inr ⟨bytes, rest, rfl⟩
    · rcases h.owner j v hv hlive with hs | ⟨bytes', rest', hs⟩
      · exact .inl hs
      · rw [hl] at hs
        cases hs
  · intro j v j' v' hv hv' ha hlive
    rcases hcases j v hv with ⟨rfl, rfl⟩ | hold
    · rcases hcases j' v' hv' with ⟨rfl, -⟩ | hold'
      · exact le_rfl
      · exact (h.worker j' v' hold').1.le
    · rcases hcases j' v' hv' with ⟨rfl, rfl⟩ | hold'
      · exact absurd (hdead j v hold ha.symm) hlive
      · exact h.last j v j' v' hold hold' ha hlive
  · intro e he
    obtain ⟨v, hv, ha⟩ := h.came e he
    exact ⟨v, hkept _ v hv, ha⟩
  · intro j v hv
    rcases hcases j v hv with ⟨rfl, rfl⟩ | hv
    · have hnone : s.deliver.filter (fun e => e.worker = s.nextId) = [] := by
        rw [List.filter_eq_nil_iff]
        intro e he hid
        obtain ⟨u, hu, -⟩ := h.came e he
        exact hfresh _ u hu (by simpa using hid)
      show (s.deliver.filter _).map _ = []
      rw [hnone]
      rfl
    · exact h.delivered j v hv

/-- The worker of the last message is the last one for the address. -/
theorem takers_hand (s : Transport A M) (bytes : Bytes) (id : ℕ) (w : Worker A M) (rest : List A)
    (a : A) : (s.hand bytes id w rest).takers a =
      if a = w.address then s.takers a ++ [id] else s.takers a := by
  unfold takers hand
  rw [List.filter_append, List.filterMap_append]
  split_ifs with ha
  · subst ha
    simp
  · simp [Ne.symm ha]

/-- A worker that has not ended takes the bytes. -/
theorem Inv.hand {bytes : Bytes} {id : ℕ} {rest : List A} {senders : A → Option ℕ}
    (h : Inv decode s) (hw : s.workers id = some w) (hlive : w.link ≠ .closed)
    (hrest : s.loop.rest = (w.address, bytes) :: rest.map fun a => (a, bytes))
    (hsenders : ∀ a j, senders a = some j → s.senders a = some j ∨ a = w.address ∧ j = id)
    (howner : ∀ j v, s.workers j = some v → v.link ≠ .closed → senders v.address = some j) :
    Inv decode { s.hand bytes id w rest with senders } := by
  have haddress : (w.take bytes).address = w.address := rfl
  have hclosed : w.link = .closed → (w.take bytes).link = .closed := fun hc => hc
  have hkept : ∀ {j v}, s.workers j = some v →
      ∃ v', (s.hand bytes id w rest).workers j = some v' ∧ v'.address = v.address ∧
        (v.link = .closed → v'.link = .closed) := fun hv => workers_kept hw haddress hclosed hv
  have hbefore : ∀ {j v'}, (s.hand bytes id w rest).workers j = some v' →
      ∃ v, s.workers j = some v ∧ v'.address = v.address ∧
        (v'.link ≠ .closed → v.link ≠ .closed) := fun hv => workers_before hw haddress hclosed hv
  have hmem : ∀ e, e ∈ (s.hand bytes id w rest).handed →
      e ∈ s.handed ∨ e = ⟨w.address, bytes, some id⟩ := by
    intro e he
    exact (List.mem_append.mp he).imp_right List.mem_singleton.mp
  refine ⟨?_, ?_, ?_, ?_, ?_, ?_, ?_, ?_, ?_, ?_, ?_⟩
  · show s.transmitted.flatMap expand = (s.handed ++ [_]).map Handed.key ++
      (rest.map fun a => (a, bytes)) ++ s.transmit.flatMap expand
    rw [h.sent, hrest, List.map_append]
    simp [Handed.key]
  · intro j v hv
    change Function.update s.workers id (some (w.take bytes)) j = some v at hv
    show j < s.nextId ∧ WorkerInv decode v ∧ v.taken = (s.hand bytes id w rest).takenBy j
    rw [takenBy_hand]
    by_cases hj : j = id
    · subst hj
      rw [Function.update_self, Option.some.injEq] at hv
      subst hv
      obtain ⟨hid, hinv, ht⟩ := h.worker j w hw
      refine ⟨hid, hinv.take hlive bytes, ?_⟩
      rw [if_pos rfl, ← ht]
      rfl
    · rw [Function.update_of_ne hj] at hv
      rw [if_neg hj]
      exact h.worker j v hv
  · intro e he j hj
    rcases hmem e he with he | rfl
    · obtain ⟨v, hv, ha⟩ := h.address e he j hj
      obtain ⟨v', hv', ha', -⟩ := hkept hv
      exact ⟨v', hv', ha'.trans ha⟩
    · cases hj
      exact ⟨w.take bytes, Function.update_self .., rfl⟩
  · intro e he hnone
    rcases hmem e he with he | rfl
    · obtain ⟨j, v, hv, ha, hc⟩ := h.lost e he hnone
      obtain ⟨v', hv', ha', hc'⟩ := hkept hv
      exact ⟨j, v', hv', ha'.trans ha, hc' hc⟩
    · cases hnone
  · intro a j hj
    rcases hsenders a j hj with hj | ⟨rfl, rfl⟩
    · obtain ⟨v, hv, ha⟩ := h.senders a j hj
      obtain ⟨v', hv', ha', -⟩ := hkept hv
      exact ⟨v', hv', ha'.trans ha⟩
    · exact ⟨w.take bytes, Function.update_self .., rfl⟩
  · rintro bytes' j a rest' ⟨⟩
  · intro j v' hv' hlive'
    obtain ⟨v, hv, ha, hlive''⟩ := hbefore hv'
    rw [ha]
    exact .inl (howner j v hv (hlive'' hlive'))
  · intro j v' j' u' hv' hu' ha hlive'
    obtain ⟨v, hv, hav, hlive''⟩ := hbefore hv'
    obtain ⟨u, hu, hau, -⟩ := hbefore hu'
    exact h.last j v j' u hv hu (hau.symm.trans (ha.trans hav)) (hlive'' hlive')
  · intro a
    show ((s.hand bytes id w rest).takers a).Pairwise _
    rw [takers_hand]
    split_ifs with ha
    · subst ha
      rw [List.pairwise_append]
      refine ⟨h.order _, List.pairwise_singleton .., ?_⟩
      intro j hj k hk
      rw [List.mem_singleton.mp hk]
      obtain ⟨e, he, hej⟩ := List.mem_filterMap.mp hj
      obtain ⟨he, hea⟩ := List.mem_filter.mp he
      obtain ⟨v, hv, hva⟩ := h.address e he j hej
      exact h.last id w j v hw hv (hva.trans (by simpa using hea)) hlive
    · exact h.order a
  · intro e he
    obtain ⟨v, hv, ha⟩ := h.came e he
    obtain ⟨v', hv', ha', -⟩ := hkept hv
    exact ⟨v', hv', ha'.trans ha⟩
  · intro j v hv
    change Function.update s.workers id (some (w.take bytes)) j = some v at hv
    by_cases hj : j = id
    · subst hj
      rw [Function.update_self, Option.some.injEq] at hv
      exact hv ▸ h.delivered j w hw
    · rw [Function.update_of_ne hj] at hv
      exact h.delivered j v hv

/-- A worker ends before it gets the message that it has been made for. -/
theorem Inv.lose {bytes : Bytes} {id : ℕ} {a : A} {rest : List A} (h : Inv decode s)
    (hl : s.loop = .spawned bytes id a rest) (hw : s.workers id = some w)
    (hclosed : w.link = .closed) : Inv decode { s with
      loop := .sending bytes rest
      handed := s.handed ++ [⟨a, bytes, none⟩] } := by
  have haddress : w.address = a := by
    obtain ⟨v, hv, ha⟩ := h.spawned bytes id a rest hl
    rw [hw, Option.some.injEq] at hv
    rw [hv, ha]
  refine ⟨?_, ?_, ?_, ?_, h.senders, ?_, ?_, h.last, ?_, h.came, h.delivered⟩
  · show s.transmitted.flatMap expand = (s.handed ++ [_]).map Handed.key ++
      (rest.map fun a => (a, bytes)) ++ s.transmit.flatMap expand
    have hrest : s.loop.rest = (a, bytes) :: rest.map fun a => (a, bytes) := by
      rw [hl]
      rfl
    rw [h.sent, hrest, List.map_append]
    simp [Handed.key]
  · intro j v hv
    obtain ⟨hid, hinv, ht⟩ := h.worker j v hv
    exact ⟨hid, hinv, by simpa [takenBy] using ht⟩
  · intro e he j hj
    rcases List.mem_append.mp he with he | he
    · exact h.address e he j hj
    · rw [List.mem_singleton.mp he] at hj
      cases hj
  · intro e he hnone
    rcases List.mem_append.mp he with he | he
    · exact h.lost e he hnone
    · rw [List.mem_singleton.mp he]
      exact ⟨id, w, hw, haddress, hclosed⟩
  · rintro bytes' j a' rest' ⟨⟩
  · intro j v hv hlive
    rcases h.owner j v hv hlive with hs | ⟨bytes', rest', hs⟩
    · exact .inl hs
    · rw [hl] at hs
      cases hs
      rw [hw, Option.some.injEq] at hv
      exact absurd (hv ▸ hclosed) hlive
  · intro a'
    have hsame : (({ s with
        loop := .sending bytes rest
        handed := s.handed ++ [⟨a, bytes, none⟩] } : Transport A M).takers a') = s.takers a' := by
      unfold takers
      rw [List.filter_append, List.filterMap_append]
      by_cases ha : a = a' <;> simp [ha]
    rw [hsame]
    exact h.order a'

theorem Inv.run (h : Inv decode s) (hs : s.stepRun = some s') : Inv decode s' := by
  unfold stepRun at hs
  split at hs
  · rename_i hl
    split at hs
    · cases hs
    · rename_i m rest ht
      cases hs
      refine h.quiet rfl rfl rfl rfl rfl ?_ (by simp [hl])
      have hsent := h.sent
      rw [hl, ht, List.flatMap_cons] at hsent
      simpa [Loop.rest, expand] using hsent
  · rename_i bytes hl
    cases hs
    refine h.quiet rfl rfl rfl rfl rfl ?_ (by simp [hl])
    have hsent := h.sent
    rw [hl] at hsent
    exact hsent
  · rename_i bytes a rest hl
    have howner : ∀ id w, s.workers id = some w → w.link ≠ .closed →
        s.senders w.address = some id := by
      intro id w hw hlive
      refine (h.owner id w hw hlive).resolve_right ?_
      rintro ⟨bytes', rest', hs⟩
      rw [hl] at hs
      cases hs
    split at hs
    · rename_i hnone
      cases hs
      refine h.spawn hl ?_
      rintro id w hw rfl
      by_contra hlive
      rw [howner id w hw hlive] at hnone
      cases hnone
    · rename_i id hid
      split at hs
      · cases hs
      · rename_i w hw
        obtain ⟨v, hv, hva⟩ := h.senders a id hid
        rw [hw, Option.some.injEq] at hv
        subst hv
        split_ifs at hs with hclosed hroom <;> cases hs
        · refine h.spawn hl ?_
          intro j u hu hua
          by_contra hlive
          have hj := howner j u hu hlive
          rw [hua, hid, Option.some.injEq] at hj
          subst hj
          rw [hw, Option.some.injEq] at hu
          exact hlive (hu ▸ hclosed)
        · have hrest : s.loop.rest = (w.address, bytes) :: rest.map fun a => (a, bytes) := by
            rw [hl, hva]
            rfl
          exact h.hand hw hclosed hrest (fun a j hj => .inl hj) howner
  · rename_i bytes id a rest hl
    split at hs
    · cases hs
    · rename_i w hw
      obtain ⟨v, hv, hva⟩ := h.spawned bytes id a rest hl
      rw [hw, Option.some.injEq] at hv
      subst hv
      split_ifs at hs with hclosed <;> cases hs
      · exact h.lose hl hw hclosed
      · have hrest : s.loop.rest = (w.address, bytes) :: rest.map fun a => (a, bytes) := by
          rw [hl, hva]
          rfl
        refine h.hand hw hclosed hrest ?_ ?_
        · intro a' j hj
          by_cases ha : a' = a
          · rw [ha, Function.update_self, Option.some.injEq] at hj
            exact .inr ⟨ha.trans hva.symm, hj.symm⟩
          · rw [Function.update_of_ne ha] at hj
            exact .inl hj
        · intro j u hu hlive
          by_cases ha : u.address = a
          · -- two workers of one address have not ended
            have hle := h.last j u id w hu hw (hva.trans ha.symm) hlive
            have hge := h.last id w j u hw hu (ha.trans hva.symm) hclosed
            rw [ha, Function.update_self, le_antisymm hle hge]
          · rw [Function.update_of_ne ha]
            refine (h.owner j u hu hlive).resolve_right ?_
            rintro ⟨bytes', rest', hs⟩
            rw [hl] at hs
            cases hs
            exact ha rfl

theorem Inv.stepConnection (h : Inv decode s) {id : ℕ} {i : Input A} (hi : ∀ id, i ≠ .read id)
    (hs : s.stepConnection decode id i = some s') : Inv decode s' := by
  obtain ⟨w', hw', rfl⟩ := Option.map_eq_some_iff.mp hs
  obtain ⟨w, hw, hstep⟩ := Option.bind_eq_some_iff.mp hw'
  obtain ⟨hinv, hsame⟩ := workerInv_step (h.worker id w hw).2.1 hstep
  have hnew := h.connection [] hw hinv hsame (by rw [stepWorker_delivered hstep hi, List.append_nil])
  rw [List.map_nil, List.append_nil] at hnew
  exact hnew

theorem Inv.read (h : Inv decode s) {id : ℕ}
    (hs : s.stepConnection decode id (.read id) = some s') :
    Inv decode { s' with deliver := s.deliver ++ s.reads decode id } := by
  obtain ⟨w', hw', rfl⟩ := Option.map_eq_some_iff.mp hs
  obtain ⟨w, hw, hstep⟩ := Option.bind_eq_some_iff.mp hw'
  obtain ⟨hinv, hsame⟩ := workerInv_step (h.worker id w hw).2.1 hstep
  have hreads : s.reads decode id =
      (w.stream.head?.bind decode).toList.map fun m => ⟨w.address, id, m⟩ := by
    simp only [reads, hw]
    cases w.stream.head?.bind decode <;> rfl
  rw [hreads]
  exact h.connection _ hw hinv hsame (stepWorker_read hstep)

/-- **Every step keeps the invariant.** -/
theorem Inv.step (h : Inv decode s) {i : Input A} (hs : s.step decode i = some s') :
    Inv decode s' := by
  cases i with
  | transmit m =>
    cases hs
    refine h.quiet rfl rfl rfl rfl rfl ?_ fun _ _ _ _ => Iff.rfl
    rw [List.flatMap_append, List.flatMap_append, h.sent, List.append_assoc, List.append_assoc]
  | run => exact h.run hs
  | connect id ok => exact h.stepConnection (fun _ hi => by cases hi) hs
  | write id ok => exact h.stepConnection (fun _ hi => by cases hi) hs
  | read id =>
    obtain ⟨t, ht, rfl⟩ := Option.map_eq_some_iff.mp hs
    exact h.read ht
  | reset id => exact h.stepConnection (fun _ hi => by cases hi) hs

theorem inv_new : Inv decode (new : Transport A M) where
  sent := rfl
  worker := fun _ _ hw => by cases hw
  address := fun _ he => absurd he List.not_mem_nil
  lost := fun _ he => absurd he List.not_mem_nil
  senders := fun _ _ hs => by cases hs
  spawned := fun _ _ _ _ hl => by cases hl
  owner := fun _ _ hw => by cases hw
  last := fun _ _ _ _ hw => by cases hw
  order := fun _ => List.Pairwise.nil
  came := fun _ he => absurd he List.not_mem_nil
  delivered := fun _ _ hw => by cases hw

theorem inv_reachable (h : (machine decode).Reachable s) : Inv decode s := by
  refine Machine.invariant ?_ ?_ h
  · rintro s rfl
    exact inv_new
  · intro s i t hinv hs
    exact hinv.step hs

/-! ## Delivery -/

/-- What has been delivered at an address, in the order of the channel of the receiver. -/
def deliveredAt (s : Transport A M) (a : A) : List M :=
  (s.deliver.filter fun e => e.address = a).map (·.message)

/-- What has come over one connection. -/
def deliveredBy (s : Transport A M) (a : A) (id : ℕ) : List M :=
  (s.deliver.filter fun e => e.address = a ∧ e.worker = id).map (·.message)

/-- What has been sent to an address, as it is read there. -/
def sentTo (decode : Bytes → Option M) (s : Transport A M) (a : A) : List (Option M) :=
  ((s.transmitted.flatMap expand).filter fun e => e.1 = a).map fun e => decode e.2

/-- What has been handed over for an address. -/
def handedTo (s : Transport A M) (a : A) : List (Handed A) := s.handed.filter fun e => e.address = a

theorem Inv.handedTo_prefix (h : Inv decode s) (a : A) :
    ((s.handedTo a).map fun e => decode e.bytes) <+: s.sentTo decode a := by
  rw [sentTo, h.sent, List.append_assoc, List.filter_append, List.map_append, List.filter_map,
    List.map_map]
  exact List.prefix_append ..

/-- A connection leads to one address. -/
theorem Inv.deliveredBy_eq (h : Inv decode s) {id : ℕ} (hw : s.workers id = some w) (a : A) :
    s.deliveredBy a id = if w.address = a then w.delivered else [] := by
  rw [deliveredBy, ← h.delivered id w hw]
  have haddress : ∀ e ∈ s.deliver, e.worker = id → e.address = w.address := by
    intro e he hid
    obtain ⟨v, hv, hva⟩ := h.came e he
    rw [hid, hw, Option.some.injEq] at hv
    rw [hv, hva]
  split_ifs with ha
  · congr 1
    apply List.filter_congr
    intro e he
    simp only [Bool.decide_and, Bool.and_eq_right_iff_imp, decide_eq_true_eq]
    exact fun hid => (haddress e he hid).trans ha
  · rw [List.map_eq_nil_iff, List.filter_eq_nil_iff]
    intro e he
    simp only [decide_eq_true_eq, not_and]
    intro hea hid
    exact ha ((haddress e he hid).symm.trans hea)

theorem Inv.deliveredBy_none (h : Inv decode s) {id : ℕ} (hid : s.workers id = none) (a : A) :
    s.deliveredBy a id = [] := by
  rw [deliveredBy, List.map_eq_nil_iff, List.filter_eq_nil_iff]
  intro e he hkey
  obtain ⟨v, hv, -⟩ := h.came e he
  rw [(of_decide_eq_true hkey).2, hid] at hv
  cases hv

theorem Inv.deliveredBy_prefix (h : Inv decode s) (a : A) (id : ℕ) :
    (s.deliveredBy a id).map some <+:
      ((s.handedTo a).filter fun e => e.worker = some id).map fun e => decode e.bytes := by
  cases hw : s.workers id with
  | none =>
    rw [h.deliveredBy_none hw]
    exact List.nil_prefix
  | some w =>
    rw [h.deliveredBy_eq hw]
    split_ifs with ha
    · obtain ⟨-, hinv, htaken⟩ := h.worker id w hw
      obtain ⟨arrived, hpre, hmap, -⟩ := hinv.delivered
      have hsame : (s.handedTo a).filter (fun e => e.worker = some id) =
          s.handed.filter fun e => e.worker = some id := by
        rw [handedTo, List.filter_filter]
        apply List.filter_congr
        intro e he
        by_cases hid : e.worker = some id
        · obtain ⟨v, hv, hva⟩ := h.address e he id hid
          rw [hw, Option.some.injEq] at hv
          simp [hid, ← hva, ← hv, ha]
        · simp [hid]
      rw [hsame, ← hmap]
      have htake : arrived <+: s.takenBy id := htaken ▸ hpre.trans hinv.written
      have hdecoded := htake.map decode
      rwa [takenBy, List.map_map] at hdecoded
    · exact List.nil_prefix

/-- Connection by connection, what is delivered is part of what was sent. -/
theorem Inv.delivered_sublist (h : Inv decode s) (a : A) :
    (((List.range s.nextId).flatMap (s.deliveredBy a)).map some).Sublist (s.sentTo decode a) := by
  have hparts : (((List.range s.nextId).flatMap (s.deliveredBy a)).map some).Sublist
      (((List.range s.nextId).flatMap fun id =>
        (s.handedTo a).filter fun e => e.worker = some id).map fun e => decode e.bytes) := by
    rw [List.map_flatMap, List.map_flatMap]
    exact List.Sublist.flatMap_right _ fun id _ => (h.deliveredBy_prefix a id).sublist
  have horder : ((s.handedTo a).filterMap (·.worker)).Pairwise (· ≤ ·) := h.order a
  rw [flatMap_range_filter _ horder] at hparts
  exact hparts.trans ((List.filter_sublist.map _).trans (h.handedTo_prefix a).sublist)

/-- The channel has what has come over the connections. -/
theorem Inv.deliveredAt_perm (h : Inv decode s) (a : A) :
    (s.deliveredAt a).Perm ((List.range s.nextId).flatMap (s.deliveredBy a)) := by
  have hall : s.deliver.filter (fun e => e.address = a) =
      (s.deliver.filter fun e => e.address = a).filter fun e => e.worker < s.nextId := by
    symm
    rw [List.filter_eq_self]
    intro e he
    obtain ⟨w, hw, -⟩ := h.came e (List.mem_of_mem_filter he)
    simpa using (h.worker e.worker w hw).1
  rw [deliveredAt, hall]
  refine ((flatMap_range_filter_perm Delivered.worker s.nextId).symm.map _).trans (List.Perm.of_eq ?_)
  rw [List.map_flatMap]
  apply List.flatMap_congr
  intro id _
  rw [deliveredBy, List.filter_filter]
  simp only [Bool.decide_and, Bool.and_comm]

/-- While no worker has ended, there is one connection to an address. -/
theorem Inv.delivered_prefix (h : Inv decode s) {a : A}
    (hopen : ∀ id w, s.workers id = some w → w.address = a → w.link ≠ .closed) :
    (s.deliveredAt a).map some <+: s.sentTo decode a := by
  have hone : ∀ {id w id' w'}, s.workers id = some w → w.address = a → s.workers id' = some w' →
      w'.address = a → id = id' := by
    intro id w id' w' hw ha hw' ha'
    exact le_antisymm (h.last id' w' id w hw' hw (ha.trans ha'.symm) (hopen id' w' hw' ha'))
      (h.last id w id' w' hw hw' (ha'.trans ha.symm) (hopen id w hw ha))
  by_cases hex : ∃ id w, s.workers id = some w ∧ w.address = a
  · obtain ⟨id, w, hw, ha⟩ := hex
    have hdelivered : s.deliveredAt a = s.deliveredBy a id := by
      rw [deliveredAt, deliveredBy]
      congr 1
      apply List.filter_congr
      intro e he
      have hid : e.address = a → e.worker = id := by
        intro hea
        obtain ⟨v, hv, hva⟩ := h.came e he
        exact hone hv (hva.trans hea) hw ha
      exact decide_eq_decide.mpr ⟨fun hea => ⟨hea, hid hea⟩, And.left⟩
    have hall : (s.handedTo a).filter (fun e => e.worker = some id) = s.handedTo a := by
      rw [List.filter_eq_self]
      intro e he
      obtain ⟨he, hea⟩ := List.mem_filter.mp he
      have hea : e.address = a := by simpa using hea
      cases hworker : e.worker with
      | none =>
        obtain ⟨j, v, hv, hva, hclosed⟩ := h.lost e he hworker
        exact absurd hclosed (hopen j v hv (hva.trans hea))
      | some j =>
        obtain ⟨v, hv, hva⟩ := h.address e he j hworker
        simp [hone hv (hva.trans hea) hw ha]
    have hpre := h.deliveredBy_prefix a id
    rw [hall, ← hdelivered] at hpre
    exact hpre.trans (h.handedTo_prefix a)
  · have hnone : s.deliveredAt a = [] := by
      rw [deliveredAt, List.map_eq_nil_iff, List.filter_eq_nil_iff]
      intro e he hea
      obtain ⟨v, hv, hva⟩ := h.came e he
      exact hex ⟨_, v, hv, hva.trans (of_decide_eq_true hea)⟩
    rw [hnone]
    exact List.nil_prefix

/-- **Messages are delivered at most once, and over each connection in order.**  In every run, however
the connections fail: nothing is delivered at an address more often than it was sent there, and
connection by connection it was sent in this order.  The worker of a later connection is made only
when those before have ended; what is left in them can still be read after it.  As long as no worker
for the address has ended, what is delivered is what was sent first. -/
theorem delivers_in_order (decode : Bytes → Option M) (s : Transport A M)
    (hr : (machine decode).Reachable s) (a : A) :
    ((s.deliveredAt a).map some).Subperm (s.sentTo decode a) ∧
    (s.deliveredAt a).Perm ((List.range s.nextId).flatMap (s.deliveredBy a)) ∧
    (((List.range s.nextId).flatMap (s.deliveredBy a)).map some).Sublist (s.sentTo decode a) ∧
    (∀ id w id' w', s.workers id = some w → s.workers id' = some w' → w.address = a →
      w'.address = a → id < id' → w.link = .closed) ∧
    ((∀ id w, s.workers id = some w → w.address = a → w.link ≠ .closed) →
      (s.deliveredAt a).map some <+: s.sentTo decode a) := by
  have h := inv_reachable hr
  have hperm := h.deliveredAt_perm a
  have hsub := h.delivered_sublist a
  refine ⟨⟨_, (hperm.map some).symm, hsub⟩, hperm, hsub, ?_, h.delivered_prefix⟩
  intro id w id' w' hw hw' ha ha' hlt
  by_contra hlive
  have hle := h.last id w id' w' hw hw' (ha'.trans ha.symm) hlive
  omega

end

/-- Two messages for the address `7`, from the channel to the reader. -/
def twoMessages : List (Input ℕ) :=
  [.transmit ⟨[1], [7]⟩, .transmit ⟨[2], [7]⟩, .run, .run, .connect 0 true, .run, .run, .run, .run,
    .write 0 true, .write 0 true, .read 0, .read 0]

theorem delivers_in_order_two : ∃ s : Transport ℕ Bytes, s.deliveredAt 7 = [[1], [2]] ∧
    (s.deliveredAt 7).map some <+: s.sentTo some 7 := by
  have hexec : ∃ s : Transport ℕ Bytes, ∃ w, Machine.exec (step some) new twoMessages = some s ∧
      s.deliveredAt 7 = [[1], [2]] ∧ s.nextId = 1 ∧ s.workers 0 = some w ∧ w.link = .connected :=
    ⟨_, _, rfl, rfl, rfl, rfl, rfl⟩
  obtain ⟨s, w, hexec, hdelivered, hnext, hw, hlink⟩ := hexec
  have hr : (machine some).Reachable s := Machine.reachable_exec (.init rfl) hexec
  refine ⟨s, hdelivered, (delivers_in_order some s hr 7).2.2.2.2 ?_⟩
  intro id v hv _
  have hid : id = 0 := by
    have hlt := ((inv_reachable hr).worker id v hv).1
    omega
  rw [hid, hw, Option.some.injEq] at hv
  rw [← hv, hlink]
  decide

/-- A frame that is left in a connection can be read after one that has come over the next. -/
example : (Machine.exec (step some) (new : Transport ℕ Bytes)
    [.transmit ⟨[1], [7]⟩, .run, .run, .connect 0 true, .run, .write 0 true, .run,
      .transmit ⟨[2], [7]⟩, .run, .run, .write 0 false, .run, .transmit ⟨[3], [7]⟩, .run, .run,
      .connect 1 true, .run, .write 1 true, .read 1, .read 0]).map (fun s => s.deliveredAt 7) =
    some [[3], [1]] := rfl

end AccountabilityGadget.Transport
