import AccountabilityGadget.Consensus.Synchronizer

/-!
# What holds while blocks wait for their parents

* `Asks` — a waiter has still to ask the store, or will be notified, or its parent is stored.
* `Tables` — `pending` and `requests` are those of the blocks that wait; what went out came from them.
* `Inv` — both; `Inv.step`, `inv_reachable`.
* `asks_for_parents` — the synchronizer asks for what is missing, again and again, and for nothing else.
-/

set_option autoImplicit false

namespace AccountabilityGadget.Consensus.Synchronizer

open Notify

/-- A block that has been stored, or anything else under its digest. -/
def Stored (s : Synchronizer) (d : Digest) : Prop := s.store.db.read d.toBytes ≠ none

/-- The block of a waiter. -/
def held (s : Synchronizer) (id : ℕ) : Option Block := (s.waiting id).map Waiter.deliver

/-- The commands and the obligations of a waiter are for the parent of its block. -/
def Tag (s : Synchronizer) (key : Bytes) : Asker → Prop
  | .waiter id => id < s.nextId ∧ ∀ b, s.held id = some b → key = b.parent.toBytes
  | .parent _ | .other _ => True

/-- The waiter will be notified of the digest. -/
def Asked (s : Synchronizer) (id : ℕ) (d : Digest) : Prop :=
  .notifyRead d.toBytes (.waiter id) ∈ s.commands ∨
    .waiter id ∈ (s.store.cells d.toBytes).waiting

def Progress (s : Synchronizer) (id : ℕ) (w : Waiter) : Prop :=
  match w.phase with
  | .created => True
  | .asked => s.Asked id w.deliver.parent
  | .notified => s.Stored w.deliver.parent

structure Asks (s : Synchronizer) : Prop where
  settled : ∀ key, (s.store.cells key).Settled
  commands : ∀ c ∈ s.commands, ∀ x, c.sender? = some x → s.Tag c.key x
  cells : ∀ key, ∀ x ∈ (s.store.cells key).waiting, s.Tag key x
  progress : ∀ id w, s.waiting id = some w → s.Progress id w

/-- The other authorities have been asked for the digest. -/
def Requested (s : Synchronizer) (d : Digest) : Prop := ∃ asked, (d, asked) ∈ s.requests

/-- The strings that are hashed for the block that is looked up. -/
def Lookup.Handed (S : Bytes → Prop) : Lookup → Prop
  | .idle => True
  | .reading b | .missing b => S b.preimage

section

variable (env : Env) (S : Bytes → Prop)

structure Tables (s : Synchronizer) : Prop where
  lookup : s.lookup.Handed S
  strings : ∀ b ∈ s.suspended, S b.preimage
  inner : s.inner ⊆ s.suspended
  entry : ∀ id b, s.held id = some b →
    id < s.nextId ∧ b.digest env.cr ∈ s.pending ∧ b ∈ s.suspended
  unique : ∀ id id' b b', s.held id = some b → s.held id' = some b' →
    b.digest env.cr = b'.digest env.cr → id = id'
  pending : ∀ d ∈ s.pending, ∃ id b, s.held id = some b ∧ b.digest env.cr = d
  requests : ∀ e ∈ s.requests,
    request env e.1 ∈ s.sent ∧ ∃ id b, s.held id = some b ∧ b.parent = e.1
  keys : (s.requests.map Prod.fst).Nodup
  requested : ∀ id b, s.held id = some b → s.Requested b.parent ∨ s.Stored b.parent
  sent : ∀ m ∈ s.sent, ∃ b ∈ s.suspended, m = request env b.parent
  delivered : ∀ e ∈ s.loopBacks,
    e.1 < s.nextId ∧ s.held e.1 = none ∧ e.2 ∈ s.suspended ∧ s.Stored e.2.parent
  once : (s.loopBacks.map Prod.fst).Nodup

structure Inv (s : Synchronizer) : Prop extends Asks s, Tables env S s

end

variable {env : Env} {S : Bytes → Prop} {s s' : Synchronizer} {b : Block}

theorem held_eq {id : ℕ} {w : Waiter} (hw : s.waiting id = some w) : s.held id = some w.deliver := by
  rw [held, hw]
  rfl

theorem waiting_of_held {id : ℕ} (h : s.held id = some b) :
    ∃ w, s.waiting id = some w ∧ w.deliver = b :=
  Option.map_eq_some_iff.mp h

/-! ## What a waiter has asked -/

theorem Tag.mono {key : Bytes} {x : Asker} (h : s.Tag key x) (hnext : s.nextId ≤ s'.nextId)
    (hheld : ∀ id b, id < s.nextId → s'.held id = some b → s.held id = some b) : s'.Tag key x := by
  cases x with
  | waiter id => exact ⟨h.1.trans_le hnext, fun b hb => h.2 b (hheld id b h.1 hb)⟩
  | parent d => trivial
  | other n => trivial

/-- More commands, and the same store. -/
theorem Progress.send {id : ℕ} {w : Waiter} (h : s.Progress id w) (hstore : s'.store = s.store)
    (hcommands : s.commands ⊆ s'.commands) : s'.Progress id w := by
  unfold Progress at h ⊢
  cases hp : w.phase with
  | created => trivial
  | asked =>
    simp only [hp] at h
    show s'.Asked id w.deliver.parent
    rw [Asked, hstore]
    exact h.imp_left fun hc => hcommands hc
  | notified =>
    simp only [hp] at h
    show s'.Stored w.deliver.parent
    rwa [Stored, hstore]

/-- A step that leaves the store alone. -/
theorem Asks.frame (h : Asks s) (hstore : s'.store = s.store) (hnext : s.nextId ≤ s'.nextId)
    (hheld : ∀ id b, id < s.nextId → s'.held id = some b → s.held id = some b)
    (hcommands : s.commands ⊆ s'.commands)
    (commands : ∀ c ∈ s'.commands, c ∈ s.commands ∨ ∀ x, c.sender? = some x → s'.Tag c.key x)
    (progress : ∀ id w, s'.waiting id = some w → s.waiting id = some w ∨ s'.Progress id w) :
    Asks s' := by
  refine ⟨?_, ?_, ?_, ?_⟩
  · rw [hstore]
    exact h.settled
  · intro c hc x hx
    rcases commands c hc with hc | hc
    · exact (h.commands c hc x hx).mono hnext hheld
    · exact hc x hx
  · rw [hstore]
    exact fun key x hx => (h.cells key x hx).mono hnext hheld
  · intro id w hw
    rcases progress id w hw with hw | hp
    · exact (h.progress id w hw).send hstore hcommands
    · exact hp

/-- A step that also leaves the waiters alone. -/
theorem Asks.quiet (h : Asks s) (hstore : s'.store = s.store) (hnext : s'.nextId = s.nextId)
    (hwaiting : s'.waiting = s.waiting) (hcommands : s.commands ⊆ s'.commands)
    (commands : ∀ c ∈ s'.commands, c ∈ s.commands ∨ ∀ x, c.sender? = some x → s'.Tag c.key x) :
    Asks s' := by
  refine h.frame hstore hnext.ge ?_ hcommands commands ?_
  · intro id b _ hb
    rwa [held, hwaiting] at hb
  · intro id w hw
    rw [hwaiting] at hw
    exact .inl hw

theorem notifies_iff {id : ℕ} {replies : List (Reply Asker Bytes)} :
    replies.any (Notifies id) = true ↔ ∃ v, .notified (.waiter id) v ∈ replies := by
  rw [List.any_eq_true]
  constructor
  · rintro ⟨r, hr, hn⟩
    unfold Notifies at hn
    split at hn
    · rename_i id' v
      obtain rfl : id' = id := by simpa using hn
      exact ⟨v, hr⟩
    · cases hn
  · rintro ⟨v, hv⟩
    exact ⟨_, hv, by simp [Notifies]⟩

theorem held_served (s : Synchronizer) (c : StoreCommand Asker) (queue : List (StoreCommand Asker))
    (id : ℕ) : (s.served c queue).held id = s.held id := by
  show ((s.waiting id).map (Waiter.receive (s.store.handle c).2 id)).map Waiter.deliver = _
  rw [Option.map_map, held]
  congr 1
  funext w
  show (w.receive (s.store.handle c).2 id).deliver = w.deliver
  rw [Waiter.receive]
  split <;> rfl

section

variable {c : StoreCommand Asker} {queue : List (StoreCommand Asker)} (h : Asks s)
  (hc : s.commands = c :: queue)

include h hc in
/-- A waiter is notified when the parent of its block is stored. -/
theorem Asks.stored_of_notified {id : ℕ} {v : Bytes} (hb : s.held id = some b)
    (hr : .notified (.waiter id) v ∈ (s.store.handle c).2) : (s.served c queue).Stored b.parent := by
  have htag : s.Tag c.key (.waiter id) := by
    rcases StoreActor.asker_of_handle hr with hr | hr
    · exact h.cells _ _ hr
    · exact h.commands c (hc ▸ List.mem_cons_self) _ hr
  have hread := StoreActor.stored_of_notified hr
  rw [htag.2 b hb] at hread
  intro hnone
  exact Option.some_ne_none v (hread.symm.trans hnone)

include h hc in
theorem Asks.progress_served {id : ℕ} {w : Waiter} (hw : s.waiting id = some w) :
    (s.served c queue).Progress id (w.receive (s.store.handle c).2 id) := by
  rw [Waiter.receive]
  split
  · rename_i hn
    obtain ⟨v, hv⟩ := notifies_iff.mp hn
    have hheld : s.held id = some w.deliver := held_eq hw
    exact h.stored_of_notified hc hheld hv
  · rename_i hn
    have hno : ¬ ∃ v, .notified (.waiter id) v ∈ (s.store.handle c).2 := by rwa [← notifies_iff]
    have hp := h.progress id w hw
    unfold Progress at hp ⊢
    cases hphase : w.phase with
    | created => trivial
    | asked =>
      simp only [hphase] at hp
      rcases hp with hp | hp
      · rw [hc] at hp
        rcases List.mem_cons.mp hp with hp | hp
        · -- the store has just handled the command of the waiter
          subst hp
          exact .inr ((StoreActor.notifyRead_handle s.store _ _).resolve_right hno)
        · exact .inl hp
      · exact .inr ((StoreActor.waiting_handle hp c).resolve_right hno)
    | notified =>
      simp only [hphase] at hp
      exact StoreActor.stored_handle hp c

include h hc in
theorem Asks.served : Asks (s.served c queue) := by
  have hmono : ∀ {key x}, s.Tag key x → (s.served c queue).Tag key x := by
    intro key x hx
    refine hx.mono le_rfl ?_
    intro id b _ hb
    rwa [held_served] at hb
  refine ⟨StoreActor.settled_handle h.settled c, ?_, ?_, ?_⟩
  · intro c' hc' x hx
    exact hmono (h.commands c' (hc ▸ List.mem_cons_of_mem _ hc') x hx)
  · intro key x hx
    rcases StoreActor.waiting_of_handle hx with hold | ⟨rfl, hasks⟩
    · exact hmono (h.cells key x hold)
    · exact hmono (h.commands c (hc ▸ List.mem_cons_self) x hasks)
  · intro id w hw
    obtain ⟨w, hold, rfl⟩ := Option.map_eq_some_iff.mp hw
    exact h.progress_served hc hold

end

/-! ## What the task knows -/

/-- A step after which the same blocks wait, and nothing has been asked or sent. -/
theorem Tables.frame (h : Tables env S s) (hheld : ∀ id, s'.held id = s.held id)
    (hstored : ∀ d, s.Stored d → s'.Stored d) (hnext : s'.nextId = s.nextId)
    (hpending : s'.pending = s.pending) (hrequests : s'.requests = s.requests)
    (hloopBacks : s'.loopBacks = s.loopBacks) (hsub : s.suspended ⊆ s'.suspended)
    (lookup : s'.lookup.Handed S) (strings : ∀ b ∈ s'.suspended, S b.preimage)
    (inner : s'.inner ⊆ s'.suspended) (hsent : s.sent ⊆ s'.sent)
    (sent : ∀ m ∈ s'.sent, ∃ b ∈ s'.suspended, m = request env b.parent) : Tables env S s' := by
  refine ⟨lookup, strings, inner, ?_, ?_, ?_, ?_, ?_, ?_, sent, ?_, ?_⟩
  · intro id b hb
    rw [hheld] at hb
    obtain ⟨hid, hp, hs⟩ := h.entry id b hb
    exact ⟨hnext ▸ hid, hpending ▸ hp, hsub hs⟩
  · intro id id' b b' hb hb' hd
    rw [hheld] at hb hb'
    exact h.unique id id' b b' hb hb' hd
  · intro d hd
    obtain ⟨id, b, hb, hd⟩ := h.pending d (hpending ▸ hd)
    exact ⟨id, b, (hheld id).trans hb, hd⟩
  · intro e he
    obtain ⟨hm, id, b, hb, hp⟩ := h.requests e (hrequests ▸ he)
    exact ⟨hsent hm, id, b, (hheld id).trans hb, hp⟩
  · rw [hrequests]
    exact h.keys
  · intro id b hb
    rw [hheld] at hb
    refine (h.requested id b hb).imp ?_ (hstored _)
    rintro ⟨asked, he⟩
    exact ⟨asked, hrequests ▸ he⟩
  · intro e he
    obtain ⟨hid, hnone, hs, hp⟩ := h.delivered e (hloopBacks ▸ he)
    exact ⟨hnext ▸ hid, (hheld _).trans hnone, hsub hs, hstored _ hp⟩
  · rw [hloopBacks]
    exact h.once

theorem Lookup.Handed.receive {l : Lookup} (h : l.Handed S) (replies : List (Reply Asker Bytes)) :
    (l.receive replies).Handed S := by
  cases l with
  | idle => trivial
  | reading b =>
    rw [Lookup.receive]
    split
    · exact h
    · trivial
    · exact h
  | missing b => exact h

/-- The new waiter is the only one of its block. -/
theorem held_enter (s : Synchronizer) (b : Block) (id : ℕ) :
    (s.enter env b).held id = if id = s.nextId then some b else s.held id := by
  show (Function.update s.waiting s.nextId _ id).map Waiter.deliver = _
  split_ifs with hid
  · subst hid
    rw [Function.update_self]
    rfl
  · rw [Function.update_of_ne hid, held]

variable (env) in
/-- Asking changes `requests` and `sent` only. -/
theorem ask_frame (s : Synchronizer) (now : ℕ) (d : Digest) :
    ∃ requests sent, s.ask env now d = { s with requests, sent } := by
  unfold ask
  split_ifs
  · exact ⟨_, _, rfl⟩
  · exact ⟨_, _, rfl⟩

/-- The block that enters is asked for, or has been asked for before. -/
theorem Tables.register {now : ℕ} {rest : List Block} (h : Tables env S s)
    (hb : s.inner = b :: rest) : Tables env S ({ s with inner := rest }.register env now b) := by
  have hmem : b ∈ s.suspended := h.inner (hb ▸ List.mem_cons_self)
  have hinner : rest ⊆ s.suspended := fun c hc => h.inner (hb ▸ List.mem_cons_of_mem _ hc)
  unfold Synchronizer.register
  split_ifs with hp
  · exact h.frame (fun _ => rfl) (fun _ hd => hd) rfl rfl rfl rfl (List.Subset.refl _) h.lookup
      h.strings hinner (List.Subset.refl _) h.sent
  -- the tables with the new entry, before anything is asked
  let t : Synchronizer := { s with inner := rest }.enter env b
  have hheld : ∀ id, t.held id = if id = s.nextId then some b else s.held id := held_enter _ b
  have hself : t.held s.nextId = some b := by rw [hheld, if_pos rfl]
  have hold : ∀ {id c}, s.held id = some c → t.held id = some c := by
    intro id c hc
    rw [hheld, if_neg (h.entry id c hc).1.ne]
    exact hc
  have hcases : ∀ {id c}, t.held id = some c → id = s.nextId ∧ c = b ∨ s.held id = some c := by
    intro id c hc
    rw [hheld] at hc
    split_ifs at hc with hid
    · exact .inl ⟨hid, (Option.some.inj hc).symm⟩
    · exact .inr hc
  have hfresh : ∀ id c, s.held id = some c → c.digest env.cr ≠ b.digest env.cr := by
    intro id c hc he
    exact hp (he ▸ (h.entry id c hc).2.1)
  have hentry : ∀ id c, t.held id = some c →
      id < s.nextId + 1 ∧ c.digest env.cr ∈ insert (b.digest env.cr) s.pending ∧
        c ∈ s.suspended := by
    intro id c hc
    rcases hcases hc with ⟨rfl, rfl⟩ | hc
    · exact ⟨Nat.lt_succ_self _, Finset.mem_insert_self .., hmem⟩
    · obtain ⟨hid, hpend, hs⟩ := h.entry id c hc
      exact ⟨Nat.lt_succ_of_lt hid, Finset.mem_insert_of_mem hpend, hs⟩
  have hunique : ∀ id id' c c', t.held id = some c → t.held id' = some c' →
      c.digest env.cr = c'.digest env.cr → id = id' := by
    intro id id' c c' hc hc' hd
    rcases hcases hc with ⟨rfl, rfl⟩ | hs <;> rcases hcases hc' with ⟨rfl, rfl⟩ | hs'
    · rfl
    · exact absurd hd.symm (hfresh _ _ hs')
    · exact absurd hd (hfresh _ _ hs)
    · exact h.unique id id' c c' hs hs' hd
  have hpending : ∀ d ∈ insert (b.digest env.cr) s.pending,
      ∃ id c, t.held id = some c ∧ c.digest env.cr = d := by
    intro d hd
    rcases Finset.mem_insert.mp hd with rfl | hd
    · exact ⟨_, b, hself, rfl⟩
    · obtain ⟨id, c, hc, hd⟩ := h.pending d hd
      exact ⟨id, c, hold hc, hd⟩
  have hdelivered : ∀ e ∈ s.loopBacks,
      e.1 < s.nextId + 1 ∧ t.held e.1 = none ∧ e.2 ∈ s.suspended ∧ s.Stored e.2.parent := by
    intro e he
    obtain ⟨hid, hnone, hs, hst⟩ := h.delivered e he
    refine ⟨Nat.lt_succ_of_lt hid, ?_, hs, hst⟩
    rw [hheld, if_neg hid.ne]
    exact hnone
  show Tables env S (t.ask env now b.parent)
  unfold Synchronizer.ask
  split_ifs with hany
  · obtain ⟨⟨d, asked⟩, he, hd⟩ := List.any_eq_true.mp hany
    obtain rfl : d = b.parent := by simpa using hd
    refine ⟨h.lookup, h.strings, hinner, hentry, hunique, hpending, ?_, h.keys, ?_, h.sent,
      hdelivered, h.once⟩
    · intro e he
      obtain ⟨hm, id, c, hc, hpar⟩ := h.requests e he
      exact ⟨hm, id, c, hold hc, hpar⟩
    · intro id c hc
      rcases hcases hc with ⟨rfl, rfl⟩ | hc
      · exact .inl ⟨asked, he⟩
      · exact h.requested id c hc
  · refine ⟨h.lookup, h.strings, hinner, hentry, hunique, hpending, ?_, ?_, ?_, ?_,
      hdelivered, h.once⟩
    · intro e he
      rcases List.mem_append.mp he with he | he
      · obtain ⟨hm, id, c, hc, hpar⟩ := h.requests e he
        exact ⟨List.mem_append_left _ hm, id, c, hold hc, hpar⟩
      · rw [List.mem_singleton.mp he]
        exact ⟨List.mem_append_right _ (List.mem_singleton_self _), _, b, hself, rfl⟩
    · show ((s.requests ++ [(b.parent, now)]).map Prod.fst).Nodup
      rw [List.map_append, List.nodup_append]
      refine ⟨h.keys, List.nodup_singleton _, ?_⟩
      rintro d hd d' hd' rfl
      obtain ⟨e, he, rfl⟩ := List.mem_map.mp hd
      refine hany (List.any_eq_true.mpr ⟨e, he, ?_⟩)
      simpa using hd'
    · intro id c hc
      rcases hcases hc with ⟨rfl, rfl⟩ | hc
      · exact .inl ⟨now, List.mem_append_right _ (List.mem_singleton_self _)⟩
      · refine (h.requested id c hc).imp_left ?_
        rintro ⟨asked, he⟩
        exact ⟨asked, List.mem_append_left _ he⟩
    · intro m hm
      rcases List.mem_append.mp hm with hm | hm
      · exact h.sent m hm
      · exact ⟨b, hmem, List.mem_singleton.mp hm⟩

/-- A waiter whose parent is stored is done. -/
theorem Tables.deliver {id : ℕ} (h : Tables env S s) (hb : s.held id = some b)
    (hstored : s.Stored b.parent) : Tables env S (s.deliver env id b) := by
  have hheld : ∀ id', (s.deliver env id b).held id' = if id' = id then none else s.held id' := by
    intro id'
    show (Function.update s.waiting id none id').map Waiter.deliver = _
    split_ifs with hid
    · rw [hid, Function.update_self]
      rfl
    · rw [Function.update_of_ne hid, held]
  have hcases : ∀ {id' c}, (s.deliver env id b).held id' = some c → id' ≠ id ∧ s.held id' = some c := by
    intro id' c hc
    rw [hheld] at hc
    split_ifs at hc with hid
    exact ⟨hid, hc⟩
  have hother : ∀ {id' c}, id' ≠ id → s.held id' = some c →
      (s.deliver env id b).held id' = some c := by
    intro id' c hid hc
    rw [hheld, if_neg hid]
    exact hc
  obtain ⟨hid, -, hmem⟩ := h.entry id b hb
  refine ⟨h.lookup, h.strings, h.inner, ?_, ?_, ?_, ?_, ?_, ?_, h.sent, ?_, ?_⟩
  · intro id' c hc
    obtain ⟨hne, hc⟩ := hcases hc
    obtain ⟨hid', hpend, hs⟩ := h.entry id' c hc
    refine ⟨hid', Finset.mem_erase.mpr ⟨?_, hpend⟩, hs⟩
    exact fun hd => hne (h.unique id' id c b hc hb hd)
  · intro id₁ id₂ c₁ c₂ hc₁ hc₂ hd
    exact h.unique id₁ id₂ c₁ c₂ (hcases hc₁).2 (hcases hc₂).2 hd
  · intro d hd
    obtain ⟨hne, hd⟩ := Finset.mem_erase.mp hd
    obtain ⟨id', c, hc, rfl⟩ := h.pending d hd
    refine ⟨id', c, hother ?_ hc, rfl⟩
    rintro rfl
    rw [hb, Option.some.injEq] at hc
    exact hne (hc ▸ rfl)
  · intro e he
    obtain ⟨he, hne⟩ := List.mem_filter.mp he
    obtain ⟨hm, id', c, hc, hpar⟩ := h.requests e he
    refine ⟨hm, id', c, hother ?_ hc, hpar⟩
    rintro rfl
    rw [hb, Option.some.injEq] at hc
    subst hc
    simp [hpar] at hne
  · exact h.keys.sublist (List.filter_sublist.map _)
  · intro id' c hc
    obtain ⟨-, hc⟩ := hcases hc
    by_cases hpar : c.parent = b.parent
    · rw [hpar]
      exact .inr hstored
    · refine (h.requested id' c hc).imp_left ?_
      rintro ⟨asked, he⟩
      exact ⟨asked, List.mem_filter.mpr ⟨he, by simpa using hpar⟩⟩
  · intro e he
    rcases List.mem_append.mp he with he | he
    · obtain ⟨hid', hnone, hs, hst⟩ := h.delivered e he
      refine ⟨hid', ?_, hs, hst⟩
      rw [hheld, hnone, ite_self]
    · rw [List.mem_singleton.mp he]
      refine ⟨hid, ?_, hmem, hstored⟩
      rw [hheld, if_pos rfl]
  · show ((s.loopBacks ++ [(id, b)]).map Prod.fst).Nodup
    rw [List.map_append, List.nodup_append]
    refine ⟨h.once, List.nodup_singleton _, ?_⟩
    rintro id' hid' _ hmem' rfl
    obtain ⟨e, he, rfl⟩ := List.mem_map.mp hid'
    rw [List.map_singleton, List.mem_singleton] at hmem'
    have hnone := (h.delivered e he).2.1
    rw [hmem', hb] at hnone
    cases hnone

/-! ## Steps -/

theorem Inv.register {now : ℕ} {rest : List Block} (h : Inv env S s) (hb : s.inner = b :: rest) :
    Inv env S ({ s with inner := rest }.register env now b) := by
  refine ⟨?_, h.toTables.register hb⟩
  unfold Synchronizer.register
  split_ifs with hp
  · exact h.toAsks.quiet rfl rfl rfl (List.Subset.refl _) fun _ hc => .inl hc
  obtain ⟨requests, sent, he⟩ := ask_frame env ({ s with inner := rest }.enter env b) now b.parent
  rw [he]
  refine h.toAsks.frame rfl (Nat.le_succ _) ?_ (List.Subset.refl _) (fun _ hc => .inl hc) ?_
  · intro id c hid hc
    have hheld : (({ s with inner := rest } : Synchronizer).enter env b).held id =
        if id = s.nextId then some b else s.held id := held_enter _ b id
    rw [if_neg hid.ne] at hheld
    exact hheld.symm.trans hc
  · intro id w hw
    change Function.update s.waiting s.nextId (some ⟨b, .created⟩) id = some w at hw
    by_cases hid : id = s.nextId
    · rw [hid, Function.update_self] at hw
      cases hw
      exact .inr trivial
    · rw [Function.update_of_ne hid] at hw
      exact .inl hw

theorem Inv.notifyRead {id : ℕ} {w : Waiter} (h : Inv env S s) (hw : s.waiting id = some w) :
    Inv env S (s.notifyRead id w) := by
  have hheld : ∀ id', (s.notifyRead id w).held id' = s.held id' := by
    intro id'
    show (Function.update s.waiting id _ id').map Waiter.deliver = _
    by_cases hid : id' = id
    · rw [hid, Function.update_self, held_eq hw]
      rfl
    · rw [Function.update_of_ne hid, held]
  refine ⟨?_, ?_⟩
  · refine h.toAsks.frame rfl le_rfl ?_ (List.subset_append_left ..) ?_ ?_
    · intro id' b _ hb
      rwa [hheld] at hb
    · intro c hc
      rcases List.mem_append.mp hc with hc | hc
      · exact .inl hc
      · rw [List.mem_singleton.mp hc]
        right
        rintro x ⟨⟩
        refine ⟨(h.entry id _ (held_eq hw)).1, ?_⟩
        intro b hb
        rw [hheld, held_eq hw, Option.some.injEq] at hb
        rw [← hb]
        rfl
    · intro id' w' hw'
      change Function.update s.waiting id (some { w with phase := .asked }) id' = some w' at hw'
      by_cases hid : id' = id
      · rw [hid, Function.update_self] at hw'
        cases hw'
        rw [hid]
        exact .inr (.inl (List.mem_append_right _ (List.mem_singleton_self _)))
      · rw [Function.update_of_ne hid] at hw'
        exact .inl hw'
  · exact h.toTables.frame hheld (fun _ hd => hd) rfl rfl rfl rfl (List.Subset.refl _) h.lookup
      h.strings h.inner (List.Subset.refl _) h.sent

theorem Inv.served {c : StoreCommand Asker} {queue : List (StoreCommand Asker)} (h : Inv env S s)
    (hc : s.commands = c :: queue) : Inv env S (s.served c queue) :=
  ⟨h.toAsks.served hc, h.toTables.frame (held_served s c queue)
    (fun _ hd => StoreActor.stored_handle hd c) rfl rfl rfl rfl (List.Subset.refl _)
    (h.lookup.receive _) h.strings h.inner (List.Subset.refl _) h.sent⟩

theorem Inv.deliver {id : ℕ} {w : Waiter} (h : Inv env S s) (hw : s.waiting id = some w)
    (hp : w.phase = .notified) : Inv env S (s.deliver env id w.deliver) := by
  have hstored : s.Stored w.deliver.parent := by
    have hprogress := h.progress id w hw
    rwa [Progress, hp] at hprogress
  refine ⟨?_, h.toTables.deliver (held_eq hw) hstored⟩
  have hwaiting : ∀ id' w', (s.deliver env id w.deliver).waiting id' = some w' →
      s.waiting id' = some w' := by
    intro id' w' hw'
    change Function.update s.waiting id none id' = some w' at hw'
    by_cases hid : id' = id
    · rw [hid, Function.update_self] at hw'
      cases hw'
    · rwa [Function.update_of_ne hid] at hw'
  refine h.toAsks.frame rfl le_rfl ?_ (List.Subset.refl _) (fun _ hc => .inl hc) ?_
  · intro id' b _ hb
    obtain ⟨w', hw', rfl⟩ := waiting_of_held hb
    exact held_eq (hwaiting id' w' hw')
  · intro id' w' hw'
    exact .inl (hwaiting id' w' hw')

/-- **Every step keeps the invariant.** -/
theorem Inv.step {i : Input} (h : Inv env S s) (hi : ∀ b, i = .getParentBlock b → S b.preimage)
    (hs : s.step env i = some s') : Inv env S s' := by
  have hquiet : ∀ commands, s.commands ⊆ commands →
      (∀ c ∈ commands, c ∈ s.commands ∨ ∀ x, c.sender? = some x → s.Tag c.key x) →
      ∀ lookup, lookup.Handed S → Inv env S { s with commands, lookup } := by
    intro commands hsub htags lookup hlookup
    refine ⟨h.toAsks.quiet rfl rfl rfl hsub htags, ?_⟩
    exact h.toTables.frame (fun _ => rfl) (fun _ hd => hd) rfl rfl rfl rfl (List.Subset.refl _)
      hlookup h.strings h.inner (List.Subset.refl _) h.sent
  cases takes_of_step hs with
  | @command c hforeign =>
    refine hquiet _ (List.subset_append_left ..) ?_ _ h.lookup
    intro c' hc
    rcases List.mem_append.mp hc with hc | hc
    · exact .inl hc
    · rw [List.mem_singleton.mp hc]
      refine .inr fun x hx => ?_
      rw [Foreign, hx] at hforeign
      cases x with
      | waiter id => cases hforeign
      | parent d => trivial
      | other n => trivial
  | store hc => exact h.served hc
  | genesis _ => exact h
  | @read b =>
    refine hquiet _ (List.subset_append_left ..) ?_ _ (hi b rfl)
    intro c' hc
    rcases List.mem_append.mp hc with hc | hc
    · exact .inl hc
    · rw [List.mem_singleton.mp hc]
      right
      rintro x ⟨⟩
      trivial
  | @core b hb =>
    have hlookup : s.lookup.Handed S := h.lookup
    rw [hb] at hlookup
    refine ⟨h.toAsks.quiet rfl rfl rfl (List.Subset.refl _) fun _ hc => .inl hc, ?_⟩
    refine h.toTables.frame (fun _ => rfl) (fun _ hd => hd) rfl rfl rfl rfl
      (List.subset_append_left ..) trivial ?_ ?_ (List.Subset.refl _) ?_
    · intro c hc
      rcases List.mem_append.mp hc with hc | hc
      · exact h.strings c hc
      · rw [List.mem_singleton.mp hc]
        exact hlookup
    · exact List.append_subset.mpr ⟨fun c hc => List.mem_append_left _ (h.inner hc),
        List.subset_append_right ..⟩
    · intro m hm
      obtain ⟨c, hc, hm⟩ := h.sent m hm
      exact ⟨c, List.mem_append_left _ hc, hm⟩
  | inner hb => exact h.register hb
  | notify hw _ => exact h.notifyRead hw
  | complete hw hp => exact h.deliver hw hp
  | @timer now order ho =>
    refine ⟨h.toAsks.quiet rfl rfl rfl (List.Subset.refl _) fun _ hc => .inl hc, ?_⟩
    refine h.toTables.frame (fun _ => rfl) (fun _ hd => hd) rfl rfl rfl rfl (List.Subset.refl _)
      h.lookup h.strings h.inner (List.subset_append_left ..) ?_
    intro m hm
    rcases List.mem_append.mp hm with hm | hm
    · exact h.sent m hm
    · obtain ⟨e, he, rfl⟩ := List.mem_map.mp hm
      exact h.sent _ (h.requests e (ho.mem_iff.mp (List.mem_filter.mp he).1)).1

theorem inv_new (db : Store) : Inv env S (new db) where
  settled := fun _ _ => rfl
  commands := fun _ hc => absurd hc List.not_mem_nil
  cells := fun _ _ hx => absurd hx List.not_mem_nil
  progress := fun _ _ hw => by cases hw
  lookup := trivial
  strings := fun _ hb => absurd hb List.not_mem_nil
  inner := List.Subset.refl _
  entry := fun _ _ hb => by cases hb
  unique := fun _ _ _ _ hb => by cases hb
  pending := fun d hd => absurd hd (Finset.notMem_empty d)
  requests := fun _ he => absurd he List.not_mem_nil
  keys := List.nodup_nil
  requested := fun _ _ hb => by cases hb
  sent := fun _ hm => absurd hm List.not_mem_nil
  delivered := fun _ he => absurd he List.not_mem_nil
  once := List.nodup_nil

theorem inv_reachable (h : (machine env S).Reachable s) : Inv env S s := by
  refine Machine.invariant ?_ ?_ h
  · rintro s ⟨db, rfl⟩
    exact inv_new db
  · rintro s i t hinv ⟨hi, hs⟩
    exact hinv.step hi hs

/-! ## Requests -/

/-- The timer asks again for what has been asked for long enough ago. -/
theorem request_onTimer {d : Digest} {asked now : ℕ} {order : List (Digest × ℕ)}
    (he : (d, asked) ∈ s.requests) (ho : order.Perm s.requests)
    (hlate : asked + env.syncRetryDelay < now) :
    request env d ∈ (s.onTimer env now order).sent.drop s.sent.length := by
  rw [onTimer, List.drop_left]
  exact List.mem_map.mpr
    ⟨(d, asked), List.mem_filter.mpr ⟨ho.mem_iff.mpr he, decide_eq_true hlate⟩, rfl⟩

/-- **The synchronizer asks for what is missing, and for nothing else.**  In every state of a run, the
others have been asked for the parent of each block that waits, unless the parent is stored, and the
timer asks for it again when the delay is over; each entry of `requests` is for such a parent, of
which there is one; and all that has been sent asks for the parent of a block that was suspended.
One block waits for each digest of `pending`. -/
theorem asks_for_parents (env : Env) (S : Bytes → Prop) (s : Synchronizer)
    (hr : (machine env S).Reachable s) :
    (∀ id w, s.waiting id = some w → s.Stored w.deliver.parent ∨
      request env w.deliver.parent ∈ s.sent ∧ ∃ asked, (w.deliver.parent, asked) ∈ s.requests ∧
        ∀ now order t, asked + env.syncRetryDelay < now →
          s.step env (.timer now order) = some t →
          request env w.deliver.parent ∈ t.sent.drop s.sent.length) ∧
    (∀ e ∈ s.requests, ∃ id w, s.waiting id = some w ∧ w.deliver.parent = e.1) ∧
    (s.requests.map Prod.fst).Nodup ∧
    (∀ m ∈ s.sent, ∃ b ∈ s.suspended, m = request env b.parent) ∧
    ∀ d, d ∈ s.pending ↔ ∃! id, ∃ w, s.waiting id = some w ∧ w.deliver.digest env.cr = d := by
  have h := inv_reachable hr
  refine ⟨?_, ?_, h.keys, h.sent, ?_⟩
  · intro id w hw
    rcases h.requested id _ (held_eq hw) with ⟨asked, he⟩ | hstored
    · refine .inr ⟨(h.requests _ he).1, asked, he, ?_⟩
      intro now order t hlate hs
      cases takes_of_step hs with
      | timer ho => exact request_onTimer he ho hlate
    · exact .inl hstored
  · intro e he
    obtain ⟨-, id, b, hb, hpar⟩ := h.requests e he
    obtain ⟨w, hw, rfl⟩ := waiting_of_held hb
    exact ⟨id, w, hw, hpar⟩
  · intro d
    constructor
    · intro hd
      obtain ⟨id, b, hb, rfl⟩ := h.pending d hd
      obtain ⟨w, hw, rfl⟩ := waiting_of_held hb
      refine ⟨id, ⟨w, hw, rfl⟩, ?_⟩
      rintro id' ⟨w', hw', he⟩
      exact h.unique id' id _ _ (held_eq hw') hb he
    · rintro ⟨id, ⟨w, hw, rfl⟩, -⟩
      exact (h.entry id _ (held_eq hw)).2.1

/-- The block that waits in the witness. -/
def lateBlock : Block := .new sampleBatch ⟨⟨.zero⟩, 3, []⟩ none keyA 4 []

def sampleEnv : Env := ⟨sampleBatch, keyB, 10000⟩

/-- Its parent is missing; the task has taken it. -/
def lateRun : List Input :=
  [.getParentBlock lateBlock, .store, .core, .inner 5]

theorem exists_late : ∃ s, (machine sampleEnv (· = lateBlock.preimage)).Reachable s ∧
    s.waiting 0 = some ⟨lateBlock, .created⟩ ∧ ¬ s.Stored lateBlock.parent := by
  have hexec : ∃ s, Machine.exec (step sampleEnv) (new .empty) lateRun = some s ∧
      s.waiting 0 = some ⟨lateBlock, .created⟩ ∧ s.store.db.read lateBlock.parent.toBytes = none :=
    ⟨_, rfl, by decide +kernel, rfl⟩
  obtain ⟨s, hexec, hw, hnone⟩ := hexec
  refine ⟨s, Machine.reachable_exec_restrict ?_ (.init ⟨.empty, rfl⟩) hexec, hw, fun h => h hnone⟩
  rintro i hi s b rfl
  simp only [lateRun, List.mem_cons, List.not_mem_nil, or_false, Input.getParentBlock.injEq,
    reduceCtorEq] at hi
  rw [hi]

/-- The parent of the block is asked for, and again after the delay. -/
theorem asks_for_parents_late : ∃ s : Synchronizer, ∃ asked,
    s.waiting 0 = some ⟨lateBlock, .created⟩ ∧ request sampleEnv lateBlock.parent ∈ s.sent ∧
      ∀ now order t, asked + 10000 < now → s.step sampleEnv (.timer now order) = some t →
        request sampleEnv lateBlock.parent ∈ t.sent.drop s.sent.length := by
  obtain ⟨s, hr, hw, hmissing⟩ := exists_late
  obtain ⟨hsent, asked, -, hagain⟩ :=
    ((asks_for_parents sampleEnv _ s hr).1 0 _ hw).resolve_left hmissing
  exact ⟨s, asked, hw, hsent, hagain⟩

end AccountabilityGadget.Consensus.Synchronizer
