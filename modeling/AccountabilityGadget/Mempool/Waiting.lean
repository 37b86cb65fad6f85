import AccountabilityGadget.Mempool.Synchronizer

/-!
# What holds while blocks wait

* `Covered` — a block whose payloads are stored, but for those that are missing.
* `WaiterInv` — a waiter has asked for each payload that is missing, or has still to ask, or it is
  stored by now.
* `Inv` — what holds of every state that a run reaches; `Inv.step`, `inv_reachable`.
-/

set_option autoImplicit false

namespace AccountabilityGadget.Mempool.Synchronizer

open Consensus Notify

/-- A payload is in the database. -/
def Stored (s : Synchronizer) (d : Digest) : Prop := s.store.db.read d.toBytes ≠ none

/-- The answers of the store for a digest are for commands on its key. -/
def Tag (key : Bytes) : Sender → Prop
  | .core d | .waiter _ d => key = d.toBytes
  | .other _ => True

/-- The payloads of the block are stored, but for `rest` and `missing`. -/
structure Covered (s : Synchronizer) (b : Block) (rest missing : List Digest) : Prop where
  ofRest : ∀ d ∈ rest, d ∈ b.payload
  ofMissing : ∀ d ∈ missing, d ∈ b.payload
  stored : ∀ d ∈ b.payload, d ∈ rest ∨ d ∈ missing ∨ s.Stored d

/-- The waiter will be notified of the digest. -/
def Asked (s : Synchronizer) (id : ℕ) (d : Digest) : Prop :=
  .notifyRead d.toBytes (.waiter id d) ∈ s.commands ∨
    .waiter id d ∈ (s.store.cells d.toBytes).waiting

structure WaiterInv (s : Synchronizer) (id : ℕ) (w : Waiter) : Prop where
  covered : Covered s w.block [] w.missing
  slots : ∀ d ∈ w.missing, d ∈ w.unsent ∨ d ∈ w.awaited ∨ s.Stored d
  unsent : ∀ d ∈ w.unsent, d ∈ w.missing
  awaited : ∀ d ∈ w.awaited, d ∈ w.missing ∧ Asked s id d

section

variable (env : Env) (S : Bytes → Prop)

def VerifyInv (s : Synchronizer) : Verify → Prop
  | .idle => True
  | .asking b rest missing => Handed env S b ∧ Covered s b rest missing
  | .reading b d rest missing => Handed env S b ∧ Covered s b (d :: rest) missing

structure Inv (s : Synchronizer) : Prop where
  running : s.stopped = none
  settled : ∀ key, (s.store.cells key).Settled
  commands : ∀ c ∈ s.commands, ∀ x, c.sender? = some x → Tag c.key x
  cells : ∀ key, ∀ x ∈ (s.store.cells key).waiting, Tag key x
  verify : VerifyInv env S s s.verify
  inner : ∀ missing b, .sync missing b ∈ s.inner → Handed env S b ∧ Covered s b [] missing
  waiters : ∀ id w, s.waiting id = some w → Handed env S w.block ∧ WaiterInv s id w ∧ id < s.nextId
  /-- An entry belongs to a waiter of its block. -/
  pending : ∀ d r id, s.pending d = some (r, id) →
    ∃ w, s.waiting id = some w ∧ w.block.digest env.cr = d ∧ w.block.round = r
  delivered : ∀ e ∈ s.loopBacks, e.1 < s.nextId ∧ s.waiting e.1 = none
  once : (s.loopBacks.map Prod.fst).Nodup

end

variable {env : Env} {S : Bytes → Prop} {s s' : Synchronizer} {b : Block}
  {rest missing : List Digest}

/-! ## What the database keeps -/

theorem Covered.mono (h : Covered s b rest missing) (hs : ∀ d, s.Stored d → s'.Stored d) :
    Covered s' b rest missing :=
  ⟨h.ofRest, h.ofMissing, fun d hd => (h.stored d hd).imp_right (.imp_right (hs d))⟩

theorem VerifyInv.mono {v : Verify} (h : VerifyInv env S s v) (hs : ∀ d, s.Stored d → s'.Stored d) :
    VerifyInv env S s' v := by
  cases v with
  | idle => trivial
  | asking b rest missing => exact ⟨h.1, h.2.mono hs⟩
  | reading b d rest missing => exact ⟨h.1, h.2.mono hs⟩

/-- More commands, and the same store. -/
theorem WaiterInv.send {id : ℕ} {w : Waiter} (h : WaiterInv s id w) (hstore : s'.store = s.store)
    (hcommands : s.commands ⊆ s'.commands) : WaiterInv s' id w := by
  have hstored : ∀ d, s.Stored d → s'.Stored d := by
    intro d hd
    rwa [Stored, hstore]
  refine ⟨h.covered.mono hstored, ?_, h.unsent, ?_⟩
  · intro d hd
    exact (h.slots d hd).imp_right (.imp_right (hstored d))
  · intro d hd
    obtain ⟨hmissing, hasked⟩ := h.awaited d hd
    refine ⟨hmissing, ?_⟩
    rw [Asked, hstore]
    exact hasked.imp_left fun hc => hcommands hc

/-! ## The store -/

theorem verify_receive {v : Verify} {replies : List (Reply Sender Bytes)}
    (h : VerifyInv env S s v) (hread : ∀ d w, .value (.core d) (some w) ∈ replies → s.Stored d) :
    VerifyInv env S s (v.receive replies) := by
  cases v with
  | idle => trivial
  | asking b rest missing => exact h
  | reading b d rest missing =>
    obtain ⟨hb, hcov⟩ := h
    have hrest : ∀ d' ∈ rest, d' ∈ b.payload :=
      fun d' hd' => hcov.ofRest d' (List.mem_cons_of_mem _ hd')
    rw [Verify.receive]
    rcases hf : replies.findSome? (valueFor d) with _ | _ | w
    · exact ⟨hb, hcov⟩
    · refine ⟨hb, hrest, ?_, ?_⟩
      · intro d' hd'
        rcases List.mem_insert_iff.mp hd' with rfl | hd'
        · exact hcov.ofRest _ List.mem_cons_self
        · exact hcov.ofMissing _ hd'
      · intro d' hd'
        rcases hcov.stored d' hd' with hd' | hd' | hd'
        · rcases List.mem_cons.mp hd' with rfl | hd'
          · exact .inr (.inl List.mem_insert_self)
          · exact .inl hd'
        · exact .inr (.inl (List.mem_insert_of_mem hd'))
        · exact .inr (.inr hd')
    · obtain ⟨r, hr, hv⟩ := List.exists_of_findSome?_eq_some hf
      have hd : s.Stored d := by
        unfold valueFor at hv
        split at hv
        · split_ifs at hv with hd
          rw [Option.some.injEq] at hv
          subst hd hv
          exact hread _ _ hr
        · cases hv
      refine ⟨hb, hrest, hcov.ofMissing, ?_⟩
      intro d' hd'
      rcases hcov.stored d' hd' with hd' | hd' | hd'
      · rcases List.mem_cons.mp hd' with rfl | hd'
        · exact .inr (.inr hd)
        · exact .inl hd'
      · exact .inr (.inl hd')
      · exact .inr (.inr hd')

theorem notifies_iff {id : ℕ} {d : Digest} {replies : List (Reply Sender Bytes)} :
    replies.any (Notifies id d) = true ↔ ∃ v, .notified (.waiter id d) v ∈ replies := by
  rw [List.any_eq_true]
  constructor
  · rintro ⟨r, hr, hn⟩
    unfold Notifies at hn
    split at hn
    · rename_i id' d' v
      obtain ⟨rfl, rfl⟩ : id' = id ∧ d' = d := by simpa using hn
      exact ⟨v, hr⟩
    · cases hn
  · rintro ⟨v, hv⟩
    exact ⟨_, hv, by simp [Notifies]⟩

section

variable {c : StoreCommand Sender} {queue : List (StoreCommand Sender)} (h : Inv env S s)
  (hc : s.commands = c :: queue)

include h hc in
theorem Inv.tag {r : Reply Sender Bytes} (hr : r ∈ (s.store.handle c).2) : Tag c.key r.asker := by
  rcases StoreActor.asker_of_handle hr with hr | hr
  · exact h.cells _ _ hr
  · exact h.commands c (hc ▸ List.mem_cons_self) _ hr

include h hc in
/-- A waiter is notified of what is stored. -/
theorem Inv.stored_of_notified {id : ℕ} {d : Digest} {v : Bytes}
    (hr : .notified (.waiter id d) v ∈ (s.store.handle c).2) : (served s c queue).Stored d := by
  have hkey : c.key = d.toBytes := h.tag hc hr
  have hread := StoreActor.stored_of_notified hr
  rw [hkey] at hread
  intro hnone
  exact Option.some_ne_none v (hread.symm.trans hnone)

include h hc in
theorem Inv.stored_of_read {d : Digest} {v : Bytes}
    (hr : .value (.core d) (some v) ∈ (s.store.handle c).2) : s.Stored d := by
  have hkey : c.key = d.toBytes := h.tag hc hr
  have hread := StoreActor.read_of_value hr
  rw [hkey] at hread
  rw [Stored, ← hread]
  exact Option.some_ne_none v

include h hc in
theorem Inv.waiter_served {id : ℕ} {w : Waiter} (hw : WaiterInv s id w) :
    WaiterInv (served s c queue) id (w.receive (s.store.handle c).2 id) := by
  have hstored : ∀ d, s.Stored d → (served s c queue).Stored d :=
    fun d hd => StoreActor.stored_handle hd c
  refine ⟨hw.covered.mono hstored, ?_, hw.unsent, ?_⟩
  · intro d hd
    rcases hw.slots d hd with hd | hd | hd
    · exact .inl hd
    · by_cases hn : (s.store.handle c).2.any (Notifies id d) = true
      · obtain ⟨v, hv⟩ := notifies_iff.mp hn
        exact .inr (.inr (h.stored_of_notified hc hv))
      · exact .inr (.inl (List.mem_filter.mpr ⟨hd, by simpa using hn⟩))
    · exact .inr (.inr (hstored d hd))
  · intro d hd
    obtain ⟨hd, hn⟩ := List.mem_filter.mp hd
    have hno : ¬ ∃ v, .notified (.waiter id d) v ∈ (s.store.handle c).2 := by
      rw [← notifies_iff]
      simpa using hn
    obtain ⟨hmissing, hasked⟩ := hw.awaited d hd
    refine ⟨hmissing, ?_⟩
    rcases hasked with hasked | hasked
    · rw [hc] at hasked
      rcases List.mem_cons.mp hasked with hasked | hasked
      · -- the store has just handled the command of the waiter
        subst hasked
        exact .inr ((StoreActor.notifyRead_handle s.store d.toBytes _).resolve_right hno)
      · exact .inl hasked
    · exact .inr ((StoreActor.waiting_handle hasked c).resolve_right hno)

include h hc in
theorem Inv.served : Inv env S (served s c queue) := by
  have hstored : ∀ d, s.Stored d → (Synchronizer.served s c queue).Stored d :=
    fun d hd => StoreActor.stored_handle hd c
  refine ⟨h.running, StoreActor.settled_handle h.settled c, ?_, ?_, ?_, ?_, ?_, ?_, ?_, h.once⟩
  · intro c' hc' x hx
    exact h.commands c' (hc ▸ List.mem_cons_of_mem _ hc') x hx
  · intro key x hx
    rcases StoreActor.waiting_of_handle hx with hold | ⟨rfl, hasks⟩
    · exact h.cells key x hold
    · exact h.commands c (hc ▸ List.mem_cons_self) x hasks
  · exact verify_receive (h.verify.mono hstored) fun d v hr => hstored d (h.stored_of_read hc hr)
  · intro missing b hm
    obtain ⟨hb, hcov⟩ := h.inner missing b hm
    exact ⟨hb, hcov.mono hstored⟩
  · intro id w hw
    obtain ⟨w, hold, rfl⟩ := Option.map_eq_some_iff.mp hw
    obtain ⟨hb, hinv, hid⟩ := h.waiters id w hold
    exact ⟨hb, h.waiter_served hc hinv, hid⟩
  · intro d r id hp
    obtain ⟨w, hw, hd, hr⟩ := h.pending d r id hp
    exact ⟨_, Option.map_eq_some_iff.mpr ⟨w, hw, rfl⟩, hd, hr⟩
  · intro e he
    obtain ⟨hid, hw⟩ := h.delivered e he
    exact ⟨hid, Option.map_eq_none_iff.mpr hw⟩

end

/-! ## The core and the task -/

/-- A step that leaves the store alone. -/
theorem Inv.frame (h : Inv env S s) (hstore : s'.store = s.store) (running : s'.stopped = none)
    (commands : ∀ c ∈ s'.commands, ∀ x, c.sender? = some x → Tag c.key x)
    (verify : VerifyInv env S s s'.verify)
    (inner : ∀ missing b, .sync missing b ∈ s'.inner → Handed env S b ∧ Covered s b [] missing)
    (waiters : ∀ id w, s'.waiting id = some w →
      Handed env S w.block ∧ WaiterInv s' id w ∧ id < s'.nextId)
    (pending : ∀ d r id, s'.pending d = some (r, id) →
      ∃ w, s'.waiting id = some w ∧ w.block.digest env.cr = d ∧ w.block.round = r)
    (delivered : ∀ e ∈ s'.loopBacks, e.1 < s'.nextId ∧ s'.waiting e.1 = none)
    (once : (s'.loopBacks.map Prod.fst).Nodup) : Inv env S s' := by
  have hstored : ∀ d, s.Stored d → s'.Stored d := by
    intro d hd
    rwa [Stored, hstore]
  refine ⟨running, ?_, commands, ?_, verify.mono hstored, ?_, waiters, pending, delivered, once⟩
  · rw [hstore]
    exact h.settled
  · rw [hstore]
    exact h.cells
  · intro missing b hm
    obtain ⟨hb, hcov⟩ := inner missing b hm
    exact ⟨hb, hcov.mono hstored⟩

/-- A step that leaves the waiters alone, too. -/
theorem Inv.quiet (h : Inv env S s) (hstore : s'.store = s.store) (hstopped : s'.stopped = s.stopped)
    (hwaiting : s'.waiting = s.waiting) (hnext : s'.nextId = s.nextId)
    (hpending : ∀ d e, s'.pending d = some e → s.pending d = some e)
    (hloopBacks : s'.loopBacks = s.loopBacks) (hcommands : s.commands ⊆ s'.commands)
    (commands : ∀ c ∈ s'.commands, c ∈ s.commands ∨ ∀ x, c.sender? = some x → Tag c.key x)
    (verify : VerifyInv env S s s'.verify)
    (inner : ∀ missing b, .sync missing b ∈ s'.inner → Handed env S b ∧ Covered s b [] missing) :
    Inv env S s' := by
  refine h.frame hstore (hstopped.trans h.running) ?_ verify inner ?_ ?_ ?_ ?_
  · intro c hc
    rcases commands c hc with hc | hc
    · exact h.commands c hc
    · exact hc
  · intro id w hw
    rw [hwaiting] at hw
    obtain ⟨hb, hinv, hid⟩ := h.waiters id w hw
    exact ⟨hb, hinv.send hstore hcommands, hnext ▸ hid⟩
  · intro d r id hp
    rw [hwaiting]
    exact h.pending d r id (hpending d _ hp)
  · rw [hloopBacks, hnext, hwaiting]
    exact h.delivered
  · rw [hloopBacks]
    exact h.once

theorem Inv.stepVerify (h : Inv env S s) (hs : s.stepVerify = some s') : Inv env S s' := by
  have hv := h.verify
  unfold Synchronizer.stepVerify at hs
  split at hs
  · rename_i b d rest missing he
    rw [he] at hv
    cases hs
    refine h.quiet rfl rfl rfl rfl (fun _ _ hp => hp) rfl (List.subset_append_left ..) ?_ hv h.inner
    intro c hc
    rcases List.mem_append.mp hc with hc | hc
    · exact .inl hc
    · rw [List.mem_singleton.mp hc]
      refine .inr ?_
      rintro x hx
      cases hx
      rfl
  · rename_i b missing he
    rw [he] at hv
    split_ifs at hs <;> cases hs
    · exact h.quiet rfl rfl rfl rfl (fun _ _ hp => hp) rfl (List.Subset.refl _)
        (fun _ hc => .inl hc) trivial h.inner
    · refine h.quiet rfl rfl rfl rfl (fun _ _ hp => hp) rfl (List.Subset.refl _)
        (fun _ hc => .inl hc) trivial ?_
      intro missing' b' hm
      rcases List.mem_append.mp hm with hm | hm
      · exact h.inner missing' b' hm
      · cases List.mem_singleton.mp hm
        exact hv
  · cases hs

/-- The waiters but one. -/
theorem Inv.others (h : Inv env S s) (hstore : s'.store = s.store)
    (hcommands : s.commands ⊆ s'.commands) (hnext : s.nextId ≤ s'.nextId) {id : ℕ} {w : Waiter}
    (hw : s.waiting id = some w) : Handed env S w.block ∧ WaiterInv s' id w ∧ id < s'.nextId := by
  obtain ⟨hb, hinv, hid⟩ := h.waiters id w hw
  exact ⟨hb, hinv.send hstore hcommands, by omega⟩

theorem Inv.enter (h : Inv env S s) (hb : Handed env S b) (hcov : Covered s b [] missing) :
    Inv env S (s.enter env missing b) := by
  refine h.frame rfl h.running h.commands h.verify h.inner ?_ ?_ ?_ h.once
  · intro id w hw
    by_cases hid : id = s.nextId
    · subst hid
      rw [enter_waiting, Function.update_self] at hw
      cases hw
      refine ⟨hb, ⟨hcov.mono fun _ hd => hd, fun d hd => .inl hd, fun d hd => hd, ?_⟩,
        Nat.lt_succ_self _⟩
      intro d hd
      cases hd
    · rw [enter_waiting, Function.update_of_ne hid] at hw
      refine h.others ?_ ?_ ?_ hw
      · rfl
      · exact List.Subset.refl _
      · exact Nat.le_succ _
  · intro d r id hp
    by_cases hd : d = b.digest env.cr
    · subst hd
      rw [enter_pending, Function.update_self] at hp
      cases hp
      exact ⟨_, Function.update_self .., rfl, rfl⟩
    · rw [enter_pending, Function.update_of_ne hd] at hp
      obtain ⟨w, hw, hdigest, hround⟩ := h.pending d r id hp
      have hid : id ≠ s.nextId := (h.waiters id w hw).2.2.ne
      exact ⟨w, (Function.update_of_ne hid ..).trans hw, hdigest, hround⟩
  · intro e he
    obtain ⟨hid, hw⟩ := h.delivered e he
    exact ⟨Nat.lt_succ_of_lt hid, (Function.update_of_ne hid.ne ..).trans hw⟩

/-- A block gets an entry and a waiter, and the missing payloads are asked for. -/
theorem Inv.register (h : Inv env S s) (now : ℕ) (hb : Handed env S b)
    (hcov : Covered s b [] missing) : Inv env S (s.register env now missing b) := by
  have henter := h.enter hb hcov
  unfold Synchronizer.register
  simp only
  split_ifs with hfresh hauthor
  · exact henter
  · exact henter.quiet rfl rfl rfl rfl (fun _ _ hp => hp) rfl (List.Subset.refl _)
      (fun _ hc => .inl hc) henter.verify henter.inner
  · exact absurd hb.2 hauthor

theorem Inv.handleMessage {m : SynchronizerMessage} {queue : List SynchronizerMessage}
    (h : Inv env S s) (now : ℕ) (hm : s.inner = m :: queue) :
    Inv env S ({ s with inner := queue }.handleMessage env now m) := by
  have h₁ : Inv env S { s with inner := queue } :=
    h.quiet rfl rfl rfl rfl (fun _ _ hp => hp) rfl (List.Subset.refl _) (fun _ hc => .inl hc)
      h.verify fun missing b hsync => h.inner missing b (hm ▸ List.mem_cons_of_mem _ hsync)
  cases m with
  | sync missing b =>
    rw [Synchronizer.handleMessage]
    split_ifs
    · exact h₁
    · obtain ⟨hb, hcov⟩ := h.inner missing b (hm ▸ List.mem_cons_self)
      exact h₁.register now hb (hcov.mono fun _ hd => hd)
  | clean round =>
    refine h₁.quiet rfl rfl rfl rfl ?_ rfl (List.Subset.refl _) (fun _ hc => .inl hc)
      h₁.verify h₁.inner
    intro d e hp
    exact (Option.filter_eq_some_iff.mp hp).1

theorem Inv.notifyRead (h : Inv env S s) {id : ℕ} {d : Digest} {w : Waiter}
    (hw : s.waiting id = some w) (hd : d ∈ w.unsent) : Inv env S (s.notifyRead id w d) := by
  obtain ⟨hb, hinv, hid⟩ := h.waiters id w hw
  refine h.frame rfl h.running ?_ h.verify h.inner ?_ ?_ ?_ h.once
  · intro c hc x hx
    rcases List.mem_append.mp hc with hc | hc
    · exact h.commands c hc x hx
    · rw [List.mem_singleton.mp hc] at hx ⊢
      cases hx
      rfl
  · intro id' w' hw'
    by_cases hne : id' = id
    · subst hne
      rw [notifyRead_waiting, Function.update_self] at hw'
      cases hw'
      refine ⟨hb, ⟨hinv.covered.mono fun _ hd => hd, ?_, ?_, ?_⟩, hid⟩
      · intro d' hd'
        by_cases hdd : d' = d
        · exact .inr (.inl (List.mem_append_right _ (List.mem_singleton.mpr hdd)))
        · rcases hinv.slots d' hd' with hs | hs | hs
          · exact .inl (List.mem_filter.mpr ⟨hs, by simpa using hdd⟩)
          · exact .inr (.inl (List.mem_append_left _ hs))
          · exact .inr (.inr hs)
      · intro d' hd'
        exact hinv.unsent d' (List.mem_filter.mp hd').1
      · intro d' hd'
        rcases List.mem_append.mp hd' with hd' | hd'
        · obtain ⟨hmissing, hasked⟩ := hinv.awaited d' hd'
          exact ⟨hmissing, hasked.imp_left (List.mem_append_left _)⟩
        · rw [List.mem_singleton.mp hd']
          exact ⟨hinv.unsent d hd, .inl (List.mem_append_right _ (List.mem_singleton_self _))⟩
    · rw [notifyRead_waiting, Function.update_of_ne hne] at hw'
      refine h.others ?_ ?_ ?_ hw'
      · rfl
      · exact List.subset_append_left ..
      · exact le_rfl
  · intro d' r id' hp
    obtain ⟨w', hw', hdigest, hround⟩ := h.pending d' r id' hp
    by_cases hne : id' = id
    · subst hne
      rw [hw, Option.some.injEq] at hw'
      subst hw'
      exact ⟨_, Function.update_self .., hdigest, hround⟩
    · exact ⟨w', (Function.update_of_ne hne ..).trans hw', hdigest, hround⟩
  · intro e he
    obtain ⟨hid', hnone⟩ := h.delivered e he
    have hne : e.1 ≠ id := by
      rintro rfl
      rw [hw] at hnone
      cases hnone
    exact ⟨hid', (Function.update_of_ne hne ..).trans hnone⟩

/-- A waiter that no entry belongs to can go. -/
theorem Inv.remove (h : Inv env S s) {id : ℕ} (hstore : s'.store = s.store)
    (hstopped : s'.stopped = s.stopped) (hverify : s'.verify = s.verify)
    (hcommands : s'.commands = s.commands) (hinner : s'.inner = s.inner)
    (hnext : s'.nextId = s.nextId) (hwaiting : s'.waiting = Function.update s.waiting id none)
    (hpending : ∀ d r id', s'.pending d = some (r, id') → s.pending d = some (r, id') ∧ id' ≠ id)
    (delivered : ∀ e ∈ s'.loopBacks, e ∈ s.loopBacks ∨ e.1 = id ∧ id < s.nextId)
    (once : (s'.loopBacks.map Prod.fst).Nodup) : Inv env S s' := by
  refine h.frame hstore (hstopped.trans h.running) ?_ ?_ ?_ ?_ ?_ ?_ once
  · rw [hcommands]
    exact h.commands
  · rw [hverify]
    exact h.verify
  · rw [hinner]
    exact h.inner
  · intro id' w' hw'
    rw [hwaiting] at hw'
    by_cases hne : id' = id
    · subst hne
      rw [Function.update_self] at hw'
      cases hw'
    · rw [Function.update_of_ne hne] at hw'
      exact h.others hstore (hcommands ▸ List.Subset.refl _) hnext.ge hw'
  · intro d r id' hp
    obtain ⟨hp, hne⟩ := hpending d r id' hp
    obtain ⟨w', hw', hdigest, hround⟩ := h.pending d r id' hp
    rw [hwaiting]
    exact ⟨w', (Function.update_of_ne hne ..).trans hw', hdigest, hround⟩
  · intro e he
    rw [hnext, hwaiting]
    by_cases hne : e.1 = id
    · rw [hne, Function.update_self]
      rcases delivered e he with he | ⟨-, hid⟩
      · exact ⟨hne ▸ (h.delivered e he).1, rfl⟩
      · exact ⟨hid, rfl⟩
    · rw [Function.update_of_ne hne]
      rcases delivered e he with he | ⟨he, -⟩
      · exact h.delivered e he
      · exact absurd he hne

theorem Inv.deliver (h : Inv env S s) {id : ℕ} {w : Waiter} (hw : s.waiting id = some w) :
    Inv env S (s.deliver env id w.block) := by
  refine h.remove rfl rfl rfl rfl rfl rfl rfl ?_ ?_ ?_
  · intro d r id' hp
    have hd : d ≠ w.block.digest env.cr := by
      rintro rfl
      rw [deliver_pending, Function.update_self] at hp
      cases hp
    rw [deliver_pending, Function.update_of_ne hd] at hp
    refine ⟨hp, ?_⟩
    rintro rfl
    obtain ⟨w', hw', hdigest, -⟩ := h.pending d r id' hp
    rw [hw, Option.some.injEq] at hw'
    exact hd (hw' ▸ hdigest.symm)
  · intro e he
    rcases List.mem_append.mp he with he | he
    · exact .inl he
    · rw [List.mem_singleton.mp he]
      exact .inr ⟨rfl, (h.waiters id w hw).2.2⟩
  · rw [Synchronizer.deliver, List.map_append, List.nodup_append]
    refine ⟨h.once, List.nodup_singleton _, ?_⟩
    rintro id' hid' _ hmem rfl
    obtain ⟨e, he, rfl⟩ := List.mem_map.mp hid'
    rw [List.map_singleton, List.mem_singleton] at hmem
    have hnone := (h.delivered e he).2
    rw [hmem, hw] at hnone
    cases hnone

theorem Inv.cancel (h : Inv env S s) {id : ℕ} {w : Waiter} (hw : s.waiting id = some w)
    (hc : s.Cancelled env id w) :
    Inv env S { s with waiting := Function.update s.waiting id none } := by
  refine h.remove rfl rfl rfl rfl rfl rfl rfl ?_ (fun _ he => .inl he) h.once
  intro d r id' hp
  refine ⟨hp, ?_⟩
  rintro rfl
  obtain ⟨w', hw', rfl, -⟩ := h.pending d r id' hp
  rw [hw, Option.some.injEq] at hw'
  subst hw'
  apply hc
  rw [show s.pending _ = _ from hp]
  rfl

/-- **Every step keeps the invariant.** -/
theorem Inv.step (h : Inv env S s) {i : Input} (hi : ∀ b, i = .verify b → Handed env S b)
    (hs : s.step env i = some s') : Inv env S s' := by
  cases takes_of_step hs with
  | @command c hforeign =>
    refine h.quiet rfl rfl rfl rfl (fun _ _ hp => hp) rfl (List.subset_append_left ..) ?_
      h.verify h.inner
    intro c' hc
    rcases List.mem_append.mp hc with hc | hc
    · exact .inl hc
    · rw [List.mem_singleton.mp hc]
      refine .inr fun x hx => ?_
      rw [Foreign, hx] at hforeign
      cases x with
      | core d => cases hforeign
      | waiter id d => cases hforeign
      | other n => trivial
  | store hc => exact h.served hc
  | @verify b _ =>
    refine h.quiet rfl rfl rfl rfl (fun _ _ hp => hp) rfl (List.Subset.refl _)
      (fun _ hc => .inl hc) ⟨hi b rfl, fun _ hd => hd, ?_, fun _ hd => .inl hd⟩ h.inner
    intro d hd
    cases hd
  | core hv => exact h.stepVerify hv
  | cleanup _ =>
    refine h.quiet rfl rfl rfl rfl (fun _ _ hp => hp) rfl (List.Subset.refl _)
      (fun _ hc => .inl hc) h.verify ?_
    intro missing b hm
    rcases List.mem_append.mp hm with hm | hm
    · exact h.inner missing b hm
    · cases List.mem_singleton.mp hm
  | inner hm => exact h.handleMessage _ hm
  | notify hw hd => exact h.notifyRead hw hd
  | complete hw _ _ => exact h.deliver hw
  | cancel hw hc => exact h.cancel hw hc
  | timer =>
    simp only [onTimer]
    split_ifs
    · exact h
    · exact h.quiet rfl rfl rfl rfl (fun _ _ hp => hp) rfl (List.Subset.refl _)
        (fun _ hc => .inl hc) h.verify h.inner

theorem inv_new (db : Store) : Inv env S (new db) where
  running := rfl
  settled := fun _ _ => rfl
  commands := fun _ hc => absurd hc List.not_mem_nil
  cells := fun _ _ hx => absurd hx List.not_mem_nil
  verify := trivial
  inner := fun _ _ hm => absurd hm List.not_mem_nil
  waiters := fun _ _ hw => by cases hw
  pending := fun _ _ _ hp => by cases hp
  delivered := fun _ he => absurd he List.not_mem_nil
  once := List.nodup_nil

theorem inv_reachable (h : (machine env S).Reachable s) : Inv env S s := by
  refine Machine.invariant ?_ ?_ h
  · rintro s ⟨db, rfl⟩
    exact inv_new db
  · rintro s i t hinv ⟨hi, hs⟩
    exact hinv.step hi hs

end AccountabilityGadget.Mempool.Synchronizer
