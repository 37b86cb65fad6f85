import AccountabilityGadget.Consensus.Suspended

/-!
# No block waits for a parent that is there

* `Due` — a block with this digest waits, or is on its way to the task; `Due.step`.
* `Inv.sends_back` — once its parent is stored, the task, the waiters and the store bring a block back.
* `blocks_resume` — no block that the core has suspended is lost, none comes back before its parent, and
  no waiter sends its block twice.
-/

set_option autoImplicit false

namespace AccountabilityGadget.Consensus.Synchronizer

open Notify

variable {env : Env} {S : Bytes → Prop} {s s' t : Synchronizer} {b : Block} {d : Digest} {n : ℕ}

/-! ## On the way back -/

section

variable (env)

def Due (s : Synchronizer) (d : Digest) : Prop :=
  d ∈ s.pending ∨ ∃ b ∈ s.inner, b.digest env.cr = d

/-- A block with this digest has been sent back since there were `n` of them. -/
def Back (s : Synchronizer) (n : ℕ) (d : Digest) : Prop :=
  ∃ e ∈ s.loopBacks.drop n, e.2.digest env.cr = d

theorem register_frame (s : Synchronizer) (now : ℕ) (b : Block) :
    (s.register env now b).store = s.store ∧ (s.register env now b).inner = s.inner ∧
      (s.register env now b).loopBacks = s.loopBacks ∧
      (s.register env now b).pending = insert (b.digest env.cr) s.pending := by
  unfold register
  split_ifs with hp
  · exact ⟨rfl, rfl, rfl, (Finset.insert_eq_of_mem hp).symm⟩
  · obtain ⟨requests, sent, he⟩ := ask_frame env (s.enter env b) now b.parent
    rw [he]
    exact ⟨rfl, rfl, rfl, rfl⟩

end

theorem loopBacks_step {i : Input} (hs : s.step env i = some s') : s.loopBacks <+: s'.loopBacks := by
  cases takes_of_step hs with
  | inner hb => rw [(register_frame env _ _ _).2.2.1]
  | complete hw _ => exact List.prefix_append ..
  | command _ | store _ | genesis _ | read | core _ | notify _ _ | timer _ => exact List.prefix_rfl

/-- What is stored stays stored. -/
theorem stored_step {i : Input} (hd : s.Stored d) (hs : s.step env i = some s') : s'.Stored d := by
  cases takes_of_step hs with
  | store hc => exact StoreActor.stored_handle hd _
  | inner hb =>
    rw [Stored, (register_frame env _ _ _).1]
    exact hd
  | command _ | genesis _ | read | core _ | notify _ _ | complete _ _ | timer _ => exact hd

/-- **A block stays due until it is sent back.** -/
theorem Due.step {i : Input} (h : Due env s d) (hn : n ≤ s.loopBacks.length)
    (hs : s.step env i = some s') : Due env s' d ∨ Back env s' n d := by
  cases takes_of_step hs with
  | core hb =>
    refine .inl (h.imp_right ?_)
    rintro ⟨c, hc, hd⟩
    exact ⟨c, List.mem_append_left _ hc, hd⟩
  | @inner now b rest hb =>
    left
    obtain ⟨-, hinner, -, hpending⟩ := register_frame env { s with inner := rest } now b
    rw [Due, hinner, hpending]
    rcases h with hp | ⟨c, hc, rfl⟩
    · exact .inl (Finset.mem_insert_of_mem hp)
    · rw [hb] at hc
      rcases List.mem_cons.mp hc with rfl | hc
      · exact .inl (Finset.mem_insert_self ..)
      · exact .inr ⟨c, hc, rfl⟩
  | @complete id w hw _ =>
    by_cases hd : w.deliver.digest env.cr = d
    · refine .inr ⟨(id, w.deliver), ?_, hd⟩
      rw [deliver, List.drop_append_of_le_length hn]
      exact List.mem_append_right _ (List.mem_singleton_self _)
    · exact .inl (h.imp_left fun hp => Finset.mem_erase.mpr ⟨Ne.symm hd, hp⟩)
  | command _ | store _ | genesis _ | read | notify _ _ | timer _ => exact .inl h

theorem Back.mono (h : Back env s n d) (hs : s.loopBacks <+: s'.loopBacks) : Back env s' n d := by
  obtain ⟨e, he, hd⟩ := h
  exact ⟨e, (hs.drop n).subset he, hd⟩

/-- What holds of a later state. -/
structure DueSince (env : Env) (S : Bytes → Prop) (s : Synchronizer) (d : Digest) (t : Synchronizer) :
    Prop where
  inv : Inv env S t
  length : s.loopBacks.length ≤ t.loopBacks.length
  due : Due env t d ∨ Back env t s.loopBacks.length d

theorem DueSince.run (h : Inv env S s) (hdue : Due env s d) (hl : (machine env S).Leads s t) :
    DueSince env S s d t := by
  induction hl with
  | refl => exact ⟨h, le_rfl, .inl hdue⟩
  | tail _ hst ih =>
    obtain ⟨i, hi, hs⟩ := hst
    have hgrow := loopBacks_step hs
    refine ⟨ih.inv.step hi hs, ih.length.trans hgrow.length_le, ?_⟩
    rcases ih.due with hdue | hback
    · exact hdue.step ih.length hs
    · exact .inr (hback.mono hgrow)

/-! ## Waking up -/

/-- The steps of the store, the task and its waiters. -/
def Internal (_ : Synchronizer) : Input → Prop
  | .store | .inner _ | .notify _ | .complete _ => True
  | _ => False

section

variable (env S)

/-- What the store, the task and its waiters do by themselves. -/
def internal : Machine Synchronizer Input := (machine env S).restrict Internal

end

theorem leads_head {i : Input} (hs : s.step env i = some s') (hi : Internal s i)
    (hl : (internal env S).Leads s' t) : (internal env S).Leads s t := by
  refine .head ⟨i, hi, ?_, hs⟩ hl
  rintro b rfl
  cases hi

theorem step_store {c : StoreCommand Asker} {queue : List (StoreCommand Asker)}
    (hc : s.commands = c :: queue) : s.step env .store = some (s.served c queue) := by
  simp only [step, hc]

theorem step_inner {rest : List Block} (hb : s.inner = b :: rest) (now : ℕ) :
    s.step env (.inner now) = some ({ s with inner := rest }.register env now b) := by
  simp only [step, hb]

theorem step_notify {id : ℕ} {w : Waiter} (hw : s.waiting id = some w) (hp : w.phase = .created) :
    s.step env (.notify id) = some (s.notifyRead id w) := by
  simp only [step, hw, if_pos hp]

theorem step_complete {id : ℕ} {w : Waiter} (hw : s.waiting id = some w)
    (hp : w.phase = .notified) : s.step env (.complete id) = some (s.deliver env id w.deliver) := by
  simp only [step, hw, if_pos hp]

theorem receive_created {w : Waiter} (hp : w.phase ≠ .created) (replies : List (Reply Asker Bytes))
    (id : ℕ) : (w.receive replies id).phase ≠ .created ∧
      (w.receive replies id).deliver = w.deliver := by
  rw [Waiter.receive]
  split
  · exact ⟨by simp, rfl⟩
  · exact ⟨hp, rfl⟩

/-- The store handles the commands that are there. -/
theorem Inv.drains (n : ℕ) : ∀ {s : Synchronizer} {id : ℕ} {w : Waiter}, Inv env S s →
    s.waiting id = some w → w.phase ≠ .created → s.commands.length = n →
    ∃ t w', (internal env S).Leads s t ∧ Inv env S t ∧ t.waiting id = some w' ∧
      w'.phase ≠ .created ∧ w'.deliver = w.deliver ∧ t.commands = [] ∧
      (∀ d, s.Stored d → t.Stored d) ∧ t.loopBacks = s.loopBacks := by
  induction n with
  | zero =>
    intro s id w h hw hp hn
    exact ⟨s, w, .refl, h, hw, hp, rfl, List.length_eq_zero_iff.mp hn, fun _ hd => hd, rfl⟩
  | succ n ih =>
    intro s id w h hw hp hn
    cases hc : s.commands with
    | nil =>
      rw [hc] at hn
      cases hn
    | cons c queue =>
      obtain ⟨hphase, hblock⟩ := receive_created hp (s.store.handle c).2 id
      have hw' : (s.served c queue).waiting id = some (w.receive (s.store.handle c).2 id) :=
        Option.map_eq_some_iff.mpr ⟨w, hw, rfl⟩
      have hlength : (s.served c queue).commands.length = n := by
        rw [hc, List.length_cons, Nat.succ.injEq] at hn
        exact hn
      obtain ⟨t, w', hl, ht, hwt, hp', hblock', hempty, hstored, hloop⟩ :=
        ih (h.served hc) hw' hphase hlength
      exact ⟨t, w', leads_head (step_store hc) trivial hl, ht, hwt, hp', hblock'.trans hblock,
        hempty, fun d hd => hstored d (StoreActor.stored_handle hd c), hloop⟩

/-- With nothing left to handle, a waiter for what is stored has been notified. -/
theorem Inv.answered {id : ℕ} {w : Waiter} (h : Inv env S s) (hw : s.waiting id = some w)
    (hp : w.phase ≠ .created) (hempty : s.commands = []) (hstored : s.Stored w.deliver.parent) :
    w.phase = .notified := by
  have hprogress := h.progress id w hw
  unfold Progress at hprogress
  cases hphase : w.phase with
  | created => exact absurd hphase hp
  | notified => rfl
  | asked =>
    simp only [hphase] at hprogress
    rcases hprogress with hasked | hasked
    · rw [hempty] at hasked
      cases hasked
    · rw [h.settled w.deliver.parent.toBytes hstored] at hasked
      cases hasked

/-- A waiter that has asked sends its block back once the parent is stored. -/
theorem Inv.returns {id : ℕ} {w : Waiter} (h : Inv env S s) (hw : s.waiting id = some w)
    (hp : w.phase ≠ .created) (hstored : s.Stored w.deliver.parent) :
    ∃ t, (internal env S).Leads s t ∧
      Back env t s.loopBacks.length (w.deliver.digest env.cr) := by
  obtain ⟨s₁, w₁, hl, h₁, hw₁, hp₁, hblock, hempty, hkept, hloop⟩ := h.drains _ hw hp rfl
  have hstored₁ : s₁.Stored w₁.deliver.parent := hblock ▸ hkept _ hstored
  have hs : s₁.step env (.complete id) = some (s₁.deliver env id w₁.deliver) :=
    step_complete hw₁ (h₁.answered hw₁ hp₁ hempty hstored₁)
  refine ⟨_, hl.trans (leads_head hs trivial .refl), (id, w₁.deliver), ?_, by rw [hblock]⟩
  rw [Synchronizer.deliver, hloop, List.drop_left]
  exact List.mem_singleton_self _

/-- A waiter whose parent is stored sends its block back. -/
theorem Inv.wakes {id : ℕ} {w : Waiter} (h : Inv env S s) (hw : s.waiting id = some w)
    (hstored : s.Stored w.deliver.parent) :
    ∃ t, (internal env S).Leads s t ∧
      Back env t s.loopBacks.length (w.deliver.digest env.cr) := by
  by_cases hp : w.phase = .created
  · -- it has still to ask
    have hw' : (s.notifyRead id w).waiting id = some { w with phase := .asked } :=
      Function.update_self ..
    have hstored' : (s.notifyRead id w).Stored w.deliver.parent := hstored
    obtain ⟨t, hl, hback⟩ := (h.notifyRead hw).returns hw' (by simp) hstored'
    exact ⟨t, leads_head (step_notify hw hp) trivial hl, hback⟩
  · exact h.returns hw hp hstored

/-- A block that is due has a waiter, at the latest when the task has taken what is on its way. -/
theorem Inv.enters (n : ℕ) : ∀ {s : Synchronizer}, Inv env S s → Due env s d →
    s.inner.length = n → ∃ t id w, (internal env S).Leads s t ∧ Inv env S t ∧
      t.waiting id = some w ∧ w.deliver.digest env.cr = d ∧ t.store = s.store ∧
      t.loopBacks = s.loopBacks := by
  have hpending : ∀ {s : Synchronizer}, Inv env S s → d ∈ s.pending →
      ∃ t id w, (internal env S).Leads s t ∧ Inv env S t ∧ t.waiting id = some w ∧
        w.deliver.digest env.cr = d ∧ t.store = s.store ∧ t.loopBacks = s.loopBacks := by
    intro s h hp
    obtain ⟨id, b, hb, hd⟩ := h.pending d hp
    obtain ⟨w, hw, rfl⟩ := waiting_of_held hb
    exact ⟨s, id, w, .refl, h, hw, hd, rfl, rfl⟩
  induction n with
  | zero =>
    intro s h hdue hn
    rcases hdue with hp | ⟨b, hb, -⟩
    · exact hpending h hp
    · rw [List.length_eq_zero_iff.mp hn] at hb
      cases hb
  | succ n ih =>
    intro s h hdue hn
    cases hinner : s.inner with
    | nil =>
      rw [hinner] at hn
      cases hn
    | cons c rest =>
      have hs : s.step env (.inner 0) = some ({ s with inner := rest }.register env 0 c) :=
        step_inner hinner 0
      obtain ⟨hstore, hqueue, hloop, -⟩ := register_frame env { s with inner := rest } 0 c
      have hdue' : Due env ({ s with inner := rest }.register env 0 c) d := by
        rcases hdue.step (n := s.loopBacks.length) le_rfl hs with hdue | ⟨e, he, -⟩
        · exact hdue
        · rw [hloop, List.drop_length] at he
          cases he
      have hlength : ({ s with inner := rest }.register env 0 c).inner.length = n := by
        rw [hinner, List.length_cons, Nat.succ.injEq] at hn
        rw [hqueue]
        exact hn
      obtain ⟨t, id, w, hl, ht, hw, hd, hstore', hloop'⟩ := ih (h.register hinner) hdue' hlength
      exact ⟨t, id, w, leads_head hs trivial hl, ht, hw, hd, hstore'.trans hstore,
        hloop'.trans hloop⟩

/-- Blocks with one digest have one parent. -/
theorem same_parent (hS : env.cr.CollisionFree S) {b b' : Block} (hb : S b.preimage)
    (hb' : S b'.preimage) (h : b.digest env.cr = b'.digest env.cr) : b.parent = b'.parent :=
  (Block.preimage_inj (hS _ _ hb hb' h)).2.2.2

/-- **Once its parent is stored, a block that is due is sent back by the store, the task and its
waiters alone.** -/
theorem Inv.sends_back (h : Inv env S s) (hS : env.cr.CollisionFree S) (hb : S b.preimage)
    (hdue : Due env s (b.digest env.cr)) (hstored : s.Stored b.parent) :
    ∃ t, (internal env S).Leads s t ∧ Back env t s.loopBacks.length (b.digest env.cr) := by
  obtain ⟨s₁, id, w, hl, h₁, hw, hd, hstore, hloop⟩ := h.enters _ hdue rfl
  have hstrings : S w.deliver.preimage := h₁.strings _ (h₁.entry id _ (held_eq hw)).2.2
  have hstored₁ : s₁.Stored w.deliver.parent := by
    rw [same_parent hS hstrings hb hd, Stored, hstore]
    exact hstored
  obtain ⟨t, hl', hback⟩ := h₁.wakes hw hstored₁
  rw [hloop, hd] at hback
  exact ⟨t, hl.trans hl', hback⟩

/-! ## Runs -/

/-- **No block that the core has suspended is lost, none comes back early, and none comes back for
nothing.**  After `get_parent_block` has answered `Ok(None)` for a block: in every later state in
which its parent is stored, the block has been sent back since, or the store, the task and its
waiters can send it back by themselves.  A block is sent back when its parent is stored, and had been
suspended; no waiter sends its block twice. -/
theorem blocks_resume (env : Env) (S : Bytes → Prop) (hS : env.cr.CollisionFree S) :
    (∀ s s' b t, (machine env S).Reachable s → s.lookup = .missing b →
      s.step env .core = some s' → (machine env S).Leads s' t → t.Stored b.parent →
      Back env t s'.loopBacks.length (b.digest env.cr) ∨
        ∃ u, (internal env S).Leads t u ∧ Back env u t.loopBacks.length (b.digest env.cr)) ∧
    ∀ s, (machine env S).Reachable s →
      (∀ e ∈ s.loopBacks, e.2 ∈ s.suspended ∧ s.Stored e.2.parent) ∧
      (s.loopBacks.map Prod.fst).Nodup ∧ ∀ e ∈ s.loopBacks, s.waiting e.1 = none := by
  refine ⟨?_, ?_⟩
  · intro s s' b t hr hb hs hl hstored
    have h := inv_reachable hr
    have hstring : S b.preimage := by
      have hlookup : s.lookup.Handed S := h.lookup
      rwa [hb] at hlookup
    have hdue : Due env s' (b.digest env.cr) := by
      simp only [step, hb, Option.some.injEq] at hs
      subst hs
      exact .inr ⟨b, List.mem_append_right _ (List.mem_singleton_self _), rfl⟩
    have hrun := DueSince.run (h.step (by rintro _ ⟨⟩) hs) hdue hl
    rcases hrun.due with hdue | hback
    · exact .inr (hrun.inv.sends_back hS hstring hdue hstored)
    · exact .inl hback
  · intro s hr
    have h := inv_reachable hr
    refine ⟨?_, h.once, ?_⟩
    · intro e he
      exact (h.delivered e he).2.2
    · intro e he
      exact Option.map_eq_none_iff.mp (h.delivered e he).2.1

/-! ### A parent that comes later -/

/-- The core has not found the parent. -/
def missed : Synchronizer := { new .empty with lookup := .missing lateBlock }

theorem missed_reachable : (machine sampleEnv (· = lateBlock.preimage)).Reachable missed := by
  have hexec : Machine.exec (step sampleEnv) (new .empty) [.getParentBlock lateBlock, .store] =
      some missed := rfl
  refine Machine.reachable_exec_restrict ?_ (.init ⟨.empty, rfl⟩) hexec
  rintro i hi s b rfl
  simp only [List.mem_cons, List.not_mem_nil, or_false, Input.getParentBlock.injEq,
    reduceCtorEq] at hi
  rw [hi]

/-- The core has suspended the block. -/
def suspending : Synchronizer :=
  { missed with lookup := .idle, suspended := [lateBlock], inner := [lateBlock] }

/-- Then its parent has been written. -/
def arrived : Synchronizer :=
  { suspending with store := ⟨Store.empty.write lateBlock.parent.toBytes [], fun _ => none⟩ }

/-- The block is sent back. -/
theorem blocks_resume_late : Back sampleEnv arrived 0 (lateBlock.digest sampleBatch) ∨
    ∃ u, (internal sampleEnv (· = lateBlock.preimage)).Leads arrived u ∧
      Back sampleEnv u 0 (lateBlock.digest sampleBatch) := by
  have hS : sampleEnv.cr.CollisionFree (· = lateBlock.preimage) :=
    fun x y hx hy _ => hx.trans hy.symm
  have hwritten : suspending.step sampleEnv (.command (.write lateBlock.parent.toBytes [])) =
      some { suspending with commands := [.write lateBlock.parent.toBytes []] } := rfl
  refine (blocks_resume sampleEnv _ hS).1 missed suspending lateBlock arrived missed_reachable rfl
    rfl (.tail (.tail .refl ⟨_, ?_, hwritten⟩) ⟨.store, ?_, rfl⟩) ?_
  · rintro b ⟨⟩
  · rintro b ⟨⟩
  · exact (Store.read_write_self ..).trans_ne (Option.some_ne_none _)

end AccountabilityGadget.Consensus.Synchronizer
