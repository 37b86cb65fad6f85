import AccountabilityGadget.Mempool.Waiting

/-!
# No block waits for payloads that are there

* `Due` — a block that is on its way back: its entry, or a message that makes one; `Due.step`.
* `Inv.awakens` — once its payloads are stored, the task, the waiters and the store bring it back.
* `wakes_up` — no wake-up is lost, none comes early, and none comes twice.
-/

set_option autoImplicit false

namespace AccountabilityGadget.Mempool.Synchronizer

open Consensus Notify

variable {env : Env} {S : Bytes → Prop} {s s' t : Synchronizer} {b : Block} {missing : List Digest}

/-! ## On the way back -/

variable (env) in
theorem register_frame (s : Synchronizer) (now : ℕ) (missing : List Digest) (b : Block) :
    (s.register env now missing b).store = s.store ∧
      (s.register env now missing b).inner = s.inner ∧
      (s.register env now missing b).loopBacks = s.loopBacks ∧
      (s.register env now missing b).pending = (s.enter env missing b).pending := by
  simp only [register]
  split_ifs <;> exact ⟨rfl, rfl, rfl, rfl⟩

variable (env) in
theorem handleMessage_frame (s : Synchronizer) (now : ℕ) (m : SynchronizerMessage) :
    (s.handleMessage env now m).store = s.store ∧ (s.handleMessage env now m).inner = s.inner ∧
      (s.handleMessage env now m).loopBacks = s.loopBacks := by
  cases m with
  | sync missing b =>
    rw [handleMessage]
    split_ifs
    · exact ⟨rfl, rfl, rfl⟩
    · obtain ⟨hstore, hinner, hloopBacks, -⟩ := register_frame env s now missing b
      exact ⟨hstore, hinner, hloopBacks⟩
  | clean round => exact ⟨rfl, rfl, rfl⟩

theorem stepVerify_frame (h : s.stepVerify = some s') : s'.store = s.store ∧
    s'.pending = s.pending ∧ s'.loopBacks = s.loopBacks ∧ s.inner ⊆ s'.inner := by
  unfold stepVerify at h
  split at h
  · cases h
    exact ⟨rfl, rfl, rfl, List.Subset.refl _⟩
  · split_ifs at h <;> cases h
    · exact ⟨rfl, rfl, rfl, List.Subset.refl _⟩
    · exact ⟨rfl, rfl, rfl, List.subset_append_left ..⟩
  · cases h

variable (env) in
theorem onTimer_frame (s : Synchronizer) (now : ℕ) : (s.onTimer env now).store = s.store ∧
    (s.onTimer env now).pending = s.pending ∧ (s.onTimer env now).loopBacks = s.loopBacks ∧
    (s.onTimer env now).inner = s.inner := by
  simp only [onTimer]
  split_ifs <;> exact ⟨rfl, rfl, rfl, rfl⟩

/-- After its message a block has an entry. -/
theorem pending_sync (s : Synchronizer) (now : ℕ) (missing : List Digest) (b : Block) :
    ((s.handleMessage env now (.sync missing b)).pending (b.digest env.cr)).isSome := by
  rw [handleMessage]
  split_ifs with hp
  · exact hp
  · rw [(register_frame env s now missing b).2.2.2, enter_pending, Function.update_self]
    rfl

/-- The message of another block does not matter. -/
theorem pending_sync_of_ne (s : Synchronizer) (now : ℕ) (missing : List Digest) {b : Block}
    {d : Digest} (hd : d ≠ b.digest env.cr) :
    (s.handleMessage env now (.sync missing b)).pending d = s.pending d := by
  rw [handleMessage]
  split_ifs
  · rfl
  · rw [(register_frame env s now missing b).2.2.2, enter_pending, Function.update_of_ne hd]

variable (env) in
/-- A block with this digest waits or will wait. -/
def Due (s : Synchronizer) (d : Digest) : Prop :=
  (s.pending d).isSome ∨ ∃ missing b, .sync missing b ∈ s.inner ∧ b.digest env.cr = d

theorem Due.mono {d : Digest} (h : Due env s d) (hpending : s'.pending = s.pending)
    (hinner : s.inner ⊆ s'.inner) : Due env s' d := by
  refine h.imp ?_ ?_
  · intro hp
    rwa [hpending]
  · rintro ⟨missing, b, hm, hd⟩
    exact ⟨missing, b, hinner hm, hd⟩

/-- The task does not clean up a round from `r` on. -/
def NoClean (r : RoundNumber) (s : Synchronizer) (i : Input) : Prop :=
  ∀ now r', i = .inner now → s.inner.head? = some (.clean r') → r' < r

variable (env) in
/-- A block with this digest has been sent back since there were `n` of them. -/
def Back (s : Synchronizer) (n : ℕ) (d : Digest) : Prop :=
  ∃ e ∈ s.loopBacks.drop n, e.2.digest env.cr = d

theorem loopBacks_step {i : Input} (hs : s.step env i = some s') : s.loopBacks <+: s'.loopBacks := by
  cases takes_of_step hs with
  | core hv => rw [(stepVerify_frame hv).2.2.1]
  | inner hm => rw [(handleMessage_frame env _ _ _).2.2]
  | complete hw _ _ => exact List.prefix_append ..
  | timer => rw [(onTimer_frame env _ _).2.2.1]
  | command _ | store _ | verify _ | cleanup _ | notify _ _ | cancel _ _ => exact List.prefix_rfl

section

variable (hS : env.cr.CollisionFree S)

include hS in
/-- Blocks with one digest have one round and one payload. -/
theorem same_block {b b' : Block} (hb : Handed env S b) (hb' : Handed env S b')
    (h : b.digest env.cr = b'.digest env.cr) : b.round = b'.round ∧ b.payload = b'.payload := by
  obtain ⟨-, hround, hpayload, -⟩ := Block.preimage_inj (hS _ _ hb.1 hb'.1 h)
  exact ⟨hround, hpayload⟩

include hS in
/-- **A block stays due until it is sent back.** -/
theorem Due.step (h : Inv env S s) (hb : Handed env S b) {i : Input} {n : ℕ}
    (hdue : Due env s (b.digest env.cr)) (hn : n ≤ s.loopBacks.length)
    (hclean : NoClean b.round s i) (hs : s.step env i = some s') :
    Due env s' (b.digest env.cr) ∨ Back env s' n (b.digest env.cr) := by
  cases takes_of_step hs with
  | core hv =>
    obtain ⟨-, hpending, -, hinner⟩ := stepVerify_frame hv
    exact .inl (hdue.mono hpending hinner)
  | cleanup _ => exact .inl (hdue.mono rfl (List.subset_append_left ..))
  | @inner now m queue hm =>
    left
    have hinner := (handleMessage_frame env { s with inner := queue } now m).2.1
    cases m with
    | sync missing b' =>
      by_cases hd : b.digest env.cr = b'.digest env.cr
      · rw [hd]
        exact .inl (pending_sync _ now missing b')
      · rcases hdue with hp | ⟨missing', b'', hsync, hd'⟩
        · refine .inl ?_
          rwa [pending_sync_of_ne _ now missing hd]
        · refine .inr ⟨missing', b'', ?_, hd'⟩
          rw [hm] at hsync
          rcases List.mem_cons.mp hsync with he | hsync
          · cases he
            exact absurd hd'.symm hd
          · rw [hinner]
            exact hsync
    | clean r =>
      have hr : r < b.round := hclean now r rfl (by rw [hm]; rfl)
      rcases hdue with hp | ⟨missing, b', hsync, hd⟩
      · -- the entry is one of a block of the same round, which is not cleaned up
        obtain ⟨⟨r', id⟩, he⟩ := Option.isSome_iff_exists.mp hp
        obtain ⟨w, hw, hd, hround⟩ := h.pending _ _ _ he
        have hsame := (same_block hS (h.waiters id w hw).1 hb hd).1
        refine .inl (Option.isSome_iff_exists.mpr ⟨(r', id), ?_⟩)
        refine Option.filter_eq_some_iff.mpr ⟨he, ?_⟩
        rw [← hround, hsame]
        exact decide_eq_true hr
      · refine .inr ⟨missing, b', ?_, hd⟩
        rw [hm] at hsync
        rcases List.mem_cons.mp hsync with he | hsync
        · cases he
        · rw [hinner]
          exact hsync
  | @complete id w hw _ _ =>
    by_cases hd : b.digest env.cr = w.block.digest env.cr
    · refine .inr ⟨(id, w.block), ?_, hd.symm⟩
      rw [deliver, List.drop_append_of_le_length hn]
      exact List.mem_append_right _ (List.mem_singleton_self _)
    · refine .inl (hdue.imp_left fun hp => ?_)
      rwa [deliver_pending, Function.update_of_ne hd]
  | timer =>
    obtain ⟨-, hpending, -, hinner⟩ := onTimer_frame env s _
    refine .inl (hdue.mono hpending ?_)
    rw [hinner]
    exact List.Subset.refl _
  | command _ | store _ | verify _ | notify _ _ | cancel _ _ => exact .inl hdue

end

/-! ## Waking up -/

/-- The steps of the store, the task and its waiters. -/
def Internal (_ : Synchronizer) : Input → Prop
  | .store | .inner _ | .notify _ _ | .complete _ => True
  | _ => False

section

variable (env S)

/-- What the store, the task and its waiters do by themselves. -/
def internal : Machine Synchronizer Input := (machine env S).restrict Internal

end

theorem internal_step {i : Input} (hs : s.step env i = some s') (hi : Internal s i) :
    (internal env S).step s i s' := by
  refine ⟨hi, ?_, hs⟩
  rintro b rfl
  cases hi

theorem leads_head {i : Input} (hs : s.step env i = some s') (hi : Internal s i)
    (hl : (Synchronizer.internal env S).Leads s' t) : (Synchronizer.internal env S).Leads s t :=
  .head ⟨i, internal_step hs hi⟩ hl

theorem step_inner {m : SynchronizerMessage} {queue : List SynchronizerMessage}
    (h : s.stopped = none) (hm : s.inner = m :: queue) (now : ℕ) : s.step env (.inner now) =
      some ({ s with inner := queue }.handleMessage env now m) := by
  show (if s.stopped.isSome then none else s.stepTask env (.inner now)) = _
  rw [if_neg (by rw [h]; exact Bool.false_ne_true), stepTask, hm]

theorem step_notify {id : ℕ} {w : Waiter} {d : Digest} (h : s.stopped = none)
    (hw : s.waiting id = some w) (hd : d ∈ w.unsent) :
    s.step env (.notify id d) = some (s.notifyRead id w d) := by
  show (if s.stopped.isSome then none else s.stepTask env (.notify id d)) = _
  rw [if_neg (by rw [h]; exact Bool.false_ne_true), stepTask, hw]
  exact if_pos hd

theorem step_complete {id : ℕ} {w : Waiter} (h : s.stopped = none) (hw : s.waiting id = some w)
    (hunsent : w.unsent = []) (hawaited : w.awaited = []) :
    s.step env (.complete id) = some (s.deliver env id w.block) := by
  show (if s.stopped.isSome then none else s.stepTask env (.complete id)) = _
  rw [if_neg (by rw [h]; exact Bool.false_ne_true), stepTask, hw]
  exact if_pos ⟨hunsent, hawaited⟩

/-- A waiter sends what it has still to ask for. -/
theorem Inv.asks (n : ℕ) : ∀ {s : Synchronizer} {id : ℕ} {w : Waiter}, Inv env S s →
    s.waiting id = some w → w.unsent.length = n →
    ∃ t w', (Synchronizer.internal env S).Leads s t ∧ Inv env S t ∧ t.waiting id = some w' ∧
      w'.unsent = [] ∧ w'.block = w.block ∧ t.store = s.store ∧ t.loopBacks = s.loopBacks := by
  induction n using Nat.strong_induction_on with
  | _ n ih =>
    intro s id w h hw hn
    cases hunsent : w.unsent with
    | nil => exact ⟨s, w, .refl, h, hw, hunsent, rfl, rfl, rfl⟩
    | cons d rest =>
      have hd : d ∈ w.unsent := hunsent ▸ List.mem_cons_self
      have hs : s.step env (.notify id d) = some (s.notifyRead id w d) :=
        step_notify h.running hw hd
      have hshort : (w.unsent.filter (· ≠ d)).length < n := by
        rw [← hn]
        exact List.length_filter_lt_length_iff_exists.mpr ⟨d, hd, by simp⟩
      obtain ⟨t, w', hl, ht, hw', hnil, hblock, hstore, hloop⟩ :=
        ih _ hshort (h.notifyRead hw hd) (Function.update_self ..) rfl
      exact ⟨t, w', leads_head hs trivial hl, ht, hw', hnil, hblock, hstore, hloop⟩

/-- The store handles the commands that are there. -/
theorem Inv.drains (n : ℕ) : ∀ {s : Synchronizer} {id : ℕ} {w : Waiter}, Inv env S s →
    s.waiting id = some w → w.unsent = [] → s.commands.length = n →
    ∃ t w', (Synchronizer.internal env S).Leads s t ∧ Inv env S t ∧ t.waiting id = some w' ∧
      w'.unsent = [] ∧ w'.block = w.block ∧ t.commands = [] ∧ (∀ d, s.Stored d → t.Stored d) ∧
      t.loopBacks = s.loopBacks := by
  induction n with
  | zero =>
    intro s id w h hw hunsent hn
    exact ⟨s, w, .refl, h, hw, hunsent, rfl, List.length_eq_zero_iff.mp hn, fun _ hd => hd, rfl⟩
  | succ n ih =>
    intro s id w h hw hunsent hn
    cases hc : s.commands with
    | nil =>
      rw [hc] at hn
      cases hn
    | cons c queue =>
      have hs : s.step env .store = some (s.served c queue) := by
        simp only [Synchronizer.step, hc]
      have hw' : (s.served c queue).waiting id = some (w.receive (s.store.handle c).2 id) :=
        Option.map_eq_some_iff.mpr ⟨w, hw, rfl⟩
      have hlength : (s.served c queue).commands.length = n := by
        rw [hc, List.length_cons, Nat.succ.injEq] at hn
        exact hn
      obtain ⟨t, w', hl, ht, hwt, hnil, hblock, hempty, hstored, hloop⟩ :=
        ih (h.served hc) hw' hunsent hlength
      exact ⟨t, w', leads_head hs trivial hl, ht, hwt, hnil, hblock, hempty,
        fun d hd => hstored d (StoreActor.stored_handle hd c), hloop⟩

/-- With nothing left to handle, a waiter for what is stored has all its answers. -/
theorem Inv.answered (h : Inv env S s) {id : ℕ} {w : Waiter} (hw : s.waiting id = some w)
    (hempty : s.commands = []) (hfull : ∀ d ∈ w.block.payload, s.Stored d) : w.awaited = [] := by
  obtain ⟨-, hinv, -⟩ := h.waiters id w hw
  by_contra hne
  obtain ⟨d, hd⟩ := List.exists_mem_of_ne_nil _ hne
  obtain ⟨hmissing, hasked⟩ := hinv.awaited d hd
  have hstored : s.Stored d := hfull d (hinv.covered.ofMissing d hmissing)
  rcases hasked with hasked | hasked
  · rw [hempty] at hasked
    cases hasked
  · rw [h.settled d.toBytes hstored] at hasked
    cases hasked

/-- A waiter whose payloads are stored sends its block back. -/
theorem Inv.wakes (h : Inv env S s) {id : ℕ} {w : Waiter} (hw : s.waiting id = some w)
    (hfull : ∀ d ∈ w.block.payload, s.Stored d) :
    ∃ t, (Synchronizer.internal env S).Leads s t ∧
      Back env t s.loopBacks.length (w.block.digest env.cr) := by
  obtain ⟨s₁, w₁, hl₁, h₁, hw₁, hnil₁, hblock₁, hstore₁, hloop₁⟩ := h.asks _ hw rfl
  obtain ⟨s₂, w₂, hl₂, h₂, hw₂, hnil₂, hblock₂, hempty, hstored, hloop₂⟩ :=
    h₁.drains _ hw₁ hnil₁ rfl
  have hblock : w₂.block = w.block := hblock₂.trans hblock₁
  have hfull₂ : ∀ d ∈ w₂.block.payload, s₂.Stored d := by
    intro d hd
    apply hstored
    rw [Stored, hstore₁]
    exact hfull d (hblock ▸ hd)
  have hs : s₂.step env (.complete id) = some (s₂.deliver env id w₂.block) :=
    step_complete h₂.running hw₂ hnil₂ (h₂.answered hw₂ hempty hfull₂)
  refine ⟨_, (hl₁.trans hl₂).tail ⟨_, internal_step hs trivial⟩, (id, w₂.block), ?_, by rw [hblock]⟩
  rw [Synchronizer.deliver, hloop₂, hloop₁, List.drop_left]
  exact List.mem_singleton_self _

/-- A block that is due has a waiter, at the latest when its message has been handled. -/
theorem Inv.enters (n : ℕ) : ∀ {s : Synchronizer} {d : Digest}, Inv env S s → Due env s d →
    s.inner.length = n → ∃ t id w, (Synchronizer.internal env S).Leads s t ∧ Inv env S t ∧
      t.waiting id = some w ∧ w.block.digest env.cr = d ∧ t.store = s.store ∧
      t.loopBacks = s.loopBacks := by
  induction n with
  | zero =>
    intro s d h hdue hn
    rcases hdue with hp | ⟨missing, b, hm, -⟩
    · obtain ⟨⟨r, id⟩, he⟩ := Option.isSome_iff_exists.mp hp
      obtain ⟨w, hw, hd, -⟩ := h.pending d r id he
      exact ⟨s, id, w, .refl, h, hw, hd, rfl, rfl⟩
    · rw [List.length_eq_zero_iff.mp hn] at hm
      cases hm
  | succ n ih =>
    intro s d h hdue hn
    rcases hdue with hp | ⟨missing, b, hm, rfl⟩
    · obtain ⟨⟨r, id⟩, he⟩ := Option.isSome_iff_exists.mp hp
      obtain ⟨w, hw, hd, -⟩ := h.pending d r id he
      exact ⟨s, id, w, .refl, h, hw, hd, rfl, rfl⟩
    · cases hinner : s.inner with
      | nil =>
        rw [hinner] at hm
        cases hm
      | cons m queue =>
        let s' := { s with inner := queue }.handleMessage env 0 m
        have hs : s.step env (.inner 0) = some s' := step_inner h.running hinner 0
        obtain ⟨hstore, hqueue, hloop⟩ :=
          handleMessage_frame env { s with inner := queue } 0 m
        have hdue' : Due env s' (b.digest env.cr) := by
          rw [hinner] at hm
          rcases List.mem_cons.mp hm with rfl | hm
          · exact .inl (pending_sync _ 0 missing b)
          · exact .inr ⟨missing, b, hqueue ▸ hm, rfl⟩
        have hlength : s'.inner.length = n := by
          rw [hinner, List.length_cons, Nat.succ.injEq] at hn
          rw [hqueue]
          exact hn
        obtain ⟨t, id, w, hl, ht, hw, hd, hstore', hloop'⟩ :=
          ih (h.handleMessage 0 hinner) hdue' hlength
        exact ⟨t, id, w, leads_head hs trivial hl, ht, hw, hd, hstore'.trans hstore,
          hloop'.trans hloop⟩

/-- **Once its payloads are stored, a block that is due is sent back by the store, the task and its
waiters alone.** -/
theorem Inv.awakens (h : Inv env S s) (hS : env.cr.CollisionFree S) (hb : Handed env S b)
    (hdue : Due env s (b.digest env.cr)) (hfull : ∀ d ∈ b.payload, s.Stored d) :
    ∃ t, (Synchronizer.internal env S).Leads s t ∧
      Back env t s.loopBacks.length (b.digest env.cr) := by
  obtain ⟨s₁, id, w, hl, h₁, hw, hd, hstore, hloop⟩ := h.enters _ hdue rfl
  have hsame := (same_block hS (h₁.waiters id w hw).1 hb hd).2
  have hfull₁ : ∀ d ∈ w.block.payload, s₁.Stored d := by
    intro d hd
    rw [Stored, hstore]
    exact hfull d (hsame ▸ hd)
  obtain ⟨t, hl', hback⟩ := h₁.wakes hw hfull₁
  rw [hloop, hd] at hback
  exact ⟨t, hl.trans hl', hback⟩

/-! ## Runs -/

/-- What is stored stays stored. -/
theorem stored_step {i : Input} {d : Digest} (hd : s.Stored d) (hs : s.step env i = some s') :
    s'.Stored d := by
  cases takes_of_step hs with
  | store hc => exact StoreActor.stored_handle hd _
  | core hv => rwa [Stored, (stepVerify_frame hv).1]
  | inner hm =>
    rw [Stored, (handleMessage_frame env _ _ _).1]
    exact hd
  | timer => rwa [Stored, (onTimer_frame env _ _).1]
  | command _ | verify _ | cleanup _ | notify _ _ | complete _ _ _ | cancel _ _ => exact hd

theorem Back.mono {n : ℕ} {d : Digest} (h : Back env s n d) (hs : s.loopBacks <+: s'.loopBacks) :
    Back env s' n d := by
  obtain ⟨e, he, hd⟩ := h
  exact ⟨e, (hs.drop n).subset he, hd⟩

/-- What holds in a run without the clean-up, after a block has become due. -/
structure DueSince (env : Env) (S : Bytes → Prop) (s : Synchronizer) (b : Block) (t : Synchronizer) :
    Prop where
  inv : Inv env S t
  length : s.loopBacks.length ≤ t.loopBacks.length
  stored : ∀ d, s.Stored d → t.Stored d
  due : Due env t (b.digest env.cr) ∨ Back env t s.loopBacks.length (b.digest env.cr)

theorem DueSince.run (hS : env.cr.CollisionFree S) (h : Inv env S s) (hb : Handed env S b)
    (hdue : Due env s (b.digest env.cr))
    (hl : ((machine env S).restrict (NoClean b.round)).Leads s t) : DueSince env S s b t := by
  induction hl with
  | refl => exact ⟨h, le_rfl, fun _ hd => hd, .inl hdue⟩
  | tail _ hst ih =>
    obtain ⟨i, hclean, hi, hs⟩ := hst
    have hgrow := loopBacks_step hs
    refine ⟨ih.inv.step hi hs, ih.length.trans hgrow.length_le,
      fun d hd => stored_step (ih.stored d hd) hs, ?_⟩
    rcases ih.due with hdue | hback
    · exact hdue.step hS ih.inv hb ih.length hclean hs
    · exact .inr (hback.mono hgrow)

/-- No wake-up is lost. -/
theorem no_lost_wakeup (hS : env.cr.CollisionFree S) (h : Inv env S s')
    (hv : s'.verify = .asking b [] missing) (hne : missing ≠ []) (hs : s'.step env .core = some s)
    (hl : ((machine env S).restrict (NoClean b.round)).Leads s t)
    (hstored : ∀ d ∈ missing, t.Stored d) :
    Back env t s.loopBacks.length (b.digest env.cr) ∨
      ∃ u, (internal env S).Leads t u ∧ Back env u t.loopBacks.length (b.digest env.cr) := by
  have hinv : VerifyInv env S s' (.asking b [] missing) := hv ▸ h.verify
  obtain ⟨hb, hcov⟩ := hinv
  have hsync : s = { s' with
      verify := .idle
      inner := s'.inner ++ [.sync missing b]
      answers := s'.answers ++ [(b, false)] } := by
    have hcore : s'.stepVerify = some s := hs
    rw [Synchronizer.stepVerify, hv] at hcore
    simp only [if_neg hne, Option.some.injEq] at hcore
    exact hcore.symm
  have hdue : Due env s (b.digest env.cr) := by
    refine .inr ⟨missing, b, ?_, rfl⟩
    rw [hsync]
    exact List.mem_append_right _ (List.mem_singleton_self _)
  have hrun := DueSince.run hS (h.step (by rintro _ ⟨⟩) hs) hb hdue hl
  rcases hrun.due with hdue | hback
  · right
    refine hrun.inv.awakens hS hb hdue ?_
    intro d hd
    rcases hcov.stored d hd with hd | hd | hd
    · cases hd
    · exact hstored d hd
    · exact hrun.stored d (stored_step hd hs)
  · exact .inl hback

/-- No wake-up comes before the payloads. -/
theorem no_early_wakeup (h : Inv env S s) {i : Input} (hs : s.step env i = some t) :
    t.loopBacks = s.loopBacks ∨ ∃ id w, s.waiting id = some w ∧
      t.loopBacks = s.loopBacks ++ [(id, w.block)] ∧ (∀ d ∈ w.missing, s.Stored d) ∧
      ∀ d ∈ w.block.payload, s.Stored d := by
  cases takes_of_step hs with
  | @complete id w hw hunsent hawaited =>
    right
    obtain ⟨-, hinv, -⟩ := h.waiters id w hw
    have hmissing : ∀ d ∈ w.missing, s.Stored d := by
      intro d hd
      rcases hinv.slots d hd with hd | hd | hd
      · rw [hunsent] at hd
        cases hd
      · rw [hawaited] at hd
        cases hd
      · exact hd
    refine ⟨id, w, hw, rfl, hmissing, ?_⟩
    intro d hd
    rcases hinv.covered.stored d hd with hd | hd | hd
    · cases hd
    · exact hmissing d hd
    · exact hd
  | core hv => exact .inl (stepVerify_frame hv).2.2.1
  | inner hm => exact .inl (handleMessage_frame env _ _ _).2.2
  | timer => exact .inl (onTimer_frame env _ _).2.2.1
  | command _ | store _ | verify _ | cleanup _ | notify _ _ | cancel _ _ => exact .inl rfl

/-- **No wake-up is lost, none comes early, and none comes twice.**  After `verify_payload` has
answered `Ok(false)` for a block, and while nothing is cleaned up from its round on: when its missing
payloads are stored, the block has been sent back since, or the store, the task and its waiters can
send it back by themselves.  A block is sent back when all its payloads are stored.  No waiter sends
its block back twice, and the waiter of an entry has not sent it back yet. -/
theorem wakes_up (env : Env) (S : Bytes → Prop) (hS : env.cr.CollisionFree S) :
    (∀ s' s b missing t, (machine env S).Reachable s' → s'.verify = .asking b [] missing →
      missing ≠ [] → s'.step env .core = some s →
      ((machine env S).restrict (NoClean b.round)).Leads s t → (∀ d ∈ missing, t.Stored d) →
      Back env t s.loopBacks.length (b.digest env.cr) ∨
        ∃ u, (internal env S).Leads t u ∧ Back env u t.loopBacks.length (b.digest env.cr)) ∧
    (∀ s i t, (machine env S).Reachable s → s.step env i = some t → t.loopBacks = s.loopBacks ∨
      ∃ id w, s.waiting id = some w ∧ t.loopBacks = s.loopBacks ++ [(id, w.block)] ∧
        (∀ d ∈ w.missing, s.Stored d) ∧ ∀ d ∈ w.block.payload, s.Stored d) ∧
    ∀ s, (machine env S).Reachable s → (s.loopBacks.map Prod.fst).Nodup ∧
      ∀ d r id, s.pending d = some (r, id) → id ∉ s.loopBacks.map Prod.fst := by
  refine ⟨?_, ?_, ?_⟩
  · intro s' s b missing t hs' hv hne hs hl hstored
    exact no_lost_wakeup hS (inv_reachable hs') hv hne hs hl hstored
  · intro s i t hs hstep
    exact no_early_wakeup (inv_reachable hs) hstep
  · intro s hs
    have h := inv_reachable hs
    refine ⟨h.once, ?_⟩
    intro d r id hp hmem
    obtain ⟨e, he, rfl⟩ := List.mem_map.mp hmem
    obtain ⟨w, hw, -⟩ := h.pending d r e.1 hp
    rw [(h.delivered e he).2] at hw
    cases hw

/-! ### A payload that comes later -/

def sampleEnv : Env := ⟨sampleBatch, keyB, [keyA], 10000⟩

/-- A block with one payload. -/
def waitingBlock : Block :=
  .new sampleBatch .genesis none keyA 1 [harmless.digest sampleBatch.toCrypto]

/-- The core has found that the payload is missing. -/
def checked : Synchronizer :=
  { new .empty with
    verify := .asking waitingBlock [] [harmless.digest sampleBatch.toCrypto] }

theorem checked_reachable : (machine sampleEnv (· = waitingBlock.preimage)).Reachable checked := by
  have hexec : Machine.exec (step sampleEnv) (new .empty) [.verify waitingBlock, .core, .store] =
      some checked := rfl
  refine Machine.reachable_exec_restrict ?_ (.init ⟨.empty, rfl⟩) hexec
  rintro i hi s b rfl
  simp only [List.mem_cons, List.not_mem_nil, or_false, Input.verify.injEq, reduceCtorEq] at hi
  subst hi
  exact ⟨rfl, List.mem_singleton_self _⟩

/-- The core has answered `Ok(false)`. -/
def answered : Synchronizer :=
  { checked with
    verify := .idle
    inner := [.sync [harmless.digest sampleBatch.toCrypto] waitingBlock]
    answers := [(waitingBlock, false)] }

/-- Then the payload has been written. -/
def arrived : Synchronizer :=
  { answered with
    store := ⟨Store.empty.write (harmless.digest sampleBatch.toCrypto).toBytes harmless.encode,
      fun _ => none⟩ }

/-- The block is sent back. -/
theorem wakes_up_sample : Back sampleEnv arrived 0 (waitingBlock.digest sampleBatch) ∨
    ∃ u, (internal sampleEnv (· = waitingBlock.preimage)).Leads arrived u ∧
      Back sampleEnv u 0 (waitingBlock.digest sampleBatch) := by
  have hS : sampleEnv.cr.CollisionFree (· = waitingBlock.preimage) :=
    fun x y hx hy _ => hx.trans hy.symm
  have hwritten : answered.step sampleEnv
      (.command (.write (harmless.digest sampleBatch.toCrypto).toBytes harmless.encode)) =
      some { answered with
        commands := [.write (harmless.digest sampleBatch.toCrypto).toBytes harmless.encode] } := rfl
  refine (wakes_up sampleEnv _ hS).1 checked answered waitingBlock _ arrived checked_reachable rfl
    (List.cons_ne_nil _ _) rfl (.tail (.tail .refl ⟨_, ?_, ?_, hwritten⟩) ⟨.store, ?_, ?_, rfl⟩) ?_
  · rintro now r ⟨⟩
  · rintro b ⟨⟩
  · rintro now r ⟨⟩
  · rintro b ⟨⟩
  · intro d hd
    rw [List.mem_singleton.mp hd, Stored]
    exact (Store.read_write_self ..).trans_ne (Option.some_ne_none _)

end AccountabilityGadget.Mempool.Synchronizer
