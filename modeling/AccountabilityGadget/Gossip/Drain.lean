import AccountabilityGadget.Gossip.Replay

/-!
# What is sent comes back

As long as the calls of third parties succeed and no subscriber of the node has dropped its receiver,
the loop and the forwarding tasks can always go on until every entry is delivered.

* `work` — how much is left to do for a subscriber; `progress`, `drains`.
* `replay_completes` — for a subscriber that is the only one of its topic.
-/

set_option autoImplicit false

namespace AccountabilityGadget.Gossip

variable {O : String → Entry → Prop} {B : Prop} {s t : Gossip} {topic : String} {e : Entry}

/-- Steps of the loop, of the forwarding tasks, and of subscribers that receive. -/
def internal : Machine Gossip Input :=
  (Machine.ofStep (· = new) step).restrict fun _ i =>
    (∃ id, i = .forward id ∨ i = .receive id) ∨ i = .command true true ∨ i = .deliver

/-- What these steps leave of a subscriber. -/
def Endpoint.key (x : Endpoint) : String × List Entry × Bool := (x.topic, x.sent, x.receiving)

/-- The subscribers are the same, and all of them receive. -/
structure Same (s t : Gossip) : Prop where
  stopped : t.stopped = none
  key : ∀ j, (t.endpoints j).map Endpoint.key = (s.endpoints j).map Endpoint.key

theorem Same.trans {u : Gossip} (h : Same s t) (h' : Same t u) : Same s u :=
  ⟨h'.stopped, fun j => (h'.key j).trans (h.key j)⟩

theorem Same.endpoint {j : ℕ} {x : Endpoint} (h : Same s t) (hx : s.endpoints j = some x) :
    ∃ y, t.endpoints j = some y ∧ y.topic = x.topic ∧ y.sent = x.sent ∧ y.receiving = x.receiving := by
  have hkey := h.key j
  rw [hx, Option.map_some] at hkey
  obtain ⟨y, hy, hyx⟩ := Option.map_eq_some_iff.mp hkey
  obtain ⟨ht, hs, hr⟩ : y.topic = x.topic ∧ y.sent = x.sent ∧ y.receiving = x.receiving := by
    simpa [Endpoint.key] using hyx
  exact ⟨y, hy, ht, hs, hr⟩

theorem Same.symm (h : Same s t) (hrun : s.stopped = none) : Same t s :=
  ⟨hrun, fun j => (h.key j).symm⟩

theorem Same.set {id : ℕ} {x x' : Endpoint} (hrun : s.stopped = none) (hx : s.endpoints id = some x)
    (hkey : x'.key = x.key) : Same s (s.setEndpoint id x') := by
  refine ⟨hrun, fun j => ?_⟩
  show (Function.update s.endpoints id (some x') j).map Endpoint.key = _
  by_cases hj : j = id
  · rw [hj, Function.update_self, hx, Option.map_some, Option.map_some, hkey]
  · rw [Function.update_of_ne hj]

def Receiving (s : Gossip) : Prop := ∀ j x, s.endpoints j = some x → x.receiving = true

theorem Receiving.same (h : s.Receiving) (hrun : s.stopped = none) (hsame : Same s t) :
    t.Receiving := by
  intro j y hy
  obtain ⟨x, hx, -, -, hr⟩ := (hsame.symm hrun).endpoint hy
  exact hr.symm.trans (h j x hx)

/-! ## One step -/

/-- The entries that the task of a subscriber has still to forward. -/
def waitingFor (s : Gossip) (id : ℕ) : ℕ := ((s.endpoints id).map (·.outbound.length)).getD 0

/-- An entry is forwarded, taken and delivered. -/
def work (s : Gossip) (id : ℕ) : ℕ :=
  3 * s.waitingFor id + 2 * s.cmds.length + if s.delivering.isSome then 1 else 0

/-- Internal steps lead to less work. -/
def Advances (O : String → Entry → Prop) (B : Prop) (s : Gossip) (id : ℕ) : Prop :=
  ∃ t, internal.Leads s t ∧ Inv O B t ∧ Same s t ∧ t.work id < s.work id

theorem Inv.step_internal {i : Input} (h : Inv O B s) (hs : s.step i = some t)
    (hi : (∃ id, i = .forward id ∨ i = .receive id) ∨ i = .command true true ∨ i = .deliver) :
    Inv O B t ∧ internal.step s i t := by
  refine ⟨h.step ?_ hs, hi, hs⟩
  rintro topic data rfl
  rcases hi with ⟨id, hi | hi⟩ | hi | hi <;> cases hi

theorem step_running {i : Input} (hrun : s.stopped = none)
    (hi : i = .command true true ∨ i = .deliver) : s.step i = s.stepLoop i := by
  have hgoes : (if s.stopped.isSome then none else s.stepLoop i) = s.stepLoop i := by
    rw [hrun]
    rfl
  rcases hi with rfl | rfl <;> exact hgoes

theorem waitingFor_eq {id : ℕ} {x : Endpoint} (hx : s.endpoints id = some x) :
    s.waitingFor id = x.outbound.length := by
  rw [waitingFor, hx]
  rfl

theorem waitingFor_set {id j : ℕ} {x x' : Endpoint} (hx : s.endpoints id = some x)
    (hout : x'.outbound = x.outbound) : (s.setEndpoint id x').waitingFor j = s.waitingFor j := by
  by_cases hj : j = id
  · subst hj
    rw [waitingFor_eq hx, waitingFor_eq (x := x') (Function.update_self ..), hout]
  · show ((Function.update s.endpoints id (some x') j).map (·.outbound.length)).getD 0 = _
    rw [Function.update_of_ne hj]
    rfl

/-- A subscriber takes what is in its channel. -/
theorem makes_room (id : ℕ) : ∀ (l : List (Bool × Entry)) {s : Gossip} {x : Endpoint}, Inv O B s →
    s.stopped = none → s.endpoints id = some x → x.inbound = l →
    ∃ t, internal.Leads s t ∧ Inv O B t ∧ Same s t ∧ t.delivering = s.delivering ∧
      (∀ j, t.work j = s.work j) ∧ ∃ y, t.endpoints id = some y ∧ y.inbound = []
  | [], s, x, h, hrun, hx, hin => ⟨s, .refl, h, ⟨hrun, fun _ => rfl⟩, rfl, fun _ => rfl, x, hx, hin⟩
  | e :: l, s, x, h, hrun, hx, hin => by
    let x' : Endpoint := { x with inbound := l, received := x.received ++ [e] }
    have hs : s.step (.receive id) = some (s.setEndpoint id x') := by
      simp only [step, hx, hin]
      rfl
    obtain ⟨h', hint⟩ := h.step_internal hs (.inl ⟨id, .inr rfl⟩)
    obtain ⟨t, hl, ht, hsame, hd, hwork, hroom⟩ :=
      makes_room id l (x := x') h' hrun (Function.update_self ..) rfl
    have hset : Same s (s.setEndpoint id x') := Same.set hrun hx rfl
    have hsame_work : ∀ j, (s.setEndpoint id x').work j = s.work j := by
      intro j
      have hout : (s.setEndpoint id x').waitingFor j = s.waitingFor j := waitingFor_set hx rfl
      rw [work, hout]
      rfl
    exact ⟨t, .head ⟨_, hint⟩ hl, ht, hset.trans hsame, hd,
      fun j => (hwork j).trans (hsame_work j), hroom⟩

theorem Inv.advances_deliver {d : Delivery} (h : Inv O B s) (hrun : s.stopped = none)
    (hreceiving : s.Receiving) (hd : s.delivering = some d) (id : ℕ) : Advances O B s id := by
  obtain ⟨x, hx, -⟩ := h.delivering d hd
  obtain ⟨t, hl, ht, hsame, hdt, hwork, y, hy, hroom⟩ := makes_room d.tx x.inbound h hrun hx rfl
  rw [hd] at hdt
  have hs : t.step .deliver = some (t.delivered d y) := by
    have hin : y.inbound.length < capacity := by
      rw [hroom]
      decide
    rw [step_running hsame.stopped (.inr rfl)]
    simp only [stepLoop, hdt, hy, Option.bind_some, stepDeliver,
      hreceiving.same hrun hsame d.tx y hy, if_true, if_pos hin]
  obtain ⟨ht', hint⟩ := ht.step_internal hs (.inr (.inr rfl))
  have hset : Same t (t.setEndpoint d.tx { y with
      arrived := y.arrived ++ [(d.replayed, d.entry)]
      inbound := y.inbound ++ [(d.replayed, d.entry)] }) := Same.set hsame.stopped hy rfl
  have hdelivered : Same t (t.delivered d y) := ⟨hsame.stopped, hset.key⟩
  refine ⟨_, hl.tail ⟨_, hint⟩, ht', hsame.trans hdelivered, ?_⟩
  have hout : (t.delivered d y).waitingFor id = t.waitingFor id := waitingFor_set hy rfl
  rw [← hwork id, work, work, hout, hdt]
  exact Nat.lt_succ_self _

/-- A command whose calls succeed does not stop the loop. -/
theorem Inv.handle_true {c : Cmd} {rest : List Cmd} (h : Inv O B s) (hc : s.cmds = c :: rest) :
    ({ s with cmds := rest }.handle true true c).stopped = s.stopped ∧
      ({ s with cmds := rest }.handle true true c).cmds = rest := by
  cases c with
  | subscribe topic tx => exact ⟨rfl, rfl⟩
  | publish topic e ephemeral =>
    obtain ⟨tx, htx⟩ := Option.isSome_iff_exists.mp (h.publish [] topic e ephemeral rest hc).nil
    have hstart : { s with cmds := rest }.handle true true (.publish topic e ephemeral) =
        { s with
          cmds := rest
          published := s.published ++ [(topic, kvSerialize e)]
          delivering := some ⟨tx, e, true⟩ } := by
      simp only [Gossip.handle, not_true_eq_false, and_false, if_false, if_true, start, htx]
    rw [hstart]
    exact ⟨rfl, rfl⟩

theorem Inv.advances_command {c : Cmd} {rest : List Cmd} (h : Inv O B s) (hrun : s.stopped = none)
    (hd : s.delivering = none) (hc : s.cmds = c :: rest) (id : ℕ) : Advances O B s id := by
  have hs : s.step (.command true true) = some ({ s with cmds := rest }.handle true true c) := by
    rw [step_running hrun (.inl rfl), stepLoop]
    simp only [hd, hc]
  obtain ⟨h', hint⟩ := h.step_internal hs (.inr (.inl rfl))
  have hends := handle_endpoints { s with cmds := rest } true true c
  have hout : ({ s with cmds := rest }.handle true true c).waitingFor id = s.waitingFor id := by
    rw [waitingFor, hends]
    rfl
  obtain ⟨hstop, hcmds⟩ := h.handle_true hc
  refine ⟨_, .single ⟨_, hint⟩, h', ⟨hstop.trans hrun, fun j => congrArg _ (congrFun hends j)⟩, ?_⟩
  rw [work, work, hout, hcmds, hc, List.length_cons]
  split_ifs <;> omega

theorem Inv.advances_forward {id : ℕ} {x : Endpoint} {rest : List Entry} (h : Inv O B s)
    (hrun : s.stopped = none) (hx : s.endpoints id = some x) (hout : x.outbound = e :: rest) :
    Advances O B s id := by
  have hs : s.step (.forward id) = some { s.setEndpoint id { x with outbound := rest } with
      cmds := s.cmds ++ [.publish x.topic e x.ephemeral] } := by
    have hforwarding : x.forwarding = true := by
      by_contra hended
      have hnil := (h.ended id x hx (by simpa using hended) hrun).2
      exact absurd (hout.symm.trans hnil) nofun
    show (s.endpoints id).bind (fun x => if x.forwarding then s.stepForward id x else none) = _
    rw [hx, Option.bind_some, if_pos hforwarding]
    simp only [stepForward, hout, hrun]
    rfl
  obtain ⟨h', hint⟩ := h.step_internal hs (.inl ⟨id, .inl rfl⟩)
  have hset : Same s (s.setEndpoint id { x with outbound := rest }) := Same.set hrun hx rfl
  refine ⟨_, .single ⟨_, hint⟩, h', ⟨hrun, hset.key⟩, ?_⟩
  rw [work, work, waitingFor_eq hx, waitingFor_eq (x := { x with outbound := rest })
    (Function.update_self ..), hout, List.length_append]
  show 3 * rest.length + 2 * (s.cmds.length + 1) + _ < 3 * (rest.length + 1) + _ + _
  show 3 * rest.length + 2 * (s.cmds.length + 1) + (if s.delivering.isSome then 1 else 0) < _
  omega

/-! ## All of them -/

theorem Inv.drains (id : ℕ) : ∀ (n : ℕ) {s : Gossip}, Inv O B s → s.stopped = none → s.Receiving →
    s.work id = n → ∃ t, internal.Leads s t ∧ Inv O B t ∧ Same s t ∧ t.work id = 0 := by
  intro n
  induction n using Nat.strong_induction_on with
  | _ n ih =>
    intro s h hrun hreceiving hn
    by_cases hzero : s.work id = 0
    · exact ⟨s, .refl, h, ⟨hrun, fun _ => rfl⟩, hzero⟩
    · have hadvances : Advances O B s id := by
        cases hd : s.delivering with
        | some d => exact h.advances_deliver hrun hreceiving hd id
        | none =>
          cases hc : s.cmds with
          | cons c rest => exact h.advances_command hrun hd hc id
          | nil =>
            have hwaiting : s.waitingFor id ≠ 0 := by
              simpa [work, hd, hc] using hzero
            cases hx : s.endpoints id with
            | none => simp [waitingFor, hx] at hwaiting
            | some x =>
              rw [waitingFor_eq hx] at hwaiting
              obtain ⟨e, rest, hout⟩ := List.exists_cons_of_length_pos (Nat.pos_of_ne_zero hwaiting)
              exact h.advances_forward hrun hx hout
      obtain ⟨t, hl, ht, hsame, hless⟩ := hadvances
      obtain ⟨u, hl', hu, hsame', hwork⟩ :=
        ih (t.work id) (hn ▸ hless) ht hsame.stopped (hreceiving.same hrun hsame) rfl
      exact ⟨u, hl.trans hl', hu, hsame.trans hsame', hwork⟩

/-- **What is sent comes back.**  From every reachable state in which the loop runs and the
subscribers of the node have kept their receivers, the loop, the tasks that forward for a subscriber
that is the only one of its topic, and the receivers can go on until it has got back all that it has
sent. -/
theorem replay_completes {P : Type*} [DecidableEq P] {Adv : String → Bytes → Prop} {s : P → Gossip}
    (hr : (machine Adv).Reachable s) (p : P) (hrun : (s p).stopped = none)
    (hreceiving : (s p).Receiving) (id : ℕ) (x : Endpoint) (hx : (s p).endpoints id = some x)
    (hsole : (s p).Sole id x.topic) :
    ∃ t, internal.Leads (s p) t ∧ ∃ y, t.endpoints id = some y ∧ y.sent = x.sent ∧
      y.replayed = x.sent := by
  obtain ⟨t, hl, ht, hsame, hwork⟩ := (inv_reachable hr p).drains id _ hrun hreceiving rfl
  obtain ⟨y, hy, htopic, hsent, -⟩ := hsame.endpoint hx
  have hsole' : t.Sole id y.topic := by
    intro j z hz hzt
    obtain ⟨z', hz', hzt', -, -⟩ := (hsame.symm hrun).endpoint hz
    exact hsole j z' hz' (hzt'.trans (hzt.trans htopic))
  obtain ⟨hcmds, hdelivering, hout⟩ : t.cmds = [] ∧ t.delivering = none ∧ y.outbound = [] := by
    rw [work, waitingFor_eq hy] at hwork
    refine ⟨?_, ?_, ?_⟩
    · exact List.length_eq_zero_iff.mp (by omega)
    · cases hd : t.delivering with
      | none => rfl
      | some d => simp [hd] at hwork
    · exact List.length_eq_zero_iff.mp (by omega)
  have hall := ht.replay id y hy hsole' hsame.stopped
  rw [hcmds, hout, replaying_none hdelivering, hsent] at hall
  refine ⟨t, hl, y, hy, hsent, ?_⟩
  simpa [Gossip.queued] using hall.symm

theorem replay_completes_one : ∃ s t : Gossip, internal.Leads s t ∧ ∃ y, t.endpoints 0 = some y ∧
    y.sent = [sampleEntry] ∧ y.replayed = [sampleEntry] := by
  have hexec : ∃ s : Unit → Gossip,
      Machine.exec swarmStep (fun _ => new) (oneReplayed.take 3) = some s ∧ (s ()).stopped = none ∧
        (s ()).endpoints = Function.update (Function.update (fun _ => none) 0 (some
          (.new "consensus" true))) 0 (some { Endpoint.new "consensus" true with
            sent := [sampleEntry], outbound := [sampleEntry] }) := ⟨_, rfl, rfl, rfl⟩
  obtain ⟨s, hexec, hrun, hends⟩ := hexec
  have hone : ∀ j x, (s ()).endpoints j = some x → j = 0 ∧ x = { Endpoint.new "consensus" true with
      sent := [sampleEntry], outbound := [sampleEntry] } := by
    intro j x hx
    rw [hends, Function.update_idem] at hx
    by_cases hj : j = 0
    · rw [hj, Function.update_self, Option.some.injEq] at hx
      exact ⟨hj, hx.symm⟩
    · rw [Function.update_of_ne hj] at hx
      cases hx
  have hreceiving : (s ()).Receiving := by
    intro j x hx
    rw [(hone j x hx).2]
    rfl
  obtain ⟨t, hl, y, hy, hsent, hreplayed⟩ := replay_completes (reachable_oneReplayed hexec) () hrun
    hreceiving 0 { Endpoint.new "consensus" true with sent := [sampleEntry], outbound := [sampleEntry] }
    (by rw [hends, Function.update_self]) (fun j x hx _ => (hone j x hx).1)
  exact ⟨s (), t, hl, y, hy, hsent, hreplayed⟩

end AccountabilityGadget.Gossip
