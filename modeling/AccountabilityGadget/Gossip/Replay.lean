import AccountabilityGadget.Gossip.Task
import Mathlib.Data.List.Infix

/-!
# What a subscriber gets

* `Inv` — what holds of the task of one node, when messages come from a source `O`; `Inv.step`.
* `machine` — a swarm of nodes, and others that publish what they like.
* `gossip_delivers` — a subscriber that is the only one of its topic gets back what it has sent, in
  order and once, and otherwise what subscribers of the topic at other nodes have sent; no entry is
  for a topic without subscriber.
-/

set_option autoImplicit false

namespace AccountabilityGadget.Gossip

/-- What the subscriber has sent and got back. -/
def Endpoint.replayed (x : Endpoint) : List Entry := (x.arrived.filter (·.1)).map (·.2)

/-- The entries that the loop has still to handle. -/
def queued (cmds : List Cmd) (topic : String) : List Entry := cmds.filterMap fun
  | .publish topic' e _ => if topic' = topic then some e else none
  | .subscribe _ _ => none

@[simp] theorem queued_append (cmds cmds' : List Cmd) (topic : String) :
    queued (cmds ++ cmds') topic = queued cmds topic ++ queued cmds' topic := List.filterMap_append

theorem queued_publish_self (topic : String) (e : Entry) (ephemeral : Bool) :
    queued [.publish topic e ephemeral] topic = [e] := by simp [queued]

theorem queued_publish_ne {topic topic' : String} (h : topic ≠ topic') (e : Entry) (ephemeral : Bool) :
    queued [.publish topic e ephemeral] topic' = [] := by simp [queued, h]

theorem queued_subscribe (topic topic' : String) (tx : ℕ) :
    queued [.subscribe topic tx] topic' = [] := rfl

/-- What the loop is replaying to a subscriber. -/
def replaying (s : Gossip) (id : ℕ) : List Entry :=
  match s.delivering with
  | some ⟨tx, e, true⟩ => if tx = id then [e] else []
  | _ => []

/-- There is no other subscriber of the topic. -/
def Sole (s : Gossip) (id : ℕ) (topic : String) : Prop :=
  ∀ id' x, s.endpoints id' = some x → x.topic = topic → id' = id

/-- An entry that a subscriber of the topic has sent. -/
def Sent (s : Gossip) (topic : String) (e : Entry) : Prop :=
  ∃ id x, s.endpoints id = some x ∧ x.topic = topic ∧ e ∈ x.sent

/-- A subscription to the topic is made before the command. -/
def Announced (s : Gossip) (before : List Cmd) (topic : String) : Prop :=
  (s.subscriptions topic).isSome ∨ ∃ tx, .subscribe topic tx ∈ before

/-- All handles are dropped, and so are the senders of the subscribers; all has been forwarded. -/
def Abandoned (s : Gossip) : Prop :=
  s.handles = 0 ∧ ∀ id x, s.endpoints id = some x → x.sending = false ∧ x.outbound = []

/-- Why the loop has stopped: a call of a third party has failed, nobody is left who could send a
command, a subscriber has dropped its receiver, or the message was malformed. -/
def Reason (B : Prop) (s : Gossip) (p : Panic) : Prop :=
  p = .expect "gossipsub subscribe failed!" ∨ p = .expect "kademlia put record failed!" ∨
    (p = .expect "Stream of incoming gossip commands was closed, terminating ..." ∧ s.Abandoned) ∨
    (p ≠ .expect "topic not subscribed!" ∧ ∃ id x, s.endpoints id = some x ∧ x.receiving = false) ∨
    (p ≠ .expect "topic not subscribed!" ∧ B)

/-- A state in which no more can be sent, with fewer receivers. -/
theorem Reason.mono {B B' : Prop} {s t : Gossip} {p : Panic} (h : s.Reason B p)
    (habandoned : s.Abandoned → t.Abandoned)
    (hreceiving : ∀ id x, s.endpoints id = some x → x.receiving = false →
      ∃ y, t.endpoints id = some y ∧ y.receiving = false) (hB : B → B') : t.Reason B' p := by
  rcases h with h | h | ⟨h, ha⟩ | ⟨h, id, x, hx, hr⟩ | ⟨h, hb⟩
  · exact .inl h
  · exact .inr (.inl h)
  · exact .inr (.inr (.inl ⟨h, habandoned ha⟩))
  · exact .inr (.inr (.inr (.inl ⟨h, id, hreceiving id x hx hr⟩)))
  · exact .inr (.inr (.inr (.inr ⟨h, hB hb⟩)))

/-- `O`: where the messages of the other nodes come from; `B`: some of them are malformed. -/
structure Inv (O : String → Entry → Prop) (B : Prop) (s : Gossip) : Prop where
  fresh : ∀ id x, s.endpoints id = some x → id < s.nextId
  subscriptions : ∀ topic id, s.subscriptions topic = some id →
    ∃ x, s.endpoints id = some x ∧ x.topic = topic
  subscribe : ∀ topic id, .subscribe topic id ∈ s.cmds →
    ∃ x, s.endpoints id = some x ∧ x.topic = topic
  known : ∀ id x, s.endpoints id = some x → s.Announced s.cmds x.topic
  publish : ∀ before topic e ephemeral after, s.cmds = before ++ .publish topic e ephemeral :: after →
    s.Announced before topic
  queued : ∀ topic e ephemeral, .publish topic e ephemeral ∈ s.cmds → s.Sent topic e
  delivering : ∀ d, s.delivering = some d → ∃ x, s.endpoints d.tx = some x ∧
    (d.replayed = false → O x.topic d.entry)
  joined : ∀ topic ∈ s.joined, (s.subscriptions topic).isSome
  published : ∀ topic data, (topic, data) ∈ s.published →
    ∃ e, data = kvSerialize e ∧ s.Sent topic e
  arrived : ∀ id x e, s.endpoints id = some x → (false, e) ∈ x.arrived → O x.topic e
  channel : ∀ id x, s.endpoints id = some x → x.arrived = x.received ++ x.inbound
  outbound : ∀ id x, s.endpoints id = some x → x.outbound ⊆ x.sent
  ended : ∀ id x, s.endpoints id = some x → x.forwarding = false → s.stopped = none →
    x.sending = false ∧ x.outbound = []
  replay : ∀ id x, s.endpoints id = some x → s.Sole id x.topic → s.stopped = none →
    x.sent = x.replayed ++ s.replaying id ++ Gossip.queued s.cmds x.topic ++ x.outbound
  initial : ∀ id x, s.endpoints id = some x → s.Sole id x.topic → x.replayed <+: x.sent
  stopped : ∀ p, s.stopped = some p → s.Reason B p

variable {O O' : String → Entry → Prop} {B B' : Prop} {s s' : Gossip} {topic : String} {e : Entry}

theorem Inv.mono (h : Inv O B s) (hO : ∀ topic e, O topic e → O' topic e) (hB : B → B') :
    Inv O' B' s where
  fresh := h.fresh
  subscriptions := h.subscriptions
  subscribe := h.subscribe
  known := h.known
  publish := h.publish
  queued := h.queued
  delivering := by
    intro d hd
    obtain ⟨x, hx, ho⟩ := h.delivering d hd
    exact ⟨x, hx, fun hr => hO _ _ (ho hr)⟩
  joined := h.joined
  published := h.published
  arrived := fun id x e hx he => hO _ _ (h.arrived id x e hx he)
  channel := h.channel
  outbound := h.outbound
  ended := h.ended
  replay := h.replay
  initial := h.initial
  stopped := fun p hp => (h.stopped p hp).mono (fun ha => ha) (fun _ x hx hr => ⟨x, hx, hr⟩) hB

/-! ## Endpoints -/

/-- A subscriber after a step of its own. -/
structure Endpoint.Grows (x x' : Endpoint) : Prop where
  topic : x'.topic = x.topic
  sent : x.sent ⊆ x'.sent
  receiving : x.receiving = false → x'.receiving = false
  closed : x.sending = false → x.outbound = [] → x'.sending = false ∧ x'.outbound = []

theorem Endpoint.Grows.refl (x : Endpoint) : x.Grows x :=
  ⟨rfl, List.Subset.refl _, fun h => h, fun h h' => ⟨h, h'⟩⟩

section

variable {id : ℕ} {x x' : Endpoint} (hx : s.endpoints id = some x) (hgrows : x.Grows x')

include hx hgrows in
theorem endpoints_kept {j : ℕ} {y : Endpoint} (hy : s.endpoints j = some y) :
    ∃ y', (s.setEndpoint id x').endpoints j = some y' ∧ y.Grows y' := by
  by_cases hj : j = id
  · subst hj
    rw [hx, Option.some.injEq] at hy
    subst hy
    exact ⟨x', Function.update_self .., hgrows⟩
  · exact ⟨y, (Function.update_of_ne hj ..).trans hy, .refl y⟩

theorem endpoints_cases {j : ℕ} {y : Endpoint} (hy : (s.setEndpoint id x').endpoints j = some y) :
    j = id ∧ y = x' ∨ j ≠ id ∧ s.endpoints j = some y := by
  change Function.update s.endpoints id (some x') j = some y at hy
  by_cases hj : j = id
  · rw [hj, Function.update_self, Option.some.injEq] at hy
    exact .inl ⟨hj, hy.symm⟩
  · rw [Function.update_of_ne hj] at hy
    exact .inr ⟨hj, hy⟩

include hx hgrows in
theorem Sole.before {j : ℕ} (h : (s.setEndpoint id x').Sole j topic) : s.Sole j topic := by
  intro k y hy ht
  obtain ⟨y', hy', hg⟩ := endpoints_kept hx hgrows hy
  exact h k y' hy' (hg.topic.trans ht)

include hx hgrows in
theorem Sent.set (h : s.Sent topic e) : (s.setEndpoint id x').Sent topic e := by
  obtain ⟨j, y, hy, ht, he⟩ := h
  obtain ⟨y', hy', hg⟩ := endpoints_kept hx hgrows hy
  exact ⟨j, y', hy', hg.topic.trans ht, hg.sent he⟩

/-- A step of a subscriber, of its task, or of the loop with it; what becomes of the others does not
depend on it. -/
theorem Inv.setEndpoint (cmds : List Cmd) (delivering : Option Delivery) (h : Inv O B s)
    (hx : s.endpoints id = some x) (hgrows : x.Grows x')
    (hcmds : cmds = s.cmds ∨ ∃ e ∈ x.sent, cmds = s.cmds ++ [.publish x.topic e x.ephemeral])
    (hdelivering : ∀ d, delivering = some d → s.delivering = some d)
    (hreplaying : ∀ j, j ≠ id → ({ s.setEndpoint id x' with cmds, delivering }).replaying j =
      s.replaying j)
    (harrived : ∀ e, (false, e) ∈ x'.arrived → O x.topic e)
    (hchannel : x'.arrived = x'.received ++ x'.inbound)
    (houtbound : x'.outbound ⊆ x'.sent)
    (hended : x'.forwarding = false → s.stopped = none → x'.sending = false ∧ x'.outbound = [])
    (hreplay : s.Sole id x.topic → s.stopped = none → x'.sent = x'.replayed ++
      ({ s.setEndpoint id x' with cmds, delivering }).replaying id ++
      Gossip.queued cmds x.topic ++ x'.outbound)
    (hinitial : s.Sole id x.topic → x'.replayed <+: x'.sent) :
    Inv O B { s.setEndpoint id x' with cmds, delivering } := by
  have hkept : ∀ {j y}, s.endpoints j = some y →
      ∃ y', (s.setEndpoint id x').endpoints j = some y' ∧ y.Grows y' :=
    fun hy => endpoints_kept hx hgrows hy
  have hannounced : ∀ {before topic}, s.Announced before topic →
      ({ s.setEndpoint id x' with cmds, delivering } : Gossip).Announced before topic := fun ha => ha
  have hsub : s.cmds ⊆ cmds := by
    rcases hcmds with rfl | ⟨e, -, rfl⟩
    · exact List.Subset.refl _
    · exact List.subset_append_left ..
  refine ⟨?_, ?_, ?_, ?_, ?_, ?_, ?_, h.joined, ?_, ?_, ?_, ?_, ?_, ?_, ?_, ?_⟩
  · intro j y hy
    rcases endpoints_cases hy with ⟨rfl, -⟩ | ⟨-, hy⟩
    · exact h.fresh _ x hx
    · exact h.fresh j y hy
  · intro topic j hj
    obtain ⟨y, hy, ht⟩ := h.subscriptions topic j hj
    obtain ⟨y', hy', hg⟩ := hkept hy
    exact ⟨y', hy', hg.topic.trans ht⟩
  · intro topic j hj
    have hold : .subscribe topic j ∈ s.cmds := by
      rcases hcmds with rfl | ⟨e, -, rfl⟩
      · exact hj
      · simpa using hj
    obtain ⟨y, hy, ht⟩ := h.subscribe topic j hold
    obtain ⟨y', hy', hg⟩ := hkept hy
    exact ⟨y', hy', hg.topic.trans ht⟩
  · intro j y hy
    have hold : s.Announced s.cmds y.topic := by
      rcases endpoints_cases hy with ⟨rfl, rfl⟩ | ⟨-, hy⟩
      · rw [hgrows.topic]
        exact h.known _ x hx
      · exact h.known j y hy
    exact hold.imp_right fun ⟨tx, htx⟩ => ⟨tx, hsub htx⟩
  · intro before topic e ephemeral after hsplit
    rcases hcmds with rfl | ⟨e', -, rfl⟩
    · exact h.publish before topic e ephemeral after hsplit
    · rcases List.eq_nil_or_concat after with rfl | ⟨after', c, rfl⟩
      · obtain ⟨rfl, hlast⟩ := List.append_inj' hsplit rfl
        cases hlast
        exact h.known id x hx
      · rw [List.concat_eq_append, ← List.cons_append, ← List.append_assoc] at hsplit
        obtain ⟨hsplit, -⟩ := List.append_inj' hsplit rfl
        exact h.publish before topic e ephemeral after' hsplit
  · intro topic e ephemeral he
    rcases hcmds with rfl | ⟨e', he', rfl⟩
    · exact (h.queued topic e ephemeral he).set hx hgrows
    · rcases List.mem_append.mp he with he | he
      · exact (h.queued topic e ephemeral he).set hx hgrows
      · cases List.mem_singleton.mp he
        exact Sent.set hx hgrows ⟨id, x, hx, rfl, he'⟩
  · intro d hd
    obtain ⟨y, hy, ho⟩ := h.delivering d (hdelivering d hd)
    obtain ⟨y', hy', hg⟩ := hkept hy
    exact ⟨y', hy', hg.topic ▸ ho⟩
  · intro topic data hdata
    obtain ⟨e, he, hs⟩ := h.published topic data hdata
    exact ⟨e, he, hs.set hx hgrows⟩
  · intro j y e hy he
    rcases endpoints_cases hy with ⟨rfl, rfl⟩ | ⟨-, hy⟩
    · rw [hgrows.topic]
      exact harrived e he
    · exact h.arrived j y e hy he
  · intro j y hy
    rcases endpoints_cases hy with ⟨rfl, rfl⟩ | ⟨-, hy⟩
    · exact hchannel
    · exact h.channel j y hy
  · intro j y hy
    rcases endpoints_cases hy with ⟨rfl, rfl⟩ | ⟨-, hy⟩
    · exact houtbound
    · exact h.outbound j y hy
  · intro j y hy
    rcases endpoints_cases hy with ⟨rfl, rfl⟩ | ⟨-, hy⟩
    · exact hended
    · exact h.ended j y hy
  · intro j y hy hsole hrun
    have hsole' : s.Sole j y.topic := Sole.before hx hgrows hsole
    rcases endpoints_cases hy with ⟨rfl, rfl⟩ | ⟨hne, hy'⟩
    · rw [hgrows.topic] at hsole' ⊢
      exact hreplay hsole' hrun
    · have htopic : y.topic ≠ x.topic := fun ht => hne (hsole' id x hx ht.symm).symm
      have hqueued : Gossip.queued cmds y.topic = Gossip.queued s.cmds y.topic := by
        rcases hcmds with rfl | ⟨e, -, rfl⟩
        · rfl
        · rw [queued_append, queued_publish_ne htopic.symm, List.append_nil]
      rw [hreplaying j hne, hqueued]
      exact h.replay j y hy' hsole' hrun
  · intro j y hy hsole
    have hsole' : s.Sole j y.topic := Sole.before hx hgrows hsole
    rcases endpoints_cases hy with ⟨rfl, rfl⟩ | ⟨-, hy'⟩
    · rw [hgrows.topic] at hsole'
      exact hinitial hsole'
    · exact h.initial j y hy' hsole'
  · intro p hp
    refine (h.stopped p hp).mono ?_ ?_ fun hb => hb
    · rintro ⟨hhandles, hclosed⟩
      refine ⟨hhandles, fun j y hy => ?_⟩
      rcases endpoints_cases hy with ⟨rfl, rfl⟩ | ⟨-, hy⟩
      · exact hgrows.closed (hclosed _ x hx).1 (hclosed _ x hx).2
      · exact hclosed j y hy
    · intro j y hy hr
      obtain ⟨y', hy', hg⟩ := hkept hy
      exact ⟨y', hy', hg.receiving hr⟩

end

theorem Endpoint.Grows.send {x : Endpoint} (hsending : x.sending = true) (e : Entry) :
    x.Grows { x with sent := x.sent ++ [e], outbound := x.outbound ++ [e] } :=
  ⟨rfl, List.subset_append_left .., fun hr => hr, fun hclosed => absurd (hsending.symm.trans hclosed) nofun⟩

theorem Endpoint.Grows.forward {x : Endpoint} {rest : List Entry} (hout : x.outbound = e :: rest) :
    x.Grows { x with outbound := rest } :=
  ⟨rfl, List.Subset.refl _, fun hr => hr, fun _ hnil => absurd (hout.symm.trans hnil) nofun⟩

theorem Inv.send {id : ℕ} {x : Endpoint} (h : Inv O B s) (hx : s.endpoints id = some x)
    (hsending : x.sending = true) (hforwarding : x.forwarding = true) (e : Entry) :
    Inv O B (s.setEndpoint id { x with sent := x.sent ++ [e], outbound := x.outbound ++ [e] }) := by
  refine h.setEndpoint s.cmds s.delivering hx (.send hsending e) (.inl rfl)
    (fun _ hd => hd) (fun _ _ => rfl) (fun e' => h.arrived id x e' hx) (h.channel id x hx) ?_ ?_ ?_ ?_
  · exact List.append_subset.mpr ⟨fun e' he' => List.mem_append_left _ (h.outbound id x hx he'),
      List.subset_append_right ..⟩
  · exact fun hended => absurd (hforwarding.symm.trans hended) nofun
  · intro hsole hrun
    show x.sent ++ [e] = x.replayed ++ s.replaying id ++ Gossip.queued s.cmds x.topic ++ (x.outbound ++ [e])
    rw [h.replay id x hx hsole hrun, List.append_assoc]
  · intro hsole
    exact (h.initial id x hx hsole).trans (List.prefix_append ..)

/-- Steps of a subscriber that the loop does not see. -/
theorem Inv.silent {id : ℕ} {x x' : Endpoint} (h : Inv O B s) (hx : s.endpoints id = some x)
    (hgrows : x.Grows x') (hsent : x'.sent = x.sent) (hout : x'.outbound = x.outbound)
    (harrived : x'.arrived = x.arrived) (hchannel : x'.received ++ x'.inbound = x.received ++ x.inbound)
    (hended : x'.forwarding = false → s.stopped = none → x'.sending = false ∧ x'.outbound = []) :
    Inv O B (s.setEndpoint id x') := by
  refine h.setEndpoint s.cmds s.delivering hx hgrows (.inl rfl)
    (fun _ hd => hd) (fun _ _ => rfl) ?_ ?_ ?_ hended ?_ ?_
  · intro e he
    exact h.arrived id x e hx (harrived ▸ he)
  · rw [harrived, hchannel]
    exact h.channel id x hx
  · rw [hout, hsent]
    exact h.outbound id x hx
  · intro hsole hrun
    rw [hsent, hout, Endpoint.replayed, harrived]
    exact h.replay id x hx hsole hrun
  · intro hsole
    rw [hsent, Endpoint.replayed, harrived]
    exact h.initial id x hx hsole

theorem Inv.forward {id : ℕ} {x : Endpoint} {rest : List Entry} (h : Inv O B s)
    (hx : s.endpoints id = some x) (hforwarding : x.forwarding = true) (hout : x.outbound = e :: rest) :
    Inv O B { s.setEndpoint id { x with outbound := rest } with
      cmds := s.cmds ++ [.publish x.topic e x.ephemeral] } := by
  have hsub : e :: rest ⊆ x.sent := hout ▸ h.outbound id x hx
  refine h.setEndpoint (s.cmds ++ [.publish x.topic e x.ephemeral]) s.delivering hx (.forward hout)
    (.inr ⟨e, hsub List.mem_cons_self, rfl⟩)
    (fun _ hd => hd) (fun _ _ => rfl) (fun e' => h.arrived id x e' hx) (h.channel id x hx)
    ?_ ?_ ?_ (h.initial id x hx)
  · exact fun e' he' => hsub (List.mem_cons_of_mem _ he')
  · exact fun hended => absurd (hforwarding.symm.trans hended) nofun
  · intro hsole hrun
    have hall := h.replay id x hx hsole hrun
    rw [hout] at hall
    show x.sent = x.replayed ++ s.replaying id ++ Gossip.queued (s.cmds ++ [_]) x.topic ++ rest
    rw [hall, queued_append, queued_publish_self]
    simp only [List.append_assoc, List.cons_append, List.nil_append]

theorem Inv.delivered {d : Delivery} {x : Endpoint} (h : Inv O B s) (hrun : s.stopped = none)
    (hd : s.delivering = some d) (hx : s.endpoints d.tx = some x) : Inv O B (s.delivered d x) := by
  have hreplayed : ({ x with
      arrived := x.arrived ++ [(d.replayed, d.entry)]
      inbound := x.inbound ++ [(d.replayed, d.entry)] } : Endpoint).replayed =
        x.replayed ++ s.replaying d.tx := by
    rw [Endpoint.replayed, List.filter_append, List.map_append, replaying, hd]
    obtain ⟨tx, e, _ | _⟩ := d
    · rfl
    · simp [Endpoint.replayed]
  have hsent : s.Sole d.tx x.topic → x.sent =
      (x.replayed ++ s.replaying d.tx) ++ Gossip.queued s.cmds x.topic ++ x.outbound :=
    fun hsole => h.replay d.tx x hx hsole hrun
  have hgrows : x.Grows { x with
      arrived := x.arrived ++ [(d.replayed, d.entry)]
      inbound := x.inbound ++ [(d.replayed, d.entry)] } :=
    ⟨rfl, List.Subset.refl _, fun hr => hr, fun hs ho => ⟨hs, ho⟩⟩
  refine h.setEndpoint s.cmds none hx hgrows (.inl rfl) nofun
    ?_ ?_ ?_ (h.outbound d.tx x hx) (h.ended d.tx x hx) ?_ ?_
  · intro j hj
    rw [replaying, replaying, hd]
    obtain ⟨tx, e, _ | _⟩ := d
    · rfl
    · exact (if_neg (Ne.symm hj)).symm
  · intro e he
    rcases List.mem_append.mp he with he | he
    · exact h.arrived d.tx x e hx he
    · obtain ⟨y, hy, ho⟩ := h.delivering d hd
      rw [hx, Option.some.injEq] at hy
      subst hy
      obtain ⟨hr, rfl⟩ := Prod.mk.inj (List.mem_singleton.mp he)
      exact ho hr.symm
  · show x.arrived ++ [(d.replayed, d.entry)] = x.received ++ (x.inbound ++ [(d.replayed, d.entry)])
    rw [h.channel d.tx x hx, List.append_assoc]
  · intro hsole _
    rw [hreplayed]
    show x.sent = x.replayed ++ s.replaying d.tx ++ [] ++ _ ++ x.outbound
    rw [List.append_nil]
    exact hsent hsole
  · intro hsole
    rw [hreplayed]
    show _ <+: x.sent
    rw [hsent hsole, List.append_assoc (_ ++ _)]
    exact List.prefix_append ..

/-! ## Turns of the loop -/

theorem Inv.stop {p : Panic} (h : Inv O B s) (hp : s.Reason B p) : Inv O B (s.stop p) :=
  { h with
    ended := fun _ _ _ _ => nofun
    replay := fun _ _ _ _ => nofun
    stopped := by
      intro p' hp'
      cases hp'
      exact hp }

/-- A turn of the loop that takes the commands `front`. -/
theorem Inv.turn {t : Gossip} (front : List Cmd) (h : Inv O B s) (hendpoints : t.endpoints = s.endpoints)
    (hnext : t.nextId = s.nextId) (hhandles : t.handles = s.handles) (hcmds : s.cmds = front ++ t.cmds)
    (hannounced : ∀ topic, s.Announced front topic → (t.subscriptions topic).isSome)
    (hsubscriptions : ∀ topic id, t.subscriptions topic = some id →
      s.subscriptions topic = some id ∨ .subscribe topic id ∈ front)
    (hjoined : ∀ topic ∈ t.joined, s.Announced front topic)
    (hpublished : ∀ topic data, (topic, data) ∈ t.published → (topic, data) ∈ s.published ∨
      ∃ e ephemeral, .publish topic e ephemeral ∈ front ∧ data = kvSerialize e)
    (hdelivering : ∀ d, t.delivering = some d → ∃ x, s.endpoints d.tx = some x ∧
      (d.replayed = false → O x.topic d.entry))
    (hreplay : t.stopped = none → s.stopped = none ∧ ∀ id x, s.endpoints id = some x →
      s.Sole id x.topic → t.replaying id = s.replaying id ++ Gossip.queued front x.topic)
    (hstopped : ∀ p, t.stopped = some p → s.Reason B p) : Inv O B t := by
  have hsub : t.cmds ⊆ s.cmds := hcmds ▸ List.subset_append_right ..
  have hmore : ∀ {before topic}, s.Announced (front ++ before) topic → t.Announced before topic := by
    rintro before topic (hs | ⟨tx, htx⟩)
    · exact .inl (hannounced topic (.inl hs))
    · rcases List.mem_append.mp htx with htx | htx
      · exact .inl (hannounced topic (.inr ⟨tx, htx⟩))
      · exact .inr ⟨tx, htx⟩
  have hsole : ∀ {id topic}, t.Sole id topic → s.Sole id topic := by
    intro id topic hs id' x hx ht
    exact hs id' x (hendpoints ▸ hx) ht
  have hsent : ∀ {topic e}, s.Sent topic e → t.Sent topic e := by
    rintro topic e ⟨id, x, hx, ht, he⟩
    exact ⟨id, x, hendpoints ▸ hx, ht, he⟩
  refine ⟨?_, ?_, ?_, ?_, ?_, ?_, ?_, ?_, ?_, ?_, ?_, ?_, ?_, ?_, ?_, ?_⟩
  · rw [hendpoints, hnext]
    exact h.fresh
  · intro topic id hid
    rw [hendpoints]
    rcases hsubscriptions topic id hid with hid | hid
    · exact h.subscriptions topic id hid
    · exact h.subscribe topic id (hcmds ▸ List.mem_append_left _ hid)
  · intro topic id hid
    rw [hendpoints]
    exact h.subscribe topic id (hsub hid)
  · intro id x hx
    rw [hendpoints] at hx
    exact hmore (hcmds ▸ h.known id x hx)
  · intro before topic e ephemeral after hsplit
    exact hmore (h.publish (front ++ before) topic e ephemeral after
      (by rw [hcmds, hsplit, List.append_assoc]))
  · intro topic e ephemeral he
    exact hsent (h.queued topic e ephemeral (hsub he))
  · rw [hendpoints]
    exact hdelivering
  · intro topic ht
    exact hannounced topic (hjoined topic ht)
  · intro topic data hdata
    rcases hpublished topic data hdata with hdata | ⟨e, ephemeral, he, rfl⟩
    · obtain ⟨e, he, hs⟩ := h.published topic data hdata
      exact ⟨e, he, hsent hs⟩
    · exact ⟨e, rfl, hsent (h.queued topic e ephemeral (hcmds ▸ List.mem_append_left _ he))⟩
  · rw [hendpoints]
    exact h.arrived
  · rw [hendpoints]
    exact h.channel
  · rw [hendpoints]
    exact h.outbound
  · intro id x hx hf hrun
    rw [hendpoints] at hx
    exact h.ended id x hx hf (hreplay hrun).1
  · intro id x hx hs hrun
    rw [hendpoints] at hx
    obtain ⟨hrun', hreplaying⟩ := hreplay hrun
    have hall := h.replay id x hx (hsole hs) hrun'
    rw [hcmds, queued_append, ← List.append_assoc, List.append_assoc x.replayed,
      ← hreplaying id x hx (hsole hs)] at hall
    exact hall
  · intro id x hx hs
    rw [hendpoints] at hx
    exact h.initial id x hx (hsole hs)
  · intro p hp
    refine (hstopped p hp).mono ?_ ?_ fun hb => hb
    · rw [Abandoned, Abandoned, hendpoints, hhandles]
      exact fun ha => ha
    · rw [hendpoints]
      exact fun _ x hx hr => ⟨x, hx, hr⟩

theorem start_eq {id : ℕ} (hid : s.subscriptions topic = some id) (e : Entry) (r : Bool) :
    s.start topic e r = { s with delivering := some ⟨id, e, r⟩ } := by
  simp only [start, hid]

theorem Announced.nil (h : s.Announced [] topic) : (s.subscriptions topic).isSome := by
  rcases h with h | ⟨_, h⟩
  · exact h
  · cases h

theorem replaying_none (hd : s.delivering = none) (id : ℕ) : s.replaying id = [] := by
  rw [replaying, hd]

/-- A subscription replaces the one before, if there is one. -/
theorem Inv.subscribed {tx : ℕ} {rest : List Cmd} (h : Inv O B s)
    (hd : s.delivering = none) (hc : s.cmds = .subscribe topic tx :: rest) {joined : List String}
    (hjoined : joined ⊆ s.joined ++ [topic]) :
    Inv O B { s with
      cmds := rest
      subscriptions := Function.update s.subscriptions topic (some tx)
      joined } := by
  have hannounced : ∀ topic', s.Announced [.subscribe topic tx] topic' →
      (Function.update s.subscriptions topic (some tx) topic').isSome := by
    intro topic' ha
    by_cases ht : topic' = topic
    · rw [ht, Function.update_self]
      rfl
    · rw [Function.update_of_ne ht]
      rcases ha with ha | ⟨tx', htx⟩
      · exact ha
      · cases List.mem_singleton.mp htx
        exact absurd rfl ht
  refine h.turn [.subscribe topic tx] rfl rfl rfl hc hannounced ?_ ?_ (fun _ _ hm => .inl hm) ?_ ?_
    h.stopped
  · intro topic' id hid
    change Function.update s.subscriptions topic (some tx) topic' = some id at hid
    by_cases ht : topic' = topic
    · subst ht
      rw [Function.update_self, Option.some.injEq] at hid
      subst hid
      exact .inr List.mem_cons_self
    · rw [Function.update_of_ne ht] at hid
      exact .inl hid
  · intro topic' ht
    rcases List.mem_append.mp (hjoined ht) with ht | ht
    · exact .inl (h.joined topic' ht)
    · rw [List.mem_singleton.mp ht]
      exact .inr ⟨tx, List.mem_cons_self⟩
  · intro d hd'
    rw [hd] at hd'
    cases hd'
  · intro hrun
    refine ⟨hrun, fun id x _ _ => ?_⟩
    rw [queued_subscribe, List.append_nil]
    rfl

/-- The entry goes out, and to the subscriber of the topic at this node. -/
theorem Inv.publishing {ephemeral : Bool} {rest : List Cmd} (h : Inv O B s)
    (hd : s.delivering = none) (hc : s.cmds = .publish topic e ephemeral :: rest)
    {published : List (String × Bytes)}
    (hpublished : published ⊆ s.published ++ [(topic, kvSerialize e)]) :
    Inv O B (start { s with cmds := rest, published } topic e true) := by
  obtain ⟨id, hid⟩ := Option.isSome_iff_exists.mp (h.publish [] topic e ephemeral rest hc).nil
  obtain ⟨x, hx, htopic⟩ := h.subscriptions topic id hid
  rw [start_eq (s := { s with cmds := rest, published }) hid]
  refine h.turn [.publish topic e ephemeral] rfl rfl rfl hc ?_ (fun _ _ hi => .inl hi)
    (fun topic' ht => .inl (h.joined topic' ht)) ?_ ?_ ?_ h.stopped
  · rintro topic' (ha | ⟨tx, htx⟩)
    · exact ha
    · cases List.mem_singleton.mp htx
  · intro topic' data hdata
    rcases List.mem_append.mp (hpublished hdata) with hdata | hdata
    · exact .inl hdata
    · obtain ⟨rfl, rfl⟩ := Prod.mk.inj (List.mem_singleton.mp hdata)
      exact .inr ⟨e, ephemeral, List.mem_cons_self, rfl⟩
  · rintro d ⟨⟩
    exact ⟨x, hx, nofun⟩
  · intro hrun
    refine ⟨hrun, fun j y hy hsole => ?_⟩
    rw [replaying_none hd, List.nil_append]
    show (if id = j then [e] else []) = _
    by_cases hj : id = j
    · subst hj
      rw [hx, Option.some.injEq] at hy
      rw [if_pos rfl, ← hy, htopic, queued_publish_self]
    · have hne : topic ≠ y.topic := fun ht => hj (hsole id x hx (htopic.trans ht))
      rw [if_neg hj, queued_publish_ne hne]

theorem Inv.handle {c : Cmd} {rest : List Cmd} {ok published : Bool} (h : Inv O B s)
    (hd : s.delivering = none) (hc : s.cmds = c :: rest) :
    Inv O B ({ s with cmds := rest }.handle ok published c) := by
  cases c with
  | subscribe topic tx =>
    cases ok with
    | true => exact h.subscribed hd hc (List.Subset.refl _)
    | false => exact (h.subscribed hd hc (List.subset_append_left ..)).stop (.inl rfl)
  | publish topic e ephemeral =>
    unfold Gossip.handle
    by_cases hput : ¬ ephemeral = true ∧ ¬ ok = true
    · simp only [if_pos hput]
      refine h.turn [.publish topic e ephemeral] rfl rfl rfl hc ?_ (fun _ _ hi => .inl hi)
        (fun topic' ht => .inl (h.joined topic' ht)) (fun _ _ hm => .inl hm) ?_ nofun ?_
      · rintro topic' (ha | ⟨tx, htx⟩)
        · exact ha
        · cases List.mem_singleton.mp htx
      · intro d hd'
        exact absurd (hd.symm.trans hd') nofun
      · rintro p ⟨⟩
        exact .inr (.inl rfl)
    · simp only [if_neg hput]
      cases published with
      | true => exact h.publishing hd hc (List.Subset.refl _)
      | false => exact h.publishing hd hc (List.subset_append_left ..)

theorem Inv.onMessage {data : Bytes} (h : Inv O B s) (hd : s.delivering = none)
    (hjoined : topic ∈ s.joined) (hO : ∀ e, kvDeserialize data = .ok e → O topic e)
    (hB : (∀ e, kvDeserialize data ≠ .ok e) → B) : Inv O B (s.onMessage topic data) := by
  unfold Gossip.onMessage
  cases hk : kvDeserialize data with
  | error p =>
    refine h.stop (.inr (.inr (.inr (.inr ⟨?_, hB ?_⟩))))
    · rw [kvDeserialize_error hk]
      decide
    · intro e he
      rw [hk] at he
      cases he
  | ok e =>
    obtain ⟨id, hid⟩ := Option.isSome_iff_exists.mp (h.joined topic hjoined)
    obtain ⟨x, hx, htopic⟩ := h.subscriptions topic id hid
    show Inv O B (s.start topic e false)
    rw [start_eq hid]
    refine h.turn [] rfl rfl rfl rfl (fun _ => Announced.nil) (fun _ _ hi => .inl hi)
      (fun topic' ht => .inl (h.joined topic' ht)) (fun _ _ hm => .inl hm) ?_ ?_ h.stopped
    · rintro d ⟨⟩
      exact ⟨x, hx, fun _ => htopic ▸ hO e hk⟩
    · intro hrun
      refine ⟨hrun, fun j y _ _ => ?_⟩
      rw [replaying_none hd]
      rfl

/-! ## A new subscriber -/

theorem Inv.newSubscriber (h : Inv O B s) (hloop : s.stopped = none) (topic : String)
    (ephemeral : Bool) : Inv O B (s.subscribe topic ephemeral) := by
  have hfresh : s.endpoints s.nextId = none := by
    rw [Option.eq_none_iff_forall_ne_some]
    intro x hx
    exact absurd (h.fresh _ x hx) (lt_irrefl _)
  have hkept : ∀ {id x}, s.endpoints id = some x → (s.subscribe topic ephemeral).endpoints id = some x := by
    intro id x hx
    refine (Function.update_of_ne ?_ ..).trans hx
    exact (h.fresh id x hx).ne
  have hcases : ∀ {id x}, (s.subscribe topic ephemeral).endpoints id = some x →
      id = s.nextId ∧ x = Endpoint.new topic ephemeral ∨ s.endpoints id = some x := by
    intro id x hx
    exact (endpoints_cases hx).imp_right And.right
  have hsole : ∀ {id topic'}, (s.subscribe topic ephemeral).Sole id topic' → s.Sole id topic' :=
    fun hs id' x hx ht => hs id' x (hkept hx) ht
  have hsent : ∀ {topic' e}, s.Sent topic' e → (s.subscribe topic ephemeral).Sent topic' e :=
    fun ⟨id, x, hx, ht, he⟩ => ⟨id, x, hkept hx, ht, he⟩
  have hcmds : (s.subscribe topic ephemeral).cmds = s.cmds ++ [.subscribe topic s.nextId] := rfl
  have hqueued : ∀ topic', Gossip.queued (s.subscribe topic ephemeral).cmds topic' =
      Gossip.queued s.cmds topic' := by
    intro topic'
    rw [hcmds, queued_append, queued_subscribe, List.append_nil]
  have hself : (s.subscribe topic ephemeral).endpoints s.nextId =
      some (Endpoint.new topic ephemeral) := Function.update_self ..
  refine ⟨?_, ?_, ?_, ?_, ?_, ?_, ?_, h.joined, ?_, ?_, ?_, ?_, ?_, ?_, ?_, ?_⟩
  · intro id x hx
    rcases hcases hx with ⟨rfl, -⟩ | hx
    · exact Nat.lt_succ_self _
    · exact Nat.lt_succ_of_lt (h.fresh id x hx)
  · intro topic' id hid
    obtain ⟨x, hx, ht⟩ := h.subscriptions topic' id hid
    exact ⟨x, hkept hx, ht⟩
  · intro topic' id hid
    rw [hcmds] at hid
    rcases List.mem_append.mp hid with hid | hid
    · obtain ⟨x, hx, ht⟩ := h.subscribe topic' id hid
      exact ⟨x, hkept hx, ht⟩
    · cases List.mem_singleton.mp hid
      exact ⟨_, hself, rfl⟩
  · intro id x hx
    rw [hcmds]
    rcases hcases hx with ⟨rfl, rfl⟩ | hx
    · exact .inr ⟨s.nextId, List.mem_append_right _ List.mem_cons_self⟩
    · exact (h.known id x hx).imp_right fun ⟨tx, htx⟩ => ⟨tx, List.mem_append_left _ htx⟩
  · intro before topic' e ephemeral' after hsplit
    rw [hcmds] at hsplit
    rcases List.eq_nil_or_concat after with rfl | ⟨after', c, rfl⟩
    · obtain ⟨-, hlast⟩ := List.append_inj' hsplit rfl
      cases hlast
    · rw [List.concat_eq_append, ← List.cons_append, ← List.append_assoc] at hsplit
      exact h.publish before topic' e ephemeral' after' (List.append_inj' hsplit rfl).1
  · intro topic' e ephemeral' he
    rw [hcmds] at he
    rcases List.mem_append.mp he with he | he
    · exact hsent (h.queued topic' e ephemeral' he)
    · cases List.mem_singleton.mp he
  · intro d hd
    obtain ⟨x, hx, ho⟩ := h.delivering d hd
    exact ⟨x, hkept hx, ho⟩
  · intro topic' data hdata
    obtain ⟨e, he, hs⟩ := h.published topic' data hdata
    exact ⟨e, he, hsent hs⟩
  · intro id x e hx he
    rcases hcases hx with ⟨rfl, rfl⟩ | hx
    · cases he
    · exact h.arrived id x e hx he
  · intro id x hx
    rcases hcases hx with ⟨rfl, rfl⟩ | hx
    · rfl
    · exact h.channel id x hx
  · intro id x hx
    rcases hcases hx with ⟨rfl, rfl⟩ | hx
    · exact List.Subset.refl _
    · exact h.outbound id x hx
  · intro id x hx hf
    rcases hcases hx with ⟨rfl, rfl⟩ | hx
    · cases hf
    · exact h.ended id x hx hf
  · intro id x hx hs hrun
    rw [hqueued]
    rcases hcases hx with ⟨rfl, rfl⟩ | hx
    · -- nobody has sent anything on the topic
      have hnone : Gossip.queued s.cmds topic = [] := by
        rw [List.eq_nil_iff_forall_not_mem]
        intro e he
        obtain ⟨c, hc, hce⟩ := List.mem_filterMap.mp he
        cases c with
        | subscribe topic' tx => cases hce
        | publish topic' e' ephemeral' =>
          obtain ⟨j, y, hy, ht, -⟩ := h.queued topic' e' ephemeral' hc
          have htopic : topic' = topic := by
            by_contra hne
            simp [hne] at hce
          exact absurd (hsole hs j y hy (ht.trans htopic)) (h.fresh j y hy).ne
      have hidle : (s.subscribe topic ephemeral).replaying s.nextId = [] := by
        show s.replaying s.nextId = []
        unfold replaying
        split
        · rename_i tx e hd
          obtain ⟨y, hy, -⟩ := h.delivering _ hd
          exact if_neg (h.fresh tx y hy).ne
        · rfl
      show [] = [] ++ (s.subscribe topic ephemeral).replaying s.nextId ++
        Gossip.queued s.cmds topic ++ []
      rw [hnone, hidle]
      rfl
    · exact h.replay id x hx (hsole hs) hrun
  · intro id x hx hs
    rcases hcases hx with ⟨rfl, rfl⟩ | hx
    · exact List.nil_prefix
    · exact h.initial id x hx (hsole hs)
  · intro p hp
    exact absurd (hloop.symm.trans hp) nofun

/-- Handles are made from handles. -/
theorem Inv.setHandles (h : Inv O B s) {n : ℕ} (hn : s.handles = 0 → n = 0) :
    Inv O B { s with handles := n } :=
  { h with
    stopped := by
      intro p hp
      refine (h.stopped p hp).mono ?_ (fun _ x hx hr => ⟨x, hx, hr⟩) fun hb => hb
      exact fun ⟨hhandles, hclosed⟩ => ⟨hn hhandles, hclosed⟩ }

theorem Inv.abandoned (h : Inv O B s) (hrun : s.stopped = none) (hclosed : s.Closed) :
    s.Abandoned := by
  refine ⟨hclosed.1, fun id x hx => h.ended id x hx ?_ hrun⟩
  have hall := hclosed.2 id (h.fresh id x hx)
  rw [hx] at hall
  simpa using hall

/-! ## Steps -/

theorem start_endpoints (s : Gossip) (topic : String) (e : Entry) (r : Bool) :
    (s.start topic e r).endpoints = s.endpoints := by
  unfold start
  split <;> rfl

theorem handle_endpoints (s : Gossip) (ok published : Bool) (c : Cmd) :
    (s.handle ok published c).endpoints = s.endpoints := by
  cases c with
  | subscribe topic tx => cases ok <;> rfl
  | publish topic e ephemeral =>
    simp only [Gossip.handle]
    split_ifs
    · rfl
    · exact start_endpoints ..
    · exact start_endpoints ..

theorem onMessage_endpoints (s : Gossip) (topic : String) (data : Bytes) :
    (s.onMessage topic data).endpoints = s.endpoints := by
  unfold Gossip.onMessage
  split
  · rfl
  · exact start_endpoints ..

/-- Subscribers stay, and keep what they have sent. -/
theorem Inv.kept {i : Input} {j : ℕ} {y : Endpoint} (h : Inv O B s) (hs : s.step i = some s')
    (hy : s.endpoints j = some y) : ∃ y', s'.endpoints j = some y' ∧ y.Grows y' := by
  have hsame : y.Grows y := .refl y
  cases takes_of_step hs with
  | send hx hsending => exact endpoints_kept hx (.send hsending _) hy
  | forward _ hx _ hout => exact endpoints_kept hx (.forward hout) hy
  | receive hx | deliver _ _ hx | finish hx =>
    refine endpoints_kept hx ?_ hy
    exact ⟨rfl, List.Subset.refl _, fun hr => hr, fun hs ho => ⟨hs, ho⟩⟩
  | drop hx =>
    refine endpoints_kept hx ?_ hy
    exact ⟨rfl, List.Subset.refl _, fun _ => rfl, fun hs ho => ⟨hs, ho⟩⟩
  | close hx =>
    refine endpoints_kept hx ?_ hy
    exact ⟨rfl, List.Subset.refl _, fun hr => hr, fun _ ho => ⟨rfl, ho⟩⟩
  | subscribe =>
    have hne : j ≠ s.nextId := (h.fresh j y hy).ne
    exact ⟨y, (Function.update_of_ne hne ..).trans hy, hsame⟩
  | command => exact ⟨y, (congrFun (handle_endpoints ..) j).trans hy, hsame⟩
  | message => exact ⟨y, (congrFun (onMessage_endpoints ..) j).trans hy, hsame⟩
  | fail | closed | clone | release => exact ⟨y, hy, hsame⟩

theorem Inv.sent_step {i : Input} (h : Inv O B s) (hs : s.step i = some s') (hsent : s.Sent topic e) :
    s'.Sent topic e := by
  obtain ⟨j, y, hy, ht, he⟩ := hsent
  obtain ⟨y', hy', hg⟩ := h.kept hs hy
  exact ⟨j, y', hy', hg.topic.trans ht, hg.sent he⟩

theorem Inv.step {i : Input} (h : Inv O B s)
    (hmessage : ∀ topic data, i = .message topic data →
      (∀ e, kvDeserialize data = .ok e → O topic e) ∧ ((∀ e, kvDeserialize data ≠ .ok e) → B))
    (hs : s.step i = some s') : Inv O B s' := by
  cases takes_of_step hs with
  | send hx hsending hforwarding => exact h.send hx hsending hforwarding _
  | @receive id _ _ x hx hin =>
    have hgrows : x.Grows x := .refl x
    refine h.silent hx ⟨rfl, hgrows.sent, hgrows.receiving, hgrows.closed⟩ rfl rfl rfl ?_
      (h.ended id x hx)
    rw [hin, List.append_assoc]
    rfl
  | @drop id x hx =>
    exact h.silent hx ⟨rfl, List.Subset.refl _, fun _ => rfl, fun hs ho => ⟨hs, ho⟩⟩ rfl rfl rfl rfl
      (h.ended id x hx)
  | @close id x hx =>
    exact h.silent hx ⟨rfl, List.Subset.refl _, fun hr => hr, fun _ ho => ⟨rfl, ho⟩⟩ rfl rfl rfl rfl
      fun hf hrun => ⟨rfl, (h.ended id x hx hf hrun).2⟩
  | @finish id x hx hend =>
    exact h.silent hx ⟨rfl, List.Subset.refl _, fun hr => hr, fun hs ho => ⟨hs, ho⟩⟩ rfl rfl rfl rfl
      fun _ => hend
  | clone hpos => exact h.setHandles fun hzero => absurd hzero hpos.ne'
  | release => exact h.setHandles fun hzero => by rw [hzero]
  | subscribe hrun => exact h.newSubscriber hrun _ _
  | forward _ hx hforwarding hout => exact h.forward hx hforwarding hout
  | closed hrun hclosed => exact h.stop (.inr (.inr (.inl ⟨rfl, h.abandoned hrun hclosed⟩)))
  | command _ hd hc => exact h.handle hd hc
  | message _ hd hj =>
    obtain ⟨hO, hB⟩ := hmessage _ _ rfl
    exact h.onMessage hd hj hO hB
  | deliver hrun hd hx => exact h.delivered hrun hd hx
  | fail _ _ hx hr hp => exact h.stop (.inr (.inr (.inr (.inl ⟨hp, _, _, hx, hr⟩))))

theorem inv_new : Inv O B new where
  fresh := nofun
  subscriptions := nofun
  subscribe := nofun
  known := nofun
  publish := by
    intro before topic e ephemeral after hsplit
    cases before <;> cases hsplit
  queued := nofun
  delivering := nofun
  joined := nofun
  published := nofun
  arrived := nofun
  channel := nofun
  outbound := nofun
  ended := nofun
  replay := nofun
  initial := nofun
  stopped := nofun

/-! ## A swarm -/

section

variable {P : Type*} [DecidableEq P] (Adv : String → Bytes → Prop)

/-- A step of one node. -/
def swarmStep (s : P → Gossip) (i : P × Input) : Option (P → Gossip) :=
  ((s i.1).step i.2).map fun t => Function.update s i.1 t

/-- A message has been published by another node, or by somebody else; `gossipsub` may lose, repeat and
reorder messages.  What comes back to the node that has published it counts as published by somebody
else. -/
def Arrives (s : P → Gossip) : P × Input → Prop
  | (p, .message topic data) => (∃ q, q ≠ p ∧ (topic, data) ∈ (s q).published) ∨ Adv topic data
  | _ => True

/-- The nodes, and others that publish `Adv`. -/
def machine : Machine (P → Gossip) (P × Input) :=
  (Machine.ofStep (· = fun _ => new) swarmStep).restrict (Arrives Adv)

/-- Where a message that comes to `p` has been sent. -/
def Origin (s : P → Gossip) (p : P) (topic : String) (e : Entry) : Prop :=
  (∃ q, q ≠ p ∧ (s q).Sent topic e) ∨ ∃ data, Adv topic data ∧ kvDeserialize data = .ok e

def Malformed : Prop := ∃ topic data, Adv topic data ∧ ∀ e, kvDeserialize data ≠ .ok e

variable {Adv}

theorem swarm_step {s t : P → Gossip} {i : P × Input}
    (h : ∀ p, Inv (Origin Adv s p) (Malformed Adv) (s p)) (harrives : Arrives Adv s i)
    (hs : swarmStep s i = some t) : ∀ p, Inv (Origin Adv t p) (Malformed Adv) (t p) := by
  obtain ⟨p, i⟩ := i
  obtain ⟨u, hu, rfl⟩ := Option.map_eq_some_iff.mp hs
  have hsent : ∀ {q topic e}, (s q).Sent topic e → (Function.update s p u q).Sent topic e := by
    intro q topic e hq
    by_cases hqp : q = p
    · subst hqp
      rw [Function.update_self]
      exact (h q).sent_step hu hq
    · rwa [Function.update_of_ne hqp]
  have horigin : ∀ q topic e, Origin Adv s q topic e → Origin Adv (Function.update s p u) q topic e :=
    fun q topic e => .imp_left fun ⟨q', hne, hq⟩ => ⟨q', hne, hsent hq⟩
  have hstep : Inv (Origin Adv s p) (Malformed Adv) u := by
    refine (h p).step ?_ hu
    rintro topic data rfl
    rcases harrives with ⟨q, hne, hq⟩ | hadv
    · obtain ⟨e, rfl, he⟩ := (h q).published topic data hq
      refine ⟨fun e' he' => ?_, fun hno => absurd (kvDeserialize_kvSerialize e) (hno e)⟩
      rw [kvDeserialize_kvSerialize] at he'
      cases he'
      exact .inl ⟨q, hne, he⟩
    · exact ⟨fun e he => .inr ⟨data, hadv, he⟩, fun hno => ⟨topic, data, hadv, hno⟩⟩
  intro q
  by_cases hqp : q = p
  · subst hqp
    rw [Function.update_self]
    exact hstep.mono (horigin q) fun hb => hb
  · rw [Function.update_of_ne hqp]
    exact (h q).mono (horigin q) fun hb => hb

theorem inv_reachable {s : P → Gossip} (hr : (machine Adv).Reachable s) (p : P) :
    Inv (Origin Adv s p) (Malformed Adv) (s p) := by
  refine Machine.invariant (P := fun s => ∀ p, Inv (Origin Adv s p) (Malformed Adv) (s p)) ?_ ?_ hr p
  · rintro s rfl p
    exact inv_new
  · rintro s i t h ⟨harrives, hs⟩
    exact swarm_step h harrives hs

/-- **A subscriber that is the only one of its topic at its node gets back what it has sent, in order
and exactly once, and everything else it gets was sent on that topic by a subscriber of another node,
or published by somebody else.**  No message is dropped for want of a subscriber: when the loop stops,
a third party has failed, nobody is left who could send a command, a subscriber has dropped its
receiver, or somebody has published something malformed. -/
theorem gossip_delivers (s : P → Gossip) (hr : (machine Adv).Reachable s) (p : P) :
    (∀ id x, (s p).endpoints id = some x →
      x.arrived = x.received ++ x.inbound ∧
      (∀ e, (false, e) ∈ x.arrived → Origin Adv s p x.topic e) ∧
      ((s p).Sole id x.topic → x.replayed <+: x.sent ∧ ((s p).stopped = none →
        x.sent = x.replayed ++ (s p).replaying id ++ Gossip.queued (s p).cmds x.topic ++ x.outbound))) ∧
    ∀ r, (s p).stopped = some r →
      (s p).Reason (Malformed Adv) r ∧ r ≠ .expect "topic not subscribed!" := by
  have h := inv_reachable hr p
  refine ⟨fun id x hx => ⟨h.channel id x hx, fun e => h.arrived id x e hx, fun hsole =>
    ⟨h.initial id x hx hsole, h.replay id x hx hsole⟩⟩, fun r hstop => ⟨h.stopped r hstop, ?_⟩⟩
  rcases h.stopped r hstop with rfl | rfl | ⟨rfl, -⟩ | ⟨hne, -⟩ | ⟨hne, -⟩
  · decide
  · decide
  · decide
  · exact hne
  · exact hne

end

def single (b : UInt8) : Encoding.ByteVec := ⟨[b], by rw [List.length_singleton]; decide⟩

def sampleEntry : Entry := (single 1, single 2)

def nextEntry : Entry := (single 3, single 4)

/-- A node with one subscriber, which sends an entry. -/
def oneSent : List (Unit × Input) :=
  [((), .subscribe "consensus" true), ((), .command true true), ((), .send 0 sampleEntry)]

/-- It sends another, and the first comes back. -/
def oneReplayed : List (Unit × Input) :=
  oneSent ++ [((), .send 0 nextEntry), ((), .forward 0), ((), .forward 0), ((), .command true true),
    ((), .deliver), ((), .receive 0)]

theorem reachable_oneReplayed {n : ℕ} {s : Unit → Gossip}
    (h : Machine.exec swarmStep (fun _ => new) (oneReplayed.take n) = some s) :
    (machine fun _ _ => False).Reachable s := by
  refine Machine.reachable_exec_restrict (fun i hi s => ?_) (.init rfl) h
  have hlocal := List.mem_of_mem_take hi
  simp only [oneReplayed, oneSent, List.cons_append, List.nil_append, List.mem_cons,
    List.not_mem_nil, or_false] at hlocal
  rcases hlocal with rfl | rfl | rfl | rfl | rfl | rfl | rfl | rfl | rfl <;> trivial

theorem gossip_delivers_one : ∃ s : Unit → Gossip, ∃ x, (s ()).endpoints 0 = some x ∧
    x.sent = [sampleEntry, nextEntry] ∧ x.received = [(true, sampleEntry)] ∧
    Gossip.queued (s ()).cmds "consensus" = [nextEntry] ∧ x.arrived = x.received ++ x.inbound ∧
    x.sent = x.replayed ++ (s ()).replaying 0 ++ Gossip.queued (s ()).cmds x.topic ++ x.outbound := by
  have hexec : ∃ s : Unit → Gossip, ∃ x,
      Machine.exec swarmStep (fun _ => new) (oneReplayed.take 9) = some s ∧
        (s ()).endpoints 0 = some x ∧ x.sent = [sampleEntry, nextEntry] ∧
        x.received = [(true, sampleEntry)] ∧ Gossip.queued (s ()).cmds "consensus" = [nextEntry] ∧
        (s ()).stopped = none ∧ (s ()).nextId = 1 := ⟨_, _, rfl, rfl, rfl, rfl, rfl, rfl, rfl⟩
  obtain ⟨s, x, hexec, hx, hsent, hreceived, hqueued, hrun, hnext⟩ := hexec
  have hr := reachable_oneReplayed hexec
  have hsole : (s ()).Sole 0 x.topic := by
    intro j y hy _
    have hlt := (inv_reachable hr ()).fresh j y hy
    omega
  obtain ⟨hchannel, -, hreplay⟩ := (gossip_delivers s hr ()).1 0 x hx
  exact ⟨s, x, hx, hsent, hreceived, hqueued, hchannel, (hreplay hsole).2 hrun⟩

end AccountabilityGadget.Gossip
