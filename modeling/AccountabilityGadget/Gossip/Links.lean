import AccountabilityGadget.Gossip.Replay

/-!
# Components that talk through the gossip

The consensus and the mempool each subscribe to a topic and run two tasks: one serializes what the
component sends and passes it on, the other deserializes what comes in (`Consensus::myrun`,
`Mempool::myrun`).

* `Port` — what the two tasks do with a message; `Link` — a component at a node.
* `gossip_reachable` — the gossip tasks of the nodes are in a state that a swarm reaches.
* `inbox` — what a component gets: its own messages, in order and once, and those of the others; and
  why its tasks stop.
-/

set_option autoImplicit false

namespace AccountabilityGadget.Gossip

open Encoding

/-- The tasks of a component, one message at a time; `none`: ignored. -/
structure Port (M : Type) where
  topic : String
  ephemeral : Bool
  send : ByteVec → Except Panic (Option Entry)
  receive : Entry → Except Panic M

namespace Port

variable {M : Type} (port : Port M)

/-- What goes out. -/
def entry (b : ByteVec) : Option Entry :=
  match port.send b with
  | .ok e => e
  | .error _ => none

/-- What comes in. -/
def read (e : Entry) : Option M := (port.receive e).toOption

/-- An entry that has come in, with its mark. -/
def decode (a : Bool × Entry) : Bool × Except Panic M := (a.1, port.receive a.2)

/-- What the others get. -/
def message (b : ByteVec) : Option M := (port.entry b).bind port.read

/-- What goes out can be read. -/
def Lawful : Prop := ∀ b e, port.send b = .ok (some e) → ∃ m, port.receive e = .ok m

end Port

/-- A message that a component has got, with its mark. -/
def handed {M : Type} (m : Bool × M) : Bool × Except Panic M := (m.1, .ok m.2)

/-- A component and the gossip of its node. -/
structure Link (M : Type) where
  gossip : Gossip
  /-- The subscription. -/
  id : Option ℕ
  /-- What the component has sent. -/
  sent : List ByteVec
  network : List ByteVec
  /-- What the component has got; `true`: replayed. -/
  core : List (Bool × M)
  /-- Somebody can send to `network`. -/
  talking : Bool
  /-- The core has not dropped the receiver of its channel. -/
  listening : Bool
  /-- `myrun` has not returned; it holds a sender of the channel that the subscription returned. -/
  booting : Bool
  /-- The tasks have panicked. -/
  stoppedOut : Option Panic
  stoppedIn : Option Panic

namespace Link

inductive Input where
  | subscribe
  /-- The component sends a message. -/
  | say (b : ByteVec)
  /-- The tasks. -/
  | outbound
  | inbound
  /-- The last sender of the channel to the network is dropped. -/
  | hangup
  /-- The core drops its receiver. -/
  | deafen
  /-- `myrun` returns. -/
  | booted
  /-- A step of the gossip, or of its other users. -/
  | gossip (i : Gossip.Input)

variable {M : Type} (port : Port M)

def new : Link M := ⟨.new, none, [], [], [], true, true, true, none, none⟩

/-- Others leave the topic and the subscription alone; its ends are dropped when their tasks stop. -/
def Foreign (s : Link M) : Gossip.Input → Prop
  | .send j _ | .receive j => s.id ≠ some j
  | .drop j => s.id = some j → s.stoppedIn.isSome
  | .close j => s.id = some j → s.stoppedOut.isSome
  | .subscribe topic _ => topic ≠ port.topic
  | _ => True

instance (s : Link M) (i : Gossip.Input) : Decidable (s.Foreign port i) :=
  match i with
  | .send j _ | .receive j => inferInstanceAs (Decidable (s.id ≠ some j))
  | .drop j => inferInstanceAs (Decidable (s.id = some j → s.stoppedIn.isSome))
  | .close j => inferInstanceAs (Decidable (s.id = some j → s.stoppedOut.isSome))
  | .subscribe topic _ => inferInstanceAs (Decidable (topic ≠ port.topic))
  | .forward _ | .command _ _ | .message _ _ | .deliver | .clone | .release =>
    inferInstanceAs (Decidable True)

def stopOut (s : Link M) (msg : String) : Link M := { s with stoppedOut := some (.expect msg) }

def stopIn (s : Link M) (msg : String) : Link M := { s with stoppedIn := some (.expect msg) }

def onSubscribe (s : Link M) : Option (Link M) :=
  match s.id with
  | some _ => none
  | none => (s.gossip.step (.subscribe port.topic port.ephemeral)).map fun g =>
      { s with gossip := g, id := some s.gossip.nextId }

def onOutbound (s : Link M) : Option (Link M) :=
  match s.stoppedOut, s.id, s.network with
  | none, some id, b :: rest =>
    match port.send b with
    | .error p => some { s with network := rest, stoppedOut := some p }
    | .ok none => some { s with network := rest }
    | .ok (some e) =>
      match s.gossip.step (.send id e) with
      | some g => some { s with gossip := g, network := rest }
      | none => some ({ s with network := rest }.stopOut "failed to forward outbound msg to gossip!")
  | none, some _, [] => if s.talking then none else some (s.stopOut "failed to read outbound msg!")
  | _, _, _ => none

def onInbound (s : Link M) : Option (Link M) :=
  match s.stoppedIn, s.id with
  | none, some id =>
    match (s.gossip.endpoints id).bind (·.inbound.head?), s.gossip.step (.receive id) with
    | some (replayed, e), some g =>
      match port.receive e with
      | .error p => some { s with gossip := g, stoppedIn := some p }
      | .ok m =>
        if s.listening then some { s with gossip := g, core := s.core ++ [(replayed, m)] }
        else some ({ s with gossip := g }.stopIn "failed to forward inbound msg to tx_core!")
    -- the senders of the channel are the one in the loop and the one of `myrun`
    | _, _ =>
      if s.gossip.stopped.isSome ∧ ¬ s.booting then some (s.stopIn "failed to read inbound msg!")
      else none
  | _, _ => none

def step (s : Link M) : Input → Option (Link M)
  | .subscribe => s.onSubscribe port
  | .say b =>
    if s.talking then some { s with sent := s.sent ++ [b], network := s.network ++ [b] } else none
  | .outbound => s.onOutbound port
  | .inbound => s.onInbound port
  | .hangup => some { s with talking := false }
  | .deafen => some { s with listening := false }
  | .booted => some { s with booting := false }
  | .gossip i => if s.Foreign port i then (s.gossip.step i).map fun g => { s with gossip := g } else none

/-- What a step does. -/
inductive Takes (s : Link M) : Input → Link M → Prop
  | subscribe {g : Gossip} : s.id = none →
      s.gossip.step (.subscribe port.topic port.ephemeral) = some g →
      Takes s .subscribe { s with gossip := g, id := some s.gossip.nextId }
  | say {b : ByteVec} :
      Takes s (.say b) { s with sent := s.sent ++ [b], network := s.network ++ [b] }
  | hangup : Takes s .hangup { s with talking := false }
  | deafen : Takes s .deafen { s with listening := false }
  | booted : Takes s .booted { s with booting := false }
  | fail {id : ℕ} {b : ByteVec} {rest : List ByteVec} {p : Panic} : s.id = some id →
      s.network = b :: rest → port.send b = .error p →
      Takes s .outbound { s with network := rest, stoppedOut := some p }
  | ignore {id : ℕ} {b : ByteVec} {rest : List ByteVec} : s.stoppedOut = none → s.id = some id →
      s.network = b :: rest → port.send b = .ok none → Takes s .outbound { s with network := rest }
  | forward {id : ℕ} {b : ByteVec} {rest : List ByteVec} {e : Entry} {g : Gossip} :
      s.stoppedOut = none → s.id = some id → s.network = b :: rest → port.send b = .ok (some e) → s.gossip.step (.send id e) = some g →
      Takes s .outbound { s with gossip := g, network := rest }
  | refused {id : ℕ} {b : ByteVec} {rest : List ByteVec} {e : Entry} : s.stoppedOut = none →
      s.id = some id → s.network = b :: rest → s.gossip.step (.send id e) = none →
      Takes s .outbound ({ s with network := rest }.stopOut "failed to forward outbound msg to gossip!")
  | silence {id : ℕ} : s.id = some id → s.talking = false →
      Takes s .outbound (s.stopOut "failed to read outbound msg!")
  | garbage {id : ℕ} {x : Endpoint} {a : Bool × Entry} {g : Gossip} {p : Panic} : s.stoppedIn = none →
      s.id = some id → s.gossip.endpoints id = some x → x.inbound.head? = some a →
      s.gossip.step (.receive id) = some g → port.receive a.2 = .error p →
      Takes s .inbound { s with gossip := g, stoppedIn := some p }
  | deliver {id : ℕ} {x : Endpoint} {a : Bool × Entry} {g : Gossip} {m : M} : s.stoppedIn = none →
      s.id = some id → s.gossip.endpoints id = some x → x.inbound.head? = some a →
      s.gossip.step (.receive id) = some g → port.receive a.2 = .ok m →
      Takes s .inbound { s with gossip := g, core := s.core ++ [(a.1, m)] }
  | deaf {id : ℕ} {x : Endpoint} {a : Bool × Entry} {g : Gossip} : s.stoppedIn = none →
      s.id = some id → s.gossip.endpoints id = some x → x.inbound.head? = some a →
      s.gossip.step (.receive id) = some g → s.listening = false →
      Takes s .inbound ({ s with gossip := g }.stopIn "failed to forward inbound msg to tx_core!")
  | quiet {id : ℕ} : s.stoppedIn = none → s.id = some id → s.gossip.stopped.isSome →
      Takes s .inbound (s.stopIn "failed to read inbound msg!")
  | gossip {i : Gossip.Input} {g : Gossip} : s.Foreign port i → s.gossip.step i = some g →
      Takes s (.gossip i) { s with gossip := g }

theorem takes_of_onOutbound {s t : Link M} (h : s.onOutbound port = some t) :
    Takes port s .outbound t := by
  unfold onOutbound at h
  split at h
  · rename_i id b rest hrun hid hnetwork
    split at h
    · rename_i p hsend
      cases h
      exact .fail hid hnetwork hsend
    · rename_i hsend
      cases h
      exact .ignore hrun hid hnetwork hsend
    · rename_i e hsend
      split at h
      · rename_i g hg
        cases h
        exact .forward hrun hid hnetwork hsend hg
      · rename_i hg
        cases h
        exact .refused hrun hid hnetwork hg
  · rename_i id hrun hid hnetwork
    split_ifs at h with htalking
    cases h
    exact .silence hid (by simpa using htalking)
  · cases h

theorem takes_of_onInbound {s t : Link M} (h : s.onInbound port = some t) :
    Takes port s .inbound t := by
  unfold onInbound at h
  split at h
  · rename_i id hrun hid
    split at h
    · rename_i replayed e g he hg
      obtain ⟨x, hx, he⟩ := Option.bind_eq_some_iff.mp he
      split at h
      · rename_i p hreceive
        cases h
        exact .garbage hrun hid hx he hg hreceive
      · rename_i m hreceive
        split_ifs at h with hlistening
        · cases h
          exact .deliver hrun hid hx he hg hreceive
        · cases h
          exact .deaf hrun hid hx he hg (by simpa using hlistening)
    · split_ifs at h with hquiet
      cases h
      exact .quiet hrun hid hquiet.1
  · cases h

theorem takes_of_step {s t : Link M} {i : Input} (h : s.step port i = some t) : Takes port s i t := by
  cases i with
  | subscribe =>
    simp only [step, onSubscribe] at h
    split at h
    · cases h
    · rename_i hid
      obtain ⟨g, hg, rfl⟩ := Option.map_eq_some_iff.mp h
      exact .subscribe hid hg
  | say b =>
    simp only [step] at h
    split_ifs at h
    cases h
    exact .say
  | outbound => exact takes_of_onOutbound port h
  | inbound => exact takes_of_onInbound port h
  | hangup =>
    cases h
    exact .hangup
  | deafen =>
    cases h
    exact .deafen
  | booted =>
    cases h
    exact .booted
  | gossip i =>
    simp only [step] at h
    split_ifs at h with hi
    obtain ⟨g, hg, rfl⟩ := Option.map_eq_some_iff.mp h
    exact .gossip hi hg

end Link

/-! ## What the gossip does for a subscriber -/

section

variable {O : String → Entry → Prop} {B : Prop} {s s' : Gossip} {i : Input}

/-- What others leave of a subscriber. -/
structure Untouched (i : Input) (id : ℕ) (x x' : Endpoint) : Prop where
  topic : x'.topic = x.topic
  sent : x'.sent = x.sent
  received : x'.received = x.received
  sending : i ≠ .close id → x'.sending = x.sending

/-- What a subscriber has sent and got changes only when it sends or receives. -/
theorem Inv.untouched {id : ℕ} {x : Endpoint} (h : Inv O B s) (hs : s.step i = some s')
    (hx : s.endpoints id = some x) (hsend : ∀ e, i ≠ .send id e) (hreceive : i ≠ .receive id) :
    ∃ x', s'.endpoints id = some x' ∧ Untouched i id x x' := by
  have hsame : Untouched i id x x := ⟨rfl, rfl, rfl, fun _ => rfl⟩
  have hother : ∀ {j : ℕ} {y' : Endpoint}, j ≠ id → ∃ x',
      (s.setEndpoint j y').endpoints id = some x' ∧ Untouched i id x x' :=
    fun hj => ⟨x, (Function.update_of_ne hj.symm ..).trans hx, hsame⟩
  have hset : ∀ {j : ℕ} {y y' : Endpoint}, s.endpoints j = some y → Untouched i j y y' → ∃ x',
      (s.setEndpoint j y').endpoints id = some x' ∧ Untouched i id x x' := by
    intro j y y' hy hu
    by_cases hj : j = id
    · subst hj
      rw [hy, Option.some.injEq] at hx
      subst hx
      exact ⟨y', Function.update_self .., hu⟩
    · exact hother hj
  cases takes_of_step hs with
  | send hy => exact hother fun hj => hsend _ (by rw [hj])
  | receive hy => exact hother fun hj => hreceive (by rw [hj])
  | close hy => exact hset hy ⟨rfl, rfl, rfl, fun hne => absurd rfl hne⟩
  | drop hy | forward _ hy | deliver _ _ hy | finish hy => exact hset hy ⟨rfl, rfl, rfl, fun _ => rfl⟩
  | subscribe => exact hother (h.fresh id x hx).ne'
  | command => exact ⟨x, (congrFun (handle_endpoints ..) id).trans hx, hsame⟩
  | message => exact ⟨x, (congrFun (onMessage_endpoints ..) id).trans hx, hsame⟩
  | fail | closed | clone | release => exact ⟨x, hx, hsame⟩

/-- A loop that has stopped does not go on. -/
theorem stopped_step (hs : s.step i = some s') (hstop : s.stopped.isSome) : s'.stopped.isSome := by
  cases takes_of_step hs with
  | send | receive | drop | close | clone | release | finish => exact hstop
  | subscribe hrun | forward hrun | closed hrun | command hrun | message hrun | deliver hrun
  | fail hrun => exact absurd hstop (by simp [hrun])

theorem receives {id : ℕ} {x : Endpoint} {a : Bool × Entry} (hs : s.step (.receive id) = some s')
    (hx : s.endpoints id = some x) (he : x.inbound.head? = some a) :
    ∃ x', s'.endpoints id = some x' ∧ x'.topic = x.topic ∧ x'.sent = x.sent ∧
      x'.sending = x.sending ∧ x'.received = x.received ++ [a] := by
  cases takes_of_step hs with
  | receive hy hin =>
    rw [hx, Option.some.injEq] at hy
    subst hy
    rw [hin, List.head?_cons, Option.some.injEq] at he
    subst he
    exact ⟨_, Function.update_self .., rfl, rfl, rfl, rfl⟩

/-- A subscriber that has kept its sender can send as long as the loop runs. -/
theorem Inv.accepts {id : ℕ} {x : Endpoint} {e : Entry} (h : Inv O B s) (hx : s.endpoints id = some x)
    (hsending : x.sending = true) (hs : s.step (.send id e) = none) : s.stopped.isSome := by
  by_contra hno
  have hrun : s.stopped = none := by simpa using hno
  have hforwarding : x.forwarding = true := by
    by_contra hended
    have hclosed := (h.ended id x hx (by simpa using hended) hrun).1
    exact absurd (hsending.symm.trans hclosed) nofun
  change (s.endpoints id).bind _ = none at hs
  rw [hx, Option.bind_some, if_pos ⟨hsending, hforwarding⟩] at hs
  cases hs

/-- Subscribers come from calls of `subscribe`. -/
theorem subscriber_cases {j : ℕ} {y : Endpoint} (hs : s.step i = some s')
    (hy : s'.endpoints j = some y) : (∃ x, s.endpoints j = some x ∧ x.topic = y.topic) ∨
      ∃ ephemeral, i = .subscribe y.topic ephemeral ∧ j = s.nextId := by
  have hset : ∀ {k : ℕ} {z z' : Endpoint}, s.endpoints k = some z → z'.topic = z.topic →
      (s.setEndpoint k z').endpoints j = some y → ∃ x, s.endpoints j = some x ∧ x.topic = y.topic := by
    intro k z z' hz ht hy
    rcases endpoints_cases hy with ⟨rfl, rfl⟩ | ⟨-, hy⟩
    · exact ⟨z, hz, ht.symm⟩
    · exact ⟨y, hy, rfl⟩
  cases takes_of_step hs with
  | send hz | receive hz | drop hz | close hz | forward _ hz | deliver _ _ hz | finish hz =>
    refine .inl (hset hz ?_ hy)
    rfl
  | @subscribe topic ephemeral =>
    rcases endpoints_cases (s := s) hy with ⟨rfl, rfl⟩ | ⟨-, hy⟩
    · exact .inr ⟨ephemeral, rfl, rfl⟩
    · exact .inl ⟨y, hy, rfl⟩
  | command =>
    rw [handle_endpoints] at hy
    exact .inl ⟨y, hy, rfl⟩
  | message =>
    rw [onMessage_endpoints] at hy
    exact .inl ⟨y, hy, rfl⟩
  | fail | closed | clone | release => exact .inl ⟨y, hy, rfl⟩

end

/-! ## The nodes -/

section

variable {P M : Type} [DecidableEq P] (port : Port M) (Adv : String → Bytes → Prop)

def linkStep (s : P → Link M) (i : P × Link.Input) : Option (P → Link M) :=
  ((s i.1).step port i.2).map fun t => Function.update s i.1 t

/-- Messages of other nodes come as in `machine`. -/
def Link.Arrives (s : P → Link M) : P × Link.Input → Prop
  | (p, .gossip i) => Gossip.Arrives Adv (fun q => (s q).gossip) (p, i)
  | _ => True

def nodes : Machine (P → Link M) (P × Link.Input) :=
  (Machine.ofStep (· = fun _ => Link.new) (linkStep port)).restrict (Link.Arrives Adv)

variable {port Adv}

/-- A step of a link is one of its gossip, if it concerns it at all. -/
theorem Link.Takes.gossip_step {s t : Link M} {i : Link.Input} (h : Link.Takes port s i t) :
    t.gossip = s.gossip ∨ ∃ j, s.gossip.step j = some t.gossip ∧
      ∀ topic data, j = .message topic data → i = .gossip j := by
  cases h with
  | subscribe _ hg | forward _ _ _ _ hg | garbage _ _ _ _ hg _ | deliver _ _ _ _ hg _
  | deaf _ _ _ _ hg _ => exact .inr ⟨_, hg, nofun⟩
  | say | hangup | deafen | booted | fail | ignore | refused | silence | quiet => exact .inl rfl
  | gossip _ hg => exact .inr ⟨_, hg, fun _ _ _ => rfl⟩

theorem gossip_reachable {s : P → Link M} (h : (nodes port Adv).Reachable s) :
    (machine Adv).Reachable fun p => (s p).gossip := by
  induction h with
  | init h =>
    cases h
    exact .init rfl
  | @step s t i hr hst ih =>
    obtain ⟨harrives, hs⟩ := hst
    obtain ⟨p, i⟩ := i
    obtain ⟨u, hu, rfl⟩ := Option.map_eq_some_iff.mp hs
    have hupdate : (fun q => (Function.update s p u q).gossip) =
        Function.update (fun q => (s q).gossip) p u.gossip := by
      funext q
      by_cases hq : q = p
      · rw [hq, Function.update_self, Function.update_self]
      · rw [Function.update_of_ne hq, Function.update_of_ne hq]
    rw [hupdate]
    rcases (Link.takes_of_step port hu).gossip_step with hsame | ⟨j, hj, hmessage⟩
    · rw [hsame, Function.update_eq_self]
      exact ih
    · refine ih.step (i := (p, j)) ⟨?_, ?_⟩
      · cases j with
        | message topic data =>
          obtain rfl := hmessage topic data rfl
          exact harrives
        | _ => trivial
      · show ((s p).gossip.step j).map _ = _
        rw [hj]
        rfl

/-! ## Invariant -/

namespace Link

/-- Why the task that receives has stopped. -/
def ReasonIn (port : Port M) (s : Link M) (x : Endpoint) (r : Panic) : Prop :=
  (∃ a ∈ x.received, port.receive a.2 = .error r) ∨
    (r = .expect "failed to read inbound msg!" ∧ s.gossip.stopped.isSome) ∨
    (r = .expect "failed to forward inbound msg to tx_core!" ∧ s.listening = false)

/-- Why the task that sends has stopped. -/
def ReasonOut (port : Port M) (s : Link M) (r : Panic) : Prop :=
  (∃ b ∈ s.sent, port.send b = .error r) ∨
    (r = .expect "failed to read outbound msg!" ∧ s.talking = false) ∨
    (r = .expect "failed to forward outbound msg to gossip!" ∧ s.gossip.stopped.isSome)

/-- The entries of a subscriber are those of the component. -/
structure Carries (port : Port M) (s : Link M) (x : Endpoint) : Prop where
  topic : x.topic = port.topic
  sent : ∃ done, done <+: s.sent ∧ x.sent = done.filterMap port.entry ∧
    (s.stoppedOut = none → s.sent = done ++ s.network)
  sending : s.stoppedOut = none → x.sending = true
  received : s.stoppedIn = none →
    x.received.map port.decode = s.core.map handed
  got : s.core.map handed <+: x.received.map port.decode
  stopped : ∀ r, s.stoppedIn = some r → s.ReasonIn port x r

structure Inv (port : Port M) (s : Link M) : Prop where
  idle : s.id = none → s.sent = s.network ∧ s.core = [] ∧ s.stoppedIn = none
  sole : ∀ j y, s.gossip.endpoints j = some y → y.topic = port.topic → s.id = some j
  carries : ∀ id, s.id = some id → ∃ x, s.gossip.endpoints id = some x ∧ s.Carries port x
  stopped : ∀ r, s.stoppedOut = some r → s.ReasonOut port r
  suffix : s.network <:+ s.sent

theorem inv_new : Inv port new where
  idle := fun _ => ⟨rfl, rfl, rfl⟩
  sole := nofun
  carries := nofun
  stopped := nofun
  suffix := List.suffix_refl _

variable {O : String → Entry → Prop} {B : Prop} {s t : Link M}

/-- The reasons last. -/
structure Later (s t : Link M) : Prop where
  sent : s.sent ⊆ t.sent
  gossip : s.gossip.stopped.isSome → t.gossip.stopped.isSome
  talking : s.talking = false → t.talking = false
  listening : s.listening = false → t.listening = false

theorem ReasonIn.later {x x' : Endpoint} {r : Panic} (h : s.ReasonIn port x r) (hl : Later s t)
    (hreceived : x.received ⊆ x'.received) : t.ReasonIn port x' r :=
  h.imp (fun ⟨a, ha, he⟩ => ⟨a, hreceived ha, he⟩)
    (.imp (And.imp_right hl.gossip) (And.imp_right hl.listening))

theorem ReasonOut.later {r : Panic} (h : s.ReasonOut port r) (hl : Later s t) : t.ReasonOut port r :=
  h.imp (fun ⟨b, hb, he⟩ => ⟨b, hl.sent hb, he⟩)
    (.imp (And.imp_right hl.talking) (And.imp_right hl.gossip))

/-- A step that neither moves messages nor stops a task. -/
theorem Inv.keep (h : Inv port s) (hid : t.id = s.id) (hsent : t.sent = s.sent)
    (hnetwork : t.network = s.network) (hcore : t.core = s.core) (hout : t.stoppedOut = s.stoppedOut)
    (hin : t.stoppedIn = s.stoppedIn) (hl : Later s t)
    (hkept : ∀ id x, s.id = some id → s.gossip.endpoints id = some x →
      ∃ x', t.gossip.endpoints id = some x' ∧ x'.topic = x.topic ∧ x'.sent = x.sent ∧
        x'.received = x.received ∧ (s.stoppedOut = none → x'.sending = x.sending))
    (hback : ∀ j y, t.gossip.endpoints j = some y → y.topic = port.topic →
      ∃ x, s.gossip.endpoints j = some x ∧ x.topic = port.topic) : Inv port t where
  idle := by
    rw [hid, hsent, hnetwork, hcore, hin]
    exact h.idle
  sole := by
    intro j y hy ht
    obtain ⟨x, hx, hxt⟩ := hback j y hy ht
    exact hid.trans (h.sole j x hx hxt)
  carries := by
    intro id hid'
    obtain ⟨x, hx, hc⟩ := h.carries id (hid.symm.trans hid')
    obtain ⟨x', hx', ht, hxsent, hreceived, hsending⟩ := hkept id x (hid.symm.trans hid') hx
    refine ⟨x', hx', ht.trans hc.topic, ?_, fun hrun => ?_, ?_, ?_, fun r hr => ?_⟩
    · rw [hsent, hnetwork, hxsent, hout]
      exact hc.sent
    · rw [hout] at hrun
      exact (hsending hrun).trans (hc.sending hrun)
    · rw [hin, hreceived, hcore]
      exact hc.received
    · rw [hreceived, hcore]
      exact hc.got
    · exact (hc.stopped r (hin.symm.trans hr)).later hl (hreceived ▸ List.Subset.refl _)
  stopped := fun r hr => (h.stopped r (hout.symm.trans hr)).later hl
  suffix := by
    rw [hsent, hnetwork]
    exact h.suffix

/-- A step of a task of the component. -/
theorem Inv.own {id : ℕ} {x' : Endpoint} (h : Inv port s) (hid : s.id = some id)
    (hidt : t.id = some id) (hx' : t.gossip.endpoints id = some x')
    (hback : ∀ j y, t.gossip.endpoints j = some y → ∃ x, s.gossip.endpoints j = some x ∧ x.topic = y.topic)
    (hcarries : t.Carries port x') (hstopped : ∀ r, t.stoppedOut = some r → t.ReasonOut port r)
    (hsuffix : t.network <:+ t.sent) : Inv port t where
  idle := fun hno => absurd (hidt.symm.trans hno) nofun
  sole := by
    intro j y hy ht
    obtain ⟨x, hx, hxt⟩ := hback j y hy
    rw [hidt, ← hid]
    exact h.sole j x hx (hxt.trans ht)
  carries := by
    intro id' hid'
    rw [hidt, Option.some.injEq] at hid'
    exact hid' ▸ ⟨x', hx', hcarries⟩
  stopped := hstopped
  suffix := hsuffix

/-- The first message is taken from the queue. -/
theorem Carries.pop {x : Endpoint} {b : ByteVec} {rest : List ByteVec} (h : s.Carries port x)
    (es : List Entry) (hrun : s.stoppedOut = none) (hnetwork : s.network = b :: rest)
    (hes : (port.entry b).toList = es) : ∃ done, done <+: s.sent ∧
      x.sent ++ es = done.filterMap port.entry ∧ (s.stoppedOut = none → s.sent = done ++ rest) := by
  obtain ⟨done, -, hx, hsent⟩ := h.sent
  have hall : s.sent = done ++ [b] ++ rest := by
    rw [hsent hrun, hnetwork, List.append_assoc]
    rfl
  refine ⟨done ++ [b], hall ▸ List.prefix_append .., ?_, fun _ => hall⟩
  rw [List.filterMap_append, ← hx, ← hes]
  cases hb : port.entry b <;> simp [hb]

/-- A task of the component has gone on, the gossip of the node has not. -/
theorem Inv.alone {id : ℕ} {x : Endpoint} (h : Inv port s) (hid : s.id = some id)
    (hx : s.gossip.endpoints id = some x) (hc : s.Carries port x) (hidt : t.id = s.id)
    (hgossip : t.gossip = s.gossip) (hsent : ∃ done, done <+: t.sent ∧
      x.sent = done.filterMap port.entry ∧ (t.stoppedOut = none → t.sent = done ++ t.network))
    (hout : t.stoppedOut = none → s.stoppedOut = none)
    (hcore : t.core = s.core) (hin : t.stoppedIn = none → s.stoppedIn = none)
    (hreasonIn : ∀ r, t.stoppedIn = some r → t.ReasonIn port x r)
    (hreasonOut : ∀ r, t.stoppedOut = some r → t.ReasonOut port r) (hsuffix : t.network <:+ t.sent) :
    Inv port t := by
  refine h.own hid (hidt.trans hid) (hgossip ▸ hx) ?_ ⟨hc.topic, hsent, fun hrun => hc.sending (hout hrun),
    ?_, hcore ▸ hc.got, hreasonIn⟩ hreasonOut hsuffix
  · intro j y hy
    exact ⟨y, hgossip ▸ hy, rfl⟩
  · rw [hcore]
    exact fun hrun => hc.received (hin hrun)

/-- The task that receives has taken an entry, and passed it on or stopped. -/
theorem Inv.receive {id : ℕ} {x : Endpoint} {a : Bool × Entry} {g : Gossip} {core : List (Bool × M)}
    {stoppedIn : Option Panic} (h : Inv port s) (hrun : s.stoppedIn = none) (hid : s.id = some id)
    (hx : s.gossip.endpoints id = some x) (ha : x.inbound.head? = some a)
    (hstep : s.gossip.step (.receive id) = some g)
    (hturn : (∃ m, port.receive a.2 = .ok m ∧ core = s.core ++ [(a.1, m)] ∧ stoppedIn = none) ∨
      core = s.core ∧ ∃ r, stoppedIn = some r ∧ (port.receive a.2 = .error r ∨
        r = .expect "failed to forward inbound msg to tx_core!" ∧ s.listening = false)) :
    Inv port { s with gossip := g, core, stoppedIn } := by
  obtain ⟨x₀, hx₀, hc⟩ := h.carries id hid
  obtain rfl : x = x₀ := Option.some.inj (hx.symm.trans hx₀)
  obtain ⟨x', hx', ht, hsent, hsending, hreceived⟩ := receives hstep hx ha
  have hback : ∀ j y, g.endpoints j = some y → ∃ x, s.gossip.endpoints j = some x ∧
      x.topic = y.topic := fun j y hy => (subscriber_cases hstep hy).resolve_right nofun
  have hall : x'.received.map port.decode = s.core.map handed ++ [port.decode a] := by
    rw [hreceived, List.map_append, hc.received hrun]
    rfl
  have hlater : Later s { s with gossip := g, core, stoppedIn } :=
    ⟨List.Subset.refl _, stopped_step hstep, fun hno => hno, fun hno => hno⟩
  refine h.own hid hid hx' hback ⟨ht.trans hc.topic, hsent ▸ hc.sent, fun ho => hsending.trans (hc.sending ho),
    ?_, ?_, ?_⟩ (fun r hr => (h.stopped r hr).later hlater) h.suffix
  · rintro ⟨⟩
    rcases hturn with ⟨m, hm, rfl, -⟩ | ⟨-, r, hr, -⟩
    · rw [hall, List.map_append, Port.decode, hm]
      rfl
    · cases hr
  · show core.map handed <+: _
    rw [hall]
    rcases hturn with ⟨m, hm, rfl, -⟩ | ⟨rfl, -⟩
    · rw [List.map_append, Port.decode, hm]
      exact List.prefix_refl _
    · exact List.prefix_append ..
  · intro r hr
    change stoppedIn = some r at hr
    rcases hturn with ⟨-, -, -, hnone⟩ | ⟨-, r', hr', hreason⟩
    · exact absurd (hnone.symm.trans hr) nofun
    · obtain rfl : r' = r := Option.some.inj (hr'.symm.trans hr)
      rcases hreason with hreceive | hdeaf
      · exact .inl ⟨a, hreceived ▸ List.mem_append_right _ List.mem_cons_self, hreceive⟩
      · exact .inr (.inr hdeaf)

theorem Inv.step {i : Input} (hg : Gossip.Inv O B s.gossip) (h : Inv port s)
    (hs : Takes port s i t) : Inv port t := by
  have hidle : ∀ id x, s.id = some id → s.gossip.endpoints id = some x →
      ∃ x', s.gossip.endpoints id = some x' ∧ x'.topic = x.topic ∧ x'.sent = x.sent ∧
        x'.received = x.received ∧ (s.stoppedOut = none → x'.sending = x.sending) :=
    fun _ x _ hx => ⟨x, hx, rfl, rfl, rfl, fun _ => rfl⟩
  cases hs with
  | @subscribe g hid hstep =>
    obtain ⟨hsent, hcore, hin⟩ := h.idle hid
    have hself : g.endpoints s.gossip.nextId = some (.new port.topic port.ephemeral) := by
      cases Gossip.takes_of_step hstep
      exact Function.update_self ..
    have hlater : Later s { s with gossip := g, id := some s.gossip.nextId } :=
      ⟨List.Subset.refl _, stopped_step hstep, fun hno => hno, fun hno => hno⟩
    refine ⟨nofun, ?_, ?_, fun r hr => (h.stopped r hr).later hlater, h.suffix⟩
    · intro j y hy ht
      rcases subscriber_cases hstep hy with ⟨x, hx, hxt⟩ | ⟨_, -, rfl⟩
      · exact absurd (hid.symm.trans (h.sole j x hx (hxt.trans ht))) nofun
      · rfl
    · rintro id ⟨⟩
      refine ⟨_, hself, rfl, ⟨[], List.nil_prefix, rfl, fun _ => hsent⟩, fun _ => rfl, fun _ => ?_, ?_,
        fun r hr => ?_⟩
      · rw [hcore]
        rfl
      · rw [hcore]
        exact List.nil_prefix
      · exact absurd (hin.symm.trans hr) nofun
  | @say b =>
    have hlater : Later s { s with sent := s.sent ++ [b], network := s.network ++ [b] } :=
      ⟨List.subset_append_left .., fun hno => hno, fun hno => hno, fun hno => hno⟩
    refine ⟨fun hid => ?_, h.sole, fun id hid => ?_, fun r hr => (h.stopped r hr).later hlater, ?_⟩
    · obtain ⟨hsent, hrest⟩ := h.idle hid
      exact ⟨congrArg (· ++ [b]) hsent, hrest⟩
    · obtain ⟨x, hx, hc⟩ := h.carries id hid
      obtain ⟨done, hpre, hdone, hsent⟩ := hc.sent
      refine ⟨x, hx, hc.topic, ⟨done, hpre.trans (List.prefix_append ..), hdone, fun hrun => ?_⟩,
        hc.sending, hc.received, hc.got, hc.stopped⟩
      show s.sent ++ [b] = done ++ (s.network ++ [b])
      rw [hsent hrun, List.append_assoc]
    · obtain ⟨done, hdone⟩ := h.suffix
      exact ⟨done, by rw [← hdone, List.append_assoc]⟩
  | hangup =>
    exact h.keep rfl rfl rfl rfl rfl rfl ⟨List.Subset.refl _, fun hno => hno, fun _ => rfl,
      fun hno => hno⟩ hidle fun j y hy ht => ⟨y, hy, ht⟩
  | deafen =>
    exact h.keep rfl rfl rfl rfl rfl rfl ⟨List.Subset.refl _, fun hno => hno, fun hno => hno,
      fun _ => rfl⟩ hidle fun j y hy ht => ⟨y, hy, ht⟩
  | booted =>
    exact h.keep rfl rfl rfl rfl rfl rfl ⟨List.Subset.refl _, fun hno => hno, fun hno => hno,
      fun hno => hno⟩ hidle fun j y hy ht => ⟨y, hy, ht⟩
  | @fail id b rest p hid hnetwork hsend =>
    obtain ⟨x, hx, hc⟩ := h.carries id hid
    obtain ⟨done, hpre, hdone, -⟩ := hc.sent
    refine h.alone hid hx hc rfl rfl ⟨done, hpre, hdone, nofun⟩ nofun rfl (fun hin => hin)
      hc.stopped ?_ ((List.suffix_cons b rest).trans (hnetwork ▸ h.suffix))
    rintro r ⟨⟩
    exact .inl ⟨b, h.suffix.subset (hnetwork ▸ List.mem_cons_self), hsend⟩
  | @ignore id b rest hrun hid hnetwork hsend =>
    obtain ⟨x, hx, hc⟩ := h.carries id hid
    have hpop := hc.pop [] hrun hnetwork (by rw [Port.entry, hsend]; rfl)
    rw [List.append_nil] at hpop
    exact h.alone hid hx hc rfl rfl hpop (fun hout => hout) rfl (fun hin => hin) hc.stopped h.stopped
      ((List.suffix_cons b rest).trans (hnetwork ▸ h.suffix))
  | @refused id b rest e hrun hid hnetwork hstep =>
    obtain ⟨x, hx, hc⟩ := h.carries id hid
    obtain ⟨done, hpre, hdone, -⟩ := hc.sent
    refine h.alone hid hx hc rfl rfl ⟨done, hpre, hdone, nofun⟩ nofun rfl (fun hin => hin)
      hc.stopped ?_ ((List.suffix_cons b rest).trans (hnetwork ▸ h.suffix))
    rintro r ⟨⟩
    exact .inr (.inr ⟨rfl, hg.accepts hx (hc.sending hrun) hstep⟩)
  | @silence id hid htalking =>
    obtain ⟨x, hx, hc⟩ := h.carries id hid
    obtain ⟨done, hpre, hdone, -⟩ := hc.sent
    refine h.alone hid hx hc rfl rfl ⟨done, hpre, hdone, nofun⟩ nofun rfl (fun hin => hin)
      hc.stopped ?_ h.suffix
    rintro r ⟨⟩
    exact .inr (.inl ⟨rfl, htalking⟩)
  | @forward id b rest e g hrun hid hnetwork hsend hstep =>
    obtain ⟨x, hx, hc⟩ := h.carries id hid
    have hpop := hc.pop [e] hrun hnetwork (by rw [Port.entry, hsend]; rfl)
    have hx' : g.endpoints id = some { x with sent := x.sent ++ [e], outbound := x.outbound ++ [e] } := by
      cases Gossip.takes_of_step hstep with
      | send hy =>
        rw [hx, Option.some.injEq] at hy
        subst hy
        exact Function.update_self ..
    have hlater : Later s { s with gossip := g, network := rest } :=
      ⟨List.Subset.refl _, stopped_step hstep, fun hno => hno, fun hno => hno⟩
    refine h.own hid hid hx' ?_ ⟨hc.topic, hpop, hc.sending, hc.received, hc.got, fun r hr => ?_⟩
      (fun r hr => (h.stopped r hr).later hlater) ((List.suffix_cons b rest).trans (hnetwork ▸ h.suffix))
    · intro j y hy
      exact (subscriber_cases hstep hy).resolve_right nofun
    · exact (hc.stopped r hr).later hlater (List.Subset.refl _)
  | garbage hrun hid hy ha hstep hreceive =>
    exact h.receive hrun hid hy ha hstep (.inr ⟨rfl, _, rfl, .inl hreceive⟩)
  | deliver hrun hid hy ha hstep hreceive =>
    have hturn := h.receive hrun hid hy ha hstep (.inl ⟨_, hreceive, rfl, rfl⟩)
    rw [← hrun] at hturn
    exact hturn
  | deaf hrun hid hy ha hstep hlistening =>
    exact h.receive hrun hid hy ha hstep (.inr ⟨rfl, _, rfl, .inr ⟨rfl, hlistening⟩⟩)
  | @quiet id hrun hid hstop =>
    obtain ⟨x, hx, hc⟩ := h.carries id hid
    refine h.alone hid hx hc rfl rfl hc.sent (fun hout => hout) rfl nofun ?_ h.stopped h.suffix
    rintro r ⟨⟩
    exact .inr (.inl ⟨rfl, hstop⟩)
  | @gossip i g hforeign hstep =>
    refine h.keep rfl rfl rfl rfl rfl rfl ⟨List.Subset.refl _, stopped_step hstep, fun hno => hno,
      fun hno => hno⟩ ?_ ?_
    · intro id x hid hx
      obtain ⟨x', hx', hu⟩ := hg.untouched hstep hx (by rintro e rfl; exact hforeign hid)
        (by rintro rfl; exact hforeign hid)
      refine ⟨x', hx', hu.topic, hu.sent, hu.received, fun hrun => hu.sending ?_⟩
      rintro rfl
      exact absurd (hforeign hid) (by simp [hrun])
    · intro j y hy ht
      rcases subscriber_cases hstep hy with ⟨x, hx, hxt⟩ | ⟨ephemeral, rfl, -⟩
      · exact ⟨x, hx, hxt.trans ht⟩
      · exact absurd ht hforeign

end Link

theorem link_reachable {s : P → Link M} (hr : (nodes port Adv).Reachable s) (p : P) :
    Link.Inv port (s p) := by
  induction hr generalizing p with
  | init h =>
    cases h
    exact Link.inv_new
  | @step s t i hr hst ih =>
    obtain ⟨q, i⟩ := i
    obtain ⟨u, hu, rfl⟩ := Option.map_eq_some_iff.mp hst.2
    by_cases hp : p = q
    · subst hp
      rw [Function.update_self]
      exact (ih p).step (inv_reachable (gossip_reachable hr) p) (Link.takes_of_step port hu)
    · rw [Function.update_of_ne hp]
      exact ih p

/-! ## What a component gets -/

/-- A message of somebody who is not one of the nodes. -/
def Stranger (Adv : String → Bytes → Prop) (port : Port M) (r : Except Panic M) : Prop :=
  ∃ data e, Adv port.topic data ∧ kvDeserialize data = .ok e ∧ port.receive e = r

/-- What subscribers of the topic have sent, components have. -/
theorem Link.Inv.said {s : Link M} {e : Entry} (h : Link.Inv port s) (he : s.gossip.Sent port.topic e) :
    ∃ b ∈ s.sent, port.entry b = some e := by
  obtain ⟨j, y, hy, ht, hmem⟩ := he
  obtain ⟨x, hx, hc⟩ := h.carries j (h.sole j y hy ht)
  rw [hx, Option.some.injEq] at hy
  subst hy
  obtain ⟨done, hpre, hdone, -⟩ := hc.sent
  rw [hdone] at hmem
  obtain ⟨b, hb, hbe⟩ := List.mem_filterMap.mp hmem
  exact ⟨b, hpre.subset hb, hbe⟩

theorem Port.Lawful.receive (hport : port.Lawful) {b : ByteVec} {e : Entry}
    (h : port.entry b = some e) : ∃ m, port.receive e = .ok m ∧ port.message b = some m := by
  have hsend : port.send b = .ok (some e) := by
    unfold Port.entry at h
    split at h
    · rename_i o ho
      rw [ho, h]
    · cases h
  obtain ⟨m, hm⟩ := hport b e hsend
  refine ⟨m, hm, ?_⟩
  rw [Port.message, h, Option.bind_some, Port.read, hm]
  rfl

/-- An entry that comes to a node is a message that the component of another node has sent, or a
stranger's. -/
theorem origin_cases {s : P → Link M} (hport : port.Lawful) (hr : (nodes port Adv).Reachable s) {p : P}
    {e : Entry} (h : Origin Adv (fun p => (s p).gossip) p port.topic e) :
    (∃ m q, q ≠ p ∧ ∃ b ∈ (s q).sent, port.receive e = .ok m ∧ port.message b = some m) ∨
      Stranger Adv port (port.receive e) := by
  rcases h with ⟨q, hne, hq⟩ | ⟨data, hdata, he⟩
  · obtain ⟨b, hb, hbe⟩ := (link_reachable hr q).said hq
    obtain ⟨m, hm, hbm⟩ := hport.receive hbe
    exact .inl ⟨m, q, hne, b, hb, hm, hbm⟩
  · exact .inr ⟨data, e, hdata, he, rfl⟩

/-- The messages that came from entries are theirs. -/
theorem decode_arrived : ∀ {es : List (Bool × Entry)} {ms : List (Bool × M)},
    es.map port.decode = ms.map handed →
      (ms.filter Prod.fst).map Prod.snd = ((es.filter Prod.fst).map Prod.snd).filterMap port.read ∧
      ∀ m, (false, m) ∈ ms → ∃ e, (false, e) ∈ es ∧ port.receive e = .ok m
  | [], [], _ => ⟨rfl, nofun⟩
  | [], _ :: _, h => nomatch h
  | _ :: _, [], h => nomatch h
  | (mark, e) :: es, (mark', m) :: ms, h => by
    rw [List.map_cons, List.map_cons, List.cons.injEq] at h
    obtain ⟨hown, hother⟩ := decode_arrived h.2
    obtain ⟨rfl, hreceive⟩ : mark = mark' ∧ port.receive e = .ok m := Prod.mk.inj h.1
    have hread : port.read e = some m := by
      rw [Port.read, hreceive]
      rfl
    refine ⟨?_, ?_⟩
    · cases mark with
      | false => exact hown
      | true =>
        rw [List.filter_cons_of_pos rfl, List.filter_cons_of_pos rfl, List.map_cons, List.map_cons,
          List.filterMap_cons_some hread, hown]
    · intro m' hm'
      rcases List.mem_cons.mp hm' with heq | hm'
      · cases heq
        exact ⟨e, List.mem_cons_self, hreceive⟩
      · obtain ⟨e', he', hreceive'⟩ := hother m' hm'
        exact ⟨e', List.mem_cons_of_mem _ he', hreceive'⟩

/-- Why the task that receives stops, in a system of links: a stranger's message cannot be read, the
loop of the gossip has stopped, or the core is gone. -/
def StopsIn (Adv : String → Bytes → Prop) (port : Port M) (s : Link M) (r : Panic) : Prop :=
  Stranger Adv port (.error r) ∨
    (r = .expect "failed to read inbound msg!" ∧ s.gossip.stopped.isSome) ∨
    (r = .expect "failed to forward inbound msg to tx_core!" ∧ s.listening = false)

/-- A component gets back its own messages, in order and once; what else it gets the component of
another node has sent, or a stranger. -/
theorem inbox {s : P → Link M} (hport : port.Lawful) (hr : (nodes port Adv).Reachable s) (p : P) :
    (((s p).core.filter Prod.fst).map Prod.snd <+: (s p).sent.filterMap port.message ∧
      ∀ m, (false, m) ∈ (s p).core →
        (∃ q, q ≠ p ∧ ∃ b ∈ (s q).sent, port.message b = some m) ∨ Stranger Adv port (.ok m)) ∧
    ∀ r, (s p).stoppedIn = some r → StopsIn Adv port (s p) r := by
  have h := link_reachable hr p
  have hgossip := inv_reachable (gossip_reachable hr) p
  cases hid : (s p).id with
  | none =>
    obtain ⟨-, hcore, hin⟩ := h.idle hid
    rw [hcore]
    refine ⟨⟨List.nil_prefix, nofun⟩, fun r hr => ?_⟩
    exact absurd (hin.symm.trans hr) nofun
  | some id =>
    obtain ⟨x, hx, hc⟩ := h.carries id hid
    have hsole : (s p).gossip.Sole id x.topic := by
      intro j y hy ht
      have hj := h.sole j y hy (ht.trans hc.topic)
      rw [hid, Option.some.injEq] at hj
      exact hj.symm
    have hchannel := hgossip.channel id x hx
    have hreceived : x.received <+: x.arrived := hchannel ▸ List.prefix_append ..
    obtain ⟨done, hpre, hdone, -⟩ := hc.sent
    refine ⟨?_, ?_⟩
    · -- the entries whose messages the component has
      have hes : (x.received.take (s p).core.length).map port.decode = (s p).core.map handed := by
        have hgot := List.prefix_iff_eq_take.mp hc.got
        rw [List.length_map, ← List.map_take] at hgot
        exact hgot.symm
      have hfirst : x.received.take (s p).core.length <+: x.arrived :=
        (List.take_prefix ..).trans hreceived
      obtain ⟨hown, hother⟩ := decode_arrived hes
      refine ⟨?_, ?_⟩
      · have hreplayed : ((x.received.take (s p).core.length).filter Prod.fst).map Prod.snd <+: x.sent :=
          ((hfirst.filter _).map _).trans (hgossip.initial id x hx hsole)
        have hmessages := hreplayed.filterMap port.read
        rw [hdone, List.filterMap_filterMap] at hmessages
        rw [hown]
        exact hmessages.trans (hpre.filterMap _)
      · intro m hm
        obtain ⟨e, he, hreceive⟩ := hother m hm
        have horigin := hgossip.arrived id x e hx (hfirst.subset he)
        rw [hc.topic] at horigin
        rcases origin_cases hport hr horigin with ⟨m', q, hne, b, hb, hm', hbm⟩ | hstranger
        · rw [hreceive, Except.ok.injEq] at hm'
          exact .inl ⟨q, hne, b, hb, hm' ▸ hbm⟩
        · exact .inr (hreceive ▸ hstranger)
    · intro r hstop
      refine (hc.stopped r hstop).imp_left ?_
      rintro ⟨⟨mark, e⟩, he, hreceive⟩
      have harrived := hreceived.subset he
      cases mark with
      | false =>
        have horigin := hgossip.arrived id x e hx harrived
        rw [hc.topic] at horigin
        rcases origin_cases hport hr horigin with ⟨m', q, -, b, hb, hm', hbm⟩ | hstranger
        · exact absurd (hreceive.symm.trans hm') nofun
        · exact hreceive ▸ hstranger
      | true =>
        -- what comes back was sent, and can be read
        have hown : e ∈ x.replayed := by
          refine List.mem_map.mpr ⟨(true, e), List.mem_filter.mpr ⟨harrived, rfl⟩, rfl⟩
        have hmem := (hgossip.initial id x hx hsole).subset hown
        rw [hdone] at hmem
        obtain ⟨b, -, hbe⟩ := List.mem_filterMap.mp hmem
        obtain ⟨m, hm, -⟩ := hport.receive hbe
        exact absurd (hreceive.symm.trans hm) nofun

/-! ### Components that send serialized messages -/

/-- The messages in `kept` go out as they are, the others do not go out. -/
def Port.Forwards (port : Port M) (encode : M → Bytes) (fits : M → Prop) (kept : M → Bool) : Prop :=
  ∀ (b : ByteVec) m, fits m → b.bytes = encode m → port.message b = if kept m then some m else none

variable {encode : M → Bytes} {fits : M → Prop} {kept : M → Bool}

theorem Port.Forwards.filterMap (h : port.Forwards encode fits kept) :
    ∀ {bs : List ByteVec} {ms : List M}, bs.map ByteVec.bytes = ms.map encode →
      (∀ m ∈ ms, fits m) → bs.filterMap port.message = ms.filter kept
  | [], [], _, _ => rfl
  | [], _ :: _, hb, _ => nomatch hb
  | _ :: _, [], hb, _ => nomatch hb
  | b :: bs, m :: ms, hb, hfits => by
    rw [List.map_cons, List.map_cons, List.cons.injEq] at hb
    have hm := h b m (hfits m List.mem_cons_self) hb.1
    have ih := h.filterMap hb.2 fun m' hm' => hfits m' (List.mem_cons_of_mem _ hm')
    by_cases hk : kept m = true
    · rw [if_pos hk] at hm
      rw [List.filterMap_cons_some hm, List.filter_cons_of_pos hk, ih]
    · rw [if_neg hk] at hm
      rw [List.filterMap_cons_none hm, List.filter_cons_of_neg hk, ih]

/-- `inbox`, for components that send `ms`. -/
theorem inbox_messages {s : P → Link M} (hport : port.Lawful) (hforwards : port.Forwards encode fits kept)
    (hr : (nodes port Adv).Reachable s) {ms : P → List M} (hfits : ∀ q, ∀ m ∈ ms q, fits m)
    (hsent : ∀ q, (s q).sent.map ByteVec.bytes = (ms q).map encode) (p : P) :
    (((s p).core.filter Prod.fst).map Prod.snd <+: (ms p).filter kept ∧
      ∀ m, (false, m) ∈ (s p).core →
        (∃ q, q ≠ p ∧ m ∈ ms q ∧ kept m = true) ∨ Stranger Adv port (.ok m)) ∧
    ∀ r, (s p).stoppedIn = some r → StopsIn Adv port (s p) r := by
  have hmessages : ∀ q, (s q).sent.filterMap port.message = (ms q).filter kept :=
    fun q => hforwards.filterMap (hsent q) (hfits q)
  obtain ⟨⟨hown, hother⟩, hin⟩ := inbox hport hr p
  refine ⟨⟨hmessages p ▸ hown, fun m hm => ?_⟩, hin⟩
  rcases hother m hm with ⟨q, hne, b, hb, hbm⟩ | hstranger
  · have hmem : m ∈ (ms q).filter kept := hmessages q ▸ List.mem_filterMap.mpr ⟨b, hb, hbm⟩
    exact .inl ⟨q, hne, List.mem_filter.mp hmem⟩
  · exact .inr hstranger

end

end AccountabilityGadget.Gossip
