import AccountabilityGadget.Lib.Encoding
import AccountabilityGadget.Lib.Machine
import Mathlib.Logic.Function.Basic

/-!
# Connections between nodes (`network/src/lib.rs`)

The task of the `NetSender` keeps one worker for each address, which writes to one connection; when
the worker has ended, the next message for the address makes a new one.  At the other end of the
connection a worker of the `NetReceiver` reads the frames and delivers what they hold; all workers of a
receiver deliver to one channel.

* `Transport.step` — the sender, its workers, the connections and the readers, one step at a time;
  each connection delivers its frames in order until it breaks.
* `WorkerInv` — what a connection has delivered is what its worker has taken first.
* `Transport.machine` — all interleavings.
-/

set_option autoImplicit false

namespace AccountabilityGadget

/-- Bytes, and the addresses that they go to. -/
structure NetMessage (A : Type*) where
  bytes : Bytes
  addresses : List A

namespace Transport

/-- Where a worker of the sender is. -/
inductive Link where
  /-- In `TcpStream::connect(address).await`. -/
  | connecting
  | connected
  /-- It has ended, and its channel is closed. -/
  | closed
  deriving DecidableEq

/-- A worker of the sender, its connection, and the worker of the receiver at the other end. -/
structure Worker (A M : Type*) where
  address : A
  /-- What its channel has taken. -/
  taken : List Bytes
  /-- What is in its channel. -/
  rx : List Bytes
  link : Link
  /-- The frames that it has written. -/
  written : List Bytes
  /-- Those that have not been read. -/
  stream : List Bytes
  /-- The worker of the receiver has not returned. -/
  reading : Bool
  /-- What the worker of the receiver has delivered. -/
  delivered : List M

/-- Where `NetSender::run` is. -/
inductive Loop (A : Type*) where
  | idle
  /-- Before it looks up the first of the addresses. -/
  | sending (bytes : Bytes) (addresses : List A)
  /-- Before `tx.send(bytes.clone())`, to a worker that it has spawned for the first of them. -/
  | spawned (bytes : Bytes) (id : ℕ) (address : A) (rest : List A)

/-- What has become of the bytes for one address. -/
structure Handed (A : Type*) where
  address : A
  bytes : Bytes
  /-- The worker that has taken them. -/
  worker : Option ℕ

/-- A message on the channel of the receiver at an address, and the worker whose connection it came
over. -/
structure Delivered (A M : Type*) where
  address : A
  worker : ℕ
  message : M

end Transport

structure Transport (A M : Type*) where
  /-- What has been put on the channel of the sender. -/
  transmitted : List (NetMessage A)
  transmit : List (NetMessage A)
  loop : Transport.Loop A
  senders : A → Option ℕ
  nextId : ℕ
  workers : ℕ → Option (Transport.Worker A M)
  handed : List (Transport.Handed A)
  /-- What has been put on the channels of the receivers, in this order. -/
  deliver : List (Transport.Delivered A M)

namespace Transport

variable {A M : Type*}

inductive Input (A : Type*) where
  /-- Another task puts a message on the channel. -/
  | transmit (m : NetMessage A)
  /-- The loop of the sender goes on. -/
  | run
  /-- A worker is connected, or cannot connect. -/
  | connect (id : ℕ) (ok : Bool)
  /-- A worker writes a frame, or fails to. -/
  | write (id : ℕ) (ok : Bool)
  /-- A frame arrives. -/
  | read (id : ℕ)
  /-- The connection breaks for the reader. -/
  | reset (id : ℕ)

def new : Transport A M where
  transmitted := []
  transmit := []
  loop := .idle
  senders := fun _ => none
  nextId := 0
  workers := fun _ => none
  handed := []
  deliver := []

/-- `channel(1000)`. -/
def capacity : ℕ := 1000

/-- `spawn_worker`. -/
def spawnWorker (address : A) : Worker A M := ⟨address, [], [], .connecting, [], [], true, []⟩

/-- The channel of the worker takes a message. -/
def Worker.take (w : Worker A M) (bytes : Bytes) : Worker A M :=
  { w with taken := w.taken ++ [bytes], rx := w.rx ++ [bytes] }

/-- The worker ends; what is in its channel is gone. -/
def Worker.close (w : Worker A M) : Worker A M := { w with link := .closed, rx := [] }

def Worker.write (w : Worker A M) (bytes : Bytes) (rest : List Bytes) : Worker A M :=
  { w with rx := rest, written := w.written ++ [bytes], stream := w.stream ++ [bytes] }

/-- The reader delivers what a frame holds, or returns. -/
def Worker.read (decode : Bytes → Option M) (w : Worker A M) (bytes : Bytes) (rest : List Bytes) :
    Worker A M :=
  match decode bytes with
  | some m => { w with stream := rest, delivered := w.delivered ++ [m] }
  | none => { w with reading := false }

variable (decode : Bytes → Option M)

def stepWorker (w : Worker A M) : Input A → Option (Worker A M)
  | .connect _ ok =>
    if w.link = .connecting then some (if ok then { w with link := .connected } else w.close)
    else none
  | .write _ ok =>
    match w.rx with
    | [] => none
    | bytes :: rest =>
      if w.link = .connected then some (if ok then w.write bytes rest else w.close) else none
  | .read _ =>
    match w.stream with
    | [] => none
    | bytes :: rest => if w.reading then some (w.read decode bytes rest) else none
  | .reset _ => some { w with reading := false }
  | _ => none

/-! ## One connection -/

/-- What a worker has written is what its channel has taken first, and what has been delivered is
what has been written first. -/
structure WorkerInv (w : Worker A M) : Prop where
  written : w.written <+: w.taken
  rx : w.link ≠ .closed → w.taken = w.written ++ w.rx
  delivered : ∃ arrived, arrived <+: w.written ∧ arrived.map decode = w.delivered.map some ∧
    (w.reading = true → w.written = arrived ++ w.stream)

theorem workerInv_spawnWorker (address : A) : WorkerInv decode (spawnWorker address : Worker A M) :=
  ⟨List.nil_prefix, fun _ => rfl, [], List.nil_prefix, rfl, fun _ => rfl⟩

variable {decode} {w w' : Worker A M}

theorem WorkerInv.take (h : WorkerInv decode w) (hw : w.link ≠ .closed) (bytes : Bytes) :
    WorkerInv decode (w.take bytes) := by
  refine ⟨h.written.trans (List.prefix_append ..), fun _ => ?_, h.delivered⟩
  show w.taken ++ [bytes] = w.written ++ (w.rx ++ [bytes])
  rw [h.rx hw, List.append_assoc]

theorem WorkerInv.close (h : WorkerInv decode w) : WorkerInv decode w.close :=
  ⟨h.written, fun hne => absurd rfl hne, h.delivered⟩

theorem WorkerInv.write (h : WorkerInv decode w) (hw : w.link ≠ .closed) {bytes : Bytes}
    {rest : List Bytes} (hrx : w.rx = bytes :: rest) : WorkerInv decode (w.write bytes rest) := by
  have htaken : w.taken = (w.written ++ [bytes]) ++ rest := by
    rw [h.rx hw, hrx, List.append_assoc, List.singleton_append]
  refine ⟨?_, fun _ => htaken, ?_⟩
  · show w.written ++ [bytes] <+: w.taken
    rw [htaken]
    exact List.prefix_append ..
  · obtain ⟨arrived, hpre, hmap, hread⟩ := h.delivered
    refine ⟨arrived, hpre.trans (List.prefix_append ..), hmap, fun hr => ?_⟩
    show w.written ++ [bytes] = arrived ++ (w.stream ++ [bytes])
    rw [hread hr, List.append_assoc]

theorem WorkerInv.read (h : WorkerInv decode w) (hr : w.reading = true) {bytes : Bytes}
    {rest : List Bytes} (hs : w.stream = bytes :: rest) :
    WorkerInv decode (w.read decode bytes rest) := by
  obtain ⟨arrived, hpre, hmap, hread⟩ := h.delivered
  unfold Worker.read
  cases hd : decode bytes with
  | none => exact ⟨h.written, h.rx, arrived, hpre, hmap, by simp⟩
  | some m =>
    have hwritten : w.written = (arrived ++ [bytes]) ++ rest := by
      rw [hread hr, hs, List.append_assoc, List.singleton_append]
    refine ⟨h.written, h.rx, arrived ++ [bytes], ?_, ?_, fun _ => hwritten⟩
    · rw [hwritten]
      exact List.prefix_append ..
    · rw [List.map_append, List.map_append, hmap, List.map_singleton, hd, List.map_singleton]

/-- Steps of a connection neither hand it messages nor wake it up. -/
structure SameWorker (w w' : Worker A M) : Prop where
  address : w'.address = w.address
  taken : w'.taken = w.taken
  link : w.link = .closed → w'.link = .closed

theorem workerInv_step (h : WorkerInv decode w) {i : Input A}
    (hs : stepWorker decode w i = some w') : WorkerInv decode w' ∧ SameWorker w w' := by
  cases i with
  | connect id ok =>
    simp only [stepWorker] at hs
    split_ifs at hs with hl hok <;> cases hs
    · refine ⟨⟨h.written, fun _ => h.rx (by simp [hl]), h.delivered⟩, rfl, rfl, ?_⟩
      intro hc
      rw [hl] at hc
      cases hc
    · exact ⟨h.close, rfl, rfl, fun _ => rfl⟩
  | write id ok =>
    simp only [stepWorker] at hs
    split at hs
    · cases hs
    · rename_i bytes rest hrx
      split_ifs at hs with hl hok <;> cases hs
      · exact ⟨h.write (by simp [hl]) hrx, rfl, rfl, fun hc => hc⟩
      · exact ⟨h.close, rfl, rfl, fun _ => rfl⟩
  | read id =>
    simp only [stepWorker] at hs
    split at hs
    · cases hs
    · rename_i bytes rest hstream
      split_ifs at hs with hr
      cases hs
      refine ⟨h.read hr hstream, ?_, ?_, ?_⟩ <;>
      · unfold Worker.read
        split <;> simp
  | reset id =>
    cases hs
    obtain ⟨arrived, hpre, hmap, -⟩ := h.delivered
    exact ⟨⟨h.written, h.rx, arrived, hpre, hmap, by simp⟩, rfl, rfl, fun hc => hc⟩
  | transmit m => cases hs
  | run => cases hs

theorem stepWorker_delivered {i : Input A} (hs : stepWorker decode w i = some w')
    (hi : ∀ id, i ≠ .read id) : w'.delivered = w.delivered := by
  cases i with
  | connect id ok =>
    simp only [stepWorker] at hs
    split_ifs at hs <;> cases hs <;> rfl
  | write id ok =>
    simp only [stepWorker] at hs
    split at hs
    · cases hs
    · split_ifs at hs <;> cases hs <;> rfl
  | read id => exact absurd rfl (hi id)
  | reset id =>
    cases hs
    rfl
  | transmit m => cases hs
  | run => cases hs

theorem stepWorker_read {id : ℕ} (hs : stepWorker decode w (.read id : Input A) = some w') :
    w'.delivered = w.delivered ++ (w.stream.head?.bind decode).toList := by
  simp only [stepWorker] at hs
  split at hs
  · cases hs
  · rename_i bytes rest hstream
    split_ifs at hs
    cases hs
    rw [hstream, List.head?_cons, Option.bind_some, Worker.read]
    cases decode bytes <;> simp

/-! ## The sender -/

def set (s : Transport A M) (id : ℕ) (w : Worker A M) : Transport A M :=
  { s with workers := Function.update s.workers id (some w) }

/-- The worker takes the bytes, and the sender goes on with the other addresses. -/
def hand (s : Transport A M) (bytes : Bytes) (id : ℕ) (w : Worker A M) (rest : List A) :
    Transport A M :=
  { s.set id (w.take bytes) with
    loop := .sending bytes rest
    handed := s.handed ++ [⟨w.address, bytes, some id⟩] }

def spawn (s : Transport A M) (bytes : Bytes) (address : A) (rest : List A) : Transport A M :=
  { s.set s.nextId (spawnWorker address) with
    loop := .spawned bytes s.nextId address rest
    nextId := s.nextId + 1 }

/-- What a worker has taken. -/
def takenBy (s : Transport A M) (id : ℕ) : List Bytes :=
  (s.handed.filter fun e => e.worker = some id).map (·.bytes)

variable {s s' : Transport A M}

/-- The message that has been handed over is the last one of its worker. -/
theorem takenBy_hand (s : Transport A M) (bytes : Bytes) (id : ℕ) (w : Worker A M) (rest : List A)
    (j : ℕ) : (s.hand bytes id w rest).takenBy j =
      if j = id then s.takenBy j ++ [bytes] else s.takenBy j := by
  unfold takenBy hand
  rw [List.filter_append, List.map_append]
  split_ifs with hj
  · subst hj
    simp
  · simp [Ne.symm hj]

section

variable {id : ℕ} (hw : s.workers id = some w) (haddress : w'.address = w.address)
  (hclosed : w.link = .closed → w'.link = .closed)

include hw haddress hclosed in
/-- No worker goes, and none that has ended comes back. -/
theorem workers_kept {j : ℕ} {v : Worker A M} (hv : s.workers j = some v) :
    ∃ v', (s.set id w').workers j = some v' ∧ v'.address = v.address ∧
      (v.link = .closed → v'.link = .closed) := by
  by_cases hj : j = id
  · subst hj
    rw [hw, Option.some.injEq] at hv
    subst hv
    exact ⟨w', Function.update_self .., haddress, hclosed⟩
  · exact ⟨v, (Function.update_of_ne hj ..).trans hv, rfl, fun hc => hc⟩

include hw haddress hclosed in
theorem workers_before {j : ℕ} {v' : Worker A M} (hv' : (s.set id w').workers j = some v') :
    ∃ v, s.workers j = some v ∧ v'.address = v.address ∧
      (v'.link ≠ .closed → v.link ≠ .closed) := by
  change Function.update s.workers id (some w') j = some v' at hv'
  by_cases hj : j = id
  · subst hj
    rw [Function.update_self, Option.some.injEq] at hv'
    subst hv'
    exact ⟨w, hw, haddress, fun hne hc => hne (hclosed hc)⟩
  · rw [Function.update_of_ne hj] at hv'
    exact ⟨v', hv', rfl, fun hne => hne⟩

end

section

variable [DecidableEq A]

/-- One turn of the loop of the sender. -/
def stepRun (s : Transport A M) : Option (Transport A M) :=
  match s.loop with
  | .idle =>
    match s.transmit with
    | [] => none
    | m :: rest => some { s with loop := .sending m.bytes m.addresses, transmit := rest }
  | .sending _ [] => some { s with loop := .idle }
  | .sending bytes (address :: rest) =>
    match s.senders address with
    | none => some (s.spawn bytes address rest)
    | some id =>
      match s.workers id with
      | none => none
      | some w =>
        if w.link = .closed then some (s.spawn bytes address rest)
        -- else `tx.send` waits for room in the channel
        else if w.rx.length < capacity then some (s.hand bytes id w rest)
        else none
  | .spawned bytes id address rest =>
    match s.workers id with
    | none => none
    | some w =>
      if w.link = .closed then some { s with
        loop := .sending bytes rest
        handed := s.handed ++ [⟨address, bytes, none⟩] }
      else some { s.hand bytes id w rest with
        senders := Function.update s.senders address (some id) }

variable (decode)

/-- A worker, its connection or its reader makes a step. -/
def stepConnection (s : Transport A M) (id : ℕ) (i : Input A) : Option (Transport A M) :=
  ((s.workers id).bind (stepWorker decode · i)).map (s.set id)

/-- What the worker of a receiver delivers when it reads a frame. -/
def reads (s : Transport A M) (id : ℕ) : List (Delivered A M) :=
  match s.workers id with
  | none => []
  | some w => ((w.stream.head?.bind decode).map fun m => ⟨w.address, id, m⟩).toList

def step (s : Transport A M) : Input A → Option (Transport A M)
  | .transmit m => some { s with transmitted := s.transmitted ++ [m], transmit := s.transmit ++ [m] }
  | .run => s.stepRun
  | .connect id ok => s.stepConnection decode id (.connect id ok)
  | .write id ok => s.stepConnection decode id (.write id ok)
  | .read id => (s.stepConnection decode id (.read id)).map fun t =>
      { t with deliver := s.deliver ++ s.reads decode id }
  | .reset id => s.stepConnection decode id (.reset id)

/-- All interleavings of the sender, its workers and the readers; connections may fail at any time. -/
def machine : Machine (Transport A M) (Input A) := .ofStep (· = new) (step decode)

end

end Transport

end AccountabilityGadget
