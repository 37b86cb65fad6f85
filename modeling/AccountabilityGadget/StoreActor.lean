import AccountabilityGadget.Lib.Notify
import AccountabilityGadget.Mempool.Core
import Mathlib.Data.List.Pairwise

/-!
# The command loop of the store (`store/src/lib.rs`)

The task of the store answers reads from the database.  A `NotifyRead` of a key that the database
does not have is kept in a side table, the obligations, until the key is written.

* `StoreActor.handle` — one command; the database succeeds.
* `StoreActor.cells` — the store as a family of cells that can be waited for (`Notify.Keyed`);
  `handle_cells`: a command is an operation on the cell of its key.
* `StoreActor.notification` — how reads and notifications are answered, in any sequence of commands.
-/

set_option autoImplicit false

namespace AccountabilityGadget

open Encoding Notify

/-- `σ` are the ends of the `oneshot` channels that answers go to. -/
inductive StoreCommand (σ : Type*) where
  | write (key value : Bytes)
  | read (key : Bytes) (sender : σ)
  | notifyRead (key : Bytes) (sender : σ)
  deriving DecidableEq

namespace StoreCommand

variable {σ : Type*}

def key : StoreCommand σ → Bytes
  | write key _ | read key _ | notifyRead key _ => key

def sender? : StoreCommand σ → Option σ
  | write _ _ => none
  | read _ sender | notifyRead _ sender => some sender

/-- What a command writes under a key. -/
def writtenTo (key : Bytes) : StoreCommand σ → Option Bytes
  | write key' value => if key' = key then some value else none
  | _ => none

/-- A command as an operation on the cell of its key. -/
def keyed : StoreCommand σ → Bytes × Op σ Bytes
  | write key value => (key, .write value)
  | read key sender => (key, .read sender)
  | notifyRead key sender => (key, .await sender)

end StoreCommand

structure StoreActor (σ : Type*) where
  db : Store
  /-- `HashMap<Key, VecDeque<Sender>>`. -/
  obligations : Bytes → Option (List σ)

namespace StoreActor

variable {σ : Type*}

def new (db : Store) : StoreActor σ := ⟨db, fun _ => none⟩

/-- One turn of the loop and what it sends; whether the receiver is still there does not matter. -/
def handle (s : StoreActor σ) : StoreCommand σ → StoreActor σ × List (Reply σ Bytes)
  | .write key value =>
    match s.obligations key with
    | some senders =>
      (⟨s.db.write key value, Function.update s.obligations key none⟩,
        senders.map (.notified · value))
    | none => (⟨s.db.write key value, s.obligations⟩, [])
  | .read key sender => (s, [.value sender (s.db.read key)])
  | .notifyRead key sender =>
    match s.db.read key with
    | none =>
      (⟨s.db, Function.update s.obligations key
        (some ((s.obligations key).getD [] ++ [sender]))⟩, [])
    | some value => (s, [.notified sender value])

def run : StoreActor σ → List (StoreCommand σ) → StoreActor σ × List (Reply σ Bytes)
  | s, [] => (s, [])
  | s, c :: cs => (((s.handle c).1.run cs).1, (s.handle c).2 ++ ((s.handle c).1.run cs).2)

/-- What is stored under a key, and who waits for it. -/
def cells (s : StoreActor σ) : Keyed Bytes σ Bytes :=
  fun key => ⟨s.db.read key, (s.obligations key).getD []⟩

theorem cells_new (db : Store) (key : Bytes) :
    (new db : StoreActor σ).cells key = ⟨db.read key, []⟩ := rfl

theorem cells_write (s : StoreActor σ) (key value : Bytes) (obligations : Bytes → Option (List σ))
    (hself : (obligations key).getD [] = [])
    (hne : ∀ key', key' ≠ key → obligations key' = s.obligations key') :
    (⟨s.db.write key value, obligations⟩ : StoreActor σ).cells =
      Function.update s.cells key ⟨some value, []⟩ := by
  funext key'
  by_cases hk : key' = key
  · subst hk
    rw [Function.update_self, cells, Store.read_write_self, hself]
  · rw [Function.update_of_ne hk]
    simp only [cells, Store.read_write_of_ne _ hk, hne key' hk]

/-- **A command is an operation on the cell of its key.** -/
theorem handle_cells (s : StoreActor σ) (c : StoreCommand σ) :
    (s.handle c).1.cells = (Keyed.step s.cells c.keyed).1 ∧
      (s.handle c).2 = (Keyed.step s.cells c.keyed).2 := by
  cases c with
  | write key value =>
    rw [handle]
    cases ho : s.obligations key with
    | some senders =>
      refine ⟨cells_write s key value _ ?_ fun key' h => Function.update_of_ne h .., ?_⟩
      · rw [Function.update_self]
        rfl
      · simp [StoreCommand.keyed, Keyed.step, Cell.step, cells, ho]
    | none =>
      refine ⟨cells_write s key value _ ?_ fun _ _ => rfl, ?_⟩
      · rw [ho]
        rfl
      · simp [StoreCommand.keyed, Keyed.step, Cell.step, cells, ho]
  | read key sender => exact ⟨(Function.update_eq_self ..).symm, rfl⟩
  | notifyRead key sender =>
    simp only [handle, StoreCommand.keyed, Keyed.step, Cell.step]
    cases hr : s.db.read key with
    | some value =>
      have hv : (s.cells key).value = some value := hr
      rw [hv]
      exact ⟨(Function.update_eq_self ..).symm, rfl⟩
    | none =>
      have hv : (s.cells key).value = none := hr
      rw [hv]
      refine ⟨?_, rfl⟩
      funext key'
      by_cases hk : key' = key
      · subst hk
        simp only [Function.update_self, cells, hr, Option.getD_some]
      · simp only [Function.update_of_ne hk, cells]

theorem keyed_fst (c : StoreCommand σ) : c.keyed.1 = c.key := by cases c <;> rfl

theorem asker_keyed (c : StoreCommand σ) : c.keyed.2.asker? = c.sender? := by cases c <;> rfl

/-- The cell of a key after a command. -/
theorem cells_handle (s : StoreActor σ) (c : StoreCommand σ) (key : Bytes) :
    (s.handle c).1.cells key =
      if c.key = key then ((s.cells key).step c.keyed.2).1 else s.cells key := by
  rw [(s.handle_cells c).1, Keyed.step, keyed_fst]
  split_ifs with hk
  · subst hk
    exact Function.update_self ..
  · exact Function.update_of_ne (Ne.symm hk) ..

theorem replies_handle (s : StoreActor σ) (c : StoreCommand σ) :
    (s.handle c).2 = ((s.cells c.key).step c.keyed.2).2 := by
  rw [(s.handle_cells c).2, Keyed.step, keyed_fst]

/-- **The store refines the family of cells.** -/
theorem run_cells (s : StoreActor σ) (cs : List (StoreCommand σ)) :
    (s.run cs).1.cells = (Keyed.run s.cells (cs.map StoreCommand.keyed)).1 ∧
      (s.run cs).2 = (Keyed.run s.cells (cs.map StoreCommand.keyed)).2 := by
  induction cs generalizing s with
  | nil => exact ⟨rfl, rfl⟩
  | cons c cs ih =>
    obtain ⟨hcells, hreplies⟩ := s.handle_cells c
    obtain ⟨hcells', hreplies'⟩ := ih (s.handle c).1
    rw [run, List.map_cons, Keyed.run, hcells', hreplies', hcells, hreplies]
    exact ⟨rfl, rfl⟩

/-! ### The commands on one key -/

section

variable {cs pre post : List (StoreCommand σ)} {key : Bytes} {x : σ}

/-- The operations on a key are those of the commands on it. -/
theorem opsOn_keyed (cs : List (StoreCommand σ)) : opsOn key (cs.map StoreCommand.keyed) =
    (cs.filter fun c => c.key = key).map fun c => c.keyed.2 := by
  rw [opsOn, List.filter_map, List.map_map]
  congr 1
  apply List.filter_congr
  intro c _
  simp [keyed_fst]

theorem written_opsOn (cs : List (StoreCommand σ)) :
    (opsOn key (cs.map StoreCommand.keyed)).filterMap Op.written =
      cs.filterMap (StoreCommand.writtenTo key) := by
  rw [opsOn_keyed, List.filterMap_map, List.filterMap_filter]
  apply List.filterMap_congr
  intro c _
  cases c with
  | write key' value =>
    simp only [decide_eq_true_eq]
    rfl
  | read key' sender => simp [StoreCommand.keyed, Op.written, StoreCommand.writtenTo]
  | notifyRead key' sender => simp [StoreCommand.keyed, Op.written, StoreCommand.writtenTo]

theorem askers_opsOn (cs : List (StoreCommand σ)) :
    (askers (opsOn key (cs.map StoreCommand.keyed))).Sublist
      (cs.filterMap StoreCommand.sender?) := by
  rw [opsOn_keyed, askers, List.filterMap_map]
  have hsame : (Op.asker? ∘ fun c : StoreCommand σ => c.keyed.2) = StoreCommand.sender? :=
    funext asker_keyed
  rw [hsame]
  exact List.filter_sublist.filterMap _

/-- A sender belongs to one command. -/
theorem sender_unique (hfresh : (cs.filterMap StoreCommand.sender?).Nodup) {c c' : StoreCommand σ}
    (hc : c ∈ cs) (hc' : c' ∈ cs) (h : c.sender? = some x) (h' : c'.sender? = some x) : c = c' := by
  by_contra hne
  have hpair := List.pairwise_filterMap.mp hfresh
  have hsym : Std.Symm fun a a' : StoreCommand σ =>
      ∀ b, a.sender? = some b → ∀ b', a'.sender? = some b' → b ≠ b' :=
    ⟨fun a a' haa' b hb b' hb' he => haa' b' hb' b hb he.symm⟩
  exact hpair.forall hc hc' hne x h x h' rfl

/-! ### One command -/

theorem settled_handle {s : StoreActor σ} (h : ∀ key, (s.cells key).Settled) (c : StoreCommand σ)
    (key : Bytes) : ((s.handle c).1.cells key).Settled := by
  rw [cells_handle]
  split_ifs
  · exact (h key).step _
  · exact h key

/-- What is stored stays stored. -/
theorem stored_handle {s : StoreActor σ} (h : s.db.read key ≠ none) (c : StoreCommand σ) :
    (s.handle c).1.db.read key ≠ none := by
  have hcell : ((s.handle c).1.cells key).value ≠ none := by
    rw [cells_handle]
    split_ifs
    · exact Cell.value_step_ne_none h _
    · exact h
  exact hcell

/-- Who is answered waits for the key or asks for it. -/
theorem asker_of_handle {s : StoreActor σ} {c : StoreCommand σ} {r : Reply σ Bytes}
    (h : r ∈ (s.handle c).2) : r.asker ∈ (s.cells c.key).waiting ∨ c.sender? = some r.asker := by
  rw [replies_handle] at h
  rw [← asker_keyed]
  exact Cell.asker_of_step h

theorem stored_of_notified {s : StoreActor σ} {c : StoreCommand σ} {v : Bytes}
    (h : .notified x v ∈ (s.handle c).2) : (s.handle c).1.db.read c.key = some v := by
  rw [replies_handle] at h
  have hcell : ((s.handle c).1.cells c.key).value = some v := by
    rw [cells_handle, if_pos rfl]
    exact Cell.value_of_notified h
  exact hcell

theorem read_of_value {s : StoreActor σ} {c : StoreCommand σ} {v : Option Bytes}
    (h : .value x v ∈ (s.handle c).2) : v = s.db.read c.key := by
  rw [replies_handle] at h
  exact Cell.value_of_read h

/-- Who waits after a command has waited before or asks. -/
theorem waiting_of_handle {s : StoreActor σ} {c : StoreCommand σ}
    (h : x ∈ ((s.handle c).1.cells key).waiting) :
    x ∈ (s.cells key).waiting ∨ c.key = key ∧ c.sender? = some x := by
  rw [cells_handle] at h
  split_ifs at h with hk
  · rw [← asker_keyed]
    exact (Cell.mem_waiting_step h).imp_right fun h => ⟨hk, h⟩
  · exact .inl h

/-- One who waits keeps waiting or is notified. -/
theorem waiting_handle {s : StoreActor σ} (h : x ∈ (s.cells key).waiting) (c : StoreCommand σ) :
    x ∈ ((s.handle c).1.cells key).waiting ∨ ∃ v, .notified x v ∈ (s.handle c).2 := by
  rw [cells_handle, replies_handle]
  split_ifs with hk
  · rw [hk]
    exact Cell.waiting_step h _
  · exact .inl h

theorem notifyRead_handle (s : StoreActor σ) (key : Bytes) (x : σ) :
    x ∈ ((s.handle (.notifyRead key x)).1.cells key).waiting ∨
      ∃ v, .notified x v ∈ (s.handle (.notifyRead key x)).2 := by
  have hkey : (StoreCommand.notifyRead key x).key = key := rfl
  rw [cells_handle, replies_handle, if_pos hkey]
  exact Cell.await_step _ x

variable [DecidableEq σ]

/-- Who asks for a key is answered by the cell of the key. -/
theorem answers_run (db : Store) (hfresh : (cs.filterMap StoreCommand.sender?).Nodup)
    {c : StoreCommand σ} (hc : c ∈ cs) (hx : c.sender? = some x) :
    Cell.answers x ((new db).run cs).2 = Cell.answers x
      (Cell.run ⟨db.read c.key, []⟩ (opsOn c.key (cs.map StoreCommand.keyed))).2 := by
  rw [(run_cells _ cs).2, Keyed.answers_run]
  · rfl
  · intro key h
    cases h
  · intro o ho hxo
    obtain ⟨c', hc', rfl⟩ := List.mem_map.mp ho
    rw [asker_keyed] at hxo
    rw [keyed_fst, sender_unique hfresh hc' hc hxo hx]

end

/-! ### Reads and notifications -/

/-- What the last write to a key has left, at first what the database has. -/
def lastWrite (db : Store) (key : Bytes) (cs : List (StoreCommand σ)) : Option Bytes :=
  (cs.filterMap (StoreCommand.writtenTo key)).getLast?.or (db.read key)

def firstWrite (key : Bytes) (cs : List (StoreCommand σ)) : Option Bytes :=
  (cs.filterMap (StoreCommand.writtenTo key)).head?

theorem current_opsOn (db : Store) (key : Bytes) (cs : List (StoreCommand σ)) :
    current (db.read key) (opsOn key (cs.map StoreCommand.keyed)) = lastWrite db key cs := by
  rw [current_eq, written_opsOn, lastWrite]

theorem firstWrite_opsOn (key : Bytes) (cs : List (StoreCommand σ)) :
    Notify.firstWrite (opsOn key (cs.map StoreCommand.keyed)) = firstWrite key cs := by
  rw [firstWrite_eq, written_opsOn, firstWrite]

/-- The command at a place, on the cell of its key. -/
theorem opsOn_split (c : StoreCommand σ) (pre post : List (StoreCommand σ)) :
    opsOn c.key ((pre ++ c :: post).map StoreCommand.keyed) =
      opsOn c.key (pre.map StoreCommand.keyed) ++
        c.keyed.2 :: opsOn c.key (post.map StoreCommand.keyed) := by
  rw [opsOn_keyed, opsOn_keyed, opsOn_keyed, List.filter_append, List.map_append,
    List.filter_cons_of_pos (by simp), List.map_cons]

variable [DecidableEq σ]

/-- **How the store answers.**  In any sequence of commands, each with an answer channel of its own:
a read is answered once, with what the last earlier write to its key has left; a notification once,
with the current value or else with the first one written later, if any; who waits for a key waits
for its first write; and the commands on other keys do not matter. -/
theorem notification (db : Store) (cs : List (StoreCommand σ))
    (hfresh : (cs.filterMap StoreCommand.sender?).Nodup) :
    (∀ pre key x post, cs = pre ++ .read key x :: post →
      Cell.answers x ((new db).run cs).2 = [.value x (lastWrite db key pre)]) ∧
    (∀ pre key x post, cs = pre ++ .notifyRead key x :: post →
      Cell.answers x ((new db).run cs).2 =
        ((lastWrite db key pre).or (firstWrite key post)).toList.map (.notified x)) ∧
    (∀ key senders, ((new db).run cs).1.obligations key = some senders → senders ≠ [] →
      lastWrite db key cs = none) ∧
    ∀ c ∈ cs, ∀ x, c.sender? = some x → Cell.answers x ((new db).run cs).2 =
      Cell.answers x ((new db).run (cs.filter fun c' => c'.key = c.key)).2 := by
  refine ⟨?_, ?_, ?_, ?_⟩
  · rintro pre key x post rfl
    rw [answers_run db hfresh (List.mem_append_right _ List.mem_cons_self) rfl,
      Cell.answers_read List.not_mem_nil (opsOn_split _ pre post) (hfresh.sublist (askers_opsOn _))]
    rw [← current_opsOn]
    rfl
  · rintro pre key x post rfl
    rw [answers_run db hfresh (List.mem_append_right _ List.mem_cons_self) rfl,
      Cell.answers_await List.not_mem_nil (opsOn_split _ pre post) (hfresh.sublist (askers_opsOn _))]
    rw [← current_opsOn, ← firstWrite_opsOn]
    rfl
  · intro key senders hs hne
    by_contra hv
    have hsettled : (((new db).run cs).1.cells key).Settled := by
      rw [(run_cells _ cs).1, Keyed.run_apply]
      exact Cell.Settled.run (fun _ => rfl) _
    have hvalue : (((new db).run cs).1.cells key).value = lastWrite db key cs := by
      rw [(run_cells _ cs).1, Keyed.run_apply, Cell.value_run, ← current_opsOn]
      rfl
    have hempty := hsettled (hvalue ▸ hv)
    rw [cells, hs] at hempty
    exact hne hempty
  · intro c hc x hx
    have hmem : c ∈ cs.filter fun c' => c'.key = c.key := List.mem_filter.mpr ⟨hc, by simp⟩
    rw [answers_run db hfresh hc hx,
      answers_run db (hfresh.sublist (List.filter_sublist.filterMap _)) hmem hx, opsOn_keyed,
      opsOn_keyed, List.filter_filter]
    simp only [Bool.and_self]

/-- Two wait for a key; it is written twice, and read between and after the writes. -/
theorem notification_waiters :
    Cell.answers 0 ((new .empty).run
      [.notifyRead [1] 0, .notifyRead [1] 1, .write [1] [2], .read [1] 2, .write [1] [3],
        .notifyRead [1] 3]).2 = [.notified 0 [2]] :=
  (notification .empty _ (by decide)).2.1 [] [1] 0 _ rfl

end StoreActor

end AccountabilityGadget
