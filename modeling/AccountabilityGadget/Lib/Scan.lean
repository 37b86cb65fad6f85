import Mathlib.Data.List.AList
import Mathlib.Data.Finset.Card
import Mathlib.Order.Lattice
import Mathlib.Tactic.Common

/-!
# Scans of hash containers

The order in which a hash map or a hash set enumerates its entries is unspecified.  `HashOrder`
is one such order, as a permutation of the stored entries; code that scans a container takes the
order as a parameter, and a result that holds for every `HashOrder` does not depend on it.

* `count_values` — how often a value occurs in an association list is the number of keys bound to
  it, so counting scans do not depend on the order.
* `pick` — a scan that keeps the better of the current choice and the next admissible entry;
  `pick_spec`: with a key into a linear order it returns a maximum of the start value and the
  admissible entries, so by `pick_eq` it does not depend on the order either.
-/

set_option autoImplicit false

namespace AccountabilityGadget

/-- An enumeration order. -/
structure HashOrder (α : Type*) where
  iter : List α → List α
  perm : ∀ l, (iter l).Perm l

namespace HashOrder

variable {α : Type*}

/-- Entries in the order in which the model stores them. -/
def stored : HashOrder α := ⟨id, fun _ => .refl _⟩

/-- Entries in the opposite order. -/
def reversed : HashOrder α := ⟨List.reverse, List.reverse_perm⟩

@[simp] theorem mem_iter (o : HashOrder α) {l : List α} {a : α} : a ∈ o.iter l ↔ a ∈ l :=
  (o.perm l).mem_iff

end HashOrder

namespace Scan

/-! ## Counting -/

variable {κ ν : Type} [DecidableEq κ] [DecidableEq ν]

/-- The keys bound to a value. -/
def keysOf (m : AList fun _ : κ => ν) (v : ν) : Finset κ :=
  m.keys.toFinset.filter fun k => m.lookup k = some v

@[simp] theorem mem_keysOf {m : AList fun _ : κ => ν} {v : ν} {k : κ} :
    k ∈ keysOf m v ↔ m.lookup k = some v := by
  simp only [keysOf, Finset.mem_filter, List.mem_toFinset, and_iff_right_iff_imp]
  intro h
  rw [← AList.mem_keys, ← AList.lookup_isSome, h]
  rfl

theorem count_values (m : AList fun _ : κ => ν) (v : ν) :
    (m.entries.map Sigma.snd).count v = (keysOf m v).card := by
  have hset : keysOf m v = ((m.entries.filter fun e => e.2 = v).map Sigma.fst).toFinset := by
    ext k
    simp only [mem_keysOf, List.mem_toFinset, List.mem_map, List.mem_filter, decide_eq_true_eq]
    rw [← Option.mem_def, AList.mem_lookup_iff]
    constructor
    · intro h; exact ⟨⟨k, v⟩, ⟨h, rfl⟩, rfl⟩
    · rintro ⟨⟨k', v'⟩, ⟨h, hv⟩, hk⟩
      simp only at hv hk
      subst hv; subst hk
      exact h
  have hnd : ((m.entries.filter fun e => e.2 = v).map Sigma.fst).Nodup :=
    (List.filter_sublist.map _).nodup m.keys_nodup
  rw [hset, List.toFinset_card_of_nodup hnd, List.length_map, List.count, List.countP_map,
    List.countP_eq_length_filter]
  congr 1

/-! ## Picking a maximum -/

variable {α β : Type*} [LinearOrder β]

/-- Keep the current choice unless the next entry is admissible and `better x m` holds. -/
def pick (better : α → α → Bool) (adm : α → Bool) (m : α) : List α → α
  | [] => m
  | x :: xs => pick better adm (if better x m && adm x then x else m) xs

theorem pick_spec {better : α → α → Bool} (adm : α → Bool) {key : α → β} :
    ∀ {l : List α} {m : α}, (∀ x ∈ l, ∀ y ∈ m :: l, better x y = true ↔ key y ≤ key x) →
      (pick better adm m l = m ∨ (pick better adm m l ∈ l ∧ adm (pick better adm m l) = true)) ∧
      key m ≤ key (pick better adm m l) ∧
      ∀ x ∈ l, adm x = true → key x ≤ key (pick better adm m l)
  | [], m, _ => ⟨.inl rfl, le_rfl, by simp⟩
  | x :: l, m, h => by
    have hx : better x m = true ↔ key m ≤ key x := h x (by simp) m (by simp)
    have hl : ∀ m' ∈ m :: [x], ∀ z ∈ l, ∀ y ∈ m' :: l, better z y = true ↔ key y ≤ key z := by
      intro m' hm' z hz y hy
      apply h z (by simp [hz]) y
      simp only [List.mem_cons, List.not_mem_nil, or_false] at hm' hy ⊢
      rcases hy with rfl | hy
      · rcases hm' with rfl | rfl <;> simp
      · exact .inr (.inr hy)
    rw [pick]
    by_cases hc : (better x m && adm x) = true
    · rw [if_pos hc]
      rw [Bool.and_eq_true] at hc
      obtain ⟨h1, h2, h3⟩ := pick_spec adm (hl x (by simp))
      refine ⟨.inr ?_, (hx.mp hc.1).trans h2, ?_⟩
      · rcases h1 with h1 | h1
        · rw [h1]; exact ⟨by simp, hc.2⟩
        · exact ⟨by simp [h1.1], h1.2⟩
      · intro z hz hza
        rcases List.mem_cons.mp hz with rfl | hz
        · exact h2
        · exact h3 z hz hza
    · rw [if_neg hc]
      obtain ⟨h1, h2, h3⟩ := pick_spec adm (hl m (by simp))
      refine ⟨?_, h2, ?_⟩
      · rcases h1 with h1 | h1
        · exact .inl h1
        · exact .inr ⟨by simp [h1.1], h1.2⟩
      · intro z hz hza
        rcases List.mem_cons.mp hz with rfl | hz
        · have : ¬ key m ≤ key z := fun hle => hc (by rw [Bool.and_eq_true]; exact ⟨hx.mpr hle, hza⟩)
          exact (le_of_not_ge this).trans h2
        · exact h3 z hz hza

/-- Scans of permuted lists pick the same entry when the key is injective on the entries. -/
theorem pick_eq {better : α → α → Bool} {adm : α → Bool} {key : α → β} {l l' : List α} {m : α}
    (hp : l.Perm l') (hb : ∀ x ∈ l, ∀ y ∈ m :: l, better x y = true ↔ key y ≤ key x)
    (hinj : ∀ x ∈ m :: l, ∀ y ∈ m :: l, key x = key y → x = y) :
    pick better adm m l = pick better adm m l' := by
  have hb' : ∀ x ∈ l', ∀ y ∈ m :: l', better x y = true ↔ key y ≤ key x := by
    intro x hx y hy
    apply hb x (hp.mem_iff.mpr hx) y
    rcases List.mem_cons.mp hy with rfl | hy
    · simp
    · exact List.mem_cons_of_mem _ (hp.mem_iff.mpr hy)
  obtain ⟨a1, a2, a3⟩ := pick_spec adm hb
  obtain ⟨b1, b2, b3⟩ := pick_spec adm hb'
  have hmem : pick better adm m l ∈ m :: l := by
    rcases a1 with h | h
    · rw [h]; simp
    · simp [h.1]
  have hmem' : pick better adm m l' ∈ m :: l := by
    rcases b1 with h | h
    · rw [h]; simp
    · exact List.mem_cons_of_mem _ (hp.mem_iff.mpr h.1)
  refine hinj _ hmem _ hmem' (le_antisymm ?_ ?_)
  · rcases a1 with h | h
    · rw [h]; exact b2
    · exact b3 _ (hp.mem_iff.mp h.1) h.2
  · rcases b1 with h | h
    · rw [h]; exact a2
    · exact a3 _ (hp.mem_iff.mpr h.1) h.2

end Scan

end AccountabilityGadget
