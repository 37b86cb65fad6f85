import Mathlib.Data.List.Basic
import Mathlib.Tactic.Common
import Mathlib.Tactic.Ring

/-!
# Byte encodings: little-endian integers, decoders, length-prefixed data

The wire format is the fixed-width little-endian format of `bincode` 1.x: integers are
little-endian, a string or a vector is its length as eight bytes followed by its contents,
fixed arrays and tuples are the concatenation of their parts.

* `leBytes` / `ofLE` — little-endian integers, mutually inverse below `256 ^ k`.
* `Decoder ε α` — consumes a prefix of the input or fails with an `ε`.
* `run_bind`, `run_bind_eq_ok` — decoders one after the other.
* `Inverts enc dec a` — `dec` reads back `enc a` whatever follows it.
* `Avoids bad d` — no failure of the decoder `d` is `bad`; closed under sequencing.
* `encStr`, `encVec` and their decoders `str`, `vec`.
-/

set_option autoImplicit false

namespace AccountabilityGadget

/-- A byte string (`Vec<u8>`, `&[u8]`). -/
abbrev Bytes := List UInt8

namespace Encoding

variable {ε α β : Type}

/-! ## Little-endian integers -/

/-- The `k` low bytes of `n`, least significant first. -/
def leBytes : ℕ → ℕ → Bytes
  | 0, _ => []
  | k + 1, n => UInt8.ofNat (n % 256) :: leBytes k (n / 256)

/-- Little-endian value of a byte string. -/
def ofLE : Bytes → ℕ
  | [] => 0
  | b :: bs => b.toNat + 256 * ofLE bs

@[simp] theorem length_leBytes : ∀ k n, (leBytes k n).length = k
  | 0, _ => rfl
  | k + 1, n => by simp [leBytes, length_leBytes k]

theorem ofLE_leBytes : ∀ {k n : ℕ}, n < 256 ^ k → ofLE (leBytes k n) = n
  | 0, n, h => by simp at h; subst h; rfl
  | k + 1, n, h => by
    have hd : n / 256 < 256 ^ k := by
      rw [Nat.div_lt_iff_lt_mul (by decide)]; rw [pow_succ] at h; exact h
    have hb : (UInt8.ofNat (n % 256)).toNat = n % 256 := by
      rw [UInt8.toNat_ofNat']; omega
    rw [leBytes, ofLE, ofLE_leBytes hd, hb]
    omega

theorem leBytes_inj {k m n : ℕ} (hm : m < 256 ^ k) (hn : n < 256 ^ k)
    (h : leBytes k m = leBytes k n) : m = n := by
  rw [← ofLE_leBytes hm, h, ofLE_leBytes hn]

/-! ## Decoders -/

/-- A decoder reads a prefix of its input. -/
abbrev Decoder (ε : Type) := StateT Bytes (Except ε)

/-- The failures every wire format has. -/
class WireError (ε : Type) where
  eof : ε
  utf8 : ε
  tag : ε

theorem run_bind (p : Decoder ε α) (f : α → Decoder ε β) (bs : Bytes) :
    (p >>= f).run bs = match p.run bs with
      | .error e => .error e
      | .ok (a, rest) => (f a).run rest := by
  rw [StateT.run_bind]
  cases p.run bs <;> rfl

/-- A sequence of decoders succeeds if its parts do, one after the other. -/
theorem run_bind_eq_ok {p : Decoder ε α} {f : α → Decoder ε β} {bs rest : Bytes} {b : β} :
    (p >>= f).run bs = .ok (b, rest) ↔
      ∃ a r, p.run bs = .ok (a, r) ∧ (f a).run r = .ok (b, rest) := by
  rw [run_bind]
  cases p.run bs with
  | error e => simp
  | ok x =>
    obtain ⟨a, r⟩ := x
    constructor
    · intro h
      exact ⟨a, r, rfl, h⟩
    · rintro ⟨a', r', hx, h⟩
      cases hx
      exact h

/-- `dec` inverts `enc` at `a`. -/
def Inverts (enc : α → Bytes) (dec : Decoder ε α) (a : α) : Prop :=
  ∀ rest, dec.run (enc a ++ rest) = .ok (a, rest)

theorem Inverts.injective {enc : α → Bytes} {dec : Decoder ε α} {a b : α}
    (ha : Inverts enc dec a) (hb : Inverts enc dec b) (h : enc a = enc b) : a = b := by
  have h1 := ha []
  rw [h, hb []] at h1
  simpa using h1.symm

/-- No failure of `d` satisfies `bad`. -/
def Avoids (bad : ε → Prop) (d : Decoder ε α) : Prop :=
  ∀ bs e, d.run bs = .error e → ¬ bad e

theorem Avoids.pure (bad : ε → Prop) (a : α) : Avoids bad (Pure.pure a : Decoder ε α) :=
  fun _ _ h => by cases h

theorem Avoids.bind {bad : ε → Prop} {p : Decoder ε α} {f : α → Decoder ε β}
    (hp : Avoids bad p) (hf : ∀ a, Avoids bad (f a)) : Avoids bad (p >>= f) := by
  intro bs e h
  rw [run_bind] at h
  cases hr : p.run bs with
  | error e' => rw [hr] at h; cases h; exact hp bs _ hr
  | ok x => rw [hr] at h; exact hf x.1 x.2 e h

theorem Avoids.mono {bad bad' : ε → Prop} {d : Decoder ε α} (h : Avoids bad d)
    (hle : ∀ e, bad' e → bad e) : Avoids bad' d :=
  fun bs e he hb => h bs e he (hle e hb)

/-! ## Primitive decoders -/

section Primitive

variable [WireError ε]

/-- The next `k` bytes. -/
def takeBytes (k : ℕ) : Decoder ε Bytes := fun bs =>
  if k ≤ bs.length then .ok (bs.take k, bs.drop k) else .error WireError.eof

/-- A little-endian integer of `k` bytes. -/
def uint (k : ℕ) : Decoder ε ℕ := do
  let bs ← takeBytes k
  return ofLE bs

/-- `str::from_utf8` succeeds. -/
def utf8Valid (bs : Bytes) : Bool := (ByteArray.mk bs.toArray).validateUTF8

/-- A `String`: its length, then that many bytes of UTF-8. -/
def str : Decoder ε Bytes := do
  let n ← uint 8
  let bs ← takeBytes n
  if utf8Valid bs then return bs else throw WireError.utf8

/-- `n` consecutive elements. -/
def times : ℕ → Decoder ε α → Decoder ε (List α)
  | 0, _ => return []
  | n + 1, d => do
    let a ← d
    let as ← times n d
    return a :: as

/-- A `Vec`: its length, then its elements. -/
def vec (d : Decoder ε α) : Decoder ε (List α) := do
  let n ← uint 8
  times n d

/-- `String` and `Vec<u8>` on the wire. -/
def encStr (bs : Bytes) : Bytes := leBytes 8 bs.length ++ bs

/-- `Vec` on the wire. -/
def encVec (enc : α → Bytes) (as : List α) : Bytes := leBytes 8 as.length ++ as.flatMap enc

theorem run_takeBytes {k : ℕ} {bs : Bytes} (h : bs.length = k) (rest : Bytes) :
    (takeBytes k : Decoder ε Bytes).run (bs ++ rest) = .ok (bs, rest) := by
  subst h
  simp [takeBytes, StateT.run]

theorem run_uint {k n : ℕ} (h : n < 256 ^ k) (rest : Bytes) :
    (uint k : Decoder ε ℕ).run (leBytes k n ++ rest) = .ok (n, rest) := by
  rw [uint, run_bind, run_takeBytes (length_leBytes k n)]
  simp only [ofLE_leBytes h]
  rfl

theorem run_str {bs : Bytes} (hl : bs.length < 256 ^ 8) (hu : utf8Valid bs = true) :
    Inverts encStr (str : Decoder ε Bytes) bs := by
  intro rest
  rw [encStr, List.append_assoc, str, run_bind, run_uint hl]
  simp only
  rw [run_bind, run_takeBytes rfl]
  simp only [hu, if_true]
  rfl

omit [WireError ε] in
theorem run_times {enc : α → Bytes} {d : Decoder ε α} :
    ∀ {as : List α}, (∀ a ∈ as, Inverts enc d a) → ∀ rest,
      (times as.length d).run (as.flatMap enc ++ rest) = .ok (as, rest)
  | [], _, rest => rfl
  | a :: as, h, rest => by
    rw [List.length_cons, times, run_bind, List.flatMap_cons, List.append_assoc, h a (by simp)]
    simp only
    rw [run_bind, run_times (fun b hb => h b (by simp [hb]))]
    rfl

theorem run_vec {enc : α → Bytes} {d : Decoder ε α} {as : List α} (hl : as.length < 256 ^ 8)
    (h : ∀ a ∈ as, Inverts enc d a) : Inverts (encVec enc) (vec d) as := by
  intro rest
  rw [encVec, List.append_assoc, vec, run_bind, run_uint hl]
  exact run_times h rest

theorem length_encVec (enc : α → Bytes) (as : List α) :
    (encVec enc as).length = 8 + (as.map fun a => (enc a).length).sum := by
  simp [encVec, List.length_flatMap]

/-- A concatenation of codes of one positive width determines what is encoded. -/
theorem flatMap_inj {enc : α → Bytes} {k : ℕ} (hk : 0 < k) (hlen : ∀ a, (enc a).length = k)
    (hinj : ∀ a b, enc a = enc b → a = b) :
    ∀ {as bs : List α}, as.flatMap enc = bs.flatMap enc → as = bs
  | [], [], _ => rfl
  | [], b :: bs, h => by
    have hl := congrArg List.length h
    simp only [List.flatMap_nil, List.flatMap_cons, List.length_nil, List.length_append, hlen] at hl
    omega
  | a :: as, [], h => by
    have hl := congrArg List.length h
    simp only [List.flatMap_nil, List.flatMap_cons, List.length_nil, List.length_append, hlen] at hl
    omega
  | a :: as, b :: bs, h => by
    rw [List.flatMap_cons, List.flatMap_cons] at h
    obtain ⟨hhead, htail⟩ := List.append_inj h (by rw [hlen, hlen])
    rw [hinj a b hhead, flatMap_inj hk hlen hinj htail]

/-! ### Values that fit the wire -/

instance neZero_two_pow_64 : NeZero (2 ^ 64 : ℕ) := ⟨by decide⟩

/-- An unsigned 64-bit integer. -/
abbrev U64 := Fin (2 ^ 64)

/-- A `Vec<u8>`: its length is a `usize`. -/
structure ByteVec where
  bytes : Bytes
  length_lt : bytes.length < 2 ^ 64
  deriving DecidableEq

/-- A `String`, as the bytes of its UTF-8 form. -/
structure Text where
  bytes : Bytes
  length_lt : bytes.length < 2 ^ 64
  valid : utf8Valid bytes = true
  deriving DecidableEq

/-- A `u64` on the wire. -/
def u64 : Decoder ε U64 := do
  let n ← uint 8
  return Fin.ofNat _ n

/-- A `Vec<u8>` on the wire. -/
def byteVec : Decoder ε ByteVec := do
  let n ← uint 8
  let bs ← takeBytes n
  if h : bs.length < 2 ^ 64 then return ⟨bs, h⟩ else throw WireError.eof

/-- A `String` on the wire. -/
def text : Decoder ε Text := do
  let v ← byteVec
  if h : utf8Valid v.bytes = true then return ⟨v.bytes, v.length_lt, h⟩ else throw WireError.utf8

/-- An `Option` on the wire: a tag of one byte. -/
def opt (d : Decoder ε α) : Decoder ε (Option α) := do
  let tag ← uint 1
  if tag = 0 then return none
  else if tag = 1 then
    let a ← d
    return some a
  else throw WireError.tag

def encOpt (enc : α → Bytes) : Option α → Bytes
  | none => leBytes 1 0
  | some a => leBytes 1 1 ++ enc a

theorem run_u64 (n : U64) : Inverts (fun n : U64 => leBytes 8 n.val) (u64 : Decoder ε U64) n := by
  intro rest
  rw [u64, run_bind, run_uint (by have := n.isLt; omega)]
  simp only [Fin.ofNat_val_eq_self]
  rfl

theorem run_byteVec (v : ByteVec) :
    Inverts (fun v : ByteVec => encStr v.bytes) (byteVec : Decoder ε ByteVec) v := by
  intro rest
  have hl : v.bytes.length < 256 ^ 8 := by have := v.length_lt; omega
  change (byteVec : Decoder ε ByteVec).run (encStr v.bytes ++ rest) = _
  rw [encStr, List.append_assoc, byteVec, run_bind, run_uint hl]
  simp only
  rw [run_bind, run_takeBytes rfl]
  simp only [v.length_lt, dite_true]
  rfl

theorem run_text (t : Text) :
    Inverts (fun t : Text => encStr t.bytes) (text : Decoder ε Text) t := by
  intro rest
  have hv := run_byteVec (ε := ε) ⟨t.bytes, t.length_lt⟩ rest
  simp only at hv
  rw [text, run_bind, hv]
  simp only [t.valid, dite_true]
  rfl

theorem run_opt {enc : α → Bytes} {d : Decoder ε α} {o : Option α}
    (h : ∀ a, o = some a → Inverts enc d a) : Inverts (encOpt enc) (opt d) o := by
  intro rest
  cases o with
  | none =>
    rw [encOpt, opt, run_bind, run_uint (by decide)]
    simp only [if_true]
    rfl
  | some a =>
    rw [encOpt, List.append_assoc, opt, run_bind, run_uint (by decide)]
    simp only [one_ne_zero, if_true, if_false]
    rw [run_bind, h a rfl]
    rfl

/-! A failure of the primitive decoders is one of the three wire errors. -/

variable {bad : ε → Prop}

theorem takeBytes_avoids (he : ¬ bad WireError.eof) (k : ℕ) : Avoids bad (takeBytes k) := by
  intro bs e h
  simp only [takeBytes, StateT.run] at h
  split at h
  · cases h
  · cases h; exact he

theorem uint_avoids (he : ¬ bad WireError.eof) (k : ℕ) : Avoids bad (uint k) :=
  (takeBytes_avoids he k).bind fun _ => .pure _ _

theorem u64_avoids (he : ¬ bad WireError.eof) : Avoids bad u64 :=
  (uint_avoids he 8).bind fun _ => .pure _ _

theorem str_avoids (he : ¬ bad WireError.eof) (hu : ¬ bad WireError.utf8) : Avoids bad str :=
  (uint_avoids he 8).bind fun n => (takeBytes_avoids he n).bind fun bs => by
    intro r e h
    split at h
    · cases h
    · cases h; exact hu

omit [WireError ε] in
theorem times_avoids {d : Decoder ε α} (hd : Avoids bad d) : ∀ n, Avoids bad (times n d)
  | 0 => .pure _ _
  | n + 1 => hd.bind fun _ => (times_avoids hd n).bind fun _ => .pure _ _

theorem vec_avoids (he : ¬ bad WireError.eof) {d : Decoder ε α} (hd : Avoids bad d) :
    Avoids bad (vec d) :=
  (uint_avoids he 8).bind fun n => times_avoids hd n

theorem opt_avoids (he : ¬ bad WireError.eof) (ht : ¬ bad WireError.tag) {d : Decoder ε α}
    (hd : Avoids bad d) : Avoids bad (opt d) :=
  (uint_avoids he 1).bind fun tag => by
    split_ifs
    · exact .pure _ _
    · exact hd.bind fun _ => .pure _ _
    · intro bs e h
      cases h
      exact ht

end Primitive

/-! ## ASCII text is UTF-8 -/

theorem isValidUTF8_byte {b : UInt8} (hb : b.toNat < 128) : (⟨#[b]⟩ : ByteArray).IsValidUTF8 := by
  refine ⟨[Char.ofNat b.toNat], ?_⟩
  have hv : (Char.ofNat b.toNat).val.toNat = b.toNat := by
    have hc : b.toNat.isValidChar := Or.inl (by omega)
    rw [Char.ofNat, dif_pos hc]
    rfl
  have hs : String.utf8EncodeChar (Char.ofNat b.toNat) = [b] := by
    unfold String.utf8EncodeChar
    simp only [hv]
    rw [if_pos (by omega)]
    simp
  simp [List.utf8Encode, hs]
  rfl

theorem utf8Valid_of_ascii {bs : Bytes} (h : ∀ b ∈ bs, b.toNat < 128) : utf8Valid bs = true := by
  rw [utf8Valid, ByteArray.validateUTF8_eq_true_iff]
  induction bs with
  | nil => exact ByteArray.isValidUTF8_empty
  | cons b bs ih =>
    have hb := (isValidUTF8_byte (h b (by simp))).append (ih fun x hx => h x (by simp [hx]))
    convert hb using 1
    ext1
    simp

end Encoding

end AccountabilityGadget
