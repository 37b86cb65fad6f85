import AccountabilityGadget.Lib.Encoding

/-!
# Standard base64 with padding

`encode` groups three bytes into four characters of the standard alphabet and pads the last
group with `=`; `decode` accepts exactly the canonical texts (right length, right padding, unused
bits zero).

* `decode_encode` — decoding inverts encoding.
* `encode_of_decode` — an accepted text is the encoding of what it decodes to.
* `length_encode`, `encode_ascii` — size and character range of an encoding.
-/

set_option autoImplicit false

namespace AccountabilityGadget.Base64

/-- Character of a six-bit value. -/
def digit (n : ℕ) : UInt8 :=
  if n < 26 then UInt8.ofNat (65 + n)
  else if n < 52 then UInt8.ofNat (71 + n)
  else if n < 62 then UInt8.ofNat (n - 4)
  else if n = 62 then 43 else 47

/-- Six-bit value of a character. -/
def value (c : UInt8) : Option ℕ :=
  let n := c.toNat
  if 65 ≤ n ∧ n ≤ 90 then some (n - 65)
  else if 97 ≤ n ∧ n ≤ 122 then some (n - 71)
  else if 48 ≤ n ∧ n ≤ 57 then some (n + 4)
  else if n = 43 then some 62
  else if n = 47 then some 63
  else none

/-- The padding character `=`. -/
def pad : UInt8 := 61

def encode : Bytes → Bytes
  | [] => []
  | [a] => [digit (a.toNat / 4), digit (a.toNat % 4 * 16), pad, pad]
  | [a, b] => [digit (a.toNat / 4), digit (a.toNat % 4 * 16 + b.toNat / 16),
      digit (b.toNat % 16 * 4), pad]
  | a :: b :: c :: rest => digit (a.toNat / 4) :: digit (a.toNat % 4 * 16 + b.toNat / 16) ::
      digit (b.toNat % 16 * 4 + c.toNat / 64) :: digit (c.toNat % 64) :: encode rest

/-- A padded final group. -/
def decodeTail (w x y : UInt8) : Option Bytes :=
  match value w, value x with
  | some i, some j =>
    if y = pad then
      if j % 16 = 0 then some [UInt8.ofNat (i * 4 + j / 16)] else none
    else match value y with
      | some k =>
        if k % 4 = 0 then some [UInt8.ofNat (i * 4 + j / 16), UInt8.ofNat (j % 16 * 16 + k / 4)]
        else none
      | none => none
  | _, _ => none

def decode : Bytes → Option Bytes
  | [] => some []
  | w :: x :: y :: z :: rest =>
    if z = pad then (if rest = [] then decodeTail w x y else none)
    else match value w, value x, value y, value z, decode rest with
      | some i, some j, some k, some l, some bs =>
        some (UInt8.ofNat (i * 4 + j / 16) :: UInt8.ofNat (j % 16 * 16 + k / 4) ::
          UInt8.ofNat (k % 4 * 64 + l) :: bs)
      | _, _, _, _, _ => none
  | _ => none

/-! ## Single characters -/

theorem value_digit : ∀ n < 64, value (digit n) = some n := by decide

theorem digit_ne_pad : ∀ n < 64, digit n ≠ pad := by decide

theorem digit_ascii : ∀ n < 64, (digit n).toNat < 128 := by decide

theorem digit_of_value {c : UInt8} {n : ℕ} (h : value c = some n) : n < 64 ∧ digit n = c := by
  have hall : ∀ m < 256, ∀ k ∈ value (UInt8.ofNat m), digit k = UInt8.ofNat m := by
    decide +kernel
  have hlt : n < 64 := by
    have hc := c.toNat_lt
    simp only [value] at h
    split_ifs at h <;> simp only [Option.some.injEq] at h <;> omega
  have hc : UInt8.ofNat c.toNat = c := by simp
  exact ⟨hlt, by rw [← hc] at h ⊢; exact hall _ c.toNat_lt n h⟩

theorem ofNat_eq {b : UInt8} {n : ℕ} (h : n = b.toNat) : UInt8.ofNat n = b := by
  subst h; simp

theorem toNat_ofNat {n : ℕ} (h : n < 256) : (UInt8.ofNat n).toNat = n := by
  rw [UInt8.toNat_ofNat']; omega

/-! ## Decoding inverts encoding -/

theorem decode_encode : ∀ bs : Bytes, decode (encode bs) = some bs
  | [] => rfl
  | [a] => by
    have ha := a.toNat_lt
    simp only [encode, decode, decodeTail, value_digit (a.toNat / 4) (by omega),
      value_digit (a.toNat % 4 * 16) (by omega), if_true]
    rw [if_pos (by omega), ofNat_eq (b := a) (by omega)]
  | [a, b] => by
    have ha := a.toNat_lt
    have hb := b.toNat_lt
    simp only [encode, decode, decodeTail, value_digit (a.toNat / 4) (by omega),
      value_digit (a.toNat % 4 * 16 + b.toNat / 16) (by omega),
      value_digit (b.toNat % 16 * 4) (by omega), digit_ne_pad (b.toNat % 16 * 4) (by omega),
      if_true, if_false]
    rw [if_pos (by omega), ofNat_eq (b := a) (by omega), ofNat_eq (b := b) (by omega)]
  | a :: b :: c :: rest => by
    have ha := a.toNat_lt
    have hb := b.toNat_lt
    have hc := c.toNat_lt
    simp only [encode, decode, digit_ne_pad (c.toNat % 64) (by omega), if_false,
      value_digit (a.toNat / 4) (by omega), value_digit (a.toNat % 4 * 16 + b.toNat / 16) (by omega),
      value_digit (b.toNat % 16 * 4 + c.toNat / 64) (by omega),
      value_digit (c.toNat % 64) (by omega), decode_encode rest]
    rw [ofNat_eq (b := a) (by omega), ofNat_eq (b := b) (by omega), ofNat_eq (b := c) (by omega)]

theorem encode_injective {a b : Bytes} (h : encode a = encode b) : a = b := by
  have ha := decode_encode a
  rw [h, decode_encode] at ha
  exact (Option.some.inj ha).symm

/-! ## Accepted texts are canonical -/

theorem encode_of_decodeTail {w x y : UInt8} {bs : Bytes} (h : decodeTail w x y = some bs) :
    encode bs = [w, x, y, pad] := by
  unfold decodeTail at h
  split at h
  · rename_i i j hi hj
    obtain ⟨hi64, rfl⟩ := digit_of_value hi
    obtain ⟨hj64, rfl⟩ := digit_of_value hj
    split at h
    · rename_i hy
      subst hy
      split at h
      · simp only [Option.some.injEq] at h
        subst h
        simp only [encode, toNat_ofNat (show i * 4 + j / 16 < 256 by omega)]
        rw [show (i * 4 + j / 16) / 4 = i by omega, show (i * 4 + j / 16) % 4 * 16 = j by omega]
      · cases h
    · split at h
      · rename_i k hk
        obtain ⟨hk64, rfl⟩ := digit_of_value hk
        split at h
        · simp only [Option.some.injEq] at h
          subst h
          simp only [encode, toNat_ofNat (show i * 4 + j / 16 < 256 by omega),
            toNat_ofNat (show j % 16 * 16 + k / 4 < 256 by omega)]
          rw [show (i * 4 + j / 16) / 4 = i by omega,
            show (i * 4 + j / 16) % 4 * 16 + (j % 16 * 16 + k / 4) / 16 = j by omega,
            show (j % 16 * 16 + k / 4) % 16 * 4 = k by omega]
        · cases h
      · cases h
  · cases h

theorem encode_of_decode : ∀ {s bs : Bytes}, decode s = some bs → encode bs = s
  | [], bs, h => by simp only [decode, Option.some.injEq] at h; subst h; rfl
  | [_], _, h => by simp [decode] at h
  | [_, _], _, h => by simp [decode] at h
  | [_, _, _], _, h => by simp [decode] at h
  | w :: x :: y :: z :: rest, bs, h => by
    simp only [decode] at h
    split at h
    · rename_i hz
      subst hz
      split at h
      · rename_i hr
        subst hr
        exact encode_of_decodeTail h
      · cases h
    · split at h
      · rename_i i j k l bs' hi hj hk hl hr
        obtain ⟨hi64, rfl⟩ := digit_of_value hi
        obtain ⟨hj64, rfl⟩ := digit_of_value hj
        obtain ⟨hk64, rfl⟩ := digit_of_value hk
        obtain ⟨hl64, rfl⟩ := digit_of_value hl
        simp only [Option.some.injEq] at h
        subst h
        simp only [encode, encode_of_decode hr, toNat_ofNat (show i * 4 + j / 16 < 256 by omega),
          toNat_ofNat (show j % 16 * 16 + k / 4 < 256 by omega),
          toNat_ofNat (show k % 4 * 64 + l < 256 by omega)]
        rw [show (i * 4 + j / 16) / 4 = i by omega,
          show (i * 4 + j / 16) % 4 * 16 + (j % 16 * 16 + k / 4) / 16 = j by omega,
          show (j % 16 * 16 + k / 4) % 16 * 4 + (k % 4 * 64 + l) / 64 = k by omega,
          show (k % 4 * 64 + l) % 64 = l by omega]
      · cases h

/-! ## Size and character range -/

theorem length_encode : ∀ bs : Bytes, (encode bs).length = (bs.length + 2) / 3 * 4
  | [] => rfl
  | [_] => by simp [encode]
  | [_, _] => by simp [encode]
  | _ :: _ :: _ :: rest => by
    simp only [encode, List.length_cons, length_encode rest]
    omega

theorem encode_ascii : ∀ bs : Bytes, ∀ c ∈ encode bs, c.toNat < 128
  | [], c, h => by cases h
  | [a], c, h => by
    have ha := a.toNat_lt
    simp only [encode, List.mem_cons, List.not_mem_nil, or_false] at h
    rcases h with rfl | rfl | rfl | rfl
    · exact digit_ascii _ (by omega)
    · exact digit_ascii _ (by omega)
    · decide
    · decide
  | [a, b], c, h => by
    have ha := a.toNat_lt
    have hb := b.toNat_lt
    simp only [encode, List.mem_cons, List.not_mem_nil, or_false] at h
    rcases h with rfl | rfl | rfl | rfl
    · exact digit_ascii _ (by omega)
    · exact digit_ascii _ (by omega)
    · exact digit_ascii _ (by omega)
    · decide
  | a :: b :: d :: rest, c, h => by
    have ha := a.toNat_lt
    have hb := b.toNat_lt
    have hd := d.toNat_lt
    simp only [encode, List.mem_cons] at h
    rcases h with rfl | rfl | rfl | rfl | h
    · exact digit_ascii _ (by omega)
    · exact digit_ascii _ (by omega)
    · exact digit_ascii _ (by omega)
    · exact digit_ascii _ (by omega)
    · exact encode_ascii rest c h

end AccountabilityGadget.Base64
