import Mathlib

/-!
# The values of `Float32` numbers

Single-precision numbers as rationals: what the operations of `Float32` on positive numbers compute.

* `Representable`, `Nearest` — sums of 24 consecutive binary digits, and the nearest ones to a
  rational.
* `Residue` — how an extended mantissa stands for a rational; `Residue.rounded` — rounding errs by at
  most one half.
* `nearest_round` — rounding gives a nearest number.
* `Denotes` — the value of a `Float32`; `Denotes.lt_iff`, `Denotes.le_iff`, `denotes_natCast`,
  `Denotes.mul` — comparison, conversion and multiplication in terms of values.
-/

set_option autoImplicit false

namespace AccountabilityGadget.Binary32

open Float.Model Float.Model.UnpackedFloat

/-! ## Nearest numbers -/

/-- A number with a significand of 24 binary digits. -/
def Representable (z : ℚ) : Prop := ∃ (m : ℕ) (e : ℤ), m < 2 ^ 24 ∧ z = m * 2 ^ e

/-- `v` is one of the representable numbers nearest to `y`. -/
structure Nearest (y v : ℚ) : Prop where
  representable : Representable v
  le : ∀ z, Representable z → |v - y| ≤ |z - y|

theorem representable_natCast {n : ℕ} (h : n ≤ 2 ^ 24) : Representable n := by
  rcases Nat.lt_or_eq_of_le h with h | rfl
  · exact ⟨n, 0, h, by simp⟩
  · exact ⟨1, 24, by norm_num, by norm_num⟩

theorem representable_quarter {n : ℕ} (h : n < 2 ^ 24) : Representable (n / 4) :=
  ⟨n, -2, h, by norm_num; ring⟩

namespace Nearest

variable {y v z w : ℚ} (h : Nearest y v)

include h

/-- A nearest number is not below a representable one that is not above. -/
theorem le_of_le (hz : Representable z) (hzy : z ≤ y) : z ≤ v := by
  by_contra hlt
  have hnear := h.le z hz
  rw [abs_of_nonpos (by linarith), abs_of_nonpos (by linarith)] at hnear
  linarith

theorem ge_of_ge (hz : Representable z) (hyz : y ≤ z) : v ≤ z := by
  by_contra hlt
  have hnear := h.le z hz
  rw [abs_of_nonneg (by linarith), abs_of_nonneg (by linarith)] at hnear
  linarith

theorem eq_of_representable (hy : Representable y) : v = y :=
  le_antisymm (h.ge_of_ge hy le_rfl) (h.le_of_le hy le_rfl)

/-- Something nearer keeps it below a bound. -/
theorem lt_of_closer (hz : Representable z) (hzw : |z - y| < w - y) : v < w := by
  by_contra hle
  have hnear := (h.le z hz).trans_lt hzw
  have habs := le_abs_self (v - y)
  linarith

end Nearest

/-! ## Shifting and rounding a mantissa -/

/-- The extended mantissa stands for `x`: what its two residual bits say about the rest. -/
def Residue (em : ExtendedMantissa) (x : ℚ) : Prop :=
  match em.roundBit, em.stickyBit with
  | false, false => x = em.mantissa
  | false, true => em.mantissa < x ∧ x < em.mantissa + 1 / 2
  | true, false => x = em.mantissa + 1 / 2
  | true, true => em.mantissa + 1 / 2 < x ∧ x < em.mantissa + 1

theorem Residue.shiftRightOne {em : ExtendedMantissa} {x : ℚ} (h : Residue em x) :
    Residue em.shiftRightOne (x / 2) := by
  obtain ⟨m, r, s⟩ := em
  have hm : (m : ℚ) = 2 * (m / 2 : ℕ) + (m % 2 : ℕ) := by exact_mod_cast (Nat.div_add_mod m 2).symm
  rcases Nat.mod_two_eq_zero_or_one m with h0 | h1
  · rw [h0] at hm
    cases r <;> cases s <;> simp_all [Residue, ExtendedMantissa.shiftRightOne] <;>
      (try constructor) <;> linarith
  · rw [h1] at hm
    cases r <;> cases s <;> simp_all [Residue, ExtendedMantissa.shiftRightOne] <;>
      (try constructor) <;> linarith

theorem Residue.shiftRight {em : ExtendedMantissa} {x : ℚ} (h : Residue em x) :
    ∀ a : ℕ, Residue (em >>> a) (x / 2 ^ a)
  | 0 => by
    rw [pow_zero, div_one]
    exact h
  | a + 1 => by
    have hstep := (h.shiftRight a).shiftRightOne
    rw [div_div, ← pow_succ] at hstep
    exact hstep

/-- The mantissa is the integer part. -/
theorem Residue.mantissa_le {em : ExtendedMantissa} {x : ℚ} (h : Residue em x) :
    (em.mantissa : ℚ) ≤ x ∧ x < em.mantissa + 1 := by
  obtain ⟨m, r, s⟩ := em
  cases r <;> cases s <;> simp only [Residue] at h ⊢ <;> constructor <;> linarith

/-- **Rounding errs by at most one half**, and yields the integer part or the next integer. -/
theorem Residue.rounded {em : ExtendedMantissa} {x : ℚ} (h : Residue em x) :
    |(em.roundedMantissa : ℚ) - x| ≤ 1 / 2 ∧
      (em.roundedMantissa = em.mantissa ∨ em.roundedMantissa = em.mantissa + 1) := by
  obtain ⟨m, r, s⟩ := em
  rw [abs_le]
  rcases Nat.mod_two_eq_zero_or_one m with hm | hm <;> cases r <;> cases s <;>
    simp only [Residue, ExtendedMantissa.roundedMantissa, ExtendedMantissa.accuracy,
      Accuracy.roundToNearestEven, hm] at h ⊢ <;>
    refine ⟨⟨?_, ?_⟩, ?_⟩ <;> push_cast <;> first | linarith | simp

/-! ## Rounding is to a nearest number -/

/-- A representable number of at least `2 ^ 23` units is a whole number of units. -/
theorem Representable.exists_units {z : ℚ} (hz : Representable z) {t : ℤ}
    (h : (2 : ℚ) ^ (t + 23) ≤ z) : ∃ k : ℤ, z = k * 2 ^ t := by
  obtain ⟨m, e, hm, rfl⟩ := hz
  have hlt : (2 : ℚ) ^ (t + 23) < 2 ^ (e + 24) := by
    calc (2 : ℚ) ^ (t + 23) ≤ m * 2 ^ e := h
      _ < 2 ^ (24 : ℤ) * 2 ^ e := by
        have : (m : ℚ) < 2 ^ (24 : ℤ) := by exact_mod_cast hm
        gcongr
      _ = 2 ^ (e + 24) := by rw [← zpow_add₀ (by norm_num), add_comm]
  have hte : t ≤ e := by
    have := (zpow_lt_zpow_iff_right₀ (by norm_num : (1 : ℚ) < 2)).mp hlt
    omega
  obtain ⟨k, rfl⟩ := Int.le.dest hte
  refine ⟨m * 2 ^ k, ?_⟩
  rw [zpow_add₀ (by norm_num), zpow_natCast]
  push_cast
  ring

/-- The next representable number above `n` is farther than `n / 2 ^ 24`. -/
theorem Representable.gap {z : ℚ} (hz : Representable z) {n : ℕ} (hn : 0 < n) (hn' : n < 2 ^ 24)
    (h : (n : ℚ) < z) : (n : ℚ) + n / 2 ^ 24 < z := by
  have hlog : n.log2 < 24 := (Nat.log2_lt hn.ne').mpr hn'
  obtain ⟨s, hs⟩ : ∃ s, n.log2 + s = 23 := ⟨23 - n.log2, by omega⟩
  have hlow : (2 : ℚ) ^ n.log2 ≤ n := by exact_mod_cast Nat.log2_self_le hn.ne'
  have hhigh : (n : ℚ) < 2 ^ (n.log2 + 1) := by exact_mod_cast Nat.lt_log2_self
  have hexp : (-(s : ℤ) + 23) = (n.log2 : ℕ) := by omega
  have hunit : (2 : ℚ) ^ (-(s : ℤ) + 23) ≤ z := by
    rw [hexp, zpow_natCast]
    exact hlow.trans h.le
  obtain ⟨k, rfl⟩ := hz.exists_units hunit
  -- both are whole numbers of units
  have hpos : (0 : ℚ) < 2 ^ s := by positivity
  have hk : (n * 2 ^ s : ℤ) + 1 ≤ k := by
    rw [zpow_neg, zpow_natCast, ← div_eq_mul_inv, lt_div_iff₀ hpos] at h
    exact_mod_cast h
  have hk' : (n : ℚ) * 2 ^ s + 1 ≤ k := by exact_mod_cast hk
  have hfar : (n : ℚ) * 2 ^ s < 2 ^ 24 := by
    calc (n : ℚ) * 2 ^ s < 2 ^ (n.log2 + 1) * 2 ^ s := by gcongr
      _ = 2 ^ 24 := by rw [← pow_add, show n.log2 + 1 + s = 24 by omega]
  rw [zpow_neg, zpow_natCast, ← div_eq_mul_inv, lt_div_iff₀ hpos, add_mul, div_mul_eq_mul_div]
  have hdiv : (n : ℚ) * 2 ^ s / 2 ^ 24 < 1 := by rwa [div_lt_one (by positivity)]
  linarith

/-- A whole number nearest to `x` is at most as far from it as all others. -/
theorem abs_le_of_half {x : ℚ} {r k : ℤ} (hr : |(r : ℚ) - x| ≤ 1 / 2) :
    |(r : ℚ) - x| ≤ |(k : ℚ) - x| := by
  by_cases hk : k = r
  · rw [hk]
  · have hone : (1 : ℚ) ≤ |(k : ℚ) - r| := by exact_mod_cast Int.one_le_abs (sub_ne_zero.mpr hk)
    have htri := abs_sub_le (k : ℚ) x r
    rw [abs_sub_comm x] at htri
    linarith

/-- **The nearest whole number of units is a nearest number.** -/
theorem nearest_of_half {x : ℚ} {r : ℕ} {t : ℤ} (hlow : 2 ^ 23 ≤ x)
    (hr : |(r : ℚ) - x| ≤ 1 / 2) (hrep : Representable (r * 2 ^ t)) :
    Nearest (x * 2 ^ t) (r * 2 ^ t) where
  representable := hrep
  le z hz := by
    have hpos : (0 : ℚ) < 2 ^ t := by positivity
    have hunits : ∀ k : ℤ, |(r : ℚ) * 2 ^ t - x * 2 ^ t| ≤ |(k : ℚ) * 2 ^ t - x * 2 ^ t| := by
      intro k
      rw [← sub_mul, ← sub_mul, abs_mul, abs_mul]
      have hk : |((r : ℤ) : ℚ) - x| ≤ |(k : ℚ) - x| := abs_le_of_half (by simpa using hr)
      exact mul_le_mul_of_nonneg_right (by simpa using hk) (abs_nonneg _)
    by_cases hz' : (2 : ℚ) ^ (t + 23) ≤ z
    · obtain ⟨k, rfl⟩ := hz.exists_units hz'
      exact hunits k
    · -- below the binade its lower end is nearer
      have hend := hunits (2 ^ 23)
      rw [zpow_add₀ (by norm_num)] at hz'
      refine hend.trans ?_
      push_cast
      have hxt : (2 : ℚ) ^ 23 * 2 ^ t ≤ x * 2 ^ t := by gcongr
      have hzlt : z < (2 : ℚ) ^ 23 * 2 ^ t := by
        rw [not_le] at hz'
        norm_num at hz' ⊢
        linarith
      rw [abs_of_nonpos (by linarith), abs_of_nonpos (by linarith)]
      linarith

/-- The mantissa without residual bits. -/
abbrev ofMantissa (m : ℕ) : ExtendedMantissa := ⟨m, false, false⟩

theorem shift_eq {m : ℕ} {e : ℤ} {a : ℕ}
    (h : Format.binary32.targetExponent (totalExponent m e) = e + a) :
    shiftToTargetExponent Format.binary32 m e .exact = (ofMantissa m >>> a, e + a) := by
  unfold shiftToTargetExponent
  rw [h]
  show (ofMantissa m >>> (e + a - e).toNat, e + ((e + a - e).toNat : ℤ)) = _
  rw [show (e + a - e).toNat = a by omega]

/-- A mantissa of 24 digits needs no shift. -/
theorem shift_normal {m : ℕ} {e : ℤ} (hm : 2 ^ 23 ≤ m) (hm' : m < 2 ^ 24) (he : -149 ≤ e) :
    shiftToTargetExponent Format.binary32 m e .exact = (ofMantissa m, e) := by
  have hlog : m.log2 = 23 := (Nat.log2_eq_iff (by omega)).mpr ⟨hm, hm'⟩
  rw [shift_eq (a := 0)]
  · exact Prod.ext rfl (Int.add_zero e)
  · simp only [Format.targetExponent, totalExponent, Format.mantissaBits, Format.minExponent, hlog]
    omega

/-- A mantissa that rounding has carried over is shifted once. -/
theorem shift_carry {e : ℤ} (he : -149 ≤ e) :
    shiftToTargetExponent Format.binary32 (2 ^ 24) e .exact = (ofMantissa (2 ^ 23), e + 1) := by
  rw [shift_eq (a := 1)]
  · rfl
  · simp only [Format.targetExponent, totalExponent, Format.mantissaBits, Format.minExponent,
      Nat.log2_two_pow]
    omega

/-- A mantissa of at least 24 digits is shifted to 24 digits. -/
theorem shift_long {m a : ℕ} {e : ℤ} (hm : m.log2 = 23 + a) (he : -149 ≤ e + a) :
    shiftToTargetExponent Format.binary32 m e .exact = (ofMantissa m >>> a, e + a) := by
  apply shift_eq
  simp only [Format.targetExponent, totalExponent, Format.mantissaBits, Format.minExponent, hm]
  omega

/-- **Rounding a long mantissa gives a nearest number** in normal form. -/
theorem nearest_round {m a : ℕ} {e : ℤ} (hm : m.log2 = 23 + a) (he : -149 ≤ e + a) :
    ∃ (m' : ℕ) (e' : ℤ) (h : 0 < m'),
      roundWithAccuracy Format.binary32 .positive m e .exact = .finite .positive m' e' h ∧
        2 ^ 23 ≤ m' ∧ m' < 2 ^ 24 ∧ -149 ≤ e' ∧ e' ≤ e + a + 1 ∧
        Nearest (m * 2 ^ e) (m' * 2 ^ e') := by
  have hm0 : m ≠ 0 := by
    rintro rfl
    simp at hm
    omega
  -- the mantissa in units of its last digit kept
  have hx : (m : ℚ) * 2 ^ e = m / 2 ^ a * 2 ^ (e + a) := by
    rw [zpow_add₀ (by norm_num), zpow_natCast]
    field_simp
  have hlow : (2 : ℚ) ^ 23 ≤ m / 2 ^ a := by
    rw [le_div_iff₀ (by positivity), ← pow_add, ← hm]
    exact_mod_cast Nat.log2_self_le hm0
  have hhigh : (m : ℚ) / 2 ^ a < 2 ^ 24 := by
    rw [div_lt_iff₀ (by positivity), ← pow_add, show 24 + a = m.log2 + 1 by omega]
    exact_mod_cast Nat.lt_log2_self
  -- its rounding
  have hfull : Residue (ofMantissa m) m := rfl
  have hres := hfull.shiftRight a
  have hfirst := shift_long hm he
  generalize ofMantissa m >>> a = em at hres hfirst
  obtain ⟨hr, hcases⟩ := hres.rounded
  obtain ⟨hfloor, hceil⟩ := hres.mantissa_le
  have hmant : 2 ^ 23 ≤ em.mantissa ∧ em.mantissa < 2 ^ 24 := by
    constructor
    · have : ((2 ^ 23 : ℕ) : ℚ) < (em.mantissa + 1 : ℕ) := by push_cast; linarith
      exact Nat.lt_succ_iff.mp (by exact_mod_cast this)
    · have : ((em.mantissa : ℕ) : ℚ) < (2 ^ 24 : ℕ) := by push_cast; linarith
      exact_mod_cast this
  by_cases hcarry : em.roundedMantissa = 2 ^ 24
  · refine ⟨2 ^ 23, e + a + 1, by norm_num, ?_, le_rfl, by norm_num, by omega, le_rfl, ?_⟩
    · simp only [roundWithAccuracy, hfirst, hcarry, shift_carry he]
      rfl
    · have hval : ((2 ^ 23 : ℕ) : ℚ) * 2 ^ (e + a + 1) = (2 ^ 24 : ℕ) * 2 ^ (e + a) := by
        rw [zpow_add_one₀ (by norm_num)]
        push_cast
        ring
      rw [hval, hx, ← hcarry]
      refine nearest_of_half hlow hr ⟨1, e + a + 24, by norm_num, ?_⟩
      rw [hcarry, zpow_add₀ (by norm_num) (e + a)]
      push_cast
      norm_num
      ring
  · have hge : 2 ^ 23 ≤ em.roundedMantissa := by omega
    have hlt : em.roundedMantissa < 2 ^ 24 := by omega
    refine ⟨em.roundedMantissa, e + a, by omega, ?_, hge, hlt, he, by omega, ?_⟩
    · simp only [roundWithAccuracy, hfirst, shift_normal hge hlt he]
      rw [dif_neg (by omega)]
    · rw [hx]
      exact nearest_of_half hlow hr ⟨em.roundedMantissa, e + a, hlt, rfl⟩

/-! ## Packing -/

theorem finite_eq {s : Sign} {m m' : ℕ} {e e' : ℤ} {h : 0 < m} {h' : 0 < m'} (hm : m = m')
    (he : e = e') : UnpackedFloat.finite s m e h = .finite s m' e' h' := by
  subst hm he
  rfl

/-- **Normal numbers survive packing.** -/
theorem unpack_pack {m : ℕ} {e : ℤ} {h : 0 < m} (hm : 2 ^ 23 ≤ m) (hm' : m < 2 ^ 24)
    (he : -149 ≤ e) (he' : e ≤ 104) :
    (Float32.Model.pack (.finite .positive m e h)).unpack = .finite .positive m e h := by
  have hlog : m.log2 = 23 := (Nat.log2_eq_iff (by omega)).mpr ⟨hm, hm'⟩
  have hbias : (e + ((Format.binary32.exponentBias : ℕ) : ℤ) + (23 : ℕ)).toNat =
      (e + 150).toNat := by
    congr 1
    simp only [Format.exponentBias]
    omega
  have hpack : UnpackedFloat.pack Format.binary32 (.finite .positive m e h) =
      packComponents Format.binary32 .positive (BitVec.ofNat 8 (e + 150).toNat)
        (BitVec.ofNat 23 m) := by
    simp only [UnpackedFloat.pack, hlog, hbias]
    rw [if_neg (by show ¬ 2 ^ 8 ≤ _; omega), if_pos (by rfl)]
  have hexp : (BitVec.ofNat 8 (e + 150).toNat).toNat = (e + 150).toNat := by
    rw [BitVec.toNat_ofNat]
    omega
  have hne : BitVec.ofNat 8 (e + 150).toNat ≠ -1#8 ∧ BitVec.ofNat 8 (e + 150).toNat ≠ 0#8 := by
    constructor <;> intro heq <;> have hnat := congrArg BitVec.toNat heq <;>
      rw [hexp] at hnat <;> simp at hnat <;> omega
  have hman : (1#1 ++ BitVec.ofNat 23 m).toNat = m := by
    have hlt : m % 2 ^ 23 < 2 ^ 23 := Nat.mod_lt _ (by decide)
    rw [BitVec.toNat_append, BitVec.toNat_ofNat, BitVec.toNat_ofNat,
      ← Nat.shiftLeft_add_eq_or_of_lt hlt, Nat.shiftLeft_eq]
    omega
  unfold Float32.Model.unpack Float32.Model.pack
  simp only [hpack, UnpackedFloat.unpack, unpackMantissa_packComponents,
    unpackExponent_packComponents, unpackSign_packComponents]
  rw [if_neg hne.1, if_neg hne.2]
  refine finite_eq hman ?_
  simp only [hexp, Format.exponentBias]
  omega

/-! ## Values -/

/-- `f` is the zero or the positive normal number of value `x`. -/
inductive Denotes (f : Float32) : ℚ → Prop where
  | zero : f.toModel.unpack = .zero .positive → Denotes f 0
  | normal {m : ℕ} {e : ℤ} {h : 0 < m} : f.toModel.unpack = .finite .positive m e h → 2 ^ 23 ≤ m →
      m < 2 ^ 24 → Denotes f (m * 2 ^ e)

/-- Normal numbers are compared by their exponents, then by their mantissas. -/
theorem compare_normal {m n : ℕ} {e k : ℤ} (hm : 2 ^ 23 ≤ m) (hm' : m < 2 ^ 24) (hn : 2 ^ 23 ≤ n)
    (hn' : n < 2 ^ 24) :
    (compare e k).then (compare m n) = compare ((m : ℚ) * 2 ^ e) (n * 2 ^ k) := by
  have hlt : ∀ {m n : ℕ} {e k : ℤ}, m < 2 ^ 24 → 2 ^ 23 ≤ n → e < k →
      (m : ℚ) * 2 ^ e < n * 2 ^ k := by
    intro m n e k hm hn hek
    have hpow : (2 : ℚ) ^ (e + 1) ≤ 2 ^ k := zpow_le_zpow_right₀ (by norm_num) hek
    have hm2 : (m : ℚ) < 2 ^ 24 := by exact_mod_cast hm
    have hn2 : (2 : ℚ) ^ 23 ≤ n := by exact_mod_cast hn
    have hpos : (0 : ℚ) < 2 ^ e := by positivity
    calc (m : ℚ) * 2 ^ e < 2 ^ 24 * 2 ^ e := by gcongr
      _ = 2 ^ 23 * 2 ^ (e + 1) := by rw [zpow_add_one₀ (by norm_num)]; ring
      _ ≤ n * 2 ^ k := by gcongr
  rcases lt_trichotomy e k with h | rfl | h
  · rw [compare_lt_iff_lt.mpr h, compare_lt_iff_lt.mpr (hlt hm' hn h)]
    rfl
  · have hpos : (0 : ℚ) < 2 ^ e := by positivity
    rw [compare_eq_iff_eq.mpr rfl]
    rcases lt_trichotomy m n with h | rfl | h
    · have hq : (m : ℚ) < n := by exact_mod_cast h
      rw [compare_lt_iff_lt.mpr h, compare_lt_iff_lt.mpr (by gcongr)]
      rfl
    · rw [compare_eq_iff_eq.mpr rfl, compare_eq_iff_eq.mpr rfl]
      rfl
    · have hq : (n : ℚ) < m := by exact_mod_cast h
      rw [compare_gt_iff_gt.mpr h, compare_gt_iff_gt.mpr (by show _ < _; gcongr)]
      rfl
  · rw [compare_gt_iff_gt.mpr h, compare_gt_iff_gt.mpr (hlt hn' hm h)]
    rfl

namespace Denotes

variable {f g : Float32} {x y : ℚ}

/-- **Comparison is that of the values.** -/
theorem compare (hf : Denotes f x) (hg : Denotes g y) :
    f.toModel.unpack.compare g.toModel.unpack = some (Ord.compare x y) := by
  cases hf with
  | zero hf =>
    cases hg with
    | zero hg => rw [hf, hg, compare_eq_iff_eq.mpr rfl]; rfl
    | @normal m e h hg hm _ =>
      have hpos : (0 : ℚ) < m * 2 ^ e := by positivity
      rw [hf, hg, compare_lt_iff_lt.mpr hpos]
      rfl
  | @normal m e h hf hm hm' =>
    cases hg with
    | zero hg =>
      have hpos : (0 : ℚ) < m * 2 ^ e := by positivity
      rw [hf, hg, compare_gt_iff_gt.mpr hpos]
      rfl
    | @normal n k h' hg hn hn' =>
      rw [hf, hg, ← compare_normal hm hm' hn hn']
      rfl

theorem lt_iff (hf : Denotes f x) (hg : Denotes g y) : f < g ↔ x < y := by
  have hlt : f < g ↔ (f.toModel.unpack.compare g.toModel.unpack == some .lt) = true := by
    show (decide (f.toModel < g.toModel)) = true ↔ _
    rw [decide_eq_true_iff]
    rfl
  rw [hlt, hf.compare hg, beq_iff_eq, Option.some.injEq, compare_lt_iff_lt]

theorem le_iff (hf : Denotes f x) (hg : Denotes g y) : f ≤ g ↔ x ≤ y := by
  have hle : f ≤ g ↔ (f.toModel.unpack.compare g.toModel.unpack).any (·.isLE) = true := by
    show (decide (f.toModel ≤ g.toModel)) = true ↔ _
    rw [decide_eq_true_iff]
    rfl
  rw [hle, hf.compare hg, Option.any_some, ← Ordering.ne_gt_iff_isLE]
  exact compare_le_iff_le

end Denotes

/-! ## Conversion and multiplication -/

theorem denotes_pack {f : Float32} {m : ℕ} {e : ℤ} {h : 0 < m}
    (hf : f.toModel = .pack (.finite .positive m e h)) (hm : 2 ^ 23 ≤ m) (hm' : m < 2 ^ 24)
    (he : -149 ≤ e) (he' : e ≤ 104) : Denotes f (m * 2 ^ e) :=
  .normal (by rw [hf, unpack_pack hm hm' he he']) hm hm'

/-- A positive number has a first digit. -/
theorem log2_bounds {m : ℕ} (hm : 0 < m) (e : ℤ) :
    (2 : ℚ) ^ (m.log2 + e) ≤ m * 2 ^ e ∧ (m : ℚ) * 2 ^ e < 2 ^ (m.log2 + e + 1) := by
  have hpos : (0 : ℚ) < 2 ^ e := by positivity
  have hlow : (2 : ℚ) ^ m.log2 ≤ m := by exact_mod_cast Nat.log2_self_le hm.ne'
  have hhigh : (m : ℚ) < 2 ^ (m.log2 + 1) := by exact_mod_cast Nat.lt_log2_self
  rw [show (m.log2 + e + 1 : ℤ) = (m.log2 + 1 : ℕ) + e by push_cast; ring,
    zpow_add₀ (by norm_num), zpow_add₀ (by norm_num), zpow_natCast, zpow_natCast]
  exact ⟨by gcongr, by gcongr⟩

/-- **An integer is converted to a nearest number.** -/
theorem denotes_natCast (n : UInt64) : ∃ v, Denotes n.toFloat32 v ∧ Nearest n.toNat v := by
  have hpack : n.toFloat32.toModel =
      .pack (UnpackedFloat.normalize Format.binary32 (n.toNat : ℤ) 0 .positive) := rfl
  rcases Nat.eq_zero_or_pos n.toNat with h0 | hpos
  · rw [h0] at hpack ⊢
    refine ⟨0, .zero (by rw [hpack]; rfl), ?_⟩
    have hrep : Representable 0 := by simpa using representable_natCast (n := 0) (by norm_num)
    exact ⟨hrep, fun z _ => by simp⟩
  · -- the number with at least 24 digits
    have hlt : n.toNat.log2 < 64 := (Nat.log2_lt hpos.ne').mpr n.toNat_lt
    have hround : UnpackedFloat.normalize Format.binary32 (n.toNat : ℤ) 0 .positive =
        roundWithAccuracy Format.binary32 .positive (n.toNat <<< (23 - n.toNat.log2))
          (-(23 - n.toNat.log2 : ℕ)) .exact := by
      have hcmp : Ord.compare (n.toNat : ℤ) 0 = .gt :=
        compare_gt_iff_gt.mpr (by exact_mod_cast hpos)
      have htarget : Format.binary32.targetExponent (totalExponent n.toNat 0) =
          n.toNat.log2 - 23 := by
        simp only [Format.targetExponent, totalExponent, Format.mantissaBits, Format.minExponent]
        omega
      have hamount : (0 - (n.toNat.log2 - 23 : ℤ)).toNat = 23 - n.toNat.log2 := by omega
      simp only [UnpackedFloat.normalize, hcmp, UnpackedFloat.round, Int.toNat_natCast, htarget,
        decreaseExponent, hamount]
      congr 1
      omega
    generalize hs : 23 - n.toNat.log2 = s at hround
    have hlog : (n.toNat <<< s).log2 = 23 + (n.toNat.log2 + s - 23) := by
      have hmul : n.toNat <<< s = n.toNat * 2 ^ s := Nat.shiftLeft_eq ..
      have h : (n.toNat <<< s).log2 = n.toNat.log2 + s := by
        rw [hmul, Nat.log2_eq_iff (by positivity), pow_add, add_right_comm, pow_add _ _ s]
        have h1 := Nat.log2_self_le hpos.ne'
        have h2 := Nat.lt_log2_self (n := n.toNat)
        exact ⟨Nat.mul_le_mul_right _ h1, Nat.mul_lt_mul_of_pos_right h2 (by positivity)⟩
      omega
    obtain ⟨m, e, h, hr, hm, hm', he, he', hnear⟩ :=
      nearest_round (e := -(s : ℤ)) hlog (by omega)
    have hval : ((n.toNat <<< s : ℕ) : ℚ) * 2 ^ (-(s : ℤ)) = n.toNat := by
      rw [Nat.shiftLeft_eq, zpow_neg, zpow_natCast]
      push_cast
      field_simp
    rw [hround, hr] at hpack
    exact ⟨m * 2 ^ e, denotes_pack hpack hm hm' he (by omega), hval ▸ hnear⟩

/-- **The product of two numbers is a nearest number**, as long as it is of normal size. -/
theorem Denotes.mul {f g : Float32} {x y : ℚ} (hf : Denotes f x) (hg : Denotes g y)
    (hlow : x * y = 0 ∨ 2 ^ (-100 : ℤ) ≤ x * y) (hhigh : x * y < 2 ^ (100 : ℤ)) :
    ∃ v, Denotes (f * g) v ∧ Nearest (x * y) v := by
  have hpack : (f * g).toModel =
      .pack (UnpackedFloat.mul Format.binary32 f.toModel.unpack g.toModel.unpack) := rfl
  have hzero : ∀ {u : Float32}, u.toModel = .pack (.zero .positive) →
      ∃ v, Denotes u v ∧ Nearest 0 v := by
    intro u hu
    have hrep : Representable 0 := by simpa using representable_natCast (n := 0) (by norm_num)
    exact ⟨0, .zero (by rw [hu]; rfl), hrep, fun z _ => by simp⟩
  cases hf with
  | zero hf =>
    rw [zero_mul]
    cases hg with
    | zero hg => exact hzero (by rw [hpack, hf, hg]; rfl)
    | normal hg => exact hzero (by rw [hpack, hf, hg]; rfl)
  | @normal m e h hf hm hm' =>
    cases hg with
    | zero hg =>
      rw [mul_zero]
      exact hzero (by rw [hpack, hf, hg]; rfl)
    | @normal n k h' hg hn hn' =>
      have hpos : 0 < m * n := Nat.mul_pos h h'
      have hxy : (m : ℚ) * 2 ^ e * (n * 2 ^ k) = (m * n : ℕ) * 2 ^ (e + k) := by
        rw [zpow_add₀ (by norm_num)]
        push_cast
        ring
      rw [hxy] at hlow hhigh ⊢
      obtain ⟨hb, hb'⟩ := log2_bounds hpos (e + k)
      have hlog : 46 ≤ (m * n).log2 := by
        rw [Nat.le_log2 hpos.ne']
        calc 2 ^ 46 = 2 ^ 23 * 2 ^ 23 := by norm_num
          _ ≤ m * n := Nat.mul_le_mul hm hn
      have hne : ((m * n : ℕ) : ℚ) * 2 ^ (e + k) ≠ 0 := by positivity
      have he := (zpow_lt_zpow_iff_right₀ (by norm_num : (1 : ℚ) < 2)).mp
        ((hlow.resolve_left hne).trans_lt hb')
      have he' := (zpow_lt_zpow_iff_right₀ (by norm_num : (1 : ℚ) < 2)).mp (hb.trans_lt hhigh)
      obtain ⟨r, q, hr0, hr, hr23, hr24, hq, hq', hnear⟩ :=
        nearest_round (m := m * n) (a := (m * n).log2 - 23) (e := e + k) (by omega) (by omega)
      have hmul : UnpackedFloat.mul Format.binary32 f.toModel.unpack g.toModel.unpack =
          .finite .positive r q hr0 := by
        rw [hf, hg, ← hr]
        rfl
      rw [hmul] at hpack
      exact ⟨r * 2 ^ q, denotes_pack hpack hr23 hr24 hq (by omega), hnear⟩

end AccountabilityGadget.Binary32
