import Mathlib.Order.Monotone.Basic
import Mathlib.Tactic.Positivity
import TripleStore.Numeral.Binary
import TripleStore.Proofs.Numeral.Decimal

/-!
# What bit patterns stand for

A magnitude in bits stands for a rational number or for infinity, and greater bits stand for
greater numbers. So the bits of a sign and a magnitude, which are the same for both zeros, tell the
numbers apart and nothing else; the pattern of what is no number is the pattern of no number.
-/

namespace TripleStore.Numeral

namespace BinaryFormat

variable {f : BinaryFormat}

/-! ### Magnitudes -/

def value (f : BinaryFormat) (bits : Nat) : ℚ := (f.magnitude bits).1 / (f.magnitude bits).2

/-- The magnitudes below this one have no exponent. -/
def unit (f : BinaryFormat) : Nat := 2 ^ (f.precision - 1)

theorem unit_pos (f : BinaryFormat) : 0 < f.unit := Nat.two_pow_pos _

theorem magnitude_of_lt {bits : Nat} (h : bits < f.unit) : (f.magnitude bits).1 = bits := by
  have hzero : bits / f.unit = 0 := Nat.div_eq_of_lt h
  simp only [unit] at hzero
  simp [magnitude, Nat.shiftLeft_eq, hzero]

/-- With an exponent, the significand has a leading digit that the bits do not write. -/
theorem magnitude_of_exponent (e : Nat) {r : Nat} (h : r < f.unit) :
    (f.magnitude ((e + 1) * f.unit + r)).1 = (r + f.unit) * 2 ^ e := by
  have hdiv : ((e + 1) * f.unit + r) / f.unit = e + 1 := by
    rw [Nat.add_comm, Nat.add_mul_div_right _ _ f.unit_pos, Nat.div_eq_of_lt h, Nat.zero_add]
  have hmod : ((e + 1) * f.unit + r) % f.unit = r := by
    rw [Nat.add_comm, Nat.add_mul_mod_self_right, Nat.mod_eq_of_lt h]
  simp only [unit] at hdiv hmod ⊢
  simp [magnitude, Nat.shiftLeft_eq, hdiv, hmod]

theorem magnitude_lt_succ (f : BinaryFormat) (bits : Nat) :
    (f.magnitude bits).1 < (f.magnitude (bits + 1)).1 := by
  have hr : bits % f.unit < f.unit := Nat.mod_lt _ f.unit_pos
  have hbits : bits / f.unit * f.unit + bits % f.unit = bits := Nat.div_add_mod' bits f.unit
  rcases Nat.lt_or_ge (bits % f.unit + 1) f.unit with hroom | hfull
  · -- the next magnitude has the same exponent
    cases he : bits / f.unit with
    | zero =>
      rw [he] at hbits
      rw [magnitude_of_lt (by omega), magnitude_of_lt (by omega)]
      omega
    | succ e =>
      rw [he] at hbits
      rw [← hbits, magnitude_of_exponent e hr, Nat.add_assoc, magnitude_of_exponent e hroom]
      exact Nat.mul_lt_mul_of_pos_right (by omega) (Nat.two_pow_pos e)
  · -- the next magnitude is the first one of the next exponent
    have hlast : bits % f.unit = f.unit - 1 := by omega
    have hnext : bits + 1 = (bits / f.unit + 1) * f.unit + 0 := by
      rw [Nat.add_mul]
      omega
    rw [hnext, magnitude_of_exponent _ f.unit_pos]
    cases he : bits / f.unit with
    | zero =>
      rw [he] at hbits
      rw [magnitude_of_lt (by omega)]
      simp
      omega
    | succ e =>
      rw [he] at hbits
      rw [← hbits, magnitude_of_exponent e hr, pow_succ, Nat.zero_add, Nat.mul_comm (2 ^ e) 2,
        ← Nat.mul_assoc]
      exact Nat.mul_lt_mul_of_pos_right (by omega) (Nat.two_pow_pos e)

theorem magnitude_strictMono (f : BinaryFormat) : StrictMono fun bits => (f.magnitude bits).1 :=
  strictMono_nat_of_lt_succ f.magnitude_lt_succ

theorem value_eq (f : BinaryFormat) (bits : Nat) :
    f.value bits = (f.magnitude bits).1 / 2 ^ f.places := by
  simp [value, magnitude, Nat.shiftLeft_eq]

theorem value_nonneg (f : BinaryFormat) (bits : Nat) : 0 ≤ f.value bits := by
  rw [value_eq]
  positivity

theorem value_inj {m n : Nat} : f.value m = f.value n ↔ m = n := by
  have hscale : (2 : ℚ) ^ f.places ≠ 0 := by positivity
  rw [value_eq, value_eq, div_left_inj' hscale, Nat.cast_inj]
  exact f.magnitude_strictMono.injective.eq_iff

@[simp] theorem value_zero (f : BinaryFormat) : f.value 0 = 0 := by
  rw [value_eq, magnitude_of_lt f.unit_pos, Nat.cast_zero, zero_div]

/-! ### No magnitude passes infinity -/

theorem round_le (f : BinaryFormat) (n d : Nat) : f.round n d ≤ f.infinity := by
  unfold round
  split
  · exact Nat.zero_le _
  · exact Nat.min_le_right _ _

theorem ofScientific_le (s : Scientific) : ofScientific s ≤ double.infinity := by
  unfold ofScientific
  split_ifs
  · exact Nat.zero_le _
  · exact le_rfl
  · exact Nat.zero_le _
  · exact round_le _ _ _
  · exact round_le _ _ _

theorem narrow_le (bits : Nat) : narrow bits ≤ single.infinity := by
  unfold narrow
  split
  · exact le_rfl
  · exact round_le _ _ _

end BinaryFormat

/-! ### Signs -/

/-- What a floating-point literal stands for. -/
inductive FloatValue where
  | nan
  | infinite (negative : Bool)
  | finite (q : ℚ)

namespace FloatValue

variable {f : BinaryFormat} {s t : Bool} {m n : Nat}

def ofBits (f : BinaryFormat) (negative : Bool) (magnitude : Nat) : FloatValue :=
  if magnitude = f.infinity then .infinite negative
  else .finite (withSign negative (f.value magnitude))

theorem withSign_eq_iff {q r : ℚ} (hq : 0 ≤ q) (hr : 0 ≤ r) :
    withSign s q = withSign t r ↔ q = r ∧ (s = t ∨ q = 0) := by
  constructor
  · intro h
    cases s <;> cases t <;> simp only [withSign, Bool.false_eq_true, if_true, if_false] at h
    · exact ⟨h, .inl rfl⟩
    · exact ⟨by linarith, .inr (by linarith)⟩
    · exact ⟨by linarith, .inr (by linarith)⟩
    · exact ⟨neg_injective h, .inl rfl⟩
  · rintro ⟨rfl, rfl | rfl⟩
    · rfl
    · simp [withSign]

/-- A sign counts for every magnitude but zero. -/
theorem ofBits_eq_iff (hf : 0 < f.infinity) :
    ofBits f s m = ofBits f t n ↔ m = n ∧ (s = t ∨ m = 0) := by
  by_cases hm : m = f.infinity <;> by_cases hn : n = f.infinity
  · have hne : f.infinity ≠ 0 := hf.ne'
    subst hm
    simp [ofBits, hn, hne]
  · have hne : m ≠ n := by omega
    simp only [ofBits, if_pos hm, if_neg hn, reduceCtorEq, hne, false_and]
  · have hne : m ≠ n := by omega
    simp only [ofBits, if_neg hm, if_pos hn, reduceCtorEq, hne, false_and]
  · have hzero : f.value m = 0 ↔ m = 0 := by rw [← f.value_zero, BinaryFormat.value_inj]
    simp only [ofBits, if_neg hm, if_neg hn, finite.injEq,
      withSign_eq_iff (f.value_nonneg m) (f.value_nonneg n), BinaryFormat.value_inj, hzero]

end FloatValue

/-! ### Patterns -/

namespace Floating

variable {f : BinaryFormat} {s t : Bool} {m n : Nat}

theorem pack_eq_iff (hm : m ≤ f.infinity) (hn : n ≤ f.infinity) (hf : f.infinity < f.sign) :
    pack f s m = pack f t n ↔ m = n ∧ (s = t ∨ m = 0) := by
  unfold pack
  cases s <;> cases t <;> grind

/-- No pattern of a number lies between infinity and the first one with a sign. -/
theorem pack_ne_of_between {bits : Nat} (hm : m ≤ f.infinity) (hlow : f.infinity < bits)
    (hhigh : bits < f.sign) : pack f s m ≠ bits := by
  unfold pack
  grind

theorem pack_le (hm : m ≤ f.infinity) : pack f s m ≤ f.sign + f.infinity := by
  unfold pack
  grind

def value : Floating → FloatValue
  | .nan => .nan
  | .number negative magnitude => .ofBits .double negative magnitude

def narrowed : Floating → FloatValue
  | .nan => .nan
  | .number negative magnitude => .ofBits .single negative (BinaryFormat.narrow magnitude)

def Fits : Floating → Prop
  | .nan => True
  | .number _ magnitude => magnitude ≤ BinaryFormat.double.infinity

theorem toNat_doubleBits (h : m ≤ BinaryFormat.double.infinity) :
    (doubleBits (.number s m)).toNat = pack .double s m := by
  have hle := pack_le (s := s) h
  have hlt : pack .double s m < 2 ^ 64 := lt_of_le_of_lt hle (by decide)
  simpa [doubleBits] using Nat.mod_eq_of_lt hlt

theorem toNat_singleBits (s : Bool) (m : Nat) :
    (singleBits (.number s m)).toNat = pack .single s (BinaryFormat.narrow m) := by
  have hle := pack_le (s := s) (BinaryFormat.narrow_le m)
  have hlt : pack .single s (BinaryFormat.narrow m) < 2 ^ 32 := lt_of_le_of_lt hle (by decide)
  simpa [singleBits] using Nat.mod_eq_of_lt hlt

theorem doubleBits_ne_nan (h : m ≤ BinaryFormat.double.infinity) :
    doubleBits (.number s m) ≠ doubleBits .nan := by
  rw [← UInt64.toNat_inj.ne, toNat_doubleBits h]
  exact pack_ne_of_between h (by decide) (by decide)

theorem singleBits_ne_nan (s : Bool) (m : Nat) : singleBits (.number s m) ≠ singleBits .nan := by
  rw [← UInt32.toNat_inj.ne, toNat_singleBits]
  exact pack_ne_of_between (BinaryFormat.narrow_le m) (by decide) (by decide)

theorem ofBits_ne_nan (f : BinaryFormat) (s : Bool) (m : Nat) :
    FloatValue.ofBits f s m ≠ .nan := by
  unfold FloatValue.ofBits
  split <;> simp

/-- Two results of reading have the same bits in 64 bits exactly if they have the same value. -/
theorem doubleBits_eq_iff {v w : Floating} (hv : v.Fits) (hw : w.Fits) :
    v.doubleBits = w.doubleBits ↔ v.value = w.value := by
  cases v with
  | nan =>
    cases w with
    | nan => exact iff_of_true rfl rfl
    | number t n => exact iff_of_false (doubleBits_ne_nan hw).symm (ofBits_ne_nan _ t n).symm
  | number s m =>
    cases w with
    | nan => exact iff_of_false (doubleBits_ne_nan hv) (ofBits_ne_nan _ s m)
    | number t n =>
      rw [← UInt64.toNat_inj, toNat_doubleBits hv, toNat_doubleBits hw,
        pack_eq_iff hv hw (by decide)]
      exact (FloatValue.ofBits_eq_iff (by decide)).symm

/-- In 32 bits it is the rounded values that have to be the same. -/
theorem singleBits_eq_iff (v w : Floating) :
    v.singleBits = w.singleBits ↔ v.narrowed = w.narrowed := by
  cases v with
  | nan =>
    cases w with
    | nan => exact iff_of_true rfl rfl
    | number t n => exact iff_of_false (singleBits_ne_nan t n).symm (ofBits_ne_nan _ t _).symm
  | number s m =>
    cases w with
    | nan => exact iff_of_false (singleBits_ne_nan s m) (ofBits_ne_nan _ s _)
    | number t n =>
      rw [← UInt32.toNat_inj, toNat_singleBits, toNat_singleBits,
        pack_eq_iff (BinaryFormat.narrow_le m) (BinaryFormat.narrow_le n) (by decide)]
      exact (FloatValue.ofBits_eq_iff (by decide)).symm

theorem read?_fits {cs : List Char} {v : Floating} (h : read? cs = some v) : v.Fits := by
  unfold read? at h
  split_ifs at h
  · obtain rfl := Option.some.inj h
    exact le_rfl
  · obtain rfl := Option.some.inj h
    exact le_rfl
  · obtain rfl := Option.some.inj h
    exact trivial
  · obtain ⟨n, -, rfl⟩ := Option.map_eq_some_iff.1 h
    exact BinaryFormat.ofScientific_le n

end Floating

end TripleStore.Numeral
