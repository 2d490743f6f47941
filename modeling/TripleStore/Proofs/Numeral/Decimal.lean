import Mathlib.Algebra.Order.Field.Rat
import Mathlib.Data.List.Induction
import Mathlib.Data.List.TakeWhile
import Mathlib.Data.Nat.Digits.Defs
import Mathlib.Tactic.Linarith
import TripleStore.Numeral.Decimal

/-!
# What decimal numerals denote

`Denotes` is the reading of a numeral that a grammar gives: each digit before the point counts ten
times the next one, each digit behind it a tenth of the one before. `decimal?` reads exactly the
numerals that denote a number. What it keeps of them, without the needless zeros, denotes the same
number, and one number with a fraction has one such form: so the texts of two of them are equal
exactly if the numbers are.
-/

namespace TripleStore.Numeral

/-! ### What a numeral denotes -/

/-- The number that the digits behind a point stand for. -/
def fractionValue : List Char → ℚ
  | [] => 0
  | c :: cs => (((c.toNat - '0'.toNat : Nat) : ℚ) + fractionValue cs) / 10

/-- A numeral without a sign: digits, and perhaps a point among them or at either end. -/
inductive DenotesMagnitude : List Char → ℚ → Prop where
  | whole {ds : List Char} (hne : ds ≠ []) (hds : ∀ c ∈ ds, c.isDigit) :
      DenotesMagnitude ds (digitsValue ds)
  | pointed {ds fs : List Char} (hne : ds ++ fs ≠ []) (hds : ∀ c ∈ ds, c.isDigit)
      (hfs : ∀ c ∈ fs, c.isDigit) :
      DenotesMagnitude (ds ++ '.' :: fs) (digitsValue ds + fractionValue fs)

/-- A decimal numeral, signed or not, with the number it denotes. -/
inductive Denotes : List Char → ℚ → Prop where
  | unsigned {cs : List Char} {q : ℚ} (h : DenotesMagnitude cs q) : Denotes cs q
  | plus {cs : List Char} {q : ℚ} (h : DenotesMagnitude cs q) : Denotes ('+' :: cs) q
  | minus {cs : List Char} {q : ℚ} (h : DenotesMagnitude cs q) : Denotes ('-' :: cs) (-q)

/-! ### Needless zeros -/

theorem digitsValue_trimZeros (ds : List Char) : digitsValue (trimZeros ds) = digitsValue ds := by
  induction ds with
  | nil => rfl
  | cons c ds ih =>
    rw [trimZeros, List.dropWhile_cons]
    split
    next hc =>
      obtain rfl : c = '0' := by simpa using hc
      exact ih
    next => rfl

theorem fractionValue_concat_zero (fs : List Char) :
    fractionValue (fs ++ ['0']) = fractionValue fs := by
  induction fs with
  | nil => simp [fractionValue]
  | cons c fs ih => rw [List.cons_append, fractionValue, ih, fractionValue]

theorem fractionValue_trimZeros (fs : List Char) :
    fractionValue (trimZeros fs.reverse).reverse = fractionValue fs := by
  induction fs using List.reverseRecOn with
  | nil => rfl
  | append_singleton fs c ih =>
    rw [List.reverse_append, List.reverse_singleton, List.singleton_append, trimZeros,
      List.dropWhile_cons]
    split
    next hc =>
      obtain rfl : c = '0' := by simpa using hc
      rw [fractionValue_concat_zero]
      exact ih
    next => rw [List.reverse_cons, List.reverse_reverse]

theorem head?_trimZeros (ds : List Char) : (trimZeros ds).head? ≠ some '0' := by
  intro h
  have hzero := List.head?_dropWhile_not (· == '0') ds
  rw [show (ds.dropWhile (· == '0')).head? = some '0' from h] at hzero
  cases hzero

theorem mem_of_mem_trimZeros {ds : List Char} {c : Char} (h : c ∈ trimZeros ds) : c ∈ ds :=
  (List.dropWhile_sublist _).mem h

/-! ### Digits are told by the number -/

theorem toNat_of_isDigit {c : Char} (h : c.isDigit) : 48 ≤ c.toNat ∧ c.toNat ≤ 57 := by
  rw [Char.isDigit, Bool.and_eq_true, decide_eq_true_eq, decide_eq_true_eq] at h
  exact ⟨UInt32.le_iff_toNat_le.1 h.1, UInt32.le_iff_toNat_le.1 h.2⟩

theorem eq_of_digit_eq {c d : Char} (hc : c.isDigit) (hd : d.isDigit)
    (h : c.toNat - '0'.toNat = d.toNat - '0'.toNat) : c = d := by
  have hzero : '0'.toNat = 48 := rfl
  have hc := toNat_of_isDigit hc
  have hd := toNat_of_isDigit hd
  exact Char.toNat_inj.1 (by omega)

theorem eq_zero_of_digit_eq {c : Char} (hc : c.isDigit) (h : c.toNat - '0'.toNat = 0) : c = '0' :=
  eq_of_digit_eq hc rfl h

theorem digitsValue_eq_ofDigits (ds : List Char) :
    digitsValue ds = Nat.ofDigits 10 (ds.map fun c => c.toNat - '0'.toNat).reverse := by
  rw [Nat.ofDigits_eq_foldr, List.foldr_reverse, List.foldl_map, digitsValue]
  simp only [Nat.cast_id, Nat.add_comm]

/-- The digits of a number, the last one first, are those of its numeral without zeros in front. -/
theorem digits_digitsValue {ds : List Char} (hds : ∀ c ∈ ds, c.isDigit)
    (hhead : ds.head? ≠ some '0') :
    Nat.digits 10 (digitsValue ds) = (ds.map fun c => c.toNat - '0'.toNat).reverse := by
  rw [digitsValue_eq_ofDigits]
  refine Nat.digits_ofDigits 10 (by decide) _ (fun n hn => ?_) fun hne hzero => hhead ?_
  · obtain ⟨c, hc, rfl⟩ := List.mem_map.1 (List.mem_reverse.1 hn)
    have hrange := toNat_of_isDigit (hds c hc)
    have hzero : '0'.toNat = 48 := rfl
    omega
  · cases ds with
    | nil => exact absurd rfl hne
    | cons c ds =>
      have hlast : c.toNat - '0'.toNat = 0 := by simpa using hzero
      rw [List.head?_cons, eq_zero_of_digit_eq (hds c List.mem_cons_self) hlast]

theorem eq_of_digits_eq {ds es : List Char} (hds : ∀ c ∈ ds, c.isDigit)
    (hes : ∀ c ∈ es, c.isDigit)
    (h : ds.map (fun c => c.toNat - '0'.toNat) = es.map fun c => c.toNat - '0'.toNat) :
    ds = es := by
  induction ds generalizing es with
  | nil => exact (List.map_eq_nil_iff.1 h.symm).symm
  | cons c ds ih =>
    cases es with
    | nil => cases h
    | cons d es =>
      obtain ⟨hdigit, hrest⟩ := List.cons.inj h
      rw [List.forall_mem_cons] at hds hes
      rw [eq_of_digit_eq hds.1 hes.1 hdigit, ih hds.2 hes.2 hrest]

theorem digitsValue_inj {ds es : List Char} (hds : ∀ c ∈ ds, c.isDigit)
    (hes : ∀ c ∈ es, c.isDigit) (hd : ds.head? ≠ some '0') (he : es.head? ≠ some '0')
    (h : digitsValue ds = digitsValue es) : ds = es := by
  have hdigits := digits_digitsValue hds hd
  rw [h, digits_digitsValue hes he, List.reverse_inj] at hdigits
  exact (eq_of_digits_eq hes hds hdigits).symm

/-- A number is told by its whole part and what is left of it below one. -/
theorem eq_of_natCast_add_eq {m n : Nat} {q r : ℚ} (hq : 0 ≤ q ∧ q < 1) (hr : 0 ≤ r ∧ r < 1)
    (h : m + q = n + r) : m = n ∧ q = r := by
  have hmn : (m : ℚ) < n + 1 := by linarith
  have hnm : (n : ℚ) < m + 1 := by linarith
  obtain rfl : m = n := by
    have hmn : m < n + 1 := by exact_mod_cast hmn
    have hnm : n < m + 1 := by exact_mod_cast hnm
    omega
  exact ⟨rfl, by linarith⟩

theorem fractionValue_range {fs : List Char} (hfs : ∀ c ∈ fs, c.isDigit) :
    0 ≤ fractionValue fs ∧ fractionValue fs < 1 := by
  induction fs with
  | nil => exact ⟨le_rfl, one_pos⟩
  | cons c fs ih =>
    rw [List.forall_mem_cons] at hfs
    obtain ⟨hnonneg, hlt⟩ := ih hfs.2
    have hdigit : ((c.toNat - '0'.toNat : Nat) : ℚ) ≤ 9 := by
      have hrange := toNat_of_isDigit hfs.1
      have hzero : '0'.toNat = 48 := rfl
      have hle : c.toNat - '0'.toNat ≤ 9 := by omega
      exact_mod_cast hle
    have hcast : (0 : ℚ) ≤ ((c.toNat - '0'.toNat : Nat) : ℚ) := Nat.cast_nonneg _
    rw [fractionValue]
    constructor <;> linarith

theorem getLast?_of_cons {c : Char} {fs : List Char} (h : (c :: fs).getLast? ≠ some '0') :
    fs.getLast? ≠ some '0' := by
  cases fs with
  | nil => nofun
  | cons d fs => rwa [List.getLast?_cons_cons] at h

/-- Digits behind the point that do not end in a zero count for something. -/
theorem fractionValue_pos {fs : List Char} (hfs : ∀ c ∈ fs, c.isDigit)
    (hlast : fs.getLast? ≠ some '0') (hne : fs ≠ []) : 0 < fractionValue fs := by
  induction fs with
  | nil => exact absurd rfl hne
  | cons c fs ih =>
    rw [List.forall_mem_cons] at hfs
    have hcast : (0 : ℚ) ≤ ((c.toNat - '0'.toNat : Nat) : ℚ) := Nat.cast_nonneg _
    rw [fractionValue]
    cases fs with
    | nil =>
      have hdigit : 0 < c.toNat - '0'.toNat := by
        refine Nat.pos_of_ne_zero fun hzero => hlast ?_
        rw [eq_zero_of_digit_eq hfs.1 hzero, List.getLast?_singleton]
      have hcast : (0 : ℚ) < ((c.toNat - '0'.toNat : Nat) : ℚ) := by exact_mod_cast hdigit
      rw [fractionValue]
      linarith
    | cons d fs =>
      have hrest := ih hfs.2 (getLast?_of_cons hlast) nofun
      linarith

theorem fractionValue_inj {fs gs : List Char} (hfs : ∀ c ∈ fs, c.isDigit)
    (hgs : ∀ c ∈ gs, c.isDigit) (hf : fs.getLast? ≠ some '0') (hg : gs.getLast? ≠ some '0')
    (h : fractionValue fs = fractionValue gs) : fs = gs := by
  induction fs generalizing gs with
  | nil =>
    by_contra hne
    exact absurd h (fractionValue_pos hgs hg (Ne.symm hne)).ne
  | cons c fs ih =>
    cases gs with
    | nil => exact absurd h (fractionValue_pos hfs hf nofun).ne'
    | cons d gs =>
      rw [List.forall_mem_cons] at hfs hgs
      rw [fractionValue, fractionValue, div_left_inj' (by norm_num)] at h
      obtain ⟨hdigit, hrest⟩ := eq_of_natCast_add_eq (fractionValue_range hfs.2)
        (fractionValue_range hgs.2) h
      rw [eq_of_digit_eq hfs.1 hgs.1 hdigit,
        ih hfs.2 hgs.2 (getLast?_of_cons hf) (getLast?_of_cons hg) hrest]

/-! ### Numerals without a sign -/

def wholePart (body : List Char) : List Char := body.takeWhile (· != '.')

def fractionPart (body : List Char) : List Char := (body.dropWhile (· != '.')).drop 1

theorem ne_point_of_digits {ds : List Char} (hds : ∀ c ∈ ds, c.isDigit) :
    ∀ c ∈ ds, (c != '.') = true := by
  intro c hc
  rw [bne_iff_ne]
  rintro rfl
  simpa using hds _ hc

theorem parts_of_digits {ds : List Char} (hds : ∀ c ∈ ds, c.isDigit) :
    wholePart ds = ds ∧ fractionPart ds = [] := by
  constructor
  · exact List.takeWhile_eq_self_iff.2 (ne_point_of_digits hds)
  · rw [fractionPart, List.dropWhile_eq_nil_iff.2 (ne_point_of_digits hds), List.drop_nil]

theorem parts_of_point {ds : List Char} (hds : ∀ c ∈ ds, c.isDigit) (fs : List Char) :
    wholePart (ds ++ '.' :: fs) = ds ∧ fractionPart (ds ++ '.' :: fs) = fs := by
  constructor
  · rw [wholePart, List.takeWhile_append_of_pos (ne_point_of_digits hds)]
    simp
  · rw [fractionPart, List.dropWhile_append_of_pos (ne_point_of_digits hds)]
    simp

/-- A text without a point is its whole part. -/
theorem eq_parts (body : List Char) :
    (fractionPart body = [] ∧ body = wholePart body) ∨
      body = wholePart body ++ '.' :: fractionPart body := by
  have hbody : wholePart body ++ body.dropWhile (· != '.') = body :=
    List.takeWhile_append_dropWhile
  cases hrest : body.dropWhile (· != '.') with
  | nil =>
    rw [hrest, List.append_nil] at hbody
    exact .inl ⟨by rw [fractionPart, hrest, List.drop_nil], hbody.symm⟩
  | cons c fs =>
    have hpoint : c = '.' := by
      have := List.head_dropWhile_not (p := (· != '.')) (l := body) (by simp [hrest])
      simpa [hrest] using this
    have hfs : fractionPart body = fs := by rw [fractionPart, hrest, List.drop_one, List.tail_cons]
    rw [hrest, hpoint] at hbody
    exact .inr (by rw [hfs, hbody])

theorem denotesMagnitude_iff {body : List Char} {q : ℚ} :
    DenotesMagnitude body q ↔
      wholePart body ++ fractionPart body ≠ [] ∧
        (∀ c ∈ wholePart body ++ fractionPart body, c.isDigit) ∧
        q = digitsValue (wholePart body) + fractionValue (fractionPart body) := by
  constructor
  · rintro (⟨hne, hds⟩ | ⟨hne, hds, hfs⟩)
    · obtain ⟨hwhole, hfraction⟩ := parts_of_digits hds
      rw [hwhole, hfraction, List.append_nil]
      exact ⟨hne, hds, by rw [fractionValue, add_zero]⟩
    · rename_i ds fs
      obtain ⟨hwhole, hfraction⟩ := parts_of_point hds fs
      rw [hwhole, hfraction]
      exact ⟨hne, fun c hc => (List.mem_append.1 hc).elim (hds c) (hfs c), rfl⟩
  · rintro ⟨hne, hdigits, rfl⟩
    have hds : ∀ c ∈ wholePart body, c.isDigit := fun c hc =>
      hdigits c (List.mem_append_left _ hc)
    have hfs : ∀ c ∈ fractionPart body, c.isDigit := fun c hc =>
      hdigits c (List.mem_append_right _ hc)
    rcases eq_parts body with ⟨hnone, hbody⟩ | hbody
    · have hwhole := DenotesMagnitude.whole (by simpa [hnone] using hne) hds
      rw [← hbody] at hwhole
      rw [hnone, ← hbody, fractionValue, add_zero]
      exact hwhole
    · have hpointed := DenotesMagnitude.pointed hne hds hfs
      rwa [← hbody] at hpointed

/-! ### Signs -/

/-- A number under a sign, minus being `true`. -/
def withSign (negative : Bool) (q : ℚ) : ℚ := if negative then -q else q

theorem DenotesMagnitude.splitSign_eq {cs : List Char} {q : ℚ} (h : DenotesMagnitude cs q) :
    splitSign cs = (false, cs) := by
  unfold splitSign
  split
  · next rest =>
    have hall := (denotesMagnitude_iff.1 h).2.1 '-' (by simp [wholePart])
    simp at hall
  · next rest =>
    have hall := (denotesMagnitude_iff.1 h).2.1 '+' (by simp [wholePart])
    simp at hall
  · rfl

theorem denotes_iff_splitSign {cs : List Char} {q : ℚ} :
    Denotes cs q ↔
      ∃ r, DenotesMagnitude (splitSign cs).2 r ∧ q = withSign (splitSign cs).1 r := by
  constructor
  · rintro (h | h | h)
    · exact ⟨q, by rwa [h.splitSign_eq], by rw [h.splitSign_eq]; rfl⟩
    · exact ⟨q, h, rfl⟩
    · exact ⟨_, h, rfl⟩
  · rintro ⟨r, h, rfl⟩
    unfold splitSign at h ⊢
    split at h
    · exact .minus h
    · exact .plus h
    · exact .unsigned h

theorem cast_signed (negative : Bool) (n : Nat) :
    (signed negative n : ℚ) = withSign negative n := by
  cases negative <;> simp [signed, withSign]

theorem digits_iff (ds : List Char) :
    (!ds.isEmpty && ds.all Char.isDigit) = true ↔ ds ≠ [] ∧ ∀ c ∈ ds, c.isDigit := by
  simp

namespace Decimal

def value (d : Decimal) : ℚ := withSign d.negative (digitsValue d.whole + fractionValue d.fraction)

/-- The parts are digits, and neither the whole part starts nor the fraction ends with a zero. -/
structure IsTrimmed (d : Decimal) : Prop where
  whole_digits : ∀ c ∈ d.whole, c.isDigit
  fraction_digits : ∀ c ∈ d.fraction, c.isDigit
  whole_head : d.whole.head? ≠ some '0'
  fraction_last : d.fraction.getLast? ≠ some '0'

end Decimal

/-- What is read of a numeral: its sign and its parts without the needless zeros. -/
theorem decimal?_eq_some_iff {cs : List Char} {d : Decimal} :
    decimal? cs = some d ↔
      (wholePart (splitSign cs).2 ++ fractionPart (splitSign cs).2 ≠ [] ∧
        ∀ c ∈ wholePart (splitSign cs).2 ++ fractionPart (splitSign cs).2, c.isDigit) ∧
      d = ⟨(splitSign cs).1, trimZeros (wholePart (splitSign cs).2),
        (trimZeros (fractionPart (splitSign cs).2).reverse).reverse⟩ := by
  rw [← digits_iff, decimal?]
  obtain ⟨negative, body⟩ := splitSign cs
  dsimp only [wholePart, fractionPart]
  rw [Option.ite_none_right_eq_some, Option.some_inj, eq_comm (a := d)]

/-- A numeral is read exactly if it denotes a number, and as parts that stand for that number. -/
theorem denotes_iff {cs : List Char} {q : ℚ} :
    Denotes cs q ↔ ∃ d, decimal? cs = some d ∧ d.value = q := by
  have hvalue (negative : Bool) (ds fs : List Char) :
      Decimal.value ⟨negative, trimZeros ds, (trimZeros fs.reverse).reverse⟩ =
        withSign negative (digitsValue ds + fractionValue fs) := by
    rw [Decimal.value, digitsValue_trimZeros, fractionValue_trimZeros]
  simp only [denotes_iff_splitSign, denotesMagnitude_iff, decimal?_eq_some_iff]
  constructor
  · rintro ⟨r, ⟨hne, hdigits, rfl⟩, rfl⟩
    exact ⟨_, ⟨⟨hne, hdigits⟩, rfl⟩, hvalue _ _ _⟩
  · rintro ⟨d, ⟨⟨hne, hdigits⟩, rfl⟩, rfl⟩
    exact ⟨_, ⟨hne, hdigits, rfl⟩, hvalue _ _ _⟩

theorem Denotes.unique {cs : List Char} {q r : ℚ} (hq : Denotes cs q) (hr : Denotes cs r) :
    q = r := by
  obtain ⟨d, hd, rfl⟩ := denotes_iff.1 hq
  obtain ⟨e, he, rfl⟩ := denotes_iff.1 hr
  rw [Option.some.inj (hd.symm.trans he)]

theorem decimal?_isTrimmed {cs : List Char} {d : Decimal} (h : decimal? cs = some d) :
    d.IsTrimmed := by
  obtain ⟨⟨-, hdigits⟩, rfl⟩ := decimal?_eq_some_iff.1 h
  refine ⟨fun c hc => ?_, fun c hc => ?_, head?_trimZeros _, ?_⟩
  · exact hdigits c (List.mem_append_left _ (mem_of_mem_trimZeros hc))
  · have hin := mem_of_mem_trimZeros (List.mem_reverse.1 hc)
    exact hdigits c (List.mem_append_right _ (List.mem_reverse.1 hin))
  · rw [List.getLast?_reverse]
    exact head?_trimZeros _

theorem integer?_denotes {cs : List Char} {v : Int} (h : integer? cs = some v) : Denotes cs v := by
  simp only [integer?] at h
  split at h
  · next hds =>
    obtain ⟨hne, hdigits⟩ := (digits_iff _).1 hds
    refine denotes_iff_splitSign.2 ⟨_, .whole hne hdigits, ?_⟩
    rw [← Option.some.inj h, cast_signed]
  · cases h

/-! ### One form for a number -/

theorem withSign_inj {a b : Bool} {q r : ℚ} (hq : 0 < q) (hr : 0 < r)
    (h : withSign a q = withSign b r) : a = b ∧ q = r := by
  cases a <;> cases b <;> simp only [withSign, if_true, Bool.false_eq_true, if_false] at h
  · exact ⟨rfl, h⟩
  · linarith
  · linarith
  · exact ⟨rfl, neg_inj.1 h⟩

namespace Decimal

theorem value_of_fraction_nil {d : Decimal} (h : d.fraction = []) :
    d.value = signed d.negative (digitsValue d.whole) := by
  rw [value, h, fractionValue, add_zero, cast_signed]

namespace IsTrimmed

variable {d e : Decimal}

theorem magnitude_pos (hd : d.IsTrimmed) (h : d.fraction ≠ []) :
    (0 : ℚ) < digitsValue d.whole + fractionValue d.fraction := by
  have hwhole : (0 : ℚ) ≤ digitsValue d.whole := Nat.cast_nonneg _
  have hfraction := fractionValue_pos hd.fraction_digits hd.fraction_last h
  linarith

/-- With a fraction left the number is not whole. -/
theorem fraction_eq_nil_iff (hd : d.IsTrimmed) : d.fraction = [] ↔ ∃ v : Int, d.value = v := by
  refine ⟨fun h => ⟨_, value_of_fraction_nil h⟩, ?_⟩
  rintro ⟨v, hv⟩
  by_contra hne
  have hpos := fractionValue_pos hd.fraction_digits hd.fraction_last hne
  have hlt := (fractionValue_range hd.fraction_digits).2
  obtain ⟨w, hw⟩ : ∃ w : Int, (digitsValue d.whole : ℚ) + fractionValue d.fraction = w := by
    cases hsign : d.negative with
    | false => exact ⟨v, by rw [← hv, value, hsign]; rfl⟩
    | true => exact ⟨-v, by rw [Int.cast_neg, ← hv, value, hsign]; exact (neg_neg _).symm⟩
  have hbelow : ((digitsValue d.whole : Int) : ℚ) < w := by push_cast; linarith
  have habove : (w : ℚ) < ((digitsValue d.whole + 1 : Int) : ℚ) := by push_cast; linarith
  have hbelow : (digitsValue d.whole : Int) < w := by exact_mod_cast hbelow
  have habove : w < (digitsValue d.whole : Int) + 1 := by exact_mod_cast habove
  omega

/-- A number with a fraction has one sign and one row of digits on each side of the point. -/
theorem eq_of_value_eq (hd : d.IsTrimmed) (he : e.IsTrimmed) (hfraction : d.fraction ≠ [])
    (h : d.value = e.value) : d = e := by
  have hfraction' : e.fraction ≠ [] := by
    rwa [Ne, he.fraction_eq_nil_iff, ← h, ← hd.fraction_eq_nil_iff]
  obtain ⟨hsign, hmagnitude⟩ := withSign_inj (hd.magnitude_pos hfraction)
    (he.magnitude_pos hfraction') h
  obtain ⟨hwhole, hrest⟩ := eq_of_natCast_add_eq (fractionValue_range hd.fraction_digits)
    (fractionValue_range he.fraction_digits) hmagnitude
  have hds := digitsValue_inj hd.whole_digits he.whole_digits hd.whole_head he.whole_head hwhole
  have hfs := fractionValue_inj hd.fraction_digits he.fraction_digits hd.fraction_last
    he.fraction_last hrest
  cases d
  cases e
  simp_all

/-- The text is a numeral of the number. -/
theorem denotes_text (hd : d.IsTrimmed) (h : d.fraction ≠ []) : Denotes d.text.toList d.value := by
  obtain ⟨ds, hds, hvalue, htext⟩ : ∃ ds : List Char, (∀ c ∈ ds, c.isDigit) ∧
      digitsValue ds = digitsValue d.whole ∧
      d.text.toList = (if d.negative then ['-'] else []) ++ (ds ++ '.' :: d.fraction) := by
    rw [text, String.toList_ofList, List.append_assoc]
    cases hwhole : d.whole with
    | nil => exact ⟨['0'], List.forall_mem_singleton.mpr rfl, rfl, rfl⟩
    | cons c cs => exact ⟨c :: cs, hwhole ▸ hd.whole_digits, rfl, rfl⟩
  have hmagnitude := DenotesMagnitude.pointed (by simp [h]) hds hd.fraction_digits
  rw [htext, value, ← hvalue]
  cases d.negative with
  | false => exact .unsigned hmagnitude
  | true => exact .minus hmagnitude

/-- The text is canonical: two numbers with a fraction have one text exactly if they are equal. -/
theorem text_eq_iff (hd : d.IsTrimmed) (he : e.IsTrimmed) (hfraction : d.fraction ≠ [])
    (hfraction' : e.fraction ≠ []) : d.text = e.text ↔ d.value = e.value := by
  constructor
  · intro h
    have htext := hd.denotes_text hfraction
    rw [h] at htext
    exact htext.unique (he.denotes_text hfraction')
  · exact fun h => by rw [hd.eq_of_value_eq he hfraction h]

example : (decimal? "-.50".toList).map text = some "-0.5" := by decide

example : (decimal? "+007.10".toList).map text = some "7.1" := by decide

end IsTrimmed

end Decimal

/-! ### Whole numbers -/

/-- A decimal numeral of a whole number is read without a fraction, whatever zeros stand behind its
point. -/
theorem Denotes.exists_decimal? {cs : List Char} {v : Int} (h : Denotes cs v) :
    ∃ d, decimal? cs = some d ∧ d.fraction = [] ∧ signed d.negative (digitsValue d.whole) = v := by
  obtain ⟨d, hd, hvalue⟩ := denotes_iff.1 h
  have hnil := (decimal?_isTrimmed hd).fraction_eq_nil_iff.2 ⟨v, hvalue⟩
  rw [Decimal.value_of_fraction_nil hnil] at hvalue
  exact ⟨d, hd, hnil, by exact_mod_cast hvalue⟩

/-- An integer numeral is a decimal numeral without a point. -/
def DenotesInteger (cs : List Char) (v : Int) : Prop := Denotes cs v ∧ '.' ∉ cs

theorem mem_of_mem_splitSign {cs : List Char} {c : Char} (h : c ∈ (splitSign cs).2) : c ∈ cs := by
  unfold splitSign at h
  split at h
  · exact List.mem_cons_of_mem _ h
  · exact List.mem_cons_of_mem _ h
  · exact h

theorem DenotesMagnitude.of_no_point {body : List Char} {q : ℚ} (h : DenotesMagnitude body q)
    (hpoint : '.' ∉ body) :
    body ≠ [] ∧ (∀ c ∈ body, c.isDigit) ∧ q = digitsValue body := by
  cases h with
  | whole hne hds => exact ⟨hne, hds, rfl⟩
  | pointed => simp at hpoint

theorem DenotesInteger.integer?_eq {cs : List Char} {v : Int} (h : DenotesInteger cs v) :
    integer? cs = some v := by
  obtain ⟨hdenotes, hpoint⟩ := h
  obtain ⟨r, hr, hv⟩ := denotes_iff_splitSign.1 hdenotes
  obtain ⟨hne, hdigits, rfl⟩ := hr.of_no_point fun hc => hpoint (mem_of_mem_splitSign hc)
  have hsigned : signed (splitSign cs).1 (digitsValue (splitSign cs).2) = v := by
    rw [← cast_signed] at hv
    exact_mod_cast hv.symm
  rw [← hsigned]
  exact if_pos ((digits_iff _).2 ⟨hne, hdigits⟩)

theorem DenotesMagnitude.digit_or_point {body : List Char} {q : ℚ} (h : DenotesMagnitude body q)
    {c : Char} (hc : c ∈ body) : c.isDigit ∨ c = '.' := by
  cases h with
  | whole hne hds => exact .inl (hds c hc)
  | pointed hne hds hfs =>
    rcases List.mem_append.1 hc with hc | hc
    · exact .inl (hds c hc)
    · exact (List.mem_cons.1 hc).symm.imp_left (hfs c)

/-- What numerals are made of. -/
theorem Denotes.mem {cs : List Char} {q : ℚ} (h : Denotes cs q) {c : Char} (hc : c ∈ cs) :
    c.isDigit ∨ c = '.' ∨ c = '+' ∨ c = '-' := by
  cases h with
  | unsigned h => exact (h.digit_or_point hc).imp_right .inl
  | plus h =>
    rcases List.mem_cons.1 hc with rfl | hc
    · exact .inr (.inr (.inl rfl))
    · exact (h.digit_or_point hc).imp_right .inl
  | minus h =>
    rcases List.mem_cons.1 hc with rfl | hc
    · exact .inr (.inr (.inr rfl))
    · exact (h.digit_or_point hc).imp_right .inl

end TripleStore.Numeral
