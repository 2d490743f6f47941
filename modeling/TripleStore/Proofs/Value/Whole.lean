import TripleStore.Proofs.Text.Blank
import TripleStore.Proofs.Value

/-!
# Whole numbers as integers and as decimals

A whole number has many numerals: signed or not, with zeros in front, and as a decimal with a point
and zeros behind it. Within 128 bits each of them has the number for its key, except that the least
integer has no decimal one: a decimal is read as a magnitude under a sign, the magnitude of the
least integer is one more than the greatest, and so its decimal numerals equal only themselves.
-/

namespace TripleStore

open Vocabulary Numeral Text

/-! ### Numerals have no blanks to trim -/

theorem Text.isBlank_of_isDigit {c : Char} (h : c.isDigit) : isBlank c = false := by
  have hrange := toNat_of_isDigit h
  rw [← Bool.not_eq_true, isBlank]
  simp only [Bool.or_eq_true, Bool.and_eq_true, decide_eq_true_eq, beq_iff_eq]
  omega

theorem Numeral.Denotes.trim_eq {cs : List Char} {q : ℚ} (h : Denotes cs q) : trim cs = cs := by
  apply trim_eq_self
  intro c hc
  rcases h.mem hc with hdigit | rfl | rfl | rfl
  · exact isBlank_of_isDigit hdigit
  · rfl
  · rfl
  · rfl

/-! ### Keys of whole numbers -/

def Term.integer (lexical : String) : Term :=
  .literal (.typed lexical (xsd ++ "integer") (by decide))

def Term.decimal (lexical : String) : Term :=
  .literal (.typed lexical (xsd ++ "decimal") (by decide))

namespace ValueKey

theorem of_integer {lexical : String} {v : Int} (h : DenotesInteger lexical.toList v) :
    of (.integer lexical) =
      if leastInteger ≤ v ∧ v ≤ greatestInteger then .integer v
      else .typed (xsd ++ "integer") lexical := by
  have hspace : valueSpace? (xsd ++ "integer") = some (.integer leastInteger greatestInteger) := by
    decide
  change ofTyped lexical (xsd ++ "integer") = _
  rw [ofTyped, hspace, Option.bind_some, h.1.trim_eq, read?, h.integer?_eq, Option.bind_some,
    ofInteger?]
  split <;> rfl

theorem of_decimal {lexical : String} {v : Int} (h : Denotes lexical.toList v) :
    of (.decimal lexical) =
      if leastInteger < v ∧ v ≤ greatestInteger then .integer v
      else .typed (xsd ++ "decimal") lexical := by
  have hspace : valueSpace? (xsd ++ "decimal") = some .decimal := by decide
  have hbounds : leastInteger < v ↔ -greatestInteger ≤ v := by
    unfold leastInteger greatestInteger
    omega
  obtain ⟨d, hd, hfraction, hv⟩ := h.exists_decimal?
  change ofTyped lexical (xsd ++ "decimal") = _
  rw [ofTyped, hspace, Option.bind_some, h.trim_eq, read?, hd, Option.bind_some,
    ofDecimal?_of_whole hfraction, hv, ofInteger?]
  simp only [hbounds]
  split <;> rfl

/-- An integer and a decimal numeral of one number have that number as their key, the first if it
has 128 bits, the second if it is not the least of these; and one key exactly if both have. -/
theorem of_integer_eq_of_decimal_iff {lexical lexical' : String} {v : Int}
    (h : DenotesInteger lexical.toList v) (h' : Denotes lexical'.toList v) :
    (of (.integer lexical) =
        if leastInteger ≤ v ∧ v ≤ greatestInteger then .integer v
        else .typed (xsd ++ "integer") lexical) ∧
      (of (.decimal lexical') =
        if leastInteger < v ∧ v ≤ greatestInteger then .integer v
        else .typed (xsd ++ "decimal") lexical') ∧
      (of (.integer lexical) = of (.decimal lexical') ↔
        leastInteger < v ∧ v ≤ greatestInteger) := by
  refine ⟨of_integer h, of_decimal h', ?_⟩
  rw [of_integer h, of_decimal h']
  constructor
  · intro heq
    by_contra hout
    rw [if_neg hout] at heq
    split at heq
    · cases heq
    · exact absurd (typed.inj heq).1 (by decide)
  · intro hin
    rw [if_pos hin, if_pos ⟨hin.1.le, hin.2⟩]

/-- The number above the least, with zeros in front and behind. -/
theorem above_least_one_key :
    DenotesInteger "-00170141183460469231731687303715884105727".toList (leastInteger + 1) ∧
      Denotes "-170141183460469231731687303715884105727.000".toList ((leastInteger + 1 : Int) : ℚ) ∧
      of (.integer "-00170141183460469231731687303715884105727") =
        of (.decimal "-170141183460469231731687303715884105727.000") := by
  have h : DenotesInteger "-00170141183460469231731687303715884105727".toList
      (leastInteger + 1) := ⟨integer?_denotes (by decide), by decide⟩
  have h' : Denotes "-170141183460469231731687303715884105727.000".toList
      ((leastInteger + 1 : Int) : ℚ) :=
    denotes_iff.2 ⟨⟨true, "170141183460469231731687303715884105727".toList, []⟩, by decide,
      Decimal.value_of_fraction_nil rfl⟩
  exact ⟨h, h', (of_integer_eq_of_decimal_iff h h').2.2.2 (by decide)⟩

/-- The least integer, written alike as an integer and as a decimal, has two keys. -/
theorem least_two_keys :
    DenotesInteger "-170141183460469231731687303715884105728".toList leastInteger ∧
      of (.integer "-170141183460469231731687303715884105728") ≠
        of (.decimal "-170141183460469231731687303715884105728") := by
  have h : DenotesInteger "-170141183460469231731687303715884105728".toList leastInteger :=
    ⟨integer?_denotes (by decide), by decide⟩
  refine ⟨h, ?_⟩
  rw [of_integer h, of_decimal h.1]
  decide

end ValueKey

end TripleStore
