import Mathlib.Data.List.Forall2
import TripleStore.Proofs.Numeral.Binary
import TripleStore.Proofs.Numeral.Decimal
import TripleStore.Value

/-!
# Equality by value

`SameValue` says without keys when two terms stand for the same value, and two terms have the same
key exactly in these cases. What a key tells about its term is listed once, in `Keyed`; two terms
of one key are then compared case by case.
-/

namespace TripleStore

/-! ### Letters of either case -/

namespace Text

/-- `d` is the small letter of the capital `c`. -/
def SmallOf (c d : Char) : Prop := c.isUpper ∧ d.toNat = c.toNat + 32

/-- Two characters are one, or one ASCII letter in both cases. -/
def SameLetter (c d : Char) : Prop := c = d ∨ SmallOf c d ∨ SmallOf d c

/-- Two texts are equal up to the case of ASCII letters. -/
def SameLetters (s t : String) : Prop := List.Forall₂ SameLetter s.toList t.toList

theorem isUpper_eq (c : Char) : c.isUpper = decide (c.val ≥ 'A'.val ∧ c.val ≤ 'Z'.val) := rfl

theorem isUpper_iff (c : Char) : c.isUpper ↔ 65 ≤ c.toNat ∧ c.toNat ≤ 90 := by
  rw [isUpper_eq, decide_eq_true_eq]
  exact and_congr UInt32.le_iff_toNat_le UInt32.le_iff_toNat_le

theorem toNat_toLower (c : Char) :
    c.toLower.toNat = if c.isUpper then c.toNat + 32 else c.toNat := by
  simp only [isUpper_eq, decide_eq_true_eq]
  unfold Char.toLower
  split
  · next h =>
    have hle : c.toNat ≤ 90 := UInt32.le_iff_toNat_le.1 h.2
    have hsum : (c.val + ('a'.val - 'A'.val)).toNat = (c.toNat + 32) % 2 ^ 32 := UInt32.toNat_add ..
    rw [Nat.mod_eq_of_lt (by omega)] at hsum
    exact hsum
  · rfl

theorem toLower_eq_iff (c d : Char) : c.toLower = d.toLower ↔ SameLetter c d := by
  rw [← Char.toNat_inj, toNat_toLower, toNat_toLower, SameLetter, ← Char.toNat_inj]
  simp only [SmallOf, isUpper_iff]
  split <;> split <;> omega

theorem lowerAscii_eq_iff (s t : String) : lowerAscii s = lowerAscii t ↔ SameLetters s t := by
  have hlists : lowerAscii s = lowerAscii t ↔
      s.toList.map Char.toLower = t.toList.map Char.toLower := by
    rw [lowerAscii, lowerAscii, String.ofList_inj]
  rw [hlists, ← List.forall₂_eq_eq_eq, List.forall₂_map_left_iff, List.forall₂_map_right_iff]
  simp only [toLower_eq_iff]
  rfl

end Text

/-! ### Datatypes -/

namespace Vocabulary

theorem valueSpace?_mem {datatype : String} {space : ValueSpace}
    (h : valueSpace? datatype = some space) : (datatype, space) ∈ valueSpaces := by
  obtain ⟨before, behind, heq, -⟩ := List.lookup_eq_some_iff.1 h
  rw [heq]
  exact List.mem_append_right _ List.mem_cons_self

theorem eq_boolean {datatype : String} (h : valueSpace? datatype = some .boolean) :
    datatype = xsd ++ "boolean" := by
  simpa [valueSpaces, integerTypes] using valueSpace?_mem h

theorem eq_float {datatype : String} (h : valueSpace? datatype = some .float) :
    datatype = xsd ++ "float" := by
  simpa [valueSpaces, integerTypes] using valueSpace?_mem h

theorem eq_double {datatype : String} (h : valueSpace? datatype = some .double) :
    datatype = xsd ++ "double" := by
  simpa [valueSpaces, integerTypes] using valueSpace?_mem h

end Vocabulary

/-! ### The value of a term -/

open Vocabulary Numeral Text

def TruthForm (cs : List Char) : Bool → Prop
  | true => cs = "true".toList ∨ cs = "1".toList
  | false => cs = "false".toList ∨ cs = "0".toList

/-- The key is a number in the space that integers and decimals share. -/
def ValueKey.IsNumber : ValueKey → Prop
  | .integer _ => True
  | .decimal _ => True
  | _ => False

/-- Two terms stand for one value: they are one term, or literals of one of the kinds that have
several forms for a value. -/
inductive SameValue : Term → Term → Prop where
  | identical (t : Term) : SameValue t t
  | tagged {lexical tag tag' : String} (h : SameLetters tag tag') :
      SameValue (.literal (.tagged lexical tag)) (.literal (.tagged lexical tag'))
  | number {lexical lexical' datatype datatype' : String} {hs : datatype ≠ xsdString}
      {hs' : datatype' ≠ xsdString} {q : ℚ}
      (ha : (ValueKey.of (.literal (.typed lexical datatype hs))).IsNumber)
      (hb : (ValueKey.of (.literal (.typed lexical' datatype' hs'))).IsNumber)
      (hq : Denotes (trim lexical.toList) q) (hq' : Denotes (trim lexical'.toList) q) :
      SameValue (.literal (.typed lexical datatype hs)) (.literal (.typed lexical' datatype' hs'))
  | boolean {lexical lexical' : String} {hs hs' : xsd ++ "boolean" ≠ xsdString} {truth : Bool}
      (h : TruthForm (trim lexical.toList) truth) (h' : TruthForm (trim lexical'.toList) truth) :
      SameValue (.literal (.typed lexical (xsd ++ "boolean") hs))
        (.literal (.typed lexical' (xsd ++ "boolean") hs'))
  | float {lexical lexical' : String} {hs hs' : xsd ++ "float" ≠ xsdString} {v w : Floating}
      (hv : Floating.read? (trim lexical.toList) = some v)
      (hw : Floating.read? (trim lexical'.toList) = some w) (h : v.narrowed = w.narrowed) :
      SameValue (.literal (.typed lexical (xsd ++ "float") hs))
        (.literal (.typed lexical' (xsd ++ "float") hs'))
  | double {lexical lexical' : String} {hs hs' : xsd ++ "double" ≠ xsdString} {v w : Floating}
      (hv : Floating.read? (trim lexical.toList) = some v)
      (hw : Floating.read? (trim lexical'.toList) = some w) (h : v.value = w.value) :
      SameValue (.literal (.typed lexical (xsd ++ "double") hs))
        (.literal (.typed lexical' (xsd ++ "double") hs'))

namespace ValueKey

/-- What a key tells about the term that it comes from. -/
inductive Keyed : Term → ValueKey → Prop where
  | iri (text : String) : Keyed (.iri text) (.iri text)
  | blank (label : String) : Keyed (.blank label) (.blank label)
  | simple (lexical : String) : Keyed (.literal (.simple lexical)) (.string lexical)
  | tagged (lexical tag : String) :
      Keyed (.literal (.tagged lexical tag)) (.langString lexical (lowerAscii tag))
  | typed (lexical datatype : String) (hs : datatype ≠ xsdString) :
      Keyed (.literal (.typed lexical datatype hs)) (.typed datatype lexical)
  | integer {lexical datatype : String} {hs : datatype ≠ xsdString} {v : Int}
      (h : Denotes (trim lexical.toList) v) :
      Keyed (.literal (.typed lexical datatype hs)) (.integer v)
  | decimal {lexical datatype : String} {hs : datatype ≠ xsdString} {d : Decimal}
      (h : Denotes (trim lexical.toList) d.value) (htrimmed : d.IsTrimmed)
      (hfraction : d.fraction ≠ []) :
      Keyed (.literal (.typed lexical datatype hs)) (.decimal d.text)
  | boolean {lexical : String} {hs : xsd ++ "boolean" ≠ xsdString} {truth : Bool}
      (h : TruthForm (trim lexical.toList) truth) :
      Keyed (.literal (.typed lexical (xsd ++ "boolean") hs)) (.boolean truth)
  | float {lexical : String} {hs : xsd ++ "float" ≠ xsdString} {v : Floating}
      (h : Floating.read? (trim lexical.toList) = some v) :
      Keyed (.literal (.typed lexical (xsd ++ "float") hs)) (.float v.singleBits)
  | double {lexical : String} {hs : xsd ++ "double" ≠ xsdString} {v : Floating}
      (h : Floating.read? (trim lexical.toList) = some v) :
      Keyed (.literal (.typed lexical (xsd ++ "double") hs)) (.double v.doubleBits)

theorem ofInteger?_eq_some {least greatest v : Int} {k : ValueKey}
    (h : ofInteger? least greatest v = some k) : k = .integer v := by
  unfold ofInteger? at h
  split at h
  · exact (Option.some.inj h).symm
  · cases h

/-- A magnitude is represented exactly if the number under its sign lies between the greatest
integer and its negative. -/
theorem ofDecimal?_of_whole {d : Decimal} (h : d.fraction = []) :
    ofDecimal? d = ofInteger? (-greatestInteger) greatestInteger
      (signed d.negative (digitsValue d.whole)) := by
  have hmagnitude : (if d.whole.isEmpty then 0 else digitsValue d.whole) = digitsValue d.whole := by
    cases d.whole <;> rfl
  have hbounds : -greatestInteger ≤ signed d.negative (digitsValue d.whole) ∧
      signed d.negative (digitsValue d.whole) ≤ greatestInteger ↔
        (digitsValue d.whole : Int) ≤ greatestInteger := by
    have hpos : 0 < greatestInteger := by decide
    unfold signed
    split <;> omega
  rw [ofDecimal?, if_pos (by rw [h]; rfl), ofInteger?, hmagnitude]
  simp only [hbounds]

theorem ofDecimal?_of_fraction {d : Decimal} (h : d.fraction ≠ []) :
    ofDecimal? d = some (.decimal d.text) := by
  rw [ofDecimal?, if_neg (by rwa [List.isEmpty_iff])]

theorem keyed_of_read {lexical datatype : String} (hs : datatype ≠ xsdString) {space : ValueSpace}
    {k : ValueKey} (hspace : valueSpace? datatype = some space)
    (hk : read? (trim lexical.toList) space = some k) :
    Keyed (.literal (.typed lexical datatype hs)) k := by
  cases space with
  | integer least greatest =>
    obtain ⟨v, hv, hrange⟩ := Option.bind_eq_some_iff.1 hk
    obtain rfl := ofInteger?_eq_some hrange
    exact .integer (integer?_denotes hv)
  | decimal =>
    obtain ⟨d, hd, hkey⟩ := Option.bind_eq_some_iff.1 hk
    have hdenotes : Denotes (trim lexical.toList) d.value := denotes_iff.2 ⟨d, hd, rfl⟩
    by_cases hfraction : d.fraction = []
    · rw [ofDecimal?_of_whole hfraction] at hkey
      obtain rfl := ofInteger?_eq_some hkey
      rw [Decimal.value_of_fraction_nil hfraction] at hdenotes
      exact .integer hdenotes
    · rw [ofDecimal?_of_fraction hfraction] at hkey
      obtain rfl := Option.some.inj hkey
      exact .decimal hdenotes (decimal?_isTrimmed hd) hfraction
  | boolean =>
    obtain rfl := eq_boolean hspace
    simp only [read?] at hk
    split_ifs at hk with htrue hfalse
    · obtain rfl := Option.some.inj hk
      have hform : TruthForm (trim lexical.toList) true := by simpa [TruthForm] using htrue
      exact .boolean hform
    · obtain rfl := Option.some.inj hk
      have hform : TruthForm (trim lexical.toList) false := by simpa [TruthForm] using hfalse
      exact .boolean hform
  | float =>
    obtain rfl := eq_float hspace
    obtain ⟨v, hv, rfl⟩ := Option.map_eq_some_iff.1 hk
    exact .float hv
  | double =>
    obtain rfl := eq_double hspace
    obtain ⟨v, hv, rfl⟩ := Option.map_eq_some_iff.1 hk
    exact .double hv

theorem keyed_of (t : Term) : Keyed t (of t) := by
  match t with
  | .iri text => exact .iri text
  | .blank label => exact .blank label
  | .literal (.simple lexical) => exact .simple lexical
  | .literal (.tagged lexical tag) => exact .tagged lexical tag
  | .literal (.typed lexical datatype hs) =>
    change Keyed _ (ofTyped lexical datatype)
    unfold ofTyped
    cases hread : (valueSpace? datatype).bind (read? (trim lexical.toList)) with
    | none => exact .typed lexical datatype hs
    | some k =>
      obtain ⟨space, hspace, hk⟩ := Option.bind_eq_some_iff.1 hread
      exact keyed_of_read hs hspace hk

/-- Terms of one key stand for one value: the keys agree in their kind, and in what they hold. -/
theorem Keyed.sameValue {a b : Term} {k l : ValueKey} (ha : Keyed a k) (hb : Keyed b l)
    (hka : of a = k) (hlb : of b = l) (hkl : k = l) : SameValue a b := by
  cases ha with
  | iri text =>
    cases hb with
    | iri => cases hkl; exact .identical _
    | _ => cases hkl
  | blank label =>
    cases hb with
    | blank => cases hkl; exact .identical _
    | _ => cases hkl
  | simple lexical =>
    cases hb with
    | simple => cases hkl; exact .identical _
    | _ => cases hkl
  | typed lexical datatype hs =>
    cases hb with
    | typed => cases hkl; exact .identical _
    | _ => cases hkl
  | tagged lexical tag =>
    cases hb with
    | tagged lexical' tag' =>
      obtain ⟨rfl, htags⟩ := langString.inj hkl
      exact .tagged ((lowerAscii_eq_iff tag tag').1 htags)
    | _ => cases hkl
  | integer h =>
    cases hb with
    | integer h' =>
      cases hkl
      exact .number (by rw [hka]; trivial) (by rw [hlb]; trivial) h h'
    | _ => cases hkl
  | decimal h htrimmed hfraction =>
    cases hb with
    | decimal h' htrimmed' hfraction' =>
      have hvalue := (htrimmed.text_eq_iff htrimmed' hfraction hfraction').1 (decimal.inj hkl)
      exact .number (by rw [hka]; trivial) (by rw [hlb]; trivial) h (hvalue ▸ h')
    | _ => cases hkl
  | boolean h =>
    cases hb with
    | boolean h' => cases hkl; exact .boolean h h'
    | _ => cases hkl
  | @float _ _ v h =>
    cases hb with
    | @float _ _ w h' => exact .float h h' ((Floating.singleBits_eq_iff v w).1 (float.inj hkl))
    | _ => cases hkl
  | double h =>
    cases hb with
    | double h' =>
      have hbits := double.inj hkl
      exact .double h h'
        ((Floating.doubleBits_eq_iff (Floating.read?_fits h) (Floating.read?_fits h')).1 hbits)
    | _ => cases hkl

/-- A number of the shared space has one key: a decimal key is never a whole number. -/
theorem Keyed.eq_of_number {lexical lexical' datatype datatype' : String}
    {hs : datatype ≠ xsdString} {hs' : datatype' ≠ xsdString} {k l : ValueKey} {q : ℚ}
    (hk : Keyed (.literal (.typed lexical datatype hs)) k)
    (hl : Keyed (.literal (.typed lexical' datatype' hs')) l) (hnk : k.IsNumber) (hnl : l.IsNumber)
    (hq : Denotes (trim lexical.toList) q) (hq' : Denotes (trim lexical'.toList) q) : k = l := by
  cases hk with
  | @integer _ _ _ v h =>
    have hv := h.unique hq
    cases hl with
    | @integer _ _ _ w h' =>
      have hw := h'.unique hq'
      rw [Int.cast_inj.1 (hv.trans hw.symm)]
    | decimal h' htrimmed hfraction =>
      exact absurd (htrimmed.fraction_eq_nil_iff.2 ⟨v, (h'.unique hq').trans hv.symm⟩) hfraction
    | _ => cases hnl
  | decimal h htrimmed hfraction =>
    have hd := h.unique hq
    cases hl with
    | @integer _ _ _ w h' =>
      exact absurd (htrimmed.fraction_eq_nil_iff.2 ⟨w, hd.trans (h'.unique hq').symm⟩) hfraction
    | decimal h' htrimmed' hfraction' =>
      have hvalue := hd.trans (h'.unique hq').symm
      rw [(htrimmed.text_eq_iff htrimmed' hfraction hfraction').2 hvalue]
    | _ => cases hnl
  | _ => cases hnk

theorem of_typed {lexical datatype : String} {hs : datatype ≠ xsdString} {space : ValueSpace}
    {k : ValueKey} (hspace : valueSpace? datatype = some space)
    (hk : read? (trim lexical.toList) space = some k) :
    of (.literal (.typed lexical datatype hs)) = k := by
  change ofTyped lexical datatype = k
  rw [ofTyped, hspace, Option.bind_some, hk, Option.getD_some]

theorem of_boolean {lexical : String} {hs : xsd ++ "boolean" ≠ xsdString} {truth : Bool}
    (h : TruthForm (trim lexical.toList) truth) :
    of (.literal (.typed lexical (xsd ++ "boolean") hs)) = .boolean truth := by
  have hspace : valueSpace? (xsd ++ "boolean") = some .boolean := by decide
  have hread : read? (trim lexical.toList) .boolean = some (.boolean truth) := by
    cases truth <;> rcases h with h | h <;> rw [h] <;> decide
  exact of_typed hspace hread

theorem of_float {lexical : String} {hs : xsd ++ "float" ≠ xsdString} {v : Floating}
    (h : Floating.read? (trim lexical.toList) = some v) :
    of (.literal (.typed lexical (xsd ++ "float") hs)) = .float v.singleBits := by
  have hspace : valueSpace? (xsd ++ "float") = some .float := by decide
  exact of_typed hspace (by rw [read?, h, Option.map_some])

theorem of_double {lexical : String} {hs : xsd ++ "double" ≠ xsdString} {v : Floating}
    (h : Floating.read? (trim lexical.toList) = some v) :
    of (.literal (.typed lexical (xsd ++ "double") hs)) = .double v.doubleBits := by
  have hspace : valueSpace? (xsd ++ "double") = some .double := by decide
  exact of_typed hspace (by rw [read?, h, Option.map_some])

/-- Two terms have one key exactly if they stand for one value. -/
theorem of_eq_iff_sameValue (a b : Term) : of a = of b ↔ SameValue a b := by
  constructor
  · exact (keyed_of a).sameValue (keyed_of b) rfl rfl
  · rintro (_ | h | ⟨ha, hb, hq, hq'⟩ | ⟨h, h'⟩ | ⟨hv, hw, h⟩ | ⟨hv, hw, h⟩)
    · rfl
    · exact congrArg (langString _) ((lowerAscii_eq_iff _ _).2 h)
    · exact (keyed_of _).eq_of_number (keyed_of _) ha hb hq hq'
    · rw [of_boolean h, of_boolean h']
    · rw [of_float hv, of_float hw, (Floating.singleBits_eq_iff _ _).2 h]
    · rw [of_double hv, of_double hw,
        (Floating.doubleBits_eq_iff (Floating.read?_fits hv) (Floating.read?_fits hw)).2 h]

end ValueKey

end TripleStore
