import Mathlib.Data.List.DropRight
import TripleStore.Proofs.Value.Whole

/-!
# Lexical forms that have a value

A literal of a boolean, decimal or integer datatype has a value exactly if its lexical form, without
the blanks around it, belongs to the lexical space of the datatype and denotes one of its values,
which must be among those represented. Otherwise it equals only itself. Around a lexical form XML
Schema admits four blanks of the many that are taken off, so that a form between others has a value
too.
-/

namespace TripleStore

open Vocabulary Numeral

/-! ### Blanks around a text -/

namespace Text

/-- A blank of XML Schema: a space, a tab, a line feed or a carriage return. -/
def isXmlBlank (c : Char) : Bool := c == ' ' || c == '\t' || c == '\n' || c == '\r'

def trimXml (cs : List Char) : List Char := (cs.dropWhile isXmlBlank).rdropWhile isXmlBlank

theorem isBlank_of_isXmlBlank {c : Char} (h : isXmlBlank c = true) : isBlank c = true := by
  simp only [isXmlBlank, Bool.or_eq_true, beq_iff_eq] at h
  rcases h with ((rfl | rfl) | rfl) | rfl <;> decide

theorem exists_xmlBlanks (cs : List Char) : ∃ front back, cs = front ++ trimXml cs ++ back ∧
    (∀ c ∈ front, isXmlBlank c = true) ∧ ∀ c ∈ back, isXmlBlank c = true := by
  refine ⟨cs.takeWhile isXmlBlank, (cs.dropWhile isXmlBlank).rtakeWhile isXmlBlank, ?_,
    fun c => List.mem_takeWhile_imp, fun c => List.mem_rtakeWhile_imp⟩
  rw [trimXml, List.append_assoc, List.rdropWhile_append_rtakeWhile,
    List.takeWhile_append_dropWhile]

theorem trim_trimXml (cs : List Char) : trim (trimXml cs) = trim cs := by
  obtain ⟨front, back, hcs, hfront, hback⟩ := exists_xmlBlanks cs
  conv_rhs => rw [hcs]
  exact (trim_append (fun c hc => isBlank_of_isXmlBlank (hfront c hc))
    (fun c hc => isBlank_of_isXmlBlank (hback c hc)) _).symm

end Text

open Text

/-! ### Lexical spaces -/

/-- The integer is a value of the integer datatype of a local name. -/
def HasInteger (name : String) (v : Int) : Prop :=
  match name with
  | "integer" => True
  | "nonNegativeInteger" => 0 ≤ v
  | "positiveInteger" => 0 < v
  | "nonPositiveInteger" => v ≤ 0
  | "negativeInteger" => v < 0
  | "long" => -2 ^ 63 ≤ v ∧ v < 2 ^ 63
  | "int" => -2 ^ 31 ≤ v ∧ v < 2 ^ 31
  | "short" => -2 ^ 15 ≤ v ∧ v < 2 ^ 15
  | "byte" => -2 ^ 7 ≤ v ∧ v < 2 ^ 7
  | "unsignedLong" => 0 ≤ v ∧ v < 2 ^ 64
  | "unsignedInt" => 0 ≤ v ∧ v < 2 ^ 32
  | "unsignedShort" => 0 ≤ v ∧ v < 2 ^ 16
  | "unsignedByte" => 0 ≤ v ∧ v < 2 ^ 8
  | _ => False

/-- The text belongs to the lexical space of the datatype of a local name, and what it denotes is a
value of that datatype. -/
inductive Lexical (name : String) (cs : List Char) : Prop where
  | boolean {truth : Bool} (hname : name = "boolean") (h : TruthForm cs truth)
  | decimal {q : ℚ} (hname : name = "decimal") (h : Denotes cs q)
  | integer {v : Int} (h : DenotesInteger cs v) (hv : HasInteger name v)

/-- A lexical form has no blanks at its ends. -/
theorem Lexical.trim_eq {name : String} {cs : List Char} (h : Lexical name cs) : trim cs = cs := by
  cases h with
  | @boolean truth _ h => cases truth <;> rcases h with rfl | rfl <;> decide
  | decimal _ h => exact h.trim_eq
  | integer h _ => exact h.1.trim_eq

/-- A whole number that the text denotes is among those represented for the datatype: it has 128
bits, and as a decimal so has its magnitude. -/
def Represented (name : String) (cs : List Char) : Prop :=
  ∀ v : Int, Denotes cs v →
    leastInteger ≤ v ∧ v ≤ greatestInteger ∧ (name = "decimal" → v ≠ leastInteger)

/-- The datatypes of truth values, decimals and integers, by local name. -/
def exactNames : List String := "boolean" :: "decimal" :: integerTypes.map Prod.fst

theorem mem_exactNames_iff {name : String} : name ∈ exactNames ↔ name = "boolean" ∨
    name = "decimal" ∨ ∃ least greatest, (name, least, greatest) ∈ integerTypes := by
  simp [exactNames]

/-- The bounds of an integer datatype are those of its values, as far as they are represented. -/
theorem bounds_iff {name : String} {least greatest : Int}
    (h : (name, least, greatest) ∈ integerTypes) (v : Int) :
    least ≤ v ∧ v ≤ greatest ↔ HasInteger name v ∧ leastInteger ≤ v ∧ v ≤ greatestInteger := by
  have hall : ∀ e ∈ integerTypes, ∀ v : Int, e.2.1 ≤ v ∧ v ≤ e.2.2 ↔
      HasInteger e.1 v ∧ leastInteger ≤ v ∧ v ≤ greatestInteger := by
    simp only [integerTypes, List.forall_mem_cons, HasInteger, leastInteger, greatestInteger,
      Nat.pow_eq, true_and, implies_true, List.not_mem_nil, false_implies, and_true]
    and_intros
    all_goals
      intro v
      omega
  exact hall _ h v

theorem valueSpace?_integer {name : String} {least greatest : Int}
    (h : (name, least, greatest) ∈ integerTypes) :
    valueSpace? (xsd ++ name) = some (.integer least greatest) := by
  have hall : ∀ e ∈ integerTypes, valueSpace? (xsd ++ e.1) = some (.integer e.2.1 e.2.2) := by
    decide
  exact hall _ h

/-! ### What is read -/

/-- Integer numerals are read, and nothing else is. -/
theorem Numeral.denotesInteger_iff {cs : List Char} {v : Int} :
    DenotesInteger cs v ↔ integer? cs = some v := by
  refine ⟨DenotesInteger.integer?_eq, fun h => ⟨integer?_denotes h, fun hpoint => ?_⟩⟩
  simp only [integer?] at h
  split at h
  next hds =>
    have hdigits := ((digits_iff _).1 hds).2
    -- the point is no sign, so it would stand among the digits
    have hin : '.' ∈ (splitSign cs).2 := by
      unfold splitSign
      split
      · simpa using hpoint
      · simpa using hpoint
      · exact hpoint
    exact absurd (hdigits '.' hin) (by decide)
  next => cases h

namespace ValueKey

/-- The key is a truth value or a number in the space that integers and decimals share. -/
def IsExact : ValueKey → Prop
  | .boolean _ | .integer _ | .decimal _ => True
  | _ => False

/-- A literal of a datatype has the value that its lexical form reads as, or none. -/
theorem of_typed_cases {lexical datatype : String} (hs : datatype ≠ xsdString) {space : ValueSpace}
    (hspace : valueSpace? datatype = some space) :
    (∃ k, read? (trim lexical.toList) space = some k ∧
        of (.literal (.typed lexical datatype hs)) = k) ∨
      read? (trim lexical.toList) space = none ∧
        of (.literal (.typed lexical datatype hs)) = .typed datatype lexical := by
  cases hread : read? (trim lexical.toList) space with
  | some k => exact .inl ⟨k, rfl, of_typed hspace hread⟩
  | none =>
    refine .inr ⟨rfl, ?_⟩
    change ofTyped lexical datatype = _
    rw [ofTyped, hspace, Option.bind_some, hread, Option.getD_none]

/-- The key of a literal without a value is that of no other term. -/
theorem eq_of_of_eq_typed {u : Term} {lexical datatype : String} (hs : datatype ≠ xsdString)
    (h : of u = .typed datatype lexical) : u = .literal (.typed lexical datatype hs) := by
  have hkeyed := keyed_of u
  rw [h] at hkeyed
  cases hkeyed
  rfl

theorem isExact_of_read {cs : List Char} {space : ValueSpace} {k : ValueKey}
    (h : read? cs space = some k) (hfloat : space ≠ .float) (hdouble : space ≠ .double) :
    k.IsExact := by
  cases space with
  | integer least greatest =>
    obtain ⟨v, -, hv⟩ := Option.bind_eq_some_iff.1 h
    obtain rfl := ofInteger?_eq_some hv
    trivial
  | decimal =>
    obtain ⟨d, -, hd⟩ := Option.bind_eq_some_iff.1 h
    by_cases hfraction : d.fraction = []
    · rw [ofDecimal?_of_whole hfraction] at hd
      obtain rfl := ofInteger?_eq_some hd
      trivial
    · rw [ofDecimal?_of_fraction hfraction] at hd
      obtain rfl := Option.some.inj hd
      trivial
  | boolean =>
    simp only [read?] at h
    split_ifs at h <;> obtain rfl := Option.some.inj h <;> trivial
  | float => exact absurd rfl hfloat
  | double => exact absurd rfl hdouble

theorem isSome_ofInteger? {least greatest v : Int} :
    (ofInteger? least greatest v).isSome = true ↔ least ≤ v ∧ v ≤ greatest := by
  rw [ofInteger?]
  split <;> simp_all

theorem isSome_read_boolean {cs : List Char} : (read? cs .boolean).isSome = true ↔
    Lexical "boolean" cs ∧ Represented "boolean" cs := by
  constructor
  · intro h
    obtain ⟨truth, hform⟩ : ∃ truth, TruthForm cs truth := by
      simp only [read?] at h
      split at h
      next htrue => exact ⟨true, by simpa [TruthForm] using htrue⟩
      next =>
        split at h
        next hfalse => exact ⟨false, by simpa [TruthForm] using hfalse⟩
        next => cases h
    refine ⟨.boolean rfl hform, fun v hv => ?_⟩
    obtain ⟨d, hd, -, rfl⟩ := hv.exists_decimal?
    cases truth <;> rcases hform with rfl | rfl <;> cases hd <;> decide
  · rintro ⟨hlexical, -⟩
    cases hlexical with
    | @boolean truth _ hform => cases truth <;> rcases hform with rfl | rfl <;> decide
    | decimal hname => exact absurd hname (by decide)
    | integer _ hv => exact hv.elim

theorem isSome_read_decimal {cs : List Char} : (read? cs .decimal).isSome = true ↔
    Lexical "decimal" cs ∧ Represented "decimal" cs := by
  have hbounds (v : Int) : leastInteger ≤ v ∧ v ≤ greatestInteger ∧ v ≠ leastInteger ↔
      -greatestInteger ≤ v ∧ v ≤ greatestInteger := by
    unfold leastInteger greatestInteger
    omega
  have hread {d : Decimal} (hd : decimal? cs = some d) :
      (read? cs .decimal).isSome = true ↔ Represented "decimal" cs := by
    have hvalue : Denotes cs d.value := denotes_iff.2 ⟨d, hd, rfl⟩
    rw [read?, hd, Option.bind_some]
    simp only [Represented, forall_const, hbounds]
    -- whether the number is whole is told by its fraction
    by_cases hfraction : d.fraction = []
    · rw [ofDecimal?_of_whole hfraction, isSome_ofInteger?]
      rw [Decimal.value_of_fraction_nil hfraction] at hvalue
      constructor
      · intro hin v hv
        rwa [← show signed d.negative (digitsValue d.whole) = v by
          exact_mod_cast hvalue.unique hv]
      · exact fun hall => hall _ hvalue
    · rw [ofDecimal?_of_fraction hfraction]
      refine iff_of_true rfl fun v hv => absurd ?_ hfraction
      exact (decimal?_isTrimmed hd).fraction_eq_nil_iff.2 ⟨v, hvalue.unique hv⟩
  constructor
  · intro h
    obtain ⟨k, hk⟩ := Option.isSome_iff_exists.1 h
    obtain ⟨d, hd, -⟩ := Option.bind_eq_some_iff.1 hk
    exact ⟨.decimal rfl (denotes_iff.2 ⟨d, hd, rfl⟩), (hread hd).1 h⟩
  · rintro ⟨hlexical, hrepresented⟩
    cases hlexical with
    | boolean hname => exact absurd hname (by decide)
    | decimal _ h =>
      obtain ⟨d, hd, -⟩ := denotes_iff.1 h
      exact (hread hd).2 hrepresented
    | integer _ hv => exact hv.elim

theorem isSome_read_integer {cs : List Char} {name : String} {least greatest : Int}
    (hmem : (name, least, greatest) ∈ integerTypes) :
    (read? cs (.integer least greatest)).isSome = true ↔
      Lexical name cs ∧ Represented name cs := by
  have hother : name ≠ "boolean" ∧ name ≠ "decimal" := by
    have hall : ∀ e ∈ integerTypes, e.1 ≠ "boolean" ∧ e.1 ≠ "decimal" := by decide
    exact hall _ hmem
  have hread {v : Int} (hv : DenotesInteger cs v) :
      (read? cs (.integer least greatest)).isSome = true ↔
        HasInteger name v ∧ leastInteger ≤ v ∧ v ≤ greatestInteger := by
    rw [read?, hv.integer?_eq, Option.bind_some, isSome_ofInteger?, bounds_iff hmem]
  constructor
  · intro h
    obtain ⟨k, hk⟩ := Option.isSome_iff_exists.1 h
    obtain ⟨v, hv, -⟩ := Option.bind_eq_some_iff.1 hk
    rw [← denotesInteger_iff] at hv
    obtain ⟨hin, hrepresented⟩ := (hread hv).1 h
    refine ⟨.integer hv hin, fun w hw => ?_⟩
    obtain rfl : v = w := by exact_mod_cast hv.1.unique hw
    exact ⟨hrepresented.1, hrepresented.2, fun h => absurd h hother.2⟩
  · rintro ⟨hlexical, hrepresented⟩
    cases hlexical with
    | boolean hname => exact absurd hname hother.1
    | decimal hname => exact absurd hname hother.2
    | integer hv hin =>
      obtain ⟨hleast, hgreatest, -⟩ := hrepresented _ hv.1
      exact (hread hv).2 ⟨hin, hleast, hgreatest⟩

/-- The space of an exact datatype holds the values of the lexical forms of the datatype. -/
theorem exists_space {name : String} (hname : name ∈ exactNames) :
    ∃ space, valueSpace? (xsd ++ name) = some space ∧ space ≠ .float ∧ space ≠ .double ∧
      ∀ cs, (read? cs space).isSome = true ↔ Lexical name cs ∧ Represented name cs := by
  rcases mem_exactNames_iff.1 hname with rfl | rfl | ⟨least, greatest, hmem⟩
  · exact ⟨.boolean, by decide, nofun, nofun, fun cs => isSome_read_boolean⟩
  · exact ⟨.decimal, by decide, nofun, nofun, fun cs => isSome_read_decimal⟩
  · exact ⟨_, valueSpace?_integer hmem, nofun, nofun, fun cs => isSome_read_integer hmem⟩

/-- A literal of a datatype of truth values, decimals or integers has a value exactly if its lexical
form, without the blanks around it, belongs to the lexical space and denotes a value of the datatype
that is represented. For a literal with a value it makes no difference that more blanks are taken
off than those of XML Schema exactly if it has no others. A literal without a value has a key that
no other term has. -/
theorem isExact_iff_lexical {name : String} (hname : name ∈ exactNames) (lexical : String)
    (hs : xsd ++ name ≠ xsdString) :
    let t : Term := .literal (.typed lexical (xsd ++ name) hs)
    let cs := lexical.toList
    ((of t).IsExact ↔ Lexical name (trim cs) ∧ Represented name (trim cs)) ∧
      ((of t).IsExact → (Lexical name (trimXml cs) ↔ trimXml cs = trim cs)) ∧
      (¬ (of t).IsExact → of t = .typed (xsd ++ name) lexical ∧ ∀ u, of u = of t → u = t) := by
  intro t cs
  obtain ⟨space, hspace, hfloat, hdouble, hread⟩ := exists_space hname
  have hkey : ((of t).IsExact ∧ (read? (trim cs) space).isSome = true) ∨
      (of t = .typed (xsd ++ name) lexical ∧ (read? (trim cs) space).isSome = false) := by
    rcases of_typed_cases hs hspace with ⟨k, hk, hof⟩ | ⟨hnone, hof⟩
    · have hexact : k.IsExact := isExact_of_read hk hfloat hdouble
      exact .inl ⟨hof ▸ hexact, by rw [hk, Option.isSome_some]⟩
    · exact .inr ⟨hof, by rw [hnone, Option.isSome_none]⟩
  have haccepted : (of t).IsExact ↔ Lexical name (trim cs) ∧ Represented name (trim cs) := by
    rw [← hread]
    rcases hkey with ⟨hexact, hsome⟩ | ⟨hof, hnone⟩
    · exact iff_of_true hexact hsome
    · exact iff_of_false (hof ▸ id) (by rw [hnone]; decide)
  refine ⟨haccepted, fun hexact => ⟨fun hlexical => ?_, fun he => ?_⟩, fun hout => ?_⟩
  · rw [← hlexical.trim_eq, trim_trimXml]
  · rw [he]
    exact (haccepted.1 hexact).1
  · obtain ⟨hof, -⟩ := hkey.resolve_left fun h => hout h.1
    exact ⟨hof, fun u hu => eq_of_of_eq_typed hs (hu.trans hof)⟩

/-- The least integer of a byte, and the first one beyond the greatest. -/
theorem isExact_iff_lexical_of_padded_byte :
    let least : Term := .literal (.typed "\t-0128 " (xsd ++ "byte") (by decide))
    let beyond : Term := .literal (.typed "\t+0128 " (xsd ++ "byte") (by decide))
    "byte" ∈ exactNames ∧ xsd ++ "byte" ≠ xsdString ∧ (of least).IsExact ∧
      Lexical "byte" (trimXml "\t-0128 ".toList) ∧ ¬ (of beyond).IsExact ∧
      (∀ u, of u = of beyond → u = beyond) := by
  intro least beyond
  have hname : "byte" ∈ exactNames := by decide
  have hs : xsd ++ "byte" ≠ xsdString := by decide
  have hleast : of least = .integer (-128) := by decide
  have hbeyond : of beyond = .typed (xsd ++ "byte") "\t+0128 " := by decide
  have hexact : (of least).IsExact := hleast ▸ trivial
  have hout : ¬ (of beyond).IsExact := hbeyond ▸ id
  exact ⟨hname, hs, hexact, ((isExact_iff_lexical hname _ hs).2.1 hexact).2 (by decide), hout,
    ((isExact_iff_lexical hname _ hs).2.2 hout).2⟩

/-- A no-break space is taken off, although XML Schema does not admit it, so that an ill-typed
literal has the value of a well-typed one. -/
theorem noBreakSpace_taken_off :
    of (.integer "\u00A01") = of (.integer "1") ∧ of (.integer "\u00A01") = .integer 1 ∧
      ¬ Lexical "integer" (trimXml "\u00A01".toList) :=
  ⟨by decide, by decide, fun h => absurd h.trim_eq (by decide)⟩

end ValueKey

end TripleStore
