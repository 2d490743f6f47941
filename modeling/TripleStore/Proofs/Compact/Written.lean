import Mathlib.Data.List.Basic
import Mathlib.Tactic.SplitIfs
import TripleStore.Compact.Reader
import TripleStore.Proofs.Text.Blank

/-!
# Reading what is written in compact form

`write` gives the compact form of a node that spells everything out: IRIs in full, literals between
single quotes. A node is `Writable` if the checks accept its parts and its text shows no mark that
separates nodes or triples. Of writable nodes the written form is read as the node, of triples and
of lists of triples likewise, whatever quotes, colons, digits or other marks their parts hold.

Any checks will do that are `Lawful`, as those by the grammars are.
-/

namespace TripleStore.Compact

open Text

/-! ### What the checks accept -/

/-- An accepted IRI starts with a letter, and holds a colon. -/
theorem scheme_of_checkIri {cs : List Char} (h : checkIri cs = .ok ()) :
    ':' ∈ cs ∧ ∃ c rest, cs = c :: rest ∧ isLetter c = true := by
  have hscheme : (afterScheme? cs).isSome = true := by
    cases hafter : afterScheme? cs with
    | some rest => rfl
    | none =>
      unfold checkIri at h
      split at h
      · cases h
      · simp only [hafter] at h
        cases hrelative : checkRelative cs <;> rw [hrelative] at h <;> cases h
  cases cs with
  | nil => cases hscheme
  | cons c cs =>
    rw [afterScheme?] at hscheme
    split at hscheme
    next hletter =>
      refine ⟨List.mem_cons_of_mem c ?_, c, cs, rfl, hletter⟩
      split at hscheme
      next rest hrest => exact (List.dropWhile_suffix _).subset (hrest ▸ List.mem_cons_self)
      next => cases hscheme
    next => cases hscheme

theorem isDigit_of_isLetter {c : Char} (h : isLetter c = true) : c.isDigit = false := by
  have hrange : (97 ≤ c.toNat ∧ c.toNat ≤ 122) ∨ 65 ≤ c.toNat ∧ c.toNat ≤ 90 := by
    simpa [isLetter, Char.le_def, UInt32.le_iff_toNat_le] using h
  rw [← Bool.not_eq_true, Char.isDigit, Bool.and_eq_true, decide_eq_true_eq, decide_eq_true_eq]
  rintro ⟨-, hdigit⟩
  have hgreatest : c.toNat ≤ 57 := UInt32.le_iff_toNat_le.1 hdigit
  omega

theorem isAlphanumeric_of_isLetter {cs : List Char} (h : cs.all isLetter = true) :
    cs.all isAlphanumeric = true := by
  rw [List.all_eq_true] at h ⊢
  intro c hc
  rw [isAlphanumeric, h c hc, Bool.true_or]

theorem isAlphanumeric_of_isRegion {cs : List Char} (h : isRegion cs = true) :
    cs.all isAlphanumeric = true := by
  rw [isRegion, Bool.or_eq_true, Bool.and_eq_true, Bool.and_eq_true] at h
  rcases h with ⟨-, hletters⟩ | ⟨-, hdigits⟩
  · exact isAlphanumeric_of_isLetter hletters
  · rw [List.all_eq_true] at hdigits ⊢
    intro c hc
    rw [isAlphanumeric, hdigits c hc, Bool.or_true]

theorem isAlphanumeric_of_isVariant {cs : List Char} (h : isVariant cs = true) :
    cs.all isAlphanumeric = true :=
  (Bool.and_eq_true_iff.1 h).1

theorem readPlainSubtag_strange {subtag : List Char} (h : subtag.all isAlphanumeric ≠ true)
    (place : TagPlace) : readPlainSubtag place subtag = .error .strangeSubtag := by
  have hletters := Bool.eq_false_iff.2 (mt isAlphanumeric_of_isLetter h)
  have hregion := Bool.eq_false_iff.2 (mt isAlphanumeric_of_isRegion h)
  have hvariant := Bool.eq_false_iff.2 (mt isAlphanumeric_of_isVariant h)
  cases place <;> simp [readPlainSubtag, h, hletters, hregion, hvariant]

/-- A subtag that is read holds something, and letters and digits only. -/
theorem subtag_of_readSubtag {place next : TagPlace} {subtag : List Char}
    (h : readSubtag place subtag = .ok next) :
    subtag ≠ [] ∧ subtag.all isAlphanumeric = true := by
  constructor
  · rintro rfl
    cases h
  · by_contra hstrange
    have hletters := Bool.eq_false_iff.2 (mt isAlphanumeric_of_isLetter hstrange)
    have hplain := readPlainSubtag_strange hstrange place
    rw [Bool.not_eq_true] at hstrange
    unfold readSubtag at h
    cases place <;>
      simp only [hplain, hstrange, hletters, Bool.and_false, Bool.false_eq_true, if_false] at h <;>
      split_ifs at h

theorem subtags_of_readSubtags {place : TagPlace} {subtags : List (List Char)}
    (h : readSubtags place subtags = .ok ()) :
    ∀ subtag ∈ subtags, subtag ≠ [] ∧ subtag.all isAlphanumeric = true := by
  induction subtags generalizing place with
  | nil => exact List.forall_mem_nil _
  | cons subtag rest ih =>
    rw [readSubtags] at h
    cases hread : readSubtag place subtag with
    | error fault => rw [hread] at h; cases h
    | ok next =>
      rw [hread] at h
      exact List.forall_mem_cons.2 ⟨subtag_of_readSubtag hread, ih h⟩

/-- An accepted tag holds something, and letters, digits and hyphens only. -/
theorem tag_of_checkTag {tag : List Char} (h : checkTag tag = .ok ()) :
    tag ≠ [] ∧ ∀ c ∈ tag, isAlphanumeric c = true ∨ c = '-' := by
  have hsubtags {place : TagPlace} {cs : List Char}
      (hread : readSubtags place (pieces (· == '-') cs) = .ok ()) :
      cs ≠ [] ∧ ∀ c ∈ cs, isAlphanumeric c = true ∨ c = '-' := by
    have hall := subtags_of_readSubtags hread
    refine ⟨?_, fun c hc => or_iff_not_imp_right.2 fun hne => ?_⟩
    · rintro rfl
      exact (hall [] List.mem_cons_self).1 rfl
    · obtain ⟨w, hw, hcw⟩ : ∃ w ∈ pieces (· == '-') cs, c ∈ w :=
        mem_pieces hc (beq_false_of_ne hne)
      exact List.all_eq_true.1 (hall w hw).2 c hcw
  unfold checkTag at h
  split at h
  next hgrandfathered =>
    have hknown : ∀ name ∈ grandfathered, name.toList ≠ [] ∧
        name.toList.all (fun c => isAlphanumeric c || c == '-') = true := by decide
    simpa using hknown _ (List.contains_iff_mem.1 hgrandfathered)
  next =>
    split at h
    next rest =>
      split at h
      next => cases h
      next =>
        refine ⟨List.cons_ne_nil _ _, List.forall_mem_cons.2 ⟨.inl (by decide), ?_⟩⟩
        exact List.forall_mem_cons.2 ⟨.inr rfl, (hsubtags h).2⟩
    next => exact hsubtags h

theorem mapError_eq_ok_iff {ε ε' α : Type} {f : ε → ε'} {x : Except ε α} {a : α} :
    x.mapError f = .ok a ↔ x = .ok a := by
  cases x <;> simp [Except.mapError]

/-- What reading expects of the checks. -/
structure Checks.Lawful (checks : Checks) : Prop where
  /-- An accepted IRI starts with a letter, and holds a colon. -/
  scheme : ∀ {cs}, checks.iri cs = .ok () →
    ':' ∈ cs ∧ ∃ c rest, cs = c :: rest ∧ isLetter c = true
  /-- An accepted tag holds something, and letters, digits and hyphens only. -/
  subtags : ∀ {cs}, checks.tag cs = .ok () →
    cs ≠ [] ∧ ∀ c ∈ cs, isAlphanumeric c = true ∨ c = '-'
  named : ∀ {cs}, checks.label cs = .ok () → cs ≠ []

theorem lawful_grammars : Checks.grammars.Lawful where
  scheme h := scheme_of_checkIri (mapError_eq_ok_iff.1 h)
  subtags h := tag_of_checkTag (mapError_eq_ok_iff.1 h)
  named {cs} h := by
    rintro rfl
    cases h

variable {checks : Checks}

theorem Checks.Lawful.not_mem_tag (hchecks : checks.Lawful) {tag : List Char}
    (h : checks.tag tag = .ok ()) {c : Char} (hc : isAlphanumeric c = false) (hhyphen : c ≠ '-') :
    c ∉ tag := by
  intro hmem
  have halphanumeric := ((hchecks.subtags h).2 c hmem).resolve_right hhyphen
  exact Bool.false_ne_true (hc.symm.trans halphanumeric)

/-! ### Writing -/

/-- What stands behind the closing quote of a literal. -/
def suffix : Literal → List Char
  | .simple _ => []
  | .tagged _ tag => tag.toList
  | .typed _ datatype _ => datatype.toList

def lexicalForm : Literal → List Char
  | .simple lexical | .tagged lexical _ | .typed lexical _ _ => lexical.toList

/-- A node in compact form, without abbreviations. -/
def write : Node → List Char
  | .any => ['?', '?']
  | .term (.iri i) => i.toList
  | .term (.blank label) => '_' :: label.toList
  | .term (.literal l) => quote :: (lexicalForm l ++ quote :: suffix l)

def writeTriple (p : Pattern) : List Char := [' '].intercalate (p.toList.map write)

/-- Each of the texts is a triple of the list, in order, or holds nothing but blanks. -/
inductive Entries : List Pattern → List (List Char) → Prop where
  | nil : Entries [] []
  | blank {ps : List Pattern} {texts : List (List Char)} {text : List Char}
      (hblank : text.all isBlank = true) (h : Entries ps texts) : Entries ps (text :: texts)
  | triple {ps : List Pattern} {texts : List (List Char)} (p : Pattern) (h : Entries ps texts) :
      Entries (p :: ps) (writeTriple p :: texts)

/-- The IRI is accepted, and its scheme is not the abbreviation of a namespace. -/
structure Unabbreviated (checks : Checks) (i : String) : Prop where
  accepted : checks.iri i.toList = .ok ()
  scheme : Vocabulary.namespace? (String.ofList (i.toList.takeWhile (· != ':'))) = none

instance (i : String) : Decidable (Unabbreviated checks i) :=
  decidable_of_iff (checks.iri i.toList = .ok () ∧
    Vocabulary.namespace? (String.ofList (i.toList.takeWhile (· != ':'))) = none)
    ⟨fun h => ⟨h.1, h.2⟩, fun h => ⟨h.accepted, h.scheme⟩⟩

/-- The checks accept what the literal holds behind its closing quote: a tag in lower case, or the
IRI of a datatype in which no quote stands. -/
def AcceptedSuffix (checks : Checks) : Literal → Prop
  | .simple _ => True
  | .tagged _ tag => checks.tag tag.toList = .ok () ∧ tag.toList.map Char.toLower = tag.toList
  | .typed _ datatype _ => Unabbreviated checks datatype ∧ quote ∉ datatype.toList

instance : DecidablePred (AcceptedSuffix checks)
  | .simple _ => .isTrue trivial
  | .tagged _ _ => inferInstanceAs (Decidable (_ ∧ _))
  | .typed _ _ _ => inferInstanceAs (Decidable (_ ∧ _))

/-- The checks accept the parts of the node. -/
def Accepted (checks : Checks) : Node → Prop
  | .any => True
  | .term (.iri i) => Unabbreviated checks i
  | .term (.blank label) => checks.label label.toList = .ok ()
  | .term (.literal l) => AcceptedSuffix checks l

instance : DecidablePred (Accepted checks)
  | .any => .isTrue trivial
  | .term (.iri i) => inferInstanceAs (Decidable (Unabbreviated checks i))
  | .term (.blank _) => inferInstanceAs (Decidable (_ = _))
  | .term (.literal l) => inferInstanceAs (Decidable (AcceptedSuffix checks l))

/-- The checks accept the parts of the node, and nothing in its text separates nodes or triples. -/
structure Writable (checks : Checks) (n : Node) : Prop where
  accepted : Accepted checks n
  joined : ∀ c ∈ write n, isBlank c = false ∧ c ≠ ';'

instance (n : Node) : Decidable (Writable checks n) :=
  decidable_of_iff (Accepted checks n ∧ (write n).all (fun c => !isBlank c && c != ';') = true)
    ⟨fun h => ⟨h.1, by simpa using h.2⟩, fun h => ⟨h.accepted, by simpa using h.joined⟩⟩

/-! ### Reading a node -/

theorem expand_of_unabbreviated (hchecks : checks.Lawful) {i : String}
    (h : Unabbreviated checks i) : expand i.toList = i.toList := by
  obtain ⟨hcolon, -⟩ := hchecks.scheme h.accepted
  unfold expand
  split
  next hnone => exact absurd (List.dropWhile_eq_nil_iff.1 hnone _ hcolon) (by decide)
  next => rw [h.scheme]

theorem readIri_toList (hchecks : checks.Lawful) {i : String} (h : Unabbreviated checks i) :
    readIri checks i.toList = .ok i := by
  rw [readIri, expand_of_unabbreviated hchecks h, h.accepted, String.ofList_toList]

theorem splitLastQuote_append (lexical : List Char) {suffix : List Char} (h : quote ∉ suffix) :
    splitLastQuote (lexical ++ quote :: suffix) = some (lexical, suffix) := by
  have hpass : ∀ c ∈ suffix.reverse, (c != quote) = true := by
    intro c hc
    exact bne_iff_ne.2 fun he => h (he ▸ List.mem_reverse.1 hc)
  have hreverse : (lexical ++ quote :: suffix).reverse =
      suffix.reverse ++ quote :: lexical.reverse := by simp
  rw [splitLastQuote, hreverse, List.dropWhile_append_of_pos hpass,
    List.dropWhile_cons_of_neg (by simp), List.takeWhile_append_of_pos hpass,
    List.takeWhile_cons_of_neg (by simp)]
  simp

theorem quote_not_mem_suffix (hchecks : checks.Lawful) {l : Literal}
    (h : AcceptedSuffix checks l) : quote ∉ suffix l := by
  cases l with
  | simple lexical => exact List.not_mem_nil
  | tagged lexical tag => exact hchecks.not_mem_tag h.1 (by decide) (by decide)
  | typed lexical datatype hs => exact h.2

theorem readLiteral_write (hchecks : checks.Lawful) {l : Literal} (h : AcceptedSuffix checks l) :
    readLiteral checks (lexicalForm l ++ quote :: suffix l) = .ok l := by
  rw [readLiteral, splitLastQuote_append _ (quote_not_mem_suffix hchecks h)]
  cases l with
  | simple lexical => simp [suffix, lexicalForm]
  | tagged lexical tag =>
    obtain ⟨hne, -⟩ := hchecks.subtags h.1
    have hcolon : ':' ∉ tag.toList := hchecks.not_mem_tag h.1 (by decide) (by decide)
    simp only [suffix, lexicalForm, List.isEmpty_iff, hne, if_false, List.contains_iff_mem, hcolon,
      h.2, h.1, String.ofList_toList]
  | typed lexical datatype hs =>
    obtain ⟨hcolon, c, rest, hcons, -⟩ := hchecks.scheme h.1.accepted
    have hne : datatype.toList ≠ [] := hcons ▸ List.cons_ne_nil c rest
    simp only [suffix, lexicalForm, List.isEmpty_iff, hne, if_false,
      List.contains_iff_mem.2 hcolon, if_true, readIri_toList hchecks h.1, String.ofList_toList]
    rw [Except.map, Literal.ofDatatype, dif_neg hs]

/-- The written form of a node is read as the node. -/
theorem readWord_write (hchecks : checks.Lawful) {n : Node} (h : Accepted checks n) :
    readWord checks (write n) = .ok n := by
  cases n with
  | any => rfl
  | term t =>
    cases t with
    | iri i =>
      obtain ⟨-, c, rest, hcons, hletter⟩ := hchecks.scheme h.accepted
      have hstart {d : Char} (hd : isLetter d = false) : c ≠ d := by
        rintro rfl
        exact Bool.false_ne_true (hd.symm.trans hletter)
      have hnumber : isNumber i.toList = false := by
        have hhyphen : (c == '-') = false := beq_false_of_ne (hstart (by decide))
        rw [hcons, isNumber, isDigit_of_isLetter hletter, hhyphen, Bool.false_and, Bool.or_false,
          Bool.false_and]
      have hread : readWord checks i.toList =
          (readIri checks i.toList).map fun i => .term (.iri i) := by
        rw [hcons] at hnumber ⊢
        rw [readWord, if_neg (hstart (by decide)), if_neg (hstart (by decide)),
          if_neg (hstart (by decide)), hnumber, if_neg Bool.false_ne_true]
      rw [write, hread, readIri_toList hchecks h]
      rfl
    | blank label =>
      have hlabel : checks.label label.toList = .ok () := h
      have hne : label.toList.isEmpty = false := by
        rw [Bool.eq_false_iff, ne_eq, List.isEmpty_iff]
        exact hchecks.named hlabel
      have hread : readBlank checks label.toList = .ok (.blank label) := by
        simp only [readBlank, hne, Bool.false_eq_true, if_false, hlabel, String.ofList_toList]
      rw [write, readWord, if_neg (by decide), if_pos rfl, hread]
      rfl
    | literal l =>
      rw [write, readWord, if_neg (by decide), if_neg (by decide), if_pos rfl,
        readLiteral_write hchecks h]
      rfl

/-! ### Reading triples -/

theorem write_ne_nil (hchecks : checks.Lawful) {n : Node} (h : Accepted checks n) :
    write n ≠ [] := by
  intro hnil
  have hread := readWord_write hchecks h
  rw [hnil] at hread
  cases hread

theorem readNode_write (hchecks : checks.Lawful) {n : Node} (h : Writable checks n) :
    readNode checks (write n) = .ok n := by
  rw [readNode, trim_eq_self fun c hc => (h.joined c hc).1, readWord_write hchecks h.accepted]

/-- The words of a written triple are its nodes as written. -/
theorem words_writeTriple (hchecks : checks.Lawful) {p : Pattern}
    (h : ∀ n ∈ p.toList, Writable checks n) : words (writeTriple p) = p.toList.map write :=
  words_intercalate (by decide)
    (List.forall_mem_map.2 fun n hn => write_ne_nil hchecks (h n hn).accepted)
    (List.forall_mem_map.2 fun n hn c hc => ((h n hn).joined c hc).1)

theorem readTriple_write (hchecks : checks.Lawful) {p : Pattern}
    (h : ∀ n ∈ p.toList, Writable checks n) : readTriple checks (writeTriple p) = .ok p := by
  have hread : ∀ n ∈ p.toList, readNode checks (write n) = .ok n :=
    fun n hn => readNode_write hchecks (h n hn)
  obtain ⟨hs, hp, ho⟩ : readNode checks (write p.subject) = .ok p.subject ∧
      readNode checks (write p.predicate) = .ok p.predicate ∧
      readNode checks (write p.object) = .ok p.object := by
    simpa [Triple.toList] using hread
  rw [readTriple, words_writeTriple hchecks h]
  simp only [Triple.toList, List.map_cons, List.map_nil, hs, hp, ho]
  rfl

theorem writeTriple_eq (p : Pattern) : writeTriple p =
    write p.subject ++ [' '] ++ write p.predicate ++ [' '] ++ write p.object := by
  simp [writeTriple, Triple.toList]

theorem writeTriple_ne_nil (p : Pattern) : writeTriple p ≠ [] := by
  simp [writeTriple_eq]

/-- A written triple starts and ends with a character of a node. -/
theorem trim_writeTriple (hchecks : checks.Lawful) {p : Pattern}
    (h : ∀ n ∈ p.toList, Writable checks n) : trim (writeTriple p) = writeTriple p := by
  have hsubject : Writable checks p.subject := h _ (by simp [Triple.toList])
  have hobject : Writable checks p.object := h _ (by simp [Triple.toList])
  apply trim_of_ends
  · intro c hc
    simp only [writeTriple_eq, List.append_assoc,
      List.head?_append_of_ne_nil _ (write_ne_nil hchecks hsubject.accepted)] at hc
    exact (hsubject.joined c (List.mem_of_mem_head? hc)).1
  · intro c hc
    rw [writeTriple_eq,
      List.getLast?_append_of_ne_nil _ (write_ne_nil hchecks hobject.accepted)] at hc
    exact (hobject.joined c (List.mem_of_mem_getLast? hc)).1

theorem semicolon_not_mem_writeTriple {p : Pattern} (h : ∀ n ∈ p.toList, Writable checks n) :
    ∀ c ∈ writeTriple p, (c == ';') = false := by
  have hnode : ∀ n ∈ p.toList, ∀ c ∈ write n, (c == ';') = false :=
    fun n hn c hc => beq_false_of_ne ((h n hn).joined c hc).2
  simp only [Triple.toList, List.forall_mem_cons] at hnode
  obtain ⟨hsubject, hpredicate, hobject, -⟩ := hnode
  have hspace : ∀ c ∈ [' '], (c == ';') = false := List.forall_mem_singleton.2 rfl
  simp only [writeTriple_eq, List.forall_mem_append]
  exact ⟨⟨⟨⟨hsubject, hspace⟩, hpredicate⟩, hspace⟩, hobject⟩

/-- No semicolon stands in an entry. -/
theorem Entries.joined {ps : List Pattern} {texts : List (List Char)} (h : Entries ps texts)
    (hps : ∀ p ∈ ps, ∀ n ∈ p.toList, Writable checks n) :
    ∀ text ∈ texts, ∀ c ∈ text, (c == ';') = false := by
  induction h with
  | nil => exact List.forall_mem_nil _
  | @blank ps texts text hblank h ih =>
    refine List.forall_mem_cons.2 ⟨fun c hc => beq_false_of_ne ?_, ih hps⟩
    rintro rfl
    exact absurd (List.all_eq_true.1 hblank ';' hc) (by decide)
  | triple p h ih =>
    obtain ⟨hp, hps⟩ := List.forall_mem_cons.1 hps
    exact List.forall_mem_cons.2 ⟨semicolon_not_mem_writeTriple hp, ih hps⟩

/-- Of the entries, those that hold something are read as the triples of the list. -/
theorem Entries.mapM_readTriple (hchecks : checks.Lawful) {ps : List Pattern}
    {texts : List (List Char)} (h : Entries ps texts)
    (hps : ∀ p ∈ ps, ∀ n ∈ p.toList, Writable checks n) :
    ((texts.map trim).filter fun entry => !entry.isEmpty).mapM (readTriple checks) = .ok ps := by
  induction h with
  | nil => rfl
  | blank hblank h ih =>
    rw [List.map_cons, trim_of_blank (List.all_eq_true.1 hblank)]
    exact ih hps
  | triple p h ih =>
    obtain ⟨hp, hps⟩ := List.forall_mem_cons.1 hps
    have hne : (!(writeTriple p).isEmpty) = true := by simp [writeTriple_ne_nil p]
    rw [List.map_cons, trim_writeTriple hchecks hp, List.filter_cons, if_pos hne, List.mapM_cons,
      readTriple_write hchecks hp, ih hps]
    rfl

/-- The triples of a list, written with single spaces between nodes and joined by semicolons, are
read as the list, also if entries that hold nothing stand among them. -/
theorem readTriples_write (hchecks : checks.Lawful) {ps : List Pattern} {texts : List (List Char)}
    (h : Entries ps texts) (hps : ∀ p ∈ ps, ∀ n ∈ p.toList, Writable checks n) :
    readTriples checks ([';'].intercalate texts) = .ok ps := by
  rcases eq_or_ne texts [] with rfl | hne
  · cases h
    rfl
  · rw [readTriples, pieces_intercalate rfl hne (h.joined hps), h.mapM_readTriple hchecks hps]

/-- Three triples whose literals and IRIs hold quotes, colons and digits, among four entries that
hold nothing. -/
theorem readTriples_write_quoted :
    let a : Pattern := ⟨.term (.iri "urn:_?'1'"), .any,
      .term (.literal (.typed "it's:'1" (Vocabulary.xsd ++ "byte") (by decide)))⟩
    let b : Pattern := ⟨.term (.blank "0_.b"), .term (.iri "XSD:'int'"),
      .term (.literal (.tagged "'" "en-gb-oed"))⟩
    let c : Pattern := ⟨.term (.literal (.simple "xsd:42'")), .term (.iri "eh1:/??#"), .any⟩
    let texts := [[], [' ', '\t'], writeTriple a, [], writeTriple b, writeTriple c, ['\u3000']]
    let text := "; \t;urn:_?'1' ?? 'it's:'1'http://www.w3.org/2001/XMLSchema#byte;" ++
      ";_0_.b XSD:'int' '''en-gb-oed;'xsd:42'' eh1:/??# ??;\u3000"
    Checks.grammars.Lawful ∧ Entries [a, b, c] texts ∧
      (∀ p ∈ [a, b, c], ∀ n ∈ p.toList, Writable .grammars n) ∧
      [';'].intercalate texts = text.toList ∧
      readTriples .grammars text.toList = .ok [a, b, c] := by
  intro a b c texts text
  have hps : ∀ p ∈ [a, b, c], ∀ n ∈ p.toList, Writable .grammars n := by decide +kernel
  have hentries : Entries [a, b, c] texts :=
    .blank (by decide) (.blank (by decide) (.triple a (.blank (by decide) (.triple b (.triple c
      (.blank (by decide) .nil))))))
  have htext : [';'].intercalate texts = text.toList := by decide +kernel
  exact ⟨lawful_grammars, hentries, hps, htext,
    htext ▸ readTriples_write lawful_grammars hentries hps⟩

end TripleStore.Compact
