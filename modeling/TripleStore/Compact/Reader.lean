import TripleStore.Compact.BlankLabel
import TripleStore.Compact.Iri
import TripleStore.Compact.LanguageTag
import TripleStore.Term

/-!
# Compact form

A short way to write nodes and triples:

* `??`, or any word that starts with a question mark: the wildcard;
* `_label`: a blank node, called `b` if there is no label;
* a text between single quotes, of which the last one closes it: a literal, with a language tag or
  a datatype behind it;
* a run of digits, also behind a minus: an `xsd:integer` literal;
* `label:local`: an IRI, expanded if the label abbreviates a namespace;
* any other word `w`: the IRI `eh:/w`.

Three nodes between blanks are a triple; triples between semicolons are a list of them. Whether an
IRI, a language tag or a label will do is for `Checks` to say.
-/

namespace TripleStore.Compact

/-- Checks of the parts of nodes. A check that refuses a part tells why. -/
structure Checks where
  iri : List Char → Except String Unit
  /-- Of a tag in lower case. -/
  tag : List Char → Except String Unit
  label : List Char → Except String Unit

/-- The checks by the grammars of IRIs, tags and labels. -/
def Checks.grammars : Checks where
  iri cs := (checkIri cs).mapError IriFault.message
  tag cs := (checkTag cs).mapError TagFault.message
  label cs := if isLabel cs then .ok () else .error "The blank node identifier is invalid"

inductive Why where
  | emptyNode
  | unterminatedLiteral
  | notThreeNodes
  /-- A check refuses a part. -/
  | refused (message : String)
deriving DecidableEq, Repr

def Why.message : Why → String
  | .emptyNode => "empty node"
  | .unterminatedLiteral => "unterminated literal"
  | .notThreeNodes => "expected three nodes"
  | .refused message => message

structure Fault where
  text : String
  why : Why
deriving DecidableEq, Repr

/-- The text of a fault: what was read, in quotes, and why it was refused. -/
def Fault.message (f : Fault) : String := "'" ++ f.text ++ "': " ++ f.why.message

def quote : Char := Char.ofNat 0x27

def refuse (text : List Char) (why : Why) : Fault := ⟨String.ofList text, why⟩

/-- The text that a word stands for as an IRI. -/
def expand (word : List Char) : List Char :=
  match word.dropWhile (· != ':') with
  | [] => Vocabulary.eh.toList ++ word
  | _ :: rest =>
    match Vocabulary.namespace? (String.ofList (word.takeWhile (· != ':'))) with
    | some ns => ns.toList ++ rest
    | none => word

/-- The texts before and behind the last quote. -/
def splitLastQuote (cs : List Char) : Option (List Char × List Char) :=
  match cs.reverse.dropWhile (· != quote) with
  | [] => none
  | _ :: before => some (before.reverse, (cs.reverse.takeWhile (· != quote)).reverse)

/-- A digit, or a minus that something follows, and behind it digits only. -/
def isNumber : List Char → Bool
  | [] => false
  | c :: cs => (c.isDigit || (c == '-' && !cs.isEmpty)) && cs.all Char.isDigit

section

variable (checks : Checks)

def readIri (word : List Char) : Except Fault String :=
  match checks.iri (expand word) with
  | .ok () => .ok (String.ofList (expand word))
  | .error message => .error (refuse word (.refused message))

/-- Reads a literal whose opening quote is left out. A fault in its tag is reported with the whole
literal, a fault in its datatype with the datatype. -/
def readLiteral (body : List Char) : Except Fault Literal :=
  match splitLastQuote body with
  | none => .error (refuse (quote :: body) .unterminatedLiteral)
  | some (lexical, suffix) =>
    if suffix.isEmpty then .ok (.simple (String.ofList lexical))
    else if suffix.contains ':' then
      (readIri checks suffix).map (Literal.ofDatatype (String.ofList lexical))
    else
      let tag := suffix.map Char.toLower
      match checks.tag tag with
      | .ok () => .ok (.tagged (String.ofList lexical) (String.ofList tag))
      | .error message => .error (refuse (quote :: body) (.refused message))

/-- Reads a blank node whose underscore is left out. -/
def readBlank (label : List Char) : Except Fault Term :=
  let name := if label.isEmpty then ['b'] else label
  match checks.label name with
  | .ok () => .ok (.blank (String.ofList name))
  | .error message => .error (refuse ('_' :: label) (.refused message))

/-- Reads a node without blanks around it. -/
def readWord (word : List Char) : Except Fault Node :=
  match word with
  | [] => .error (refuse [] .emptyNode)
  | c :: cs =>
    if c = '?' then .ok .any
    else if c = '_' then (readBlank checks cs).map .term
    else if c = quote then (readLiteral checks cs).map fun l => .term (.literal l)
    else if isNumber word then
      .ok (.term (.literal (.ofDatatype (String.ofList word) Vocabulary.xsdInteger)))
    else (readIri checks word).map fun i => .term (.iri i)

def readNode (text : List Char) : Except Fault Node := readWord checks (Text.trim text)

def readTriple (text : List Char) : Except Fault Pattern :=
  match Text.words text with
  | [s, p, o] => do
    let s ← readNode checks s
    let p ← readNode checks p
    let o ← readNode checks o
    return ⟨s, p, o⟩
  | _ => .error (refuse text .notThreeNodes)

/-- Reads a list of triples. Entries that hold nothing are left out. -/
def readTriples (text : List Char) : Except Fault (List Pattern) :=
  (((Text.pieces (· == ';') text).map Text.trim).filter fun entry => !entry.isEmpty).mapM
    (readTriple checks)

end

end TripleStore.Compact
