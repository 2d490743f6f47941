import TripleStore.Text.Hex
import TripleStore.Vocabulary

/-!
# Terms, nodes and triples

A `Term` is an IRI, a blank node or a literal; a `Node` is a term or the wildcard. `Triple α` holds
one `α` in each position, so patterns are triples of nodes, statements are triples of terms, and
the indexes keep triples of ids. No position is restricted to a kind of term.

A typed literal never carries `xsd:string`: such a literal is the simple one, so that equal
literals have one form.
-/

namespace TripleStore

/-- A literal, by the way its value is told. -/
inductive Literal where
  /-- A plain text, of datatype `xsd:string`. -/
  | simple (lexical : String)
  /-- A text in a language; the tag keeps the case it was given. -/
  | tagged (lexical tag : String)
  /-- A lexical form of any other datatype. -/
  | typed (lexical datatype : String) (ne_string : datatype ≠ Vocabulary.xsdString)
deriving DecidableEq

/-- The literal of a datatype, which is the simple one for `xsd:string`. -/
def Literal.ofDatatype (lexical datatype : String) : Literal :=
  if h : datatype = Vocabulary.xsdString then .simple lexical else .typed lexical datatype h

/-- A thing that a triple can name. -/
inductive Term where
  | iri (text : String)
  | blank (label : String)
  | literal (value : Literal)
deriving DecidableEq

/-- A term, or the wildcard that stands for any term. -/
inductive Node where
  | any
  | term (value : Term)
deriving DecidableEq

/-- One `α` in each of the three positions. -/
structure Triple (α : Type) where
  subject : α
  predicate : α
  object : α
deriving DecidableEq, Repr

abbrev Statement := Triple Term

/-- A triple of nodes, which matches every statement that agrees with it outside its wildcards. -/
abbrev Pattern := Triple Node

namespace Triple

variable {α β : Type}

def map (f : α → β) (t : Triple α) : Triple β := ⟨f t.subject, f t.predicate, f t.object⟩

def toList (t : Triple α) : List α := [t.subject, t.predicate, t.object]

def constant (a : α) : Triple α := ⟨a, a, a⟩

/-- The triple of the values, if every position has one. -/
def allSome? (t : Triple (Option α)) : Option (Triple α) := do
  let s ← t.subject
  let p ← t.predicate
  let o ← t.object
  return ⟨s, p, o⟩

end Triple

namespace Literal

/-- How a character is written between the quotes of a literal. -/
def escapeChar (c : Char) : List Char :=
  if c = Char.ofNat 0x08 then ['\\', 'b']
  else if c = '\t' then ['\\', 't']
  else if c = '\n' then ['\\', 'n']
  else if c = Char.ofNat 0x0C then ['\\', 'f']
  else if c = '\r' then ['\\', 'r']
  else if c = '"' then ['\\', '"']
  else if c = '\\' then ['\\', '\\']
  else if c.toNat < 0x20 || c.toNat == 0x7F || c.toNat == 0xFFFE || c.toNat == 0xFFFF then
    '\\' :: 'u' :: Text.upperHexDigits 4 c.toNat
  else [c]

def quoted (lexical : String) : String :=
  "\"" ++ String.ofList (lexical.toList.flatMap escapeChar) ++ "\""

/-- The text of a literal: its quoted form, then its language tag or its datatype. -/
def text : Literal → String
  | .simple lex => quoted lex
  | .tagged lex tag => quoted lex ++ "@" ++ tag
  | .typed lex datatype _ => quoted lex ++ "^^<" ++ datatype ++ ">"

end Literal

/-- The text of a term. IRIs and labels are written as they are. -/
def Term.text : Term → String
  | .iri i => "<" ++ i ++ ">"
  | .blank label => "_:" ++ label
  | .literal l => l.text

namespace Node

def text : Node → String
  | .any => "ANY"
  | .term t => t.text

def isAny : Node → Bool
  | .any => true
  | .term _ => false

def isBlank : Node → Bool
  | .term (.blank _) => true
  | _ => false

def isLiteral : Node → Bool
  | .term (.literal _) => true
  | _ => false

def term? : Node → Option Term
  | .any => none
  | .term t => some t

end Node

namespace Pattern

def any : Pattern := Triple.constant .any

/-- The statement that a pattern without wildcards is. -/
def statement? (p : Pattern) : Option Statement := (p.map Node.term?).allSome?

def isConcrete (p : Pattern) : Bool := p.statement?.isSome

/-- The text of a pattern, its predicate marked. -/
def text (p : Pattern) : String :=
  p.subject.text ++ " @" ++ p.predicate.text ++ " " ++ p.object.text

end Pattern

namespace Statement

/-- The pattern that matches this statement only by its terms. -/
def toPattern (t : Statement) : Pattern := t.map .term

/-- The text of a statement, its predicate marked. -/
def text (t : Statement) : String := t.toPattern.text

end Statement

end TripleStore
