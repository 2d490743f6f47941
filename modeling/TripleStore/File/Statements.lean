import TripleStore.Compact.BlankLabel
import TripleStore.Compact.Iri
import TripleStore.Compact.LanguageTag
import TripleStore.File.Format
import TripleStore.Term

/-!
# Reading statements

Reads statements written term by term with a dot behind each: the language that the line-based and
the Turtle family of formats have in common. Subjects are IRIs or blank nodes, predicates are IRIs;
IRIs are absolute; language tags are lower-cased; blank labels are kept. Comments run from a hash
to the end of the line.

Where statements stand by line, a statement neither goes on behind the end of its line nor shares
the line with another. In the other formats ends of lines and comments are gaps like blanks.
-/

namespace TripleStore.File

/-- A character that moves on within a line. -/
def isSpace (c : Char) : Bool := c == ' ' || c == '\t'

def endsLine (c : Char) : Bool := c == '\n' || c == '\r'

/-- Without blanks, ends of lines and comments in front. -/
def skip (inComment : Bool) : List Char → List Char
  | [] => []
  | c :: cs =>
    if inComment then skip (!endsLine c) cs
    else if c = '#' then skip true cs
    else if isSpace c || endsLine c then skip false cs
    else c :: cs

/-- Without the gap that may stand in front of the next part of a statement. -/
def skipGap (format : FileFormat) (cs : List Char) : List Char :=
  if format.isByLine then cs.dropWhile isSpace else skip false cs

/-- A statement may end before this text. -/
def endsStatement (format : FileFormat) (cs : List Char) : Bool :=
  !format.isByLine ||
    match cs.dropWhile isSpace with
    | [] => true
    | c :: _ => c == '#' || endsLine c

/-- The character that hexadecimal digits name. -/
def namedChar? (digits : List Char) : Option Char :=
  let n := Text.hexNumber digits
  if digits.all Text.isHexDigit && n.isValidChar then some (Char.ofNat n) else none

/-- The character of an escape with digits, which may stand in IRIs too, and what follows it. -/
def scanNamed? : List Char → Option (Char × List Char)
  | 'u' :: a :: b :: c :: d :: rest => (namedChar? [a, b, c, d]).map fun e => (e, rest)
  | 'U' :: a :: b :: c :: d :: e :: f :: g :: h :: rest =>
    (namedChar? [a, b, c, d, e, f, g, h]).map fun e => (e, rest)
  | _ => none

/-- The character of an escape in a literal, and what follows it. -/
def scanEscape? : List Char → Option (Char × List Char)
  | [] => none
  | c :: rest =>
    if c = 't' then some ('\t', rest)
    else if c = 'b' then some (Char.ofNat 0x08, rest)
    else if c = 'n' then some ('\n', rest)
    else if c = 'r' then some ('\r', rest)
    else if c = 'f' then some (Char.ofNat 0x0C, rest)
    else if c = '"' || c = Char.ofNat 0x27 || c = '\\' then some (c, rest)
    else scanNamed? (c :: rest)

/-- The text up to a closing character, with its escapes read, and what follows the closing
character. The fuel is the length of the text. -/
def scanUntil? (close : Char) (allowed : Char → Bool)
    (escape? : List Char → Option (Char × List Char)) :
    (fuel : Nat) → List Char → Option (List Char × List Char)
  | 0, _ => none
  | _ + 1, [] => none
  | fuel + 1, c :: cs =>
    if c = close then some ([], cs)
    else if c = '\\' then
      match escape? cs with
      | some (e, rest) =>
        (scanUntil? close allowed escape? fuel rest).map fun (text, r) => (e :: text, r)
      | none => none
    else if allowed c then
      (scanUntil? close allowed escape? fuel cs).map fun (text, r) => (c :: text, r)
    else none

/-- A character that may stand for itself in an IRI between angle brackets. -/
def isIriChar (c : Char) : Bool :=
  0x20 < c.toNat && c != '<' && c != '"' && c != '\x7b' && c != '\x7d' && c != '|' && c != '^' &&
    c != Char.ofNat 0x60

/-- An absolute IRI behind its opening bracket. -/
def scanIri? (cs : List Char) : Option (String × List Char) :=
  match scanUntil? '>' isIriChar scanNamed? (cs.length + 1) cs with
  | some (iri, rest) =>
    match Compact.checkIri iri with
    | .ok () => some (String.ofList iri, rest)
    | .error _ => none
  | none => none

/-- A character that may follow in a label. Other than in compact form, a colon may not. -/
def isLabelChar (c : Char) : Bool := Compact.continuesLabel c && c != ':'

/-- The rest of a label. Dots at the end do not belong to it. -/
def takeLabel (cs : List Char) : List Char :=
  ((cs.takeWhile isLabelChar).reverse.dropWhile (· == '.')).reverse

def scanBlank? : List Char → Option (Term × List Char)
  | [] => none
  | c :: cs =>
    if Compact.startsLabel c && c != ':' then
      let label := takeLabel cs
      some (.blank (String.ofList (c :: label)), cs.drop label.length)
    else none

def scanTag? (cs : List Char) : Option (String × List Char) :=
  let isTagChar (c : Char) := Text.isAlphanumeric c || c == '-'
  let tag := (cs.takeWhile isTagChar).map Char.toLower
  match Compact.checkTag tag with
  | .ok () => some (String.ofList tag, cs.dropWhile isTagChar)
  | .error _ => none

def scanDatatype? (format : FileFormat) (cs : List Char) : Option (String × List Char) :=
  match skipGap format cs with
  | '<' :: rest => (scanIri? rest).filter fun (iri, _) => format.admitsDatatype iri
  | _ => none

/-- A literal behind its opening quote, with its tag or datatype. -/
def scanLiteral? (format : FileFormat) (cs : List Char) : Option (Term × List Char) :=
  match scanUntil? '"' (fun c => !endsLine c) scanEscape? (cs.length + 1) cs with
  | none => none
  | some (lexical, rest) =>
    let lexical := String.ofList lexical
    match skipGap format rest with
    | '@' :: rest => (scanTag? rest).map fun (tag, r) => (.literal (.tagged lexical tag), r)
    | '^' :: '^' :: rest =>
      (scanDatatype? format rest).map fun (iri, r) => (.literal (.ofDatatype lexical iri), r)
    | rest => some (.literal (.simple lexical), rest)

def scanTerm? (format : FileFormat) : List Char → Option (Term × List Char)
  | '<' :: rest => (scanIri? rest).map fun (iri, r) => (.iri iri, r)
  | '_' :: ':' :: rest => scanBlank? rest
  | '"' :: rest => scanLiteral? format rest
  | _ => none

def scanStatement? (format : FileFormat) (cs : List Char) : Option (Statement × List Char) := do
  let (subject, rest) ← scanTerm? format cs
  let (predicate, rest) ← scanTerm? format (skipGap format rest)
  let (object, rest) ← scanTerm? format (skipGap format rest)
  match subject, predicate, skipGap format rest with
  | .literal _, _, _ => none
  | _, .iri _, '.' :: rest =>
    if endsStatement format rest then some (⟨subject, predicate, object⟩, rest) else none
  | _, _, _ => none

/-- The statements of a text. The fuel is the length of the text. -/
def scanStatements? (format : FileFormat) : (fuel : Nat) → List Char → Option (List Statement)
  | 0, _ => none
  | fuel + 1, cs =>
    match skip false cs with
    | [] => some []
    | cs => do
      let (t, rest) ← scanStatement? format cs
      let ts ← scanStatements? format fuel rest
      return t :: ts

/-- The statements of a file in a format. Of XML only the text without content is read, which holds
no statement. -/
def statements? (format : FileFormat) (content : String) : Option (List Statement) :=
  let cs := content.toList
  match format with
  | .rdfXml => if cs.all fun c => isSpace c || endsLine c then some [] else none
  | _ => scanStatements? format (cs.length + 1) cs

end TripleStore.File
