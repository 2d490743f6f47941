import TripleStore.Text.Blank
import TripleStore.Vocabulary

/-!
# File formats

The format of a file follows from the extension of its name: what stands behind the last dot of the
last component, unless that dot is the first character. Empty components and single dots do not
count as components.
-/

namespace TripleStore

inductive FileFormat where
  | nTriples
  | rdfXml
  | n3
  | turtle
deriving DecidableEq, Repr

namespace FileFormat

/-- Each statement stands on a line of its own. -/
def isByLine (format : FileFormat) : Bool := format = .nTriples

/-- An untagged literal may name the datatype. The one of tagged literals is refused, except in
N3. -/
def admitsDatatype (format : FileFormat) (datatype : String) : Bool :=
  format = .n3 || datatype != Vocabulary.rdfLangString

def components (path : List Char) : List (List Char) :=
  (Text.pieces (· == '/') path).filter fun c => !c.isEmpty && c != ['.']

def extensionOf? (name : List Char) : Option (List Char) :=
  if name = ['.', '.'] then none
  else
    match name.reverse.dropWhile (· != '.') with
    | [] => none
    | [_] => none
    | _ => some (name.reverse.takeWhile (· != '.')).reverse

def extension? (path : List Char) : Option (List Char) :=
  (components path).getLast?.bind extensionOf?

def ofExtension (extension : Option String) : FileFormat :=
  match extension with
  | some "nt" => .nTriples
  | some "xml" | some "rdf" | some "owl" => .rdfXml
  | some "n3" => .n3
  | _ => .turtle

def ofPath (path : String) : FileFormat :=
  ofExtension ((extension? path.toList).map String.ofList)

end FileFormat

end TripleStore
