import TripleStore.Graph.Request

/-!
# Cursors

A `Cursor` walks through the matches of a pattern while the graph may change. It keeps the id
patterns still to scan and one page of ids; a page resumes behind the last triple of the page
before it, so what is removed or added behind the cursor does not disturb the rest. Terms are looked
up as the cursor advances. Once the graph is closed it yields one error and ends.
-/

namespace TripleStore

def pageSize : Nat := 256

/-- A walk through the matches of a pattern. -/
structure Cursor where
  /-- The id patterns to scan, the current one first. -/
  pending : List IdTriple
  /-- The triple behind which the current pattern goes on. -/
  resume : Option IdTriple := none
  /-- The ids fetched and not yet yielded. -/
  page : List IdTriple := []
  done : Bool := false
deriving DecidableEq, Repr

namespace Cursor

variable {τ : Type} [NodeTable τ]

/-- Fetches the next page that is not empty. A short page is the last one of its pattern. -/
def fetch (indexes : IndexSet) :
    (pending : List IdTriple) → (resume : Option IdTriple) → Option Cursor
  | [], _ => none
  | p :: rest, resume =>
    match (indexes.findAfter p resume).take pageSize with
    | [] => fetch indexes rest none
    | id :: ids =>
      let page := id :: ids
      some
        (if page.length < pageSize then { pending := rest, resume := none, page }
        else { pending := p :: rest, resume := page.getLast?, page })

/-- The cursor with a page that is not empty, unless nothing is left. -/
def fill (indexes : IndexSet) (c : Cursor) : Option Cursor :=
  if c.page.isEmpty then fetch indexes c.pending c.resume else some c

def yield (nodes : τ) (ids : IdTriple) : Except Error Found :=
  (NodeTable.decodeTriple nodes ids).map fun statement => ⟨ids, statement⟩

/-- The next match, or nothing at the end. A match without terms is an error that does not end the
walk. -/
def next (g : Graph) (nodes : τ) (c : Cursor) : Option (Except Error Found) × Cursor :=
  if c.done then (none, c)
  else if g.closed then (some (.error .closed), { c with done := true })
  else
    match c.fill g.indexes with
    | none => (none, { c with pending := [], resume := none, page := [], done := true })
    | some c' =>
      match c'.page with
      | [] => (none, c')
      | ids :: page => (some (yield nodes ids), { c' with page })

/-- The least and, if it is known, the greatest number of matches left. -/
def sizeHint (c : Cursor) : Nat × Option Nat :=
  if c.done then (0, some 0) else (c.page.length, none)

/-- The matches of at most `count` steps. -/
def takeItems (g : Graph) (nodes : τ) : (count : Nat) → Cursor → List (Except Error Found)
  | 0, _ => []
  | count + 1, c =>
    match c.next g nodes with
    | (none, _) => []
    | (some item, c') => item :: takeItems g nodes count c'

/-- The steps that reach the end of a walk while the graph does not change: a pattern matches no
more triples than are stored. -/
def reach (g : Graph) (c : Cursor) : Nat :=
  c.page.length + c.pending.length * g.indexes.size + 1

def toList (g : Graph) (nodes : τ) (c : Cursor) : List (Except Error Found) :=
  c.takeItems g nodes (c.reach g)

end Cursor

/-- The values of a list of results, or its first error. -/
def firstError {ε α : Type} : List (Except ε α) → Except ε (List α)
  | [] => .ok []
  | .error e :: _ => .error e
  | .ok a :: rest => (firstError rest).map (a :: ·)

namespace Graph

variable {τ : Type} [NodeTable τ]

/-- A cursor through the matches of a pattern, whose terms are looked up now. -/
def find (g : Graph) (nodes : τ) (p : Pattern) : Except Error Cursor :=
  if g.closed then .error .closed else .ok { pending := g.patterns nodes p }

def findAll (g : Graph) (nodes : τ) (p : Pattern) : Except Error (List (Except Error Found)) :=
  (g.find nodes p).map fun c => c.toList g nodes

/-- The statements that match a pattern. The first match without terms is the error. -/
def statements (g : Graph) (nodes : τ) (p : Pattern) : Except Error (List Statement) :=
  (g.findAll nodes p).bind fun items => (firstError items).map fun fs => fs.map (·.statement)

end Graph

end TripleStore
