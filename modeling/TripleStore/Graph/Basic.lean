import TripleStore.Config
import TripleStore.Graph.Transaction
import TripleStore.NodeTable

/-!
# Graphs

A graph stores triples of ids of one node table. A pattern of nodes is looked up as the id patterns
that cover it: with literal typing a bound term stands for every stored term of its value, without
it for itself only. The pinned triples of a layered graph survive deletes.

One thread at a time works on a graph with an open transaction; `Graph.mustWait` tells the others
to wait.
-/

namespace TripleStore

/-- Triples of ids with what is needed to change them safely. -/
structure Graph where
  config : Config
  indexes : IndexSet
  /-- The triples that deletes leave in place. -/
  pinned : List IdTriple := []
  txn : Option Transaction := none
  closed : Bool := false
deriving DecidableEq, Repr

namespace Graph

variable {τ : Type} [NodeTable τ]

def create (config : Config) : Graph := { config, indexes := .empty config.indexOrders }

/-- Stores statements and pins them, up to the first one that cannot be stored. -/
def pinAll (g : Graph) (nodes : τ) : List Pattern → Except Error Graph × τ
  | [] => (.ok g, nodes)
  | p :: ps =>
    match NodeTable.encodeTriple nodes p with
    | (.error e, nodes) => (.error e, nodes)
    | (.ok ids, nodes) =>
      match g.indexes.insert ids with
      | .error e => (.error e, nodes)
      | .ok (_, indexes) => pinAll { g with indexes, pinned := g.pinned ++ [ids] } nodes ps

/-- The graph that always holds the given statements. If there are any, it cannot be empty. -/
def createPinned (config : Config) (nodes : τ) (statements : List Pattern) :
    Except Error Graph × τ :=
  let capabilities :=
    if statements.isEmpty then config.capabilities
    else { config.capabilities with canBeEmpty := false }
  pinAll (create { config with capabilities }) nodes statements

def capabilities (g : Graph) : Capabilities := g.config.capabilities

/-- Another thread holds a transaction that has yet to end. -/
def mustWait (g : Graph) (who : Thread) : Bool :=
  !g.closed && g.txn.any fun t => t.owner ≠ who

/-- The thread holds the open transaction. -/
def inTransaction (g : Graph) (who : Thread) : Bool := g.txn.any fun t => t.owner = who

/-- The ids that a bound or unbound position stands for. -/
def candidates (g : Graph) (nodes : τ) : Node → List NodeId
  | .any => [.any]
  | .term t =>
    if g.capabilities.handlesLiteralTyping then NodeTable.equivalents nodes t
    else
      match NodeTable.lookup nodes t with
      | .missing => []
      | id => [id]

/-- The id patterns that cover a pattern. -/
def patterns (g : Graph) (nodes : τ) (p : Pattern) : List IdTriple :=
  (g.candidates nodes p.subject).flatMap fun s =>
    (g.candidates nodes p.predicate).flatMap fun p' =>
      (g.candidates nodes p.object).map fun o => ⟨s, p', o⟩

def matching (g : Graph) (nodes : τ) (p : Pattern) : List IdTriple :=
  (g.patterns nodes p).flatMap g.indexes.find

def contains (g : Graph) (nodes : τ) (p : Pattern) : Except Error Bool :=
  if g.closed then .error .closed
  else .ok ((g.patterns nodes p).any g.indexes.containsMatch)

def size (g : Graph) : Except Error Nat :=
  if g.closed then .error .closed else .ok g.indexes.size

def isEmpty (g : Graph) : Except Error Bool := g.size.map (· == 0)

end Graph

end TripleStore
