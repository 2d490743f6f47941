import TripleStore.Graph.Basic
import TripleStore.Graph.Event

/-!
# Requests

`Graph.perform` carries out one request on a graph. A mutation works on a draft; if it fails midway
its changes are taken back, and if it succeeds they go into the undo log of the open transaction and
its events are handed out to be delivered. Nothing is delivered for a request that fails.
-/

namespace TripleStore

/-- A match with the ids it is stored under. -/
structure Found where
  ids : IdTriple
  statement : Statement
deriving DecidableEq

/-- What can be asked of a graph that changes it or its transaction. -/
inductive Request where
  | add (pattern : Pattern)
  /-- Delete every match. -/
  | delete (pattern : Pattern)
  /-- Delete every match and report the request. -/
  | remove (pattern : Pattern)
  /-- Delete what a cursor found. -/
  | removeFound (found : Found)
  /-- Delete everything that is not pinned. -/
  | clear
  | begin
  | commit
  | abort
  | close
deriving DecidableEq

/-- The state of a mutation under way. -/
structure Draft (τ : Type) where
  nodes : τ
  indexes : IndexSet
  /-- The oldest change first. -/
  changes : List Change := []
  /-- The oldest event first. -/
  events : List Event := []

/-- What a request leaves behind: the graph, the node table, and the events to deliver. -/
structure Outcome (τ : Type) where
  graph : Graph
  nodes : τ
  result : Except Error (List Event)

namespace Draft

variable {τ : Type} [NodeTable τ]

/-- The draft with one more event. -/
def report (d : Draft τ) (e : Event) : Draft τ := { d with events := d.events ++ [e] }

/-- Adds a statement. One that is stored already is reported all the same. -/
def add (caps : Capabilities) (p : Pattern) (d : Draft τ) : Except Error Unit × Draft τ :=
  if !caps.addAllowed then (.error .addDenied, d)
  else
    match p.statement? with
    | none => (.error (.invalidTerm (.notConcrete p)), d)
    | some t =>
      match NodeTable.encodeTriple d.nodes p with
      | (.error e, nodes) => (.error e, { d with nodes })
      | (.ok ids, nodes) =>
        match d.indexes.insert ids with
        | .error e => (.error e, { d with nodes })
        | .ok (fresh, indexes) =>
          (.ok (), report { d with
            nodes, indexes
            changes := if fresh then d.changes ++ [.added ids] else d.changes } (.addTriple t))

/-- Takes out triples that are not pinned and reports each as it is stored, up to the first one
that has no terms. -/
def deleteAll (pinned : List IdTriple) : List IdTriple → Draft τ → Except Error Unit × Draft τ
  | [], d => (.ok (), d)
  | ids :: rest, d =>
    if pinned.contains ids then deleteAll pinned rest d
    else
      match NodeTable.decodeTriple d.nodes ids with
      | .error e => (.error e, d)
      | .ok t =>
        match d.indexes.remove ids with
        | .error e => (.error e, d)
        | .ok (false, indexes) => deleteAll pinned rest { d with indexes }
        | .ok (true, indexes) =>
          deleteAll pinned rest
            (report { d with indexes, changes := d.changes ++ [.removed ids] } (.deleteTriple t))

/-- Deletes every match. A statement that matched nothing is reported itself. -/
def delete (g : Graph) (p : Pattern) (d : Draft τ) : Except Error Unit × Draft τ :=
  if !g.capabilities.deleteAllowed then (.error .deleteDenied, d)
  else
    match deleteAll g.pinned (g.matching d.nodes p) d with
    | (.error e, d) => (.error e, d)
    | (.ok (), d) =>
      match p.statement? with
      | some t => (.ok (), if d.events.isEmpty then d.report (.deleteTriple t) else d)
      | none => (.ok (), d)

/-- Deletes every match, then reports the request. -/
def remove (g : Graph) (p : Pattern) (d : Draft τ) : Except Error Unit × Draft τ :=
  if !g.capabilities.deleteAllowed then (.error .deleteDenied, d)
  else
    match deleteAll g.pinned (g.matching d.nodes p) d with
    | (.error e, d) => (.error e, d)
    | (.ok (), d) => (.ok (), d.report (.removeRequest p))

/-- Deletes what a cursor found, if it is still stored and not pinned. -/
def removeFound (g : Graph) (found : Found) (d : Draft τ) : Except Error Unit × Draft τ :=
  if !g.capabilities.iteratorRemoveAllowed then (.error .cursorRemoval, d)
  else if !g.capabilities.deleteAllowed then (.error .deleteDenied, d)
  else if g.pinned.contains found.ids then (.ok (), d)
  else
    match d.indexes.remove found.ids with
    | .error e => (.error e, d)
    | .ok (false, indexes) => (.ok (), { d with indexes })
    | .ok (true, indexes) =>
      (.ok (), report { d with indexes, changes := d.changes ++ [.removed found.ids] }
        (.deleteTriple found.statement))

/-- Takes out triples that are not pinned and reports each, up to the first one that has no terms.
Each is taken to be stored and counts as a change without a further look. -/
def clearAll (pinned : List IdTriple) : List IdTriple → Draft τ → Except Error Unit × Draft τ
  | [], d => (.ok (), d)
  | ids :: rest, d =>
    if pinned.contains ids then clearAll pinned rest d
    else
      match NodeTable.decodeTriple d.nodes ids with
      | .error e => (.error e, d)
      | .ok t =>
        match d.indexes.remove ids with
        | .error e => (.error e, d)
        | .ok (_, indexes) =>
          clearAll pinned rest
            (report { d with indexes, changes := d.changes ++ [.removed ids] } (.deleteTriple t))

/-- Deletes everything that is not pinned, between two events. -/
def clear (g : Graph) (d : Draft τ) : Except Error Unit × Draft τ :=
  if !g.capabilities.deleteAllowed then (.error .deleteDenied, d)
  else
    match clearAll g.pinned (g.matching d.nodes Pattern.any) (d.report .removeAllStart) with
    | (.error e, d) => (.error e, d)
    | (.ok (), d) => (.ok (), d.report .removeAllEnd)

end Draft

namespace Graph

variable {τ : Type} [NodeTable τ]

/-- Carries out a mutation as one step: all of it, or nothing. -/
def mutate (g : Graph) (nodes : τ) (op : Draft τ → Except Error Unit × Draft τ) : Outcome τ :=
  if g.closed then ⟨g, nodes, .error .closed⟩
  else
    match op { nodes, indexes := g.indexes } with
    | (.error e, d) =>
      ⟨{ g with indexes := (rollback d.indexes d.changes).2 }, d.nodes, .error e⟩
    | (.ok (), d) =>
      ⟨{ g with indexes := d.indexes, txn := g.txn.map (·.record d.changes) }, d.nodes,
        .ok d.events⟩

/-- Changes the transaction of a graph that has any. -/
def control (g : Graph) (nodes : τ) (step : Graph → Except Error Unit × Graph) : Outcome τ :=
  if g.closed then ⟨g, nodes, .error .closed⟩
  else if !g.config.transactions then ⟨g, nodes, .ok []⟩
  else
    let (result, g') := step g
    ⟨g', nodes, result.map fun _ => []⟩

def begin (who : Thread) (g : Graph) : Except Error Unit × Graph :=
  match g.txn with
  | some _ => (.error .transactionActive, g)
  | none => (.ok (), { g with txn := some ⟨who, []⟩ })

def commit (who : Thread) (g : Graph) : Except Error Unit × Graph :=
  if g.inTransaction who then (.ok (), { g with txn := none }) else (.error .noTransaction, g)

/-- Ends the transaction, if one is open, and takes its changes back. -/
def undo (g : Graph) : Except Error Unit × Graph :=
  match g.txn with
  | none => (.ok (), g)
  | some t =>
    let (result, indexes) := rollback g.indexes t.undo
    (result, { g with indexes, txn := none })

def abort (who : Thread) (g : Graph) : Except Error Unit × Graph :=
  if g.inTransaction who then g.undo else (.error .noTransaction, g)

/-- Closes a graph for good. An open transaction is aborted. -/
def close (g : Graph) : Graph := if g.closed then g else { g.undo.2 with closed := true }

def perform (who : Thread) (g : Graph) (nodes : τ) : Request → Outcome τ
  | .add p => g.mutate nodes (Draft.add g.capabilities p)
  | .delete p => g.mutate nodes (Draft.delete g p)
  | .remove p => g.mutate nodes (Draft.remove g p)
  | .removeFound found => g.mutate nodes (Draft.removeFound g found)
  | .clear => g.mutate nodes (Draft.clear g)
  | .begin => g.control nodes (begin who)
  | .commit => g.control nodes (commit who)
  | .abort => g.control nodes (abort who)
  | .close => ⟨g.close, nodes, .ok []⟩

end Graph

end TripleStore
