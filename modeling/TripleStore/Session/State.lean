import TripleStore.Graph.Cursor
import TripleStore.Graph.Listener
import TripleStore.Session.Answer

/-!
# State of a session

The graphs of a session live at places that never change, so that a cursor or a listener keeps its
graph when another one takes over the name. Each graph uses one of the node tables, of which the
first is shared. Requests that succeed have their events delivered to the listeners of the graph by
a caller-given reaction.
-/

namespace TripleStore.Session

/-- A graph with its node table and its listeners. -/
structure Member where
  graph : Graph
  /-- The place of its node table. -/
  table : Nat
  /-- The places of its listeners. -/
  listeners : Registry Nat := {}

/-- A listener and how often it has carried out its steps. -/
structure Listener where
  trigger : Trigger
  steps : List Step
  runs : Nat := 0

structure OpenCursor where
  /-- The place of the graph. -/
  graph : Nat
  cursor : Cursor
  /-- What it found last, until that is removed. -/
  held : Option Found := none

structure State where
  /-- Ids of the shared node table can be hidden. -/
  screened : Bool := true
  /-- The node tables, the shared one first. -/
  tables : Array ScreenedTable := #[.empty]
  members : Array Member := #[]
  /-- The place of the graph of each name. -/
  names : List (String × Nat) := []
  cursors : List (String × OpenCursor) := []
  listeners : Array Listener := #[]
  /-- The token registered last under each name. -/
  tokens : List (String × Nat) := []
  /-- The last entry first. -/
  log : List LogEntry := []

/-- What a thread's listener at a place does about an event of a graph at a place. -/
abbrev React := Thread → (graph listener : Nat) → Event → State → Reaction State

/-- A list of named things with one more, or another one of the same name. -/
def bindName {α : Type} (name : String) (a : α) (xs : List (String × α)) : List (String × α) :=
  (name, a) :: xs.filter fun x => x.1 != name

namespace State

def place? (s : State) (name : String) : Option Nat := s.names.lookup name

/-- The graph at a place. One that does not exist is taken to be closed. -/
def graphAt (s : State) (place : Nat) : Graph :=
  match s.members[place]? with
  | some m => m.graph
  | none => { Graph.create {} with closed := true }

def tablePlace (s : State) (place : Nat) : Nat := (s.members[place]?.map (·.table)).getD 0

def tableOf (s : State) (place : Nat) : ScreenedTable :=
  s.tables[s.tablePlace place]?.getD .empty

/-- The state with another node table for a graph and those that share it. -/
def setTable (s : State) (place : Nat) (table : ScreenedTable) : State :=
  { s with tables := s.tables.setIfInBounds (s.tablePlace place) table }

def changeMember (s : State) (place : Nat) (f : Member → Member) : State :=
  { s with members := s.members.modify place f }

def write (s : State) (entry : LogEntry) : State := { s with log := entry :: s.log }

/-- Another thread holds a transaction of the graph at a place. -/
def mustWait (s : State) (who : Thread) (place : Nat) : Bool := (s.graphAt place).mustWait who

/-- Delivers events to the listeners that a graph has now. -/
def notify (react : React) (who : Thread) (place : Nat) (events : List Event) (s : State) :
    State :=
  let listeners := (s.members[place]?.map (·.listeners.snapshot)).getD []
  deliver (react who place) listeners events s

/-- Carries out a request on the graph at a place and delivers its events. -/
def request (react : React) (who : Thread) (place : Nat) (q : Request) (s : State) :
    Except Error Unit × State :=
  let outcome := (s.graphAt place).perform who (s.tableOf place) q
  let s := (s.setTable place outcome.nodes).changeMember place fun m =>
    { m with graph := outcome.graph }
  match outcome.result with
  | .error e => (.error e, s)
  | .ok events => (.ok (), s.notify react who place events)

/-- Carries out requests in order up to the first error. A request may itself be an error. -/
def requestAll (react : React) (who : Thread) (place : Nat) :
    List (Except Error Request) → State → Except Error Unit × State
  | [], s => (.ok (), s)
  | .error e :: _, s => (.error e, s)
  | .ok q :: rest, s =>
    match s.request react who place q with
    | (.error e, s) => (.error e, s)
    | (.ok (), s) => requestAll react who place rest s

def statements (s : State) (place : Nat) : Except Error (List Statement) :=
  (s.graphAt place).statements (s.tableOf place) Pattern.any

/-- Adds the statements of one graph to another. -/
def addInto (react : React) (who : Thread) (target source : Nat) (s : State) :
    Except Error Unit × State :=
  match s.statements source with
  | .error e => (.error e, s)
  | .ok ts => s.requestAll react who target (ts.map fun t => .ok (.add t.toPattern))

/-- Deletes the statements of one graph from another. -/
def deleteFrom (react : React) (who : Thread) (target source : Nat) (s : State) :
    Except Error Unit × State :=
  match s.statements source with
  | .error e => (.error e, s)
  | .ok ts => s.requestAll react who target (ts.map fun t => .ok (.delete t.toPattern))

end State

/-- How the body of a transaction came back. -/
inductive BodyResult where
  | returned
  | failed (error : Error)
  | panicked
deriving DecidableEq

namespace State

/-- Carries out a body inside a transaction: commits if it returns, aborts if it fails or panics.
If no transaction can be begun the body is not run. -/
def transact {β : Type} (react : React) (who : Thread) (place : Nat) (skipped : β)
    (body : State → (BodyResult × β) × State) (s : State) : (BodyResult × β) × State :=
  match s.request react who place .begin with
  | (.error e, s) => ((.failed e, skipped), s)
  | (.ok (), s) =>
    match body s with
    | ((.returned, b), s) =>
      match s.request react who place .commit with
      | (.error e, s) => ((.failed e, b), s)
      | (.ok (), s) => ((.returned, b), s)
    | (result, s) => (result, (s.request react who place .abort).2)

/-- Adds statements inside a transaction. -/
def loadAll (react : React) (who : Thread) (place : Nat) (ts : List Statement) (s : State) :
    Except Error Unit × State :=
  let body (s : State) : (BodyResult × Unit) × State :=
    match s.requestAll react who place (ts.map fun t => .ok (.add t.toPattern)) with
    | (.ok (), s) => ((.returned, ()), s)
    | (.error e, s) => ((.failed e, ()), s)
  match s.transact react who place () body with
  | ((.failed e, _), s) => (.error e, s)
  | (_, s) => (.ok (), s)

end State

end TripleStore.Session
