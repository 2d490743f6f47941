import TripleStore.Compact.Reader
import TripleStore.File.Statements
import TripleStore.Graph.Compare
import TripleStore.Graph.Summary
import TripleStore.Isomorphism.Digest
import TripleStore.Session.State

/-!
# Carrying out actions

`State.act` carries out a step that has no further steps in it. What its listeners do is left to
the reaction that the caller gives.
-/

namespace TripleStore.Session

/-- What a session relies on others for. -/
structure Outside where
  checks : Compact.Checks
  /-- The statements of a file, unless it is malformed. -/
  statements? : FileFormat → String → Option (List Statement)
  digest : Isomorphism.Digest
  unionFind : Isomorphism.UnionFind

def Outside.standard : Outside := ⟨.grammars, File.statements?, .mixing, .relabeling⟩

/-- The action waits while another thread holds a transaction of its graph. -/
def Action.waits : Action → Bool
  | .ask .commit | .ask .abort => false
  | .ask _ | .load _ | .fill .. | .contains _ | .size | .isEmpty | .find _ | .findStatements _
  | .count _ | .findRemove .. | .openCursor .. | .isomorphic _ | .addInto _ | .deleteFrom _
  | .loadFile .. => true
  | .refused waits _ _ => waits
  | _ => false

/-- The second graph that an action works on. -/
def Action.other? : Action → Option String
  | .isomorphic other | .addInto other | .deleteFrom other => some other
  | _ => none

/-- The cursor whose graph an action waits for. -/
def Action.cursor? : Action → Option String
  | .advance cursor _ | .removeLast cursor => some cursor
  | _ => none

def TableQuery.ask {τ : Type} [NodeTable τ] (query : TableQuery) (nodes : τ) : Answer × τ :=
  match query with
  | .create t =>
    let (id, nodes) := NodeTable.lookupOrCreate nodes t
    (Answer.ofExcept .id id, nodes)
  | .lookup t => (.value (.id (NodeTable.lookup nodes t)), nodes)
  | .encode n =>
    let (id, nodes) := NodeTable.encode nodes n
    (Answer.ofExcept .id id, nodes)
  | .equivalents t => (.value (.ids (NodeTable.equivalents nodes t)), nodes)
  | .resolve id => (.value (.term (NodeTable.resolve nodes id)), nodes)
  | .decode id => (Answer.ofExcept (fun t => .term (some t)) (NodeTable.decode nodes id), nodes)
  | .size => (.value (.tableSize (NodeTable.size nodes)), nodes)

namespace State

def placesToWaitFor (s : State) (graph : String) (action : Action) : List Nat :=
  (if action.waits then (s.place? graph).toList else []) ++
    (action.other?.bind s.place?).toList ++
    ((action.cursor?.bind fun c => s.cursors.lookup c).map (·.graph)).toList

/-- The requests that fill a graph: the template with each number of a range. -/
def fillRequests (checks : Compact.Checks) (template : String) (first bound : Nat) :
    List (Except Error Request) :=
  (List.range' first (bound - first)).map fun n =>
    let number := (toString n).toList
    let text := template.toList.flatMap fun c => if c = '#' then number else [c]
    match Compact.readTriple checks text with
    | .ok p => .ok (.add p)
    | .error fault => .error (.invalidTerm (.malformed fault))

/-- The greatest number of steps that a walk takes, whatever happens to the graph meanwhile: within
one id pattern it goes forward through keys of 192 bits. -/
def longestWalk (c : Cursor) : Nat := c.pending.length * Nat.pow 2 192 + 1

/-- Walks on from match number `n` and removes the matches whose number leaves a remainder. The
first match without terms ends the walk. -/
def walkRemoving (react : React) (who : Thread) (place every remainder : Nat) :
    (count n : Nat) → Cursor → State →
      Except Error (List (Statement × Option (Except Error Unit))) × State
  | 0, _, _, s => (.ok [], s)
  | count + 1, n, c, s =>
    match c.next (s.graphAt place) (s.tableOf place) with
    | (none, _) => (.ok [], s)
    | (some (.error e), _) => (.error e, s)
    | (some (.ok found), c) =>
      if n % max every 1 = remainder then
        let (result, s) := s.request react who place (.removeFound found)
        let (rest, s) := walkRemoving react who place every remainder count (n + 1) c s
        (rest.map fun rest => (found.statement, some result) :: rest, s)
      else
        let (rest, s) := walkRemoving react who place every remainder count (n + 1) c s
        (rest.map fun rest => (found.statement, none) :: rest, s)

/-- Takes steps of a cursor, and holds the last match among them. -/
def advance (s : State) : (count : Nat) → OpenCursor →
    List (Option (Except Error Statement)) × OpenCursor
  | 0, o => ([], o)
  | count + 1, o =>
    let (item, cursor) := o.cursor.next (s.graphAt o.graph) (s.tableOf o.graph)
    let held :=
      match item with
      | some (.ok found) => some found
      | _ => o.held
    let (rest, o) := advance s count { o with cursor, held }
    (item.map (fun r => r.map (·.statement)) :: rest, o)

/-- Makes a graph and binds a name to it. -/
def makeGraph (s : State) (name : String) (config : Config) (pinned : Option (List Pattern))
    (ownTable : Bool) : Answer × State :=
  let tables := if ownTable then s.tables.push .empty else s.tables
  let table := if ownTable then s.tables.size else 0
  let (graph, nodes) : Except Error Graph × ScreenedTable :=
    match pinned with
    | none => (.ok (Graph.create config), tables[table]?.getD .empty)
    | some ts => Graph.createPinned config (tables[table]?.getD .empty) ts
  let s := { s with tables := tables.setIfInBounds table nodes }
  match graph with
  | .error e => (.refused (.library e), s)
  | .ok graph =>
    (.value .unit, { s with
      members := s.members.push { graph, table }
      names := bindName name s.members.size s.names })

def hide (s : State) (ids : List UInt64) : State :=
  if s.screened then { s with tables := s.tables.modify 0 fun t => { t with hidden := ids } } else s

def askTable (s : State) (place : Nat) (query : TableQuery) : Answer × State :=
  let (answer, nodes) := query.ask (s.tableOf place)
  (answer, s.setTable place nodes)

def loadFile (outside : Outside) (react : React) (who : Thread) (place : Nat) (format : FileFormat)
    (content : Option String) (s : State) : Answer × State :=
  match content with
  | none => (.refused .noFile, s)
  | some content =>
    match outside.statements? format content with
    | none => (.refused .unreadable, s)
    | some ts =>
      let (result, s) := s.loadAll react who place ts
      (Answer.ofExcept (fun _ => .count ts.length) result, s)

def isomorphic (outside : Outside) (s : State) (place other : Nat) : Except Error Bool :=
  (s.graphAt place).isIsomorphicWith outside.digest outside.unionFind (s.tableOf place)
    (s.graphAt other) (s.tableOf other)

def describe (s : State) (place : Nat) : Description :=
  let g := s.graphAt place
  { name := g.config.name
    summary := g.summary
    config := g.config
    canBeEmpty := g.capabilities.canBeEmpty }

def removeLast (react : React) (who : Thread) (cursor : String) (s : State) : Answer × State :=
  match s.cursors.lookup cursor with
  | some o =>
    match o.held with
    | some found =>
      let s := { s with cursors := bindName cursor { o with held := none } s.cursors }
      let (result, s) := s.request react who o.graph (.removeFound found)
      (Answer.ofUnit result, s)
    | none => (.refused .badInput, s)
  | none => (.refused .badInput, s)

/-- Carries out an action on a graph with another one. -/
def withOther (s : State) (other : String) (f : Nat → Answer × State) : Answer × State :=
  match s.place? other with
  | some place => f place
  | none => (.refused .badInput, s)

def actAt (outside : Outside) (react : React) (who : Thread) (place : Nat) (action : Action)
    (s : State) : Answer × State :=
  let g := s.graphAt place
  let nodes := s.tableOf place
  let telling (answer : Answer) : Answer × State := (answer, s)
  let ofUnit (result : Except Error Unit × State) : Answer × State :=
    (Answer.ofUnit result.1, result.2)
  match action with
  | .ask q => ofUnit (s.request react who place q)
  | .load ps => ofUnit (s.requestAll react who place (ps.map fun p => .ok (.add p)))
  | .fill template first bound =>
    ofUnit (s.requestAll react who place (fillRequests outside.checks template first bound))
  | .contains p => telling (Answer.ofExcept .flag (g.contains nodes p))
  | .size => telling (Answer.ofExcept .count g.size)
  | .isEmpty => telling (Answer.ofExcept .flag g.isEmpty)
  | .isClosed => telling (.value (.flag g.closed))
  | .inTransaction => telling (.value (.flag (g.inTransaction who)))
  | .find p =>
    telling (Answer.ofExcept
      (fun items => .items (items.map fun item => item.map (·.statement))) (g.findAll nodes p))
  | .findStatements p => telling (Answer.ofExcept .statements (g.statements nodes p))
  | .count p =>
    telling (Answer.ofExcept (fun items => .count items.length) (g.findAll nodes p))
  | .findRemove p every remainder =>
    match g.find nodes p with
    | .error e => telling (.refused (.library e))
    | .ok c =>
      let (result, s) := s.walkRemoving react who place every remainder (longestWalk c) 0 c
      (Answer.ofExcept .removals result, s)
  | .openCursor cursor p =>
    match g.find nodes p with
    | .error e => telling (.refused (.library e))
    | .ok c =>
      (.value .unit,
        { s with cursors := bindName cursor { graph := place, cursor := c } s.cursors })
  | .unregister listener =>
    match s.tokens.lookup listener, s.members[place]? with
    | some token, some m =>
      let (found, listeners) := m.listeners.unregister token
      (.value (.unregistered found listeners.size),
        s.changeMember place fun m => { m with listeners })
    | _, _ => telling (.refused .badInput)
  | .isomorphic other =>
    s.withOther other fun other =>
      telling (Answer.ofExcept .flag (s.isomorphic outside place other))
  | .dependsOn other =>
    s.withOther other fun other => telling (.value (.flag (place == other)))
  | .addInto other => s.withOther other fun other => ofUnit (s.addInto react who place other)
  | .deleteFrom other => s.withOther other fun other => ofUnit (s.deleteFrom react who place other)
  | .describe => telling (.value (.description (s.describe place)))
  | .loadFile format content => s.loadFile outside react who place format content
  | .table query => s.askTable place query
  | .refused _ _ why => telling (.refused why)
  | .new .. | .advance .. | .removeLast _ | .sizeHint _ | .hide _ => telling (.refused .badInput)

/-- Carries out an action. Some need no graph of the given name. -/
def act (outside : Outside) (react : React) (who : Thread) (graph : String) (action : Action)
    (s : State) : Answer × State :=
  match action with
  | .new config pinned ownTable => s.makeGraph graph config pinned ownTable
  | .hide ids => (.value .unit, s.hide ids)
  | .advance cursor count =>
    match s.cursors.lookup cursor with
    | some o =>
      let (items, o) := s.advance count o
      (.value (.yields items), { s with cursors := bindName cursor o s.cursors })
    | none => (.refused .badInput, s)
  | .removeLast cursor => s.removeLast react who cursor
  | .sizeHint cursor =>
    match s.cursors.lookup cursor with
    | some o => (.value (.hint o.cursor.sizeHint.1 o.cursor.sizeHint.2), s)
    | none => (.refused .badInput, s)
  | .refused _ false why => (.refused why, s)
  | action =>
    match s.place? graph with
    | some place => s.actAt outside react who place action
    | none => (.refused .badInput, s)

end State

end TripleStore.Session
