import TripleStore.Proofs.Graph.Spelling

/-!
# Graphs as sets of statements

A `Content` is a graph without node table and indexes: it stores statements, and a transaction
remembers those that were stored when it began. `Content.perform` and `Content.answer` say what a
graph does and answers in terms of statements only. The order in which statements are found or
deleted depends on the ids that they happen to have, so a content keeps no order of them: a `Report`
has the deleted ones as a multiset.
-/

namespace TripleStore

/-- The statement that an event says was deleted. -/
def Event.deleted? : Event → Option Statement
  | .deleteTriple st => some st
  | _ => none

/-- The event, or nothing in place of a deletion. -/
def Event.masked (e : Event) : Option Event := if e.deleted?.isSome then none else some e

/-- The events of an operation, with the order of the deletions left open. -/
@[ext]
structure Report where
  /-- The events in order, with nothing in place of each deletion. -/
  outline : List (Option Event)
  /-- The statements of the deletions. -/
  deleted : Multiset Statement
deriving DecidableEq

namespace Report

def ofEvents (events : List Event) : Report :=
  ⟨events.map Event.masked, ↑(events.filterMap Event.deleted?)⟩

def append (a b : Report) : Report := ⟨a.outline ++ b.outline, a.deleted + b.deleted⟩

instance : Append Report := ⟨append⟩

/-- Each of the statements is deleted once. -/
def deletes (gone : Finset Statement) : Report := ⟨List.replicate gone.card none, gone.val⟩

@[simp] theorem outline_append (a b : Report) : (a ++ b).outline = a.outline ++ b.outline := rfl

@[simp] theorem deleted_append (a b : Report) : (a ++ b).deleted = a.deleted + b.deleted := rfl

theorem ofEvents_append (a b : List Event) : ofEvents (a ++ b) = ofEvents a ++ ofEvents b := by
  ext1
  · exact List.map_append
  · show (↑((a ++ b).filterMap Event.deleted?) : Multiset Statement) = _ + _
    rw [List.filterMap_append, ← Multiset.coe_add]
    rfl

theorem ofEvents_deletes {gone : List Statement} (h : gone.Nodup) :
    ofEvents (gone.map .deleteTriple) = deletes gone.toFinset := by
  ext1
  · show (gone.map .deleteTriple).map Event.masked = List.replicate gone.toFinset.card none
    rw [List.map_map, List.toFinset_card_of_nodup h, List.eq_replicate_iff]
    simp [Event.masked, Event.deleted?]
  · show (↑((gone.map .deleteTriple).filterMap Event.deleted?) : Multiset Statement) =
      gone.toFinset.val
    rw [List.filterMap_map, List.toFinset_val, h.dedup]
    exact congrArg _ (List.filterMap_some)

end Report

/-- What a graph is to those who see statements only. -/
structure Content where
  config : Config
  stored : Finset Statement
  /-- The statements that deletes leave in place. -/
  pinned : Finset Statement
  /-- The thread in a transaction, and what was stored when it began. -/
  txn : Option (Thread × Finset Statement) := none
  closed : Bool := false

namespace Content

def pin (c : Content) (added : Finset Statement) : Content :=
  { c with stored := c.stored ∪ added, pinned := c.pinned ∪ added }

/-- The new content with pinned statements. A pattern with a wildcard is refused. -/
def create (config : Config) (statements : List Pattern) : Except Error Content :=
  let capabilities :=
    if statements.isEmpty then config.capabilities
    else { config.capabilities with canBeEmpty := false }
  let none : Content := { config := { config with capabilities }, stored := ∅, pinned := ∅ }
  if statements.all Pattern.isConcrete then
    .ok (none.pin (statements.filterMap Pattern.statement?).toFinset)
  else .error (.invalidTerm .wildcard)

def matching (c : Content) (p : Pattern) : Finset Statement :=
  c.stored.filter (p.Admits c.config.capabilities.handlesLiteralTyping)

/-- The stored statements that deleting a pattern deletes. -/
def doomed (c : Content) (p : Pattern) : Finset Statement :=
  (c.stored \ c.pinned).filter (p.Admits c.config.capabilities.handlesLiteralTyping)

/-- What a deletion reports. One that deletes nothing reports the statement it was asked for. -/
def deletion (c : Content) (p : Pattern) : Report :=
  match p.statement? with
  | some st => if c.doomed p = ∅ then .ofEvents [.deleteTriple st] else .deletes (c.doomed p)
  | none => .deletes (c.doomed p)

/-- What a mutation leaves stored and what it reports. -/
def edit (c : Content) : Request → Except Error (Finset Statement × Report)
  | .add p =>
    if !c.config.capabilities.addAllowed then .error .addDenied
    else
      match p.statement? with
      | none => .error (.invalidTerm (.notConcrete p))
      | some st => .ok (insert st c.stored, .ofEvents [.addTriple st])
  | .delete p =>
    if !c.config.capabilities.deleteAllowed then .error .deleteDenied
    else .ok (c.stored \ c.doomed p, c.deletion p)
  | .remove p =>
    if !c.config.capabilities.deleteAllowed then .error .deleteDenied
    else .ok (c.stored \ c.doomed p, .deletes (c.doomed p) ++ .ofEvents [.removeRequest p])
  | .removeFound found =>
    if !c.config.capabilities.iteratorRemoveAllowed then .error .cursorRemoval
    else if !c.config.capabilities.deleteAllowed then .error .deleteDenied
    else if found.statement ∈ c.stored \ c.pinned then
      .ok (c.stored.erase found.statement, .ofEvents [.deleteTriple found.statement])
    else .ok (c.stored, .ofEvents [])
  | .clear =>
    if !c.config.capabilities.deleteAllowed then .error .deleteDenied
    else
      .ok (c.stored \ c.doomed Pattern.any,
        .ofEvents [.removeAllStart] ++ .deletes (c.doomed Pattern.any) ++
          .ofEvents [.removeAllEnd])
  | .begin | .commit | .abort | .close => .ok (c.stored, .ofEvents [])

def inTransaction (c : Content) (who : Thread) : Bool := c.txn.any fun t => t.1 = who

def control (c : Content) (step : Except Error Content) : Content × Except Error Report :=
  if c.closed then (c, .error .closed)
  else if !c.config.transactions then (c, .ok (.ofEvents []))
  else
    match step with
    | .error e => (c, .error e)
    | .ok c' => (c', .ok (.ofEvents []))

def begin (who : Thread) (c : Content) : Except Error Content :=
  match c.txn with
  | some _ => .error .transactionActive
  | none => .ok { c with txn := some (who, c.stored) }

def commit (who : Thread) (c : Content) : Except Error Content :=
  if c.inTransaction who then .ok { c with txn := none } else .error .noTransaction

/-- Ends the transaction, if one is open, and restores what was stored when it began. -/
def undo (c : Content) : Content :=
  match c.txn with
  | none => c
  | some (_, start) => { c with stored := start, txn := none }

def abort (who : Thread) (c : Content) : Except Error Content :=
  if c.inTransaction who then .ok c.undo else .error .noTransaction

def perform (who : Thread) (c : Content) : Request → Content × Except Error Report
  | .begin => c.control (c.begin who)
  | .commit => c.control (c.commit who)
  | .abort => c.control (c.abort who)
  | .close => (if c.closed then c else { c.undo with closed := true }, .ok (.ofEvents []))
  | r =>
    if c.closed then (c, .error .closed)
    else
      match c.edit r with
      | .error e => (c, .error e)
      | .ok (stored, report) => ({ c with stored }, .ok report)

theorem pin_empty (c : Content) : c.pin ∅ = c := by
  rw [pin, Finset.union_empty, Finset.union_empty]

theorem pin_insert (c : Content) (st : Statement) (added : Finset Statement) :
    c.pin (insert st added) = (c.pin {st}).pin added := by
  rw [pin, Finset.insert_eq, ← Finset.union_assoc, ← Finset.union_assoc]
  rfl

theorem perform_of_isMutation (who : Thread) (c : Content) {r : Request} (hr : r.IsMutation) :
    c.perform who r =
      if c.closed then (c, .error .closed)
      else
        match c.edit r with
        | .error e => (c, .error e)
        | .ok (stored, report) => ({ c with stored }, .ok report) := by
  cases r with
  | add p => rfl
  | delete p => rfl
  | remove p => rfl
  | removeFound found => rfl
  | clear => rfl
  | begin => exact hr.elim
  | commit => exact hr.elim
  | abort => exact hr.elim
  | close => exact hr.elim

end Content

end TripleStore
