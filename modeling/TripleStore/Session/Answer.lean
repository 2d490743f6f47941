import TripleStore.Session.Step

/-!
# Answers of a session

What each step of a session answers, what listeners write into the log while it runs, and what is
told about its graph afterwards.
-/

namespace TripleStore.Session

structure Description where
  name : String
  summary : String
  config : Config
  canBeEmpty : Bool
deriving DecidableEq, Repr

mutual

inductive Value where
  | unit
  | flag (value : Bool)
  | count (value : Nat)
  | id (value : NodeId)
  | ids (values : List NodeId)
  | term (value : Option Term)
  | statements (values : List Statement)
  /-- Matches, or errors in their place. -/
  | items (values : List (Except Error Statement))
  /-- Matches, and what came of removing some of them. -/
  | removals (values : List (Statement × Option (Except Error Unit)))
  /-- What steps of a cursor yielded, nothing being the end. -/
  | yields (values : List (Option (Except Error Statement)))
  | hint (least : Nat) (greatest : Option Nat)
  /-- The number of terms of a node table. -/
  | tableSize (value : Nat)
  /-- Whether a listener was taken out, and how many are left. -/
  | unregistered (found : Bool) (left : Nat)
  | description (value : Description)
  /-- The answers of the steps in a transaction, and how it ended. -/
  | transaction (steps : List Answer) (ending : Except Refusal Unit)

inductive Answer where
  | value (value : Value)
  | refused (why : Refusal)
  /-- The answers of two threads, of which the second one waited for the first. -/
  | raced (ending step : Answer)

end

/-- The answer of a step without a value to tell. -/
def Answer.ofUnit : Except Error Unit → Answer
  | .ok () => .value .unit
  | .error e => .refused (.library e)

/-- The answer of a step whose value is told in some way. -/
def Answer.ofExcept {α : Type} (tell : α → Value) : Except Error α → Answer
  | .ok a => .value (tell a)
  | .error e => .refused (.library e)

inductive LogEntry where
  | event (listener : String) (event : Event)
  | size (listener : String) (value : Except Error Nat)
  | step (listener : String) (answer : Answer)

inductive SizeNote where
  /-- There is no such graph, or another thread holds its transaction. -/
  | untold
  | closed
  | size (value : Nat)
deriving DecidableEq, Repr

/-- A step's answer with what went with it. -/
structure Report where
  answer : Answer
  size : SizeNote
  /-- What listeners wrote, the first entry first. -/
  log : List LogEntry

end TripleStore.Session
