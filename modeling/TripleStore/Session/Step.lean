import TripleStore.Config
import TripleStore.File.Format
import TripleStore.Graph.Request

/-!
# Steps of a session

A session is a script for the graphs of one store: each `Step` names a graph and the thread it runs
on. Steps nest where they are the body of a transaction, the work of a listener, or the step of a
second thread that waits for the first. An argument that could not be read stands as a refused
step, which answers with what is wrong with it.
-/

namespace TripleStore.Session

inductive Refusal where
  /-- A graph, a node table or the reading of an argument refused. -/
  | library (error : Error)
  /-- An argument is missing, ill-formed, or names nothing. -/
  | badInput
  /-- The thread would have to wait for another one. -/
  | wouldBlock
  /-- The body of a transaction panicked. -/
  | panicked
  /-- A file holds something else than statements. -/
  | unreadable
  /-- A file does not exist. -/
  | noFile
  /-- The steps nest deeper than was foreseen. -/
  | exhausted
deriving DecidableEq

structure Site where
  graph : String
  thread : Thread
deriving DecidableEq, Repr, Inhabited

/-- What a step asks of the node table of its graph. -/
inductive TableQuery where
  | create (term : Term)
  | lookup (term : Term)
  | encode (node : Node)
  | equivalents (term : Term)
  | resolve (id : NodeId)
  | decode (id : NodeId)
  | size
deriving DecidableEq

/-- What a step without further steps in it does. -/
inductive Action where
  /-- Makes a graph, or another one of the same name. -/
  | new (config : Config) (pinned : Option (List Pattern)) (ownTable : Bool)
  | ask (request : Request)
  /-- Adds patterns one by one up to the first error. -/
  | load (patterns : List Pattern)
  /-- Adds a pattern for every number from one up to, but without, another one, which takes the
  place of each hash in a text. -/
  | fill (template : String) (first bound : Nat)
  | contains (pattern : Pattern)
  | size
  | isEmpty
  | isClosed
  | inTransaction
  /-- All matches, those without terms as errors in their place. -/
  | find (pattern : Pattern)
  /-- All matches, or the first error. -/
  | findStatements (pattern : Pattern)
  | count (pattern : Pattern)
  /-- Walks through the matches and removes those whose number leaves a remainder. -/
  | findRemove (pattern : Pattern) (every remainder : Nat)
  /-- Starts a walk under a name. -/
  | openCursor (cursor : String) (pattern : Pattern)
  | advance (cursor : String) (count : Nat)
  /-- Removes what a cursor found last. -/
  | removeLast (cursor : String)
  | sizeHint (cursor : String)
  /-- Takes the token that was registered last under a name to the graph. -/
  | unregister (listener : String)
  | isomorphic (other : String)
  | dependsOn (other : String)
  | addInto (other : String)
  | deleteFrom (other : String)
  | describe
  /-- Reads a file, which does not exist without content. -/
  | loadFile (format : FileFormat) (content : Option String)
  /-- Hides some ids of the shared node table, and no others. -/
  | hide (ids : List UInt64)
  | table (query : TableQuery)
  /-- An argument could not be read. Tells whether the step would have waited for its graph, and
  whether it needs the graph at all. -/
  | refused (waits needsGraph : Bool) (refusal : Refusal)
deriving DecidableEq, Inhabited

/-- How the body of a transaction ends if none of its steps fails. -/
inductive BodyEnd where
  | returns
  | fails
  | panics
deriving DecidableEq, Repr

/-- What a listener does when an event reaches it, its steps apart. -/
structure Trigger where
  /-- The name it writes into the log. -/
  name : String
  /-- The kind of event that it goes on for; every kind if there is none. -/
  kind : Option String
  /-- How often it carries out its steps. -/
  times : Nat
  /-- Writes the size of the graph into the log. -/
  query : Bool
  /-- Panics at the end. -/
  panics : Bool
deriving DecidableEq, Repr

/-- One step of a session. -/
inductive Step where
  | act (site : Site) (action : Action)
  /-- Carries out steps inside a transaction. -/
  | transaction (site : Site) (steps : List Step) (ending : BodyEnd)
  /-- Registers a listener that carries out steps. -/
  | listen (site : Site) (trigger : Trigger) (steps : List Step)
  /-- Ends the transaction of the first thread while a step of the second one waits for it. -/
  | race (site : Site) (ending : Request) (step : Step)
deriving Inhabited

namespace Step

def site : Step → Site
  | .act site _ | .transaction site .. | .listen site .. | .race site .. => site

mutual

/-- A bound on how deep a step nests, with the steps of the listeners that it registers: a listener
may carry out its steps as often as it is told to. -/
def weight : Step → Nat
  | .act _ _ => 1
  | .transaction _ steps _ => 1 + totalWeight steps
  | .listen _ trigger steps => 1 + trigger.times * (1 + totalWeight steps)
  | .race _ _ step => 1 + weight step

def totalWeight : List Step → Nat
  | [] => 0
  | step :: rest => weight step + totalWeight rest

end

end Step

end TripleStore.Session
