import TripleStore.Compact.Reader
import TripleStore.Record.NodeId

/-!
# Errors of graphs and node tables

`Error` lists the causes for which an operation on a graph or a node table is refused, and
`Error.message` gives each its text.
-/

namespace TripleStore

inductive TermFault where
  /-- The id is a mark, under which nothing can be stored. -/
  | notStorable (id : NodeId)
  /-- The wildcard has no id. -/
  | wildcard
  /-- A pattern with wildcards is no statement. -/
  | notConcrete (pattern : Pattern)
  /-- A text is not in compact form. -/
  | malformed (fault : Compact.Fault)
  /-- A reason in a caller's words. -/
  | other (text : String)
deriving DecidableEq

inductive Error where
  /-- The graph has been closed. -/
  | closed
  /-- The graph allows no deletes. -/
  | deleteDenied
  /-- The graph allows no adds. -/
  | addDenied
  /-- A record or an id does not fit its form. -/
  | shapeMismatch (cause : RecordError)
  /-- The node table has no term for an id. -/
  | notFound (id : NodeId)
  /-- The graph does not offer the operation. -/
  | unsupported (what : String)
  /-- The thread holds a transaction already. -/
  | transactionActive
  /-- The thread holds no transaction. -/
  | noTransaction
  | invalidTerm (fault : TermFault)
  /-- The file system refused. -/
  | io (text : String)
deriving DecidableEq

def TermFault.message : TermFault → String
  | .notStorable id => id.text ++ " cannot be stored"
  | .wildcard => "ANY cannot be encoded"
  | .notConcrete pattern => "cannot add pattern " ++ pattern.text
  | .malformed fault => fault.message
  | .other text => text

namespace Error

def message : Error → String
  | .closed => "graph is closed"
  | .deleteDenied => "delete denied by graph capabilities"
  | .addDenied => "add denied by graph capabilities"
  | .shapeMismatch cause => cause.message
  | .notFound id => "no term for node id " ++ id.text
  | .unsupported what => "unsupported operation: " ++ what
  | .transactionActive => "transaction already active on this thread"
  | .noTransaction => "no active transaction"
  | .invalidTerm fault => "invalid term: " ++ fault.message
  | .io text => text

/-- The text of the error behind an error. -/
def source? : Error → Option String
  | .shapeMismatch cause => some cause.message
  | .io text => some text
  | _ => none

/-- What a graph says that does not let cursors remove what they found. -/
def cursorRemoval : Error := .unsupported "iterator remove"

end Error

end TripleStore
