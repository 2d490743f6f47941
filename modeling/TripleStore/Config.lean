import TripleStore.Capabilities
import TripleStore.Index.Order

/-!
# Configuration of a graph

A graph is made from a `Config`. `Settings` are the members that a caller chose; building a
configuration from them fills in the defaults and refuses a repeated order or an empty name.
-/

namespace TripleStore

/-- What a graph is made from. -/
structure Config where
  /-- A label. -/
  name : String := "graph"
  capabilities : Capabilities := {}
  /-- The orders kept. Subject-predicate-object is always kept; listing it is optional. -/
  indexOrders : List IndexOrder := IndexOrder.all
  /-- Without transactions, beginning and ending one does nothing. -/
  transactions : Bool := true
deriving DecidableEq, Repr

inductive ConfigFault where
  | repeatedOrder (order : IndexOrder)
  | emptyName
deriving DecidableEq, Repr

def ConfigFault.message : ConfigFault → String
  | .repeatedOrder order => "index order " ++ order.text ++ " listed twice"
  | .emptyName => "graph name must not be empty"

/-- The members of a configuration that a caller chose. -/
structure Settings where
  name : Option String := none
  capabilities : Option Capabilities := none
  indexOrders : Option (List IndexOrder) := none
  transactions : Option Bool := none
deriving DecidableEq, Repr

namespace Settings

/-- The first order of a list that stands before in it, or among those seen. -/
def repeated? (seen : List IndexOrder) : List IndexOrder → Option IndexOrder
  | [] => none
  | o :: os => if seen.contains o then some o else repeated? (o :: seen) os

/-- The configuration that the settings and the defaults make, chosen or not. -/
def fill (s : Settings) : Config :=
  let defaults : Config := {}
  { name := s.name.getD defaults.name
    capabilities := s.capabilities.getD defaults.capabilities
    indexOrders := s.indexOrders.getD defaults.indexOrders
    transactions := s.transactions.getD defaults.transactions }

/-- The configuration of the settings. A repeated order is reported before an empty name. -/
def build (s : Settings) : Except ConfigFault Config :=
  match repeated? [] (s.indexOrders.getD []), s.name with
  | some o, _ => .error (.repeatedOrder o)
  | none, some "" => .error .emptyName
  | none, _ => .ok s.fill

end Settings

end TripleStore
