import TripleStore.Config
import TripleStore.Json.Printer
import TripleStore.Json.Reader

/-!
# Configurations as documents

A configuration is saved as a JSON object of its members in order. It is loaded from such an object
with any members left out, which take their defaults, in any order, and with further members, which
are ignored; or from an array of the leading members. A member given twice, a null, or a value of
the wrong kind makes the document no configuration.
-/

namespace TripleStore

namespace Json

/-- A way to print values and to read texts. -/
structure Codec where
  print : Json → List Char
  read? : List Char → Option Json

/-- Prints the laid-out form, and reads nothing but JSON. -/
def Codec.laidOut : Codec := ⟨Json.print 0, Json.read?⟩

def ofText (text : String) : Json := .string (Spelling.encode text.toList)

def member (name : String) (value : Json) : List Char × Json :=
  (Spelling.encode name.toList, value)

def bool? : Json → Option Bool
  | .bool b => some b
  | _ => none

def text? : Json → Option String
  | .string s => Spelling.toString? s
  | _ => none

/-- The members of an object by what their names say, which all must say something. -/
def named? (members : List (List Char × Json)) : Option (List (String × Json)) :=
  members.mapM fun (key, value) => (Spelling.toString? key).map fun name => (name, value)

/-- The values of a document by member name. In an object no known member stands twice; an array
holds the leading members, and no further ones. -/
def fields? (names : List String) : Json → Option (String → Option Json)
  | .object members => do
    let ms ← named? members
    if names.all fun name => (ms.filter fun m => m.1 == name).length ≤ 1 then
      some fun name => ms.lookup name
    else none
  | .array elements =>
    if elements.length ≤ names.length then some fun name => elements[names.idxOf name]? else none
  | _ => none

/-- What a member says: nothing if it is left out, and none at all if it does not fit. -/
def fit? {α : Type} (read? : Json → Option α) : Option Json → Option (Option α)
  | none => some none
  | some value => (read? value).map some

end Json

namespace IndexOrder

def ofText? (name : String) : Option IndexOrder := all.find? fun o => o.text == name

/-- The order that a document names, by a string or by an object of one empty member. -/
def ofJson? : Json → Option IndexOrder
  | .string s => (Json.Spelling.toString? s).bind ofText?
  | .object [(key, .null)] => (Json.Spelling.toString? key).bind ofText?
  | _ => none

end IndexOrder

namespace Capabilities

def fieldNames : List String :=
  ["size_accurate", "add_allowed", "add_allowed_checked", "delete_allowed",
   "delete_allowed_checked", "can_be_empty", "iterator_remove_allowed", "handles_literal_typing"]

def flags (c : Capabilities) : List Bool :=
  [c.sizeAccurate, c.addAllowed, c.addAllowedChecked, c.deleteAllowed, c.deleteAllowedChecked,
   c.canBeEmpty, c.iteratorRemoveAllowed, c.handlesLiteralTyping]

def toJson (c : Capabilities) : Json :=
  .object ((fieldNames.zip c.flags).map fun (name, flag) => Json.member name (.bool flag))

def ofJson? (j : Json) : Option Capabilities := do
  let fields ← Json.fields? fieldNames j
  let flag (name : String) := (Json.fit? Json.bool? (fields name)).map fun b => b.getD true
  return {
    sizeAccurate := ← flag "size_accurate"
    addAllowed := ← flag "add_allowed"
    addAllowedChecked := ← flag "add_allowed_checked"
    deleteAllowed := ← flag "delete_allowed"
    deleteAllowedChecked := ← flag "delete_allowed_checked"
    canBeEmpty := ← flag "can_be_empty"
    iteratorRemoveAllowed := ← flag "iterator_remove_allowed"
    handlesLiteralTyping := ← flag "handles_literal_typing" }

end Capabilities

namespace Config

def fieldNames : List String := ["name", "capabilities", "index_orders", "transactions"]

def toJson (c : Config) : Json :=
  .object
    [Json.member "name" (Json.ofText c.name),
     Json.member "capabilities" c.capabilities.toJson,
     Json.member "index_orders" (.array (c.indexOrders.map fun o => Json.ofText o.text)),
     Json.member "transactions" (.bool c.transactions)]

def orders? : Json → Option (List IndexOrder)
  | .array elements => elements.mapM IndexOrder.ofJson?
  | _ => none

def ofJson? (j : Json) : Option Config := do
  let fields ← Json.fields? fieldNames j
  let settings : Settings := {
    name := ← Json.fit? Json.text? (fields "name")
    capabilities := ← Json.fit? Capabilities.ofJson? (fields "capabilities")
    indexOrders := ← Json.fit? orders? (fields "index_orders")
    transactions := ← Json.fit? Json.bool? (fields "transactions") }
  return settings.fill

def save (codec : Json.Codec) (c : Config) : String := String.ofList (codec.print c.toJson)

def load? (codec : Json.Codec) (text : String) : Option Config :=
  (codec.read? text.toList).bind ofJson?

end Config

end TripleStore
