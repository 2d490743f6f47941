/-!
# JSON values

Numbers and strings are kept as they are spelled; what a string spells is read on demand by
`Json.Spelling`. So a string that spells half a character is a JSON value all the same, as long as
nobody asks what it says. Objects keep their members in order, repeated ones included.
-/

namespace TripleStore

/-- A JSON value, its numbers and strings as spelled. -/
inductive Json where
  | null
  | bool (value : Bool)
  | number (spelling : List Char)
  /-- A string by what stands between its quotes. -/
  | string (spelling : List Char)
  | array (elements : List Json)
  | object (members : List (List Char × Json))
deriving Inhabited

end TripleStore
