import TripleStore.Json.Basic

/-!
# Printing JSON

The laid-out form: one element or member a line, two blanks deeper than what holds it, and nothing
between the brackets of what holds none.
-/

namespace TripleStore.Json

def newLine (depth : Nat) : List Char := '\n' :: List.replicate (2 * depth) ' '

def quoteSpelling (spelling : List Char) : List Char := '"' :: spelling ++ ['"']

mutual

/-- The text of a value that stands at some depth. -/
def print (depth : Nat) : Json → List Char
  | .null => "null".toList
  | .bool true => "true".toList
  | .bool false => "false".toList
  | .number n => n
  | .string s => quoteSpelling s
  | .array [] => "[]".toList
  | .array (x :: xs) =>
    '[' :: newLine (depth + 1) ++ print (depth + 1) x ++ printElements (depth + 1) xs ++
      newLine depth ++ [']']
  | .object [] => ['\x7b', '\x7d']
  | .object ((k, x) :: ms) =>
    '\x7b' :: newLine (depth + 1) ++ quoteSpelling k ++ [':', ' '] ++ print (depth + 1) x ++
      printMembers (depth + 1) ms ++ newLine depth ++ ['\x7d']

/-- The text of the elements behind the first one. -/
def printElements (depth : Nat) : List Json → List Char
  | [] => []
  | x :: xs => ',' :: newLine depth ++ print depth x ++ printElements depth xs

/-- The text of the members behind the first one. -/
def printMembers (depth : Nat) : List (List Char × Json) → List Char
  | [] => []
  | (k, x) :: ms =>
    ',' :: newLine depth ++ quoteSpelling k ++ [':', ' '] ++ print depth x ++ printMembers depth ms

end

end TripleStore.Json
