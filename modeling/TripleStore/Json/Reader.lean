import TripleStore.Json.Basic
import TripleStore.Json.Spelling

/-!
# Reading JSON

A strict reader: nothing but whitespace before and after the value, no commas to spare, no leading
zeros, no raw controls in strings. Every step of a value takes a character, so the length of the
text bounds the depth of the recursion.
-/

namespace TripleStore.Json

def isSpace (c : Char) : Bool := c == ' ' || c == '\t' || c == '\n' || c == '\r'

def skipSpace (cs : List Char) : List Char := cs.dropWhile isSpace

/-- One digit or more, and what follows them. -/
def scanDigits? (cs : List Char) : Option (List Char × List Char) :=
  match cs.takeWhile Char.isDigit with
  | [] => none
  | ds => some (ds, cs.dropWhile Char.isDigit)

/-- The whole part of a number: zero, or digits that do not start with one. -/
def scanWhole? : List Char → Option (List Char × List Char)
  | '0' :: rest => if (rest.head?.any Char.isDigit) then none else some (['0'], rest)
  | cs => scanDigits? cs

def scanFraction? : List Char → Option (List Char × List Char)
  | '.' :: rest => (scanDigits? rest).map fun (ds, r) => ('.' :: ds, r)
  | cs => some ([], cs)

def scanPower? : List Char → Option (List Char × List Char)
  | e :: cs =>
    if e = 'e' || e = 'E' then
      match cs with
      | s :: rest =>
        if s = '+' || s = '-' then (scanDigits? rest).map fun (ds, r) => (e :: s :: ds, r)
        else (scanDigits? cs).map fun (ds, r) => (e :: ds, r)
      | [] => none
    else some ([], e :: cs)
  | [] => some ([], [])

/-- A number without its sign. -/
def scanMagnitude? (cs : List Char) : Option (List Char × List Char) := do
  let (whole, rest) ← scanWhole? cs
  let (fraction, rest) ← scanFraction? rest
  let (power, rest) ← scanPower? rest
  return (whole ++ fraction ++ power, rest)

def scanNumber? : List Char → Option (List Char × List Char)
  | '-' :: cs => (scanMagnitude? cs).map fun (n, r) => ('-' :: n, r)
  | cs => scanMagnitude? cs

mutual

/-- Reads a value that starts here, of at most some depth. -/
def readValue? : (fuel : Nat) → List Char → Option (Json × List Char)
  | 0, _ => none
  | fuel + 1, cs =>
    match cs with
    | 'n' :: 'u' :: 'l' :: 'l' :: rest => some (.null, rest)
    | 't' :: 'r' :: 'u' :: 'e' :: rest => some (.bool true, rest)
    | 'f' :: 'a' :: 'l' :: 's' :: 'e' :: rest => some (.bool false, rest)
    | '"' :: rest => (Spelling.scan? rest).map fun (s, r) => (.string s, r)
    | '[' :: rest =>
      match skipSpace rest with
      | ']' :: r => some (.array [], r)
      | r => (readElements? fuel r).map fun (xs, r) => (.array xs, r)
    | '\x7b' :: rest =>
      match skipSpace rest with
      | '\x7d' :: r => some (.object [], r)
      | r => (readMembers? fuel r).map fun (ms, r) => (.object ms, r)
    | cs => (scanNumber? cs).map fun (n, r) => (.number n, r)

/-- Reads the elements of an array up to its bracket. The first one starts here. -/
def readElements? : (fuel : Nat) → List Char → Option (List Json × List Char)
  | 0, _ => none
  | fuel + 1, cs =>
    match readValue? fuel cs with
    | none => none
    | some (x, rest) =>
      match skipSpace rest with
      | ']' :: r => some ([x], r)
      | ',' :: r => (readElements? fuel (skipSpace r)).map fun (xs, r) => (x :: xs, r)
      | _ => none

/-- Reads the members of an object up to its brace. The first one starts here. -/
def readMembers? : (fuel : Nat) → List Char → Option (List (List Char × Json) × List Char)
  | 0, _ => none
  | fuel + 1, cs =>
    match cs with
    | '"' :: rest =>
      match Spelling.scan? rest with
      | none => none
      | some (key, rest) =>
        match skipSpace rest with
        | ':' :: rest =>
          match readValue? fuel (skipSpace rest) with
          | none => none
          | some (x, rest) =>
            match skipSpace rest with
            | '\x7d' :: r => some ([(key, x)], r)
            | ',' :: r => (readMembers? fuel (skipSpace r)).map fun (ms, r) => ((key, x) :: ms, r)
            | _ => none
        | _ => none
    | _ => none

end

def read? (text : List Char) : Option Json :=
  match readValue? (text.length + 1) (skipSpace text) with
  | some (x, rest) => if (skipSpace rest).isEmpty then some x else none
  | none => none

end TripleStore.Json
