import TripleStore.Text.Hex

/-!
# Strings as JSON spells them

`encode` spells a text: quotes, backslashes and controls are escaped, all else stands for itself.
`decode?` reads what a spelling says; escapes that name half of a surrogate pair say nothing.
-/

namespace TripleStore.Json.Spelling

def encodeChar (c : Char) : List Char :=
  if c = '"' then ['\\', '"']
  else if c = '\\' then ['\\', '\\']
  else if c = Char.ofNat 0x08 then ['\\', 'b']
  else if c = '\t' then ['\\', 't']
  else if c = '\n' then ['\\', 'n']
  else if c = Char.ofNat 0x0C then ['\\', 'f']
  else if c = '\r' then ['\\', 'r']
  else if c.toNat < 0x20 then '\\' :: 'u' :: Text.hexDigits 4 c.toNat
  else [c]

def encode (text : List Char) : List Char := text.flatMap encodeChar

/-- The character that an escape of one letter names. -/
def shortEscape? (c : Char) : Option Char :=
  if c = '"' || c = '\\' || c = '/' then some c
  else if c = 'b' then some (Char.ofNat 0x08)
  else if c = 't' then some '\t'
  else if c = 'n' then some '\n'
  else if c = 'f' then some (Char.ofNat 0x0C)
  else if c = 'r' then some '\r'
  else none

/-- The code unit is the first half of a pair. -/
def isHighHalf (n : Nat) : Bool := 0xD800 ≤ n && n ≤ 0xDBFF

/-- The code unit is the second half of a pair. -/
def isLowHalf (n : Nat) : Bool := 0xDC00 ≤ n && n ≤ 0xDFFF

def joinHalves (high low : Nat) : Char :=
  Char.ofNat (0x10000 + (high - 0xD800) * 0x400 + (low - 0xDC00))

/-- The text that a spelling says. `high` is the first half of a pair that waits for the second. -/
def decodeFrom? (high : Option Nat) : List Char → Option (List Char)
  | [] => if high.isSome then none else some []
  | '\\' :: 'u' :: a :: b :: c :: d :: rest =>
    let n := Text.hexNumber [a, b, c, d]
    match high with
    | some h =>
      if isLowHalf n then (decodeFrom? none rest).map (joinHalves h n :: ·) else none
    | none =>
      if isHighHalf n then decodeFrom? (some n) rest
      else if isLowHalf n then none
      else (decodeFrom? none rest).map (Char.ofNat n :: ·)
  | '\\' :: e :: rest =>
    if high.isSome then none
    else
      match shortEscape? e with
      | some c => (decodeFrom? none rest).map (c :: ·)
      | none => none
  | c :: rest => if high.isSome then none else (decodeFrom? none rest).map (c :: ·)

/-- The text that a spelling says, unless it names half of a pair alone. -/
def decode? (spelling : List Char) : Option (List Char) := decodeFrom? none spelling

def toString? (spelling : List Char) : Option String := (decode? spelling).map String.ofList

/-- A character that may stand for itself in a spelling. -/
def isPlain (c : Char) : Bool := c != '"' && c != '\\' && 0x20 ≤ c.toNat

/-- The spelling up to the closing quote, and the text behind the quote. -/
def scan? : List Char → Option (List Char × List Char)
  | [] => none
  | '"' :: rest => some ([], rest)
  | '\\' :: 'u' :: a :: b :: c :: d :: rest =>
    if [a, b, c, d].all Text.isHexDigit then
      (scan? rest).map fun (s, r) => ('\\' :: 'u' :: a :: b :: c :: d :: s, r)
    else none
  | '\\' :: e :: rest =>
    if (shortEscape? e).isSome then (scan? rest).map fun (s, r) => ('\\' :: e :: s, r) else none
  | c :: rest => if isPlain c then (scan? rest).map fun (s, r) => (c :: s, r) else none

end TripleStore.Json.Spelling
