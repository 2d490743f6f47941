import TripleStore.Text.Blank
import TripleStore.Text.CodePoints
import TripleStore.Text.Hex

/-!
# Absolute IRIs

`checkIri` reads an IRI from left to right (scheme, authority, path, query, fragment) and reports
the first fault. It changes nothing. A text without a scheme is read as a relative reference, so
that a fault inside it is reported before the missing scheme.
-/

namespace TripleStore.Compact

inductive IriFault where
  | noScheme
  | codePoint (c : Char)
  /-- A percent sign that the given characters follow in place of two hexadecimal digits. -/
  | percent (found : List Char)
  | hostCharacter (c : Char)
  | hostNumberCharacter (c : Char)
  | hostAddress
deriving DecidableEq, Repr

def IriFault.message : IriFault → String
  | .noScheme => "No scheme found in an absolute IRI"
  | .codePoint c => "Invalid IRI code point '" ++ c.toString ++ "'"
  | .percent found => "Invalid IRI percent encoding '%" ++ String.ofList found ++ "'"
  | .hostCharacter c => "Invalid character '" ++ c.toString ++ "' in host"
  | .hostNumberCharacter c => "Invalid character '" ++ c.toString ++ "'"
  | .hostAddress => "Invalid host IP (invalid IPv6 address syntax)"

/-- The ASCII characters that may stand for themselves in every part of an IRI. -/
def isPlainAscii (c : Char) : Bool :=
  Text.isAlphanumeric c ||
    c == '!' || c == '$' || c == '&' || c == Char.ofNat 0x27 || c == '(' || c == ')' || c == '*' ||
    c == '+' || c == ',' || c == '-' || c == '.' || c == ';' || c == '=' || c == '_' || c == '~'

/-- The characters beyond ASCII that may stand for themselves in every part of an IRI. -/
def iriLetters : List (Nat × Nat) :=
  [(0xA0, 0xD7FF), (0xF900, 0xFDCF), (0xFDF0, 0xFFEF), (0x10000, 0x1FFFD), (0x20000, 0x2FFFD),
   (0x30000, 0x3FFFD), (0x40000, 0x4FFFD), (0x50000, 0x5FFFD), (0x60000, 0x6FFFD),
   (0x70000, 0x7FFFD), (0x80000, 0x8FFFD), (0x90000, 0x9FFFD), (0xA0000, 0xAFFFD),
   (0xB0000, 0xBFFFD), (0xC0000, 0xCFFFD), (0xD0000, 0xDFFFD), (0xE1000, 0xEFFFD)]

/-- The characters of private use, which a query may hold. -/
def privateUse : List (Nat × Nat) := [(0xE000, 0xF8FF), (0xF0000, 0xFFFFD), (0x100000, 0x10FFFD)]

/-- The characters that may stand for themselves in every part of an IRI. -/
def isPlain (c : Char) : Bool := isPlainAscii c || Text.inRanges iriLetters c

def endsAuthority (c : Char) : Bool := c == '/' || c == '?' || c == '#'

/-- Reads up to a character at which to stop, and gives the text from there on. A percent sign and
two hexadecimal digits may stand for any character. -/
def readRun (allowed stop : Char → Bool) : List Char → Except IriFault (List Char)
  | [] => .ok []
  | c :: cs =>
    if stop c then .ok (c :: cs)
    else if c = '%' then
      match cs with
      | a :: b :: rest =>
        if Text.isHexDigit a && Text.isHexDigit b then readRun allowed stop rest
        else .error (.percent [a, b])
      | short => .error (.percent short)
    else if allowed c then readRun allowed stop cs
    else .error (.codePoint c)

def checkFragment (cs : List Char) : Except IriFault Unit :=
  (readRun (fun c => isPlain c || c == ':' || c == '@' || c == '/' || c == '?') (fun _ => false)
    cs).map fun _ => ()

def checkQuery (cs : List Char) : Except IriFault Unit := do
  let rest ← readRun
    (fun c => isPlain c || c == ':' || c == '@' || c == '/' || c == '?' ||
      Text.inRanges privateUse c) (· == '#') cs
  match rest with
  | [] => .ok ()
  | _ :: fragment => checkFragment fragment

def checkPath (cs : List Char) : Except IriFault Unit := do
  let rest ← readRun (fun c => isPlain c || c == ':' || c == '@' || c == '/')
    (fun c => c == '?' || c == '#') cs
  match rest with
  | [] => .ok ()
  | '?' :: query => checkQuery query
  | _ :: fragment => checkFragment fragment

/-- Reads the number behind a host and its colon, and what follows that number. -/
def checkHostNumber (cs : List Char) : Except IriFault Unit :=
  match cs.dropWhile Char.isDigit with
  | [] => .ok ()
  | c :: rest => if endsAuthority c then checkPath (c :: rest) else .error (.hostNumberCharacter c)

/-- A number of one to four hexadecimal digits. -/
def isAddressGroup (cs : List Char) : Bool :=
  1 ≤ cs.length && cs.length ≤ 4 && cs.all Text.isHexDigit

/-- A number up to 255 without a leading zero. -/
def isAddressByte (cs : List Char) : Bool :=
  1 ≤ cs.length && cs.length ≤ 3 && cs.all Char.isDigit &&
    (cs.length == 1 || cs.head? != some '0') &&
    cs.foldl (fun n c => 10 * n + (c.toNat - '0'.toNat)) 0 ≤ 255

/-- Four bytes between dots, which take the place of two groups. -/
def isAddressTail (cs : List Char) : Bool :=
  let bytes := Text.pieces (· == '.') cs
  bytes.length == 4 && bytes.all isAddressByte

/-- The number of groups between colons; none if one is ill-formed. Bytes between dots may end the
groups if `tail` is set. -/
def addressGroups? (tail : Bool) : List (List Char) → Option Nat
  | [] => some 0
  | [g] => if isAddressGroup g then some 1 else if tail && isAddressTail g then some 2 else none
  | g :: gs => if isAddressGroup g then (addressGroups? tail gs).map (· + 1) else none

/-- The texts around the first pair of colons. -/
def splitDoubleColon : List Char → Option (List Char × List Char)
  | ':' :: ':' :: rest => some ([], rest)
  | c :: cs => (splitDoubleColon cs).map fun (head, tail) => (c :: head, tail)
  | [] => none

/-- The groups of a text, of which there are none in the empty one. -/
def splitGroups (cs : List Char) : List (List Char) :=
  if cs.isEmpty then [] else Text.pieces (· == ':') cs

/-- An address of eight groups, of which one run of zeros may be left out. -/
def isAddress (cs : List Char) : Bool :=
  match splitDoubleColon cs with
  | none => addressGroups? true (splitGroups cs) == some 8
  | some (head, tail) =>
    match addressGroups? false (splitGroups head), addressGroups? true (splitGroups tail) with
    | some m, some n => m + n ≤ 7
    | _, _ => false

/-- Reads the content of brackets that starts with a `v`, which is left out: a version, a dot, and
an address. -/
def checkFutureAddress (cs : List Char) : Except IriFault Unit :=
  let version := cs.takeWhile Text.isHexDigit
  match cs.dropWhile Text.isHexDigit with
  | c :: address =>
    if c = '.' then
      if version.isEmpty then .error (.hostCharacter (address.headD ']'))
      else
        match address.dropWhile (fun c => isPlainAscii c || c == ':') with
        | [] => if address.isEmpty then .error (.hostCharacter ']') else .ok ()
        | bad :: _ => .error (.hostCharacter bad)
    else .error (.hostCharacter c)
  | [] => .error (.hostCharacter ']')

def checkBracketed (cs : List Char) : Except IriFault Unit :=
  match cs with
  | 'v' :: rest | 'V' :: rest => checkFutureAddress rest
  | _ => if isAddress cs then .ok () else .error .hostAddress

def checkHost (cs : List Char) : Except IriFault Unit :=
  match cs with
  | '[' :: inside =>
    match inside.dropWhile (· != ']') with
    | [] => .error (.hostCharacter '[')
    | _ :: rest => do
      checkBracketed (inside.takeWhile (· != ']'))
      match rest with
      | [] => .ok ()
      | ':' :: number => checkHostNumber number
      | c :: _ => if endsAuthority c then checkPath rest else .error (.hostCharacter c)
  | _ => do
    let rest ← readRun isPlain (fun c => c == ':' || endsAuthority c) cs
    match rest with
    | [] => .ok ()
    | ':' :: number => checkHostNumber number
    | _ => checkPath rest

def checkAuthority (cs : List Char) : Except IriFault Unit := do
  let rest ← readRun (fun c => isPlain c || c == ':')
    (fun c => c == '@' || c == '[' || endsAuthority c) cs
  match rest with
  | '@' :: host => checkHost host
  | _ => checkHost cs

def afterScheme? : List Char → Option (List Char)
  | [] => none
  | c :: cs =>
    if Text.isLetter c then
      match cs.dropWhile fun d => Text.isAlphanumeric d || d == '+' || d == '.' || d == '-' with
      | ':' :: rest => some rest
      | _ => none
    else none

/-- Reads a reference without a scheme, whose first segment holds no colon. -/
def checkRelative : List Char → Except IriFault Unit
  | '/' :: '/' :: rest => checkAuthority rest
  | '/' :: rest => checkPath ('/' :: rest)
  | cs => (readRun (fun c => isPlain c || c == '@') endsAuthority cs).bind checkPath

def checkIri (cs : List Char) : Except IriFault Unit :=
  match cs with
  | ':' :: _ => .error .noScheme
  | _ =>
    match afterScheme? cs with
    | some ('/' :: '/' :: rest) => checkAuthority rest
    | some rest => checkPath rest
    | none => (checkRelative cs).bind fun _ => .error .noScheme

end TripleStore.Compact
