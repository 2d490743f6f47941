import TripleStore.Text.Blank
import TripleStore.Text.CodePoints

/-!
# Language tags

A tag is a language, then optional extended languages, script, region and variants, then extensions
and private use, joined by hyphens; or one of a few tags that are grandfathered in; or private use
alone. `checkTag` reads the subtags of a lower-case tag in order and reports the first fault.
-/

namespace TripleStore.Compact

inductive TagFault where
  | emptySubtag
  | longSubtag
  | strangeSubtag
  | badLanguage
  | emptyExtension
  | emptyPrivateUse
  | manyExtendedLanguages
deriving DecidableEq, Repr

def TagFault.message : TagFault → String
  | .emptySubtag => "A subtag should not be empty"
  | .longSubtag => "A subtag may be eight characters in length at maximum"
  | .strangeSubtag => "A subtag fails to parse, it does not match any other subtags"
  | .badLanguage => "The given language subtag is invalid"
  | .emptyExtension => "If an extension subtag is present, it must not be empty"
  | .emptyPrivateUse => "If the `x` subtag is present, it must not be empty"
  | .manyExtendedLanguages => "At maximum three extlangs are allowed"

/-- The tags that are valid as a whole. -/
def grandfathered : List String :=
  ["art-lojban", "cel-gaulish", "en-gb-oed", "i-ami", "i-bnn", "i-default", "i-enochian", "i-hak",
   "i-klingon", "i-lux", "i-mingo", "i-navajo", "i-pwn", "i-tao", "i-tay", "i-tsu", "no-bok",
   "no-nyn", "sgn-be-fr", "sgn-be-nl", "sgn-ch-de", "zh-guoyu", "zh-hakka", "zh-min", "zh-min-nan",
   "zh-xiang"]

/-- How far the reading of a tag has come. -/
inductive TagPlace where
  | start
  /-- Behind a short language and this many extended languages. -/
  | language (extended : Nat)
  /-- Behind a language too long to be extended. -/
  | longLanguage
  | script
  | region
  /-- In an extension, which may still be empty. -/
  | extension (isEmpty : Bool)
  /-- In private use, which may still be empty. -/
  | privateUse (isEmpty : Bool)
deriving DecidableEq, Repr

namespace TagPlace

def admitsScript : TagPlace → Bool
  | .language _ | .longLanguage => true
  | _ => false

def admitsRegion : TagPlace → Bool
  | .script => true
  | p => p.admitsScript

def admitsVariant : TagPlace → Bool
  | .region => true
  | p => p.admitsRegion

end TagPlace

/-- The bytes of a text in UTF-8. -/
def byteLength (cs : List Char) : Nat := cs.foldr (fun c n => c.utf8Size + n) 0

/-- Five characters or more of which the first is a letter, or four or more of which the first is
a digit. -/
def isVariant (subtag : List Char) : Bool :=
  subtag.all Text.isAlphanumeric &&
    match subtag with
    | [] => false
    | c :: _ => (Text.isLetter c && 5 ≤ subtag.length) || (c.isDigit && 4 ≤ subtag.length)

/-- Two letters or three digits. -/
def isRegion (subtag : List Char) : Bool :=
  (subtag.length == 2 && subtag.all Text.isLetter) ||
    (subtag.length == 3 && subtag.all Char.isDigit)

/-- Reads a subtag that starts no extension and no private use. -/
def readPlainSubtag (place : TagPlace) (subtag : List Char) : Except TagFault TagPlace :=
  let letters := subtag.all Text.isLetter
  match place with
  | .extension _ =>
    if subtag.all Text.isAlphanumeric then .ok (.extension false) else .error .strangeSubtag
  | _ =>
    match place, subtag.length == 3 && letters with
    | .language n, true =>
      if n < 3 then .ok (.language (n + 1)) else .error .manyExtendedLanguages
    | _, _ =>
      if place.admitsScript && subtag.length == 4 && letters then .ok .script
      else if place.admitsRegion && isRegion subtag then .ok .region
      else if place.admitsVariant && isVariant subtag then .ok .region
      else .error .strangeSubtag

def readSubtag (place : TagPlace) (subtag : List Char) : Except TagFault TagPlace :=
  if subtag.isEmpty then .error .emptySubtag
  else if 8 < byteLength subtag then .error .longSubtag
  else
    match place with
    | .start =>
      if 2 ≤ subtag.length && subtag.all Text.isLetter then
        .ok (if subtag.length < 4 then .language 0 else .longLanguage)
      else .error .badLanguage
    | .privateUse _ =>
      if subtag.all Text.isAlphanumeric then .ok (.privateUse false) else .error .strangeSubtag
    | _ =>
      if subtag.length == 1 && subtag.all Text.isAlphanumeric then
        if place = .extension true then .error .emptyExtension
        else .ok (if subtag = ['x'] then .privateUse true else .extension true)
      else readPlainSubtag place subtag

/-- Reads the subtags of a tag in order; what was opened must hold something at the end. -/
def readSubtags : TagPlace → List (List Char) → Except TagFault Unit
  | .extension true, [] => .error .emptyExtension
  | .privateUse true, [] => .error .emptyPrivateUse
  | _, [] => .ok ()
  | place, subtag :: rest => (readSubtag place subtag).bind (readSubtags · rest)

/-- Checks a tag that is already in lower case. -/
def checkTag (tag : List Char) : Except TagFault Unit :=
  if grandfathered.contains (String.ofList tag) then .ok ()
  else
    match tag with
    | 'x' :: '-' :: rest =>
      if rest.isEmpty then .error .emptyPrivateUse
      else readSubtags (.privateUse false) (Text.pieces (· == '-') rest)
    | _ => readSubtags .start (Text.pieces (· == '-') tag)

end TripleStore.Compact
