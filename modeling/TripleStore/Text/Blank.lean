/-!
# Blank characters and pieces of text

`isBlank` is the class of code points with Unicode's White_Space property: it separates the nodes
of a triple in compact form and may surround the lexical form of a typed literal. `pieces` cuts a
text at every character of a class, so `n` cuts make `n + 1` pieces; `words` are the pieces between
blanks that hold something.
-/

namespace TripleStore.Text

/-- A code point with the White_Space property. -/
def isBlank (c : Char) : Bool :=
  let n := c.toNat
  (0x9 ≤ n && n ≤ 0xD) || n == 0x20 || n == 0x85 || n == 0xA0 || n == 0x1680 ||
    (0x2000 ≤ n && n ≤ 0x200A) || n == 0x2028 || n == 0x2029 || n == 0x202F || n == 0x205F ||
    n == 0x3000

def trimStart (cs : List Char) : List Char := cs.dropWhile isBlank

def trimEnd (cs : List Char) : List Char := (cs.reverse.dropWhile isBlank).reverse

def trim (cs : List Char) : List Char := trimEnd (trimStart cs)

/-- The text between the characters of a class, cut at each of them. -/
def pieces (cut : Char → Bool) : List Char → List (List Char)
  | [] => [[]]
  | c :: cs =>
    if cut c then [] :: pieces cut cs
    else
      match pieces cut cs with
      | [] => [[c]]
      | w :: ws => (c :: w) :: ws

/-- The blank-free runs of a text, in order. -/
def words (cs : List Char) : List (List Char) :=
  (pieces isBlank cs).filter fun w => !w.isEmpty

def lowerAscii (s : String) : String := String.ofList (s.toList.map Char.toLower)

theorem pieces_ne_nil (cut : Char → Bool) (cs : List Char) : pieces cut cs ≠ [] := by
  cases cs with
  | nil => simp [pieces]
  | cons c cs =>
    unfold pieces
    split
    · simp
    · split <;> simp

end TripleStore.Text
