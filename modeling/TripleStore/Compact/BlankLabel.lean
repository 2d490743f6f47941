import TripleStore.Text.CodePoints

/-!
# Labels of blank nodes

The labels that name a blank node in compact form: one character that may start a name, then
characters that may go on with it, the last of them no dot.
-/

namespace TripleStore.Compact

/-- The letters beyond ASCII that may start a label. -/
def labelLetters : List (Nat × Nat) :=
  [(0xC0, 0xD6), (0xD8, 0xF6), (0xF8, 0x2FF), (0x370, 0x37D), (0x37F, 0x1FFF), (0x200C, 0x200D),
   (0x2070, 0x218F), (0x2C00, 0x2FEF), (0x3001, 0xD7FF), (0xF900, 0xFDCF), (0xFDF0, 0xFFFD),
   (0x10000, 0xEFFFF)]

/-- The marks beyond ASCII that may follow in a label. -/
def labelMarks : List (Nat × Nat) := [(0xB7, 0xB7), (0x300, 0x36F), (0x203F, 0x2040)]

def startsLabel (c : Char) : Bool :=
  Text.isAlphanumeric c || c == '_' || c == ':' || Text.inRanges labelLetters c

def continuesLabel (c : Char) : Bool :=
  startsLabel c || c == '.' || c == '-' || Text.inRanges labelMarks c

def isLabel : List Char → Bool
  | [] => false
  | c :: cs => startsLabel c && cs.all continuesLabel && (c :: cs).getLast? != some '.'

end TripleStore.Compact
