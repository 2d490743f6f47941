import TripleStore.Graph.Basic
import TripleStore.Text.Hex
import TripleStore.Text.Unseen

/-!
# Summary of a graph

The short text that names a graph and tells whether it is closed. The name stands in quotes;
quotes, backslashes and what does not show are written as escapes.
-/

namespace TripleStore

namespace Text

def showChar (c : Char) : List Char :=
  if c = '"' then ['\\', '"']
  else if c = '\\' then ['\\', '\\']
  else if c = '\n' then ['\\', 'n']
  else if c = '\r' then ['\\', 'r']
  else if c = '\t' then ['\\', 't']
  else if c = Char.ofNat 0 then ['\\', '0']
  else if isSeen c then [c]
  else ['\\', 'u', '\x7b'] ++ hexDigits 1 c.toNat ++ ['\x7d']

def showName (name : String) : String :=
  "\"" ++ String.ofList (name.toList.flatMap showChar) ++ "\""

end Text

namespace Graph

def summary (g : Graph) : String :=
  "Graph \x7b name: " ++ Text.showName g.config.name ++ ", closed: " ++
    (if g.closed then "true" else "false") ++ " \x7d"

end Graph

end TripleStore
