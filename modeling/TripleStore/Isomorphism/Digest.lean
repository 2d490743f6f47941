import TripleStore.Isomorphism.Refine

/-!
# A digest of 64 bits

Colors made by mixing words. That different surroundings get the same color is possible and costs
time only.
-/

namespace TripleStore.Isomorphism

def mixWord (state word : UInt64) : UInt64 :=
  let h := (state ^^^ word) * 0x9E3779B97F4A7C15
  h ^^^ (h >>> 29)

/-- Mixes a text into a state, its length first. -/
def mixText (state : UInt64) (text : String) : UInt64 :=
  text.foldl (fun h c => mixWord h c.toNat.toUInt64) (mixWord state text.length.toUInt64)

/-- Mixes an integer of any size into a state. -/
def mixInt (state : UInt64) (v : Int) : UInt64 :=
  mixWord (mixWord (mixWord state (if v < 0 then 1 else 0)) v.natAbs.toUInt64)
    (v.natAbs >>> 64).toUInt64

def mixKey (state : UInt64) : ValueKey → UInt64
  | .iri text => mixText (mixWord state 10) text
  | .blank label => mixText (mixWord state 11) label
  | .integer v => mixInt (mixWord state 12) v
  | .decimal text => mixText (mixWord state 13) text
  | .boolean b => mixWord (mixWord state 14) (if b then 1 else 0)
  | .float bits => mixWord (mixWord state 15) bits.toUInt64
  | .double bits => mixWord (mixWord state 16) bits
  | .string text => mixText (mixWord state 17) text
  | .langString lexical tag => mixText (mixText (mixWord state 18) lexical) tag
  | .typed datatype lexical => mixText (mixText (mixWord state 19) datatype) lexical

def mixMark (state : UInt64) : Mark → UInt64
  | .any => mixWord state 1
  | .ground key => mixKey (mixWord state 2) key
  | .self => mixWord state 3
  | .other color => mixWord (mixWord state 4) color.toUInt64

def Digest.mixing : Digest where
  start := 1
  ofTriple t := (t.toList.foldl mixMark 7).toNat
  ofNode color signatures :=
    (signatures.foldl (fun h s => mixWord h s.toUInt64) (mixWord 5 color.toUInt64)).toNat

end TripleStore.Isomorphism
