import Mathlib.Data.List.TakeWhile
import TripleStore.Json.Reader
import TripleStore.Proofs.Json.Spelling

/-!
# Documents are read as what they spell

`Written` is the grammar of documents without numbers, with any whitespace between the tokens. The
reader accepts every text that the grammar derives and answers the value it was derived for: by
induction on the derivation, each part of a text is read with as much fuel as it has characters, up
to where the part ends.
-/

namespace TripleStore.Json

open Spelling

/-- A part of a document: a value, or the elements or members of one up to its closing bracket. -/
inductive Fragment where
  | value (x : Json)
  | elements (xs : List Json)
  | members (ms : List (List Char × Json))

def Gap (g : List Char) : Prop := ∀ c ∈ g, isSpace c

/-- The string in quotes, and what separates it from the value that it names. -/
inductive Named (key : List Char) : List Char → Prop where
  | mk {g g' : List Char} (hkey : Spelled key) (hg : Gap g) (hg' : Gap g') :
      Named key ('"' :: key ++ '"' :: g ++ ':' :: g')

inductive Written : Fragment → List Char → Prop where
  | null : Written (.value .null) ['n', 'u', 'l', 'l']
  | true : Written (.value (.bool true)) ['t', 'r', 'u', 'e']
  | false : Written (.value (.bool false)) ['f', 'a', 'l', 's', 'e']
  | string {s : List Char} (hs : Spelled s) : Written (.value (.string s)) ('"' :: s ++ ['"'])
  | noElements {g : List Char} (hg : Gap g) : Written (.value (.array [])) ('[' :: g ++ [']'])
  | array {g cs : List Char} {xs : List Json} (hg : Gap g) (hxs : Written (.elements xs) cs) :
      Written (.value (.array xs)) ('[' :: g ++ cs)
  | noMembers {g : List Char} (hg : Gap g) :
      Written (.value (.object [])) ('\x7b' :: g ++ ['\x7d'])
  | object {g cs : List Char} {ms : List (List Char × Json)} (hg : Gap g)
      (hms : Written (.members ms) cs) : Written (.value (.object ms)) ('\x7b' :: g ++ cs)
  | lastElement {x : Json} {cs g : List Char} (hx : Written (.value x) cs) (hg : Gap g) :
      Written (.elements [x]) (cs ++ g ++ [']'])
  | nextElement {x : Json} {xs : List Json} {cs ds g g' : List Char} (hx : Written (.value x) cs)
      (hg : Gap g) (hg' : Gap g') (hxs : Written (.elements xs) ds) :
      Written (.elements (x :: xs)) (cs ++ g ++ ',' :: g' ++ ds)
  | lastMember {key : List Char} {x : Json} {ks cs g : List Char} (hkey : Named key ks)
      (hx : Written (.value x) cs) (hg : Gap g) :
      Written (.members [(key, x)]) (ks ++ cs ++ g ++ ['\x7d'])
  | nextMember {key : List Char} {x : Json} {ms : List (List Char × Json)}
      {ks cs ds g g' : List Char} (hkey : Named key ks) (hx : Written (.value x) cs) (hg : Gap g)
      (hg' : Gap g') (hms : Written (.members ms) ds) :
      Written (.members ((key, x) :: ms)) (ks ++ cs ++ g ++ ',' :: g' ++ ds)

/-- A text that spells a value, with whitespace around it. -/
inductive Document (x : Json) : List Char → Prop where
  | mk {g cs g' : List Char} (hg : Gap g) (hx : Written (.value x) cs) (hg' : Gap g') :
      Document x (g ++ cs ++ g')

/-! ### Whitespace -/

theorem skipSpace_gap {g : List Char} (hg : Gap g) (cs : List Char) :
    skipSpace (g ++ cs) = skipSpace cs := by
  rw [skipSpace, List.dropWhile_append_of_pos hg]
  rfl

theorem skipSpace_cons {c : Char} (hc : isSpace c = false) (cs : List Char) :
    skipSpace (c :: cs) = c :: cs := by
  simp [skipSpace, hc]

theorem skipSpace_gap_cons {g : List Char} {c : Char} (hg : Gap g) (hc : isSpace c = false)
    (cs : List Char) : skipSpace (g ++ c :: cs) = c :: cs := by
  rw [skipSpace_gap hg, skipSpace_cons hc]

/-- No part of a document starts with whitespace or a closing bracket. -/
theorem Written.head {f : Fragment} {cs : List Char} (h : Written f cs) :
    ∃ c ds, cs = c :: ds ∧ isSpace c = Bool.false ∧ c ≠ ']' ∧ c ≠ '\x7d' := by
  induction h with
  | null | true | false | string | noElements | array | noMembers | object =>
    exact ⟨_, _, rfl, rfl, by decide, by decide⟩
  | lastElement _ _ ih =>
    obtain ⟨c, ds, rfl, hc⟩ := ih
    exact ⟨c, _, rfl, hc⟩
  | nextElement _ _ _ _ ih =>
    obtain ⟨c, ds, rfl, hc⟩ := ih
    exact ⟨c, _, rfl, hc⟩
  | lastMember hkey | nextMember hkey =>
    cases hkey
    exact ⟨_, _, rfl, rfl, by decide, by decide⟩

theorem Written.skipSpace_eq {f : Fragment} {cs g : List Char} (h : Written f cs) (hg : Gap g)
    (rest : List Char) : skipSpace (g ++ (cs ++ rest)) = cs ++ rest := by
  obtain ⟨c, ds, rfl, hc, -⟩ := h.head
  exact skipSpace_gap_cons hg hc _

theorem Written.ne_close {f : Fragment} {cs : List Char} (h : Written f cs) (rest r : List Char) :
    cs ++ rest ≠ ']' :: r ∧ cs ++ rest ≠ '\x7d' :: r := by
  obtain ⟨c, ds, rfl, -, hbracket, hbrace⟩ := h.head
  exact ⟨fun heq => hbracket (List.cons.inj heq).1, fun heq => hbrace (List.cons.inj heq).1⟩

/-! ### Reading -/

/-- The part is read from the front of a text, and `rest` is left. -/
def Fragment.ReadAs (fuel : Nat) (cs rest : List Char) : Fragment → Prop
  | .value x => readValue? fuel cs = some (x, rest)
  | .elements xs => readElements? fuel cs = some (xs, rest)
  | .members ms => readMembers? fuel cs = some (ms, rest)

theorem readValue?_array {fuel : Nat} {g cs rest : List Char} {xs : List Json}
    (hskip : skipSpace (g ++ cs) = cs) (hcs : ∀ r, cs ≠ ']' :: r)
    (h : readElements? fuel cs = some (xs, rest)) :
    readValue? (fuel + 1) ('[' :: (g ++ cs)) = some (.array xs, rest) := by
  simp only [readValue?, hskip, h, Option.map_some]

theorem readValue?_object {fuel : Nat} {g cs rest : List Char} {ms : List (List Char × Json)}
    (hskip : skipSpace (g ++ cs) = cs) (hcs : ∀ r, cs ≠ '\x7d' :: r)
    (h : readMembers? fuel cs = some (ms, rest)) :
    readValue? (fuel + 1) ('\x7b' :: (g ++ cs)) = some (.object ms, rest) := by
  simp only [readValue?, hskip, h, Option.map_some]

/-- A name is scanned up to its colon, and whitespace up to the value that it names. -/
theorem Named.scan {key ks cs : List Char} (h : Named key ks)
    (hskip : ∀ g, Gap g → skipSpace (g ++ cs) = cs) :
    ∃ r r' r'', ks ++ cs = '"' :: r ∧ scan? r = some (key, r') ∧ skipSpace r' = ':' :: r'' ∧
      skipSpace r'' = cs := by
  cases h with
  | @mk g g' hkey hg hg' =>
    refine ⟨key ++ '"' :: (g ++ ':' :: (g' ++ cs)), g ++ ':' :: (g' ++ cs), g' ++ cs,
      ?_, ?_, ?_, ?_⟩
    · simp
    · exact hkey.scan _
    · exact skipSpace_gap_cons hg rfl _
    · exact hskip g' hg'

/-- A part of a document is read whatever follows it. -/
theorem Written.readAs {f : Fragment} {cs : List Char} (h : Written f cs) (fuel : Nat)
    (rest : List Char) (hfuel : cs.length ≤ fuel) : f.ReadAs fuel (cs ++ rest) rest := by
  -- every part has a character more than its own parts, and costs one unit of fuel more
  induction h generalizing fuel rest with
  | null | true | false =>
    obtain ⟨fuel, rfl⟩ : ∃ n, fuel = n + 1 := ⟨fuel - 1, by simp at hfuel; omega⟩
    rfl
  | @string s hs =>
    obtain ⟨fuel, rfl⟩ : ∃ n, fuel = n + 1 := ⟨fuel - 1, by simp at hfuel; omega⟩
    simp only [Fragment.ReadAs, List.cons_append, List.append_assoc, List.nil_append, readValue?,
      hs.scan, Option.map_some]
  | @noElements g hg =>
    obtain ⟨fuel, rfl⟩ : ∃ n, fuel = n + 1 := ⟨fuel - 1, by simp at hfuel; omega⟩
    have hskip : skipSpace (g ++ ']' :: rest) = ']' :: rest := skipSpace_gap_cons hg rfl _
    simp only [Fragment.ReadAs, List.cons_append, List.append_assoc, List.nil_append, readValue?,
      hskip]
  | @noMembers g hg =>
    obtain ⟨fuel, rfl⟩ : ∃ n, fuel = n + 1 := ⟨fuel - 1, by simp at hfuel; omega⟩
    have hskip : skipSpace (g ++ '\x7d' :: rest) = '\x7d' :: rest := skipSpace_gap_cons hg rfl _
    simp only [Fragment.ReadAs, List.cons_append, List.append_assoc, List.nil_append, readValue?,
      hskip]
  | @array g cs xs hg hxs ih =>
    obtain ⟨fuel, rfl⟩ : ∃ n, fuel = n + 1 := ⟨fuel - 1, by simp at hfuel; omega⟩
    have hread := ih fuel rest (by simp at hfuel; omega)
    have hvalue :=
      readValue?_array (hxs.skipSpace_eq hg rest) (fun r => (hxs.ne_close rest r).1) hread
    simpa [Fragment.ReadAs] using hvalue
  | @object g cs ms hg hms ih =>
    obtain ⟨fuel, rfl⟩ : ∃ n, fuel = n + 1 := ⟨fuel - 1, by simp at hfuel; omega⟩
    have hread := ih fuel rest (by simp at hfuel; omega)
    have hvalue :=
      readValue?_object (hms.skipSpace_eq hg rest) (fun r => (hms.ne_close rest r).2) hread
    simpa [Fragment.ReadAs] using hvalue
  | @lastElement x cs g hx hg ih =>
    obtain ⟨fuel, rfl⟩ : ∃ n, fuel = n + 1 := ⟨fuel - 1, by simp at hfuel; omega⟩
    have hread : readValue? fuel (cs ++ (g ++ ']' :: rest)) = some (x, g ++ ']' :: rest) :=
      ih fuel _ (by simp at hfuel; omega)
    have hclose : skipSpace (g ++ ']' :: rest) = ']' :: rest := skipSpace_gap_cons hg rfl _
    simp only [Fragment.ReadAs, List.append_assoc, List.singleton_append, readElements?, hread,
      hclose]
  | @nextElement x xs cs ds g g' hx hg hg' hxs ihx ihxs =>
    obtain ⟨fuel, rfl⟩ : ∃ n, fuel = n + 1 := ⟨fuel - 1, by simp at hfuel; omega⟩
    have hread : readValue? fuel (cs ++ (g ++ ',' :: (g' ++ (ds ++ rest)))) =
        some (x, g ++ ',' :: (g' ++ (ds ++ rest))) := ihx fuel _ (by simp at hfuel; omega)
    have hcomma : skipSpace (g ++ ',' :: (g' ++ (ds ++ rest))) = ',' :: (g' ++ (ds ++ rest)) :=
      skipSpace_gap_cons hg rfl _
    have hnext : readElements? fuel (ds ++ rest) = some (xs, rest) :=
      ihxs fuel rest (by simp at hfuel; omega)
    simp only [Fragment.ReadAs, List.append_assoc, List.cons_append, readElements?, hread, hcomma,
      hxs.skipSpace_eq hg', hnext, Option.map_some]
  | @lastMember key x ks cs g hkey hx hg ih =>
    obtain ⟨fuel, rfl⟩ : ∃ n, fuel = n + 1 := ⟨fuel - 1, by simp at hfuel; omega⟩
    have hread : readValue? fuel (cs ++ (g ++ '\x7d' :: rest)) = some (x, g ++ '\x7d' :: rest) :=
      ih fuel _ (by simp at hfuel; omega)
    have hclose : skipSpace (g ++ '\x7d' :: rest) = '\x7d' :: rest := skipSpace_gap_cons hg rfl _
    obtain ⟨r, r', r'', htext, hscan, hcolon, hvalue⟩ :=
      hkey.scan fun g' hg' => hx.skipSpace_eq hg' (g ++ '\x7d' :: rest)
    simp only [Fragment.ReadAs, List.append_assoc, List.cons_append, List.nil_append, htext,
      readMembers?, hscan, hcolon, hvalue, hread, hclose]
  | @nextMember key x ms ks cs ds g g' hkey hx hg hg' hms ihx ihms =>
    obtain ⟨fuel, rfl⟩ : ∃ n, fuel = n + 1 := ⟨fuel - 1, by simp at hfuel; omega⟩
    have hread : readValue? fuel (cs ++ (g ++ ',' :: (g' ++ (ds ++ rest)))) =
        some (x, g ++ ',' :: (g' ++ (ds ++ rest))) := ihx fuel _ (by simp at hfuel; omega)
    have hcomma : skipSpace (g ++ ',' :: (g' ++ (ds ++ rest))) = ',' :: (g' ++ (ds ++ rest)) :=
      skipSpace_gap_cons hg rfl _
    have hnext : readMembers? fuel (ds ++ rest) = some (ms, rest) :=
      ihms fuel rest (by simp at hfuel; omega)
    obtain ⟨r, r', r'', htext, hscan, hcolon, hvalue⟩ :=
      hkey.scan fun g'' hg'' => hx.skipSpace_eq hg'' (g ++ ',' :: (g' ++ (ds ++ rest)))
    simp only [Fragment.ReadAs, List.append_assoc, List.cons_append, htext, readMembers?, hscan,
      hcolon, hvalue, hread, hcomma, hms.skipSpace_eq hg', hnext, Option.map_some]

/-- A text that spells a value is read as that value. -/
theorem Document.read?_eq {x : Json} {text : List Char} (h : Document x text) :
    read? text = some x := by
  cases h with
  | @mk g cs g' hg hx hg' =>
    have hskip : skipSpace (g ++ cs ++ g') = cs ++ g' := by
      rw [List.append_assoc, hx.skipSpace_eq hg]
    have hread : readValue? ((g ++ cs ++ g').length + 1) (cs ++ g') = some (x, g') :=
      hx.readAs _ g' (by simp; omega)
    have hrest : skipSpace g' = [] := List.dropWhile_eq_nil_iff.2 hg'
    simp only [read?, hskip, hread, hrest, List.isEmpty_nil, if_true]

end TripleStore.Json
