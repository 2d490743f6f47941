import TripleStore.Proofs.Graph.Effect

/-!
# Tables that answer alike

A graph knows its node table by the answers of the table and by nothing else. Where a map of tables
keeps every answer, a request does to the graph what it does over the other table, and finds and
reports the same. So a screened table that hides nothing is as good as the memory table in it.
-/

namespace TripleStore

variable {τ σ : Type} [NodeTable τ] [NodeTable σ] {f : τ → σ}

namespace NodeTable

/-- The map keeps every answer, and a table after a question goes to the table after it. -/
structure KeepsAnswers (f : τ → σ) : Prop where
  lookupOrCreate : ∀ nodes t, lookupOrCreate (f nodes) t = (lookupOrCreate nodes t).map id f
  lookup : ∀ nodes t, lookup (f nodes) t = lookup nodes t
  resolve : ∀ nodes id, resolve (f nodes) id = resolve nodes id
  equivalents : ∀ nodes t, equivalents (f nodes) t = equivalents nodes t

theorem encode_map (hf : KeepsAnswers f) (nodes : τ) (node : Node) :
    encode (f nodes) node = (encode nodes node).map id f := by
  cases node with
  | any => rfl
  | term t => exact hf.lookupOrCreate nodes t

theorem encodeTriple_map (hf : KeepsAnswers f) (nodes : τ) (p : Pattern) :
    encodeTriple (f nodes) p = (encodeTriple nodes p).map id f := by
  rw [encodeTriple, encodeTriple, encode_map hf]
  cases encode nodes p.subject with
  | mk subject nodes =>
    cases subject with
    | error e => rfl
    | ok s =>
      simp only [Prod.map, id, encode_map hf]
      cases encode nodes p.predicate with
      | mk predicate nodes =>
        cases predicate with
        | error e => rfl
        | ok q =>
          simp only [Prod.map, id, encode_map hf]
          cases encode nodes p.object with
          | mk object nodes => cases object <;> rfl

theorem decodeTriple_map (hf : KeepsAnswers f) (nodes : τ) (t : IdTriple) :
    decodeTriple (f nodes) t = decodeTriple nodes t := by
  simp only [decodeTriple, decode, hf.resolve]

end NodeTable

open NodeTable

namespace Graph

theorem candidates_map (hf : KeepsAnswers f) (g : Graph) (nodes : τ) (node : Node) :
    g.candidates (f nodes) node = g.candidates nodes node := by
  cases node with
  | any => rfl
  | term t => rw [candidates, candidates, hf.equivalents, hf.lookup]

theorem patterns_map (hf : KeepsAnswers f) (g : Graph) (nodes : τ) (p : Pattern) :
    g.patterns (f nodes) p = g.patterns nodes p := by
  simp only [patterns, candidates_map hf]

theorem matching_map (hf : KeepsAnswers f) (g : Graph) (nodes : τ) (p : Pattern) :
    g.matching (f nodes) p = g.matching nodes p := by
  rw [matching, matching, patterns_map hf]

theorem statementSet_map (hf : KeepsAnswers f) (g : Graph) (nodes : τ) :
    g.statementSet (f nodes) = g.statementSet nodes := by
  simp only [statementSet, decodeTriple_map hf]

theorem pinnedSet_map (hf : KeepsAnswers f) (g : Graph) (nodes : τ) :
    g.pinnedSet (f nodes) = g.pinnedSet nodes := by
  simp only [pinnedSet, decodeTriple_map hf]

end Graph

namespace Cursor

theorem next_map (hf : KeepsAnswers f) (g : Graph) (nodes : τ) (c : Cursor) :
    c.next g (f nodes) = c.next g nodes := by
  simp only [next, yield, decodeTriple_map hf]

theorem takeItems_map (hf : KeepsAnswers f) (g : Graph) (nodes : τ) (count : Nat) (c : Cursor) :
    c.takeItems g (f nodes) count = c.takeItems g nodes count := by
  induction count generalizing c with
  | zero => rfl
  | succ count ih => simp only [takeItems, next_map hf, ih]

end Cursor

namespace Graph

theorem statements_map (hf : KeepsAnswers f) (g : Graph) (nodes : τ) (p : Pattern) :
    g.statements (f nodes) p = g.statements nodes p := by
  simp only [statements, findAll, find, patterns_map hf, Cursor.toList, Cursor.takeItems_map hf]

end Graph

namespace Draft

def map (f : τ → σ) (d : Draft τ) : Draft σ := ⟨f d.nodes, d.indexes, d.changes, d.events⟩

theorem add_map (hf : KeepsAnswers f) (caps : Capabilities) (p : Pattern) (d : Draft τ) :
    (d.map f).add caps p = (d.add caps p).map id (map f) := by
  rw [add, add]
  split
  · rfl
  · split
    · rfl
    · simp only [map, encodeTriple_map hf]
      cases NodeTable.encodeTriple d.nodes p with
      | mk result nodes =>
        cases result with
        | error e => rfl
        | ok ids => cases hinsert : d.indexes.insert ids <;> simp [hinsert, report, map]

theorem deleteAll_map (hf : KeepsAnswers f) (pinned ids : List IdTriple) (d : Draft τ) :
    deleteAll pinned ids (d.map f) = (deleteAll pinned ids d).map id (map f) := by
  induction ids generalizing d with
  | nil => rfl
  | cons t ids ih =>
    rw [deleteAll, deleteAll]
    split
    · exact ih d
    · simp only [map, decodeTriple_map hf]
      cases NodeTable.decodeTriple d.nodes t with
      | error e => rfl
      | ok st =>
        cases d.indexes.remove t with
        | error e => rfl
        | ok answer =>
          obtain ⟨found, indexes⟩ := answer
          cases found with
          | false => exact ih { d with indexes }
          | true =>
            exact ih (report { d with indexes, changes := d.changes ++ [.removed t] }
              (.deleteTriple st))

theorem clearAll_map (hf : KeepsAnswers f) (pinned ids : List IdTriple) (d : Draft τ) :
    clearAll pinned ids (d.map f) = (clearAll pinned ids d).map id (map f) := by
  induction ids generalizing d with
  | nil => rfl
  | cons t ids ih =>
    rw [clearAll, clearAll]
    split
    · exact ih d
    · simp only [map, decodeTriple_map hf]
      cases NodeTable.decodeTriple d.nodes t with
      | error e => rfl
      | ok st =>
        cases d.indexes.remove t with
        | error e => rfl
        | ok answer =>
          exact ih (report { d with indexes := answer.2, changes := d.changes ++ [.removed t] }
            (.deleteTriple st))

variable {g : Graph}

theorem delete_map (hf : KeepsAnswers f) (p : Pattern) (d : Draft τ) :
    delete g p (d.map f) = (delete g p d).map id (map f) := by
  rw [delete, delete]
  split
  · rfl
  · rw [show (d.map f).nodes = f d.nodes from rfl, Graph.matching_map hf, deleteAll_map hf]
    cases deleteAll g.pinned (g.matching d.nodes p) d with
    | mk result d =>
      cases result with
      | error e => rfl
      | ok =>
        cases p.statement? with
        | none => rfl
        | some t => cases hevents : d.events.isEmpty <;> simp [map, report, hevents]

theorem remove_map (hf : KeepsAnswers f) (p : Pattern) (d : Draft τ) :
    remove g p (d.map f) = (remove g p d).map id (map f) := by
  rw [remove, remove]
  split
  · rfl
  · rw [show (d.map f).nodes = f d.nodes from rfl, Graph.matching_map hf, deleteAll_map hf]
    cases deleteAll g.pinned (g.matching d.nodes p) d with
    | mk result d => cases result <;> rfl

theorem removeFound_map {α β : Type} {f : α → β} (found : Found) (d : Draft α) :
    removeFound g found (d.map f) = (removeFound g found d).map id (map f) := by
  rw [removeFound, removeFound]
  split
  · rfl
  · split
    · rfl
    · split
      · rfl
      · simp only [map]
        cases d.indexes.remove found.ids with
        | error e => rfl
        | ok answer =>
          obtain ⟨changed, indexes⟩ := answer
          cases changed <;> rfl

theorem clear_map (hf : KeepsAnswers f) (d : Draft τ) :
    clear g (d.map f) = (clear g d).map id (map f) := by
  rw [clear, clear]
  split
  · rfl
  · rw [show (d.map f).nodes = f d.nodes from rfl, Graph.matching_map hf,
      show (d.map f).report .removeAllStart = (d.report .removeAllStart).map f from rfl,
      clearAll_map hf]
    cases clearAll g.pinned (g.matching d.nodes Pattern.any) (d.report .removeAllStart) with
    | mk result d => cases result <;> rfl

end Draft

def Outcome.map (f : τ → σ) (o : Outcome τ) : Outcome σ := ⟨o.graph, f o.nodes, o.result⟩

namespace Graph

variable {g : Graph}

theorem mutate_map {α β : Type} {f : α → β} {op : Draft α → Except Error Unit × Draft α}
    {op' : Draft β → Except Error Unit × Draft β}
    (hop : ∀ d, op' (d.map f) = (op d).map id (Draft.map f)) (nodes : α) :
    g.mutate (f nodes) op' = (g.mutate nodes op).map f := by
  have hstart := hop { nodes, indexes := g.indexes }
  rw [mutate, mutate]
  split
  · rfl
  · rw [show ({ nodes := f nodes, indexes := g.indexes } : Draft β) =
      Draft.map f { nodes, indexes := g.indexes } from rfl, hstart]
    cases op { nodes, indexes := g.indexes } with
    | mk result d => cases result <;> rfl

theorem control_map {α β : Type} {f : α → β} (nodes : α)
    (step : Graph → Except Error Unit × Graph) :
    g.control (f nodes) step = (g.control nodes step).map f := by
  rw [control, control]
  split
  · rfl
  · split <;> rfl

/-- A request does over a table what it does over one that answers alike. -/
theorem perform_map (hf : KeepsAnswers f) (who : Thread) (g : Graph) (nodes : τ) (r : Request) :
    g.perform who (f nodes) r = (g.perform who nodes r).map f := by
  cases r with
  | add p => exact mutate_map (Draft.add_map hf g.capabilities p) nodes
  | delete p => exact mutate_map (Draft.delete_map hf p) nodes
  | remove p => exact mutate_map (Draft.remove_map hf p) nodes
  | removeFound found => exact mutate_map (Draft.removeFound_map found) nodes
  | clear => exact mutate_map (Draft.clear_map hf) nodes
  | begin => exact control_map nodes (begin who)
  | commit => exact control_map nodes (commit who)
  | abort => exact control_map nodes (abort who)
  | close => rfl

end Graph

namespace MemoryTable

/-- The screened table that hides nothing. -/
def unscreened (m : MemoryTable) : ScreenedTable := ⟨m, []⟩

theorem keepsAnswers_unscreened : KeepsAnswers unscreened where
  lookupOrCreate _ _ := rfl
  lookup _ _ := rfl
  resolve m id := by
    show ScreenedTable.resolve ⟨m, []⟩ id = m.resolve id
    cases id <;> rfl
  equivalents _ _ := rfl

end MemoryTable

end TripleStore
