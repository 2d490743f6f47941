import TripleStore.Proofs.Graph.Reachable
import TripleStore.Proofs.NodeTable

/-!
# Graphs over a memory table

`ReachableOver` adds to the requests of a graph what other users of its table do, who may only add
terms. Such a graph stores no triple whose ids its table did not give.
-/

namespace TripleStore

open MemoryTable

/-- The indexes hold the same triples, and the table gave all their ids. -/
def IndexSet.StoredOver (m : MemoryTable) (s : IndexSet) : Prop :=
  ∃ S, s.Represents S ∧ ∀ t ∈ S, m.CoversAll t

namespace IndexSet.StoredOver

variable {m m' : MemoryTable} {s s' : IndexSet} {t : IdTriple} {changed : Bool}

theorem inStep (h : s.StoredOver m) : s.InStep := by
  obtain ⟨S, hS, -⟩ := h
  exact ⟨S, hS⟩

theorem mono (hle : m.terms.length ≤ m'.terms.length) (h : s.StoredOver m) : s.StoredOver m' := by
  obtain ⟨S, hS, hcovers⟩ := h
  exact ⟨S, hS, fun t ht => coversAll_mono hle (hcovers t ht)⟩

theorem insert (h : s.StoredOver m) (ht : m.CoversAll t) (hins : s.insert t = .ok (changed, s')) :
    s'.StoredOver m := by
  obtain ⟨S, hS, hcovers⟩ := h
  refine ⟨_, (hS.of_insert hins).2.1, fun u hu => ?_⟩
  rcases Finset.mem_insert.mp hu with rfl | hu
  · exact ht
  · exact hcovers u hu

theorem remove (h : s.StoredOver m) (hrem : s.remove t = .ok (changed, s')) : s'.StoredOver m := by
  obtain ⟨S, hS, hcovers⟩ := h
  exact ⟨_, (hS.of_remove hrem).2.1, fun u hu => hcovers u (Finset.mem_of_mem_erase hu)⟩

end IndexSet.StoredOver

/-- A mutation lets the table grow, and stores ids of the table only. -/
theorem Draft.Derives.storedOver {pinned : List IdTriple} {asked : List Pattern}
    {d₀ d : Draft MemoryTable} (h : Draft.Derives pinned asked d₀ d)
    (hs : d₀.indexes.StoredOver d₀.nodes) :
    d₀.nodes.terms.length ≤ d.nodes.terms.length ∧ d.indexes.StoredOver d.nodes := by
  induction h with
  | refl => exact ⟨Nat.le_refl _, hs⟩
  | report e _ ih => exact ih
  | encode _ _ ih =>
    obtain ⟨hle, -⟩ := encodeTriple_spec rfl
    exact ⟨ih.1.trans hle, ih.2.mono hle⟩
  | add _ _ hencode hinsert ih =>
    obtain ⟨hle, hcovers⟩ := encodeTriple_spec hencode
    exact ⟨ih.1.trans hle, (ih.2.mono hle).insert (hcovers _ rfl) hinsert⟩
  | remove _ _ hremove ih => exact ⟨ih.1, ih.2.remove hremove⟩

/-- Terms keep their ids in a mutation. -/
theorem Draft.Derives.prefix_terms {pinned : List IdTriple} {asked : List Pattern}
    {d₀ d : Draft MemoryTable} (h : Draft.Derives pinned asked d₀ d) :
    d₀.nodes.terms <+: d.nodes.terms := by
  induction h with
  | refl => exact List.prefix_rfl
  | report e _ ih => exact ih
  | encode _ _ ih => exact ih.trans (prefix_encodeTriple rfl)
  | add _ _ hencode _ ih => exact ih.trans (prefix_encodeTriple hencode)
  | remove _ _ _ ih => exact ih

namespace Graph

/-- The graph was made over the table, and both went through any number of requests to the graph
and of terms that other users gave the table. -/
inductive ReachableOver : Graph → MemoryTable → Prop where
  | created (config : Config) {nodes nodes' : MemoryTable} (statements : List Pattern) {g : Graph} :
      createPinned config nodes statements = (.ok g, nodes') → ReachableOver g nodes'
  | performed (who : Thread) (r : Request) {g : Graph} {nodes : MemoryTable} :
      ReachableOver g nodes →
      ReachableOver (g.perform who nodes r).graph (g.perform who nodes r).nodes
  | shared (t : Term) {g : Graph} {nodes : MemoryTable} :
      ReachableOver g nodes → ReachableOver g (nodes.lookupOrCreate t).2

variable {g : Graph} {m : MemoryTable}

theorem storedOver_mutation (hs : g.indexes.StoredOver m) (who : Thread) {r : Request}
    (hr : r.IsMutation) :
    m.terms.length ≤ (g.perform who m r).nodes.terms.length ∧
      (g.perform who m r).graph.indexes.StoredOver (g.perform who m r).nodes := by
  obtain ⟨d, hd⟩ := mutated_perform hs.inStep who m hr
  obtain ⟨hle, hstored⟩ := hd.derives.storedOver hs
  rw [hd.nodes]
  refine ⟨hle, ?_⟩
  rcases hd.graph with he | he
  · rw [he]
    exact hs.mono hle
  · rw [he]
    exact hstored

theorem nodes_perform_of_not_mutation (who : Thread) (g : Graph) (m : MemoryTable) {r : Request}
    (hr : ¬ r.IsMutation) : (g.perform who m r).nodes = m := by
  have hcontrol (step : Graph → Except Error Unit × Graph) : (g.control m step).nodes = m := by
    rw [control]
    split
    · rfl
    · split <;> rfl
  cases r using Request.mutationCases with
  | mutation r hm => exact absurd hm hr
  | begin => exact hcontrol _
  | commit => exact hcontrol _
  | abort => exact hcontrol _
  | close => rfl

theorem prefix_perform (hstep : g.indexes.InStep) (who : Thread) (m : MemoryTable) (r : Request) :
    m.terms <+: (g.perform who m r).nodes.terms := by
  by_cases hr : r.IsMutation
  · obtain ⟨d, hd⟩ := mutated_perform hstep who m hr
    rw [hd.nodes]
    exact hd.derives.prefix_terms
  · rw [nodes_perform_of_not_mutation who g m hr]

theorem kept_of_reachableOver (h : ReachableOver g m) : g.Kept (IndexSet.StoredOver m) := by
  induction h with
  | created config statements hg =>
    obtain ⟨hs, hnone⟩ := pinAll_induct
      (P := fun (nodes : MemoryTable) s => s.StoredOver nodes) statements
      (fun hs hencode hinsert => by
        obtain ⟨hle, hcovers⟩ := encodeTriple_spec hencode
        exact (hs.mono hle).insert (hcovers _ rfl) hinsert)
      ⟨∅, IndexSet.represents_empty _, by simp⟩ rfl hg
    exact .of_no_transaction hs hnone
  | @performed who r g nodes _ ih =>
    by_cases hr : r.IsMutation
    · obtain ⟨hle, hs⟩ := storedOver_mutation ih.indexes who hr
      exact (ih.imp fun _ h => h.mono hle).perform (fun _ h => h.inStep) who nodes r fun _ => hs
    · rw [nodes_perform_of_not_mutation who g nodes hr]
      exact ih.perform (fun _ h => h.inStep) who nodes r fun hm => absurd hm hr
  | shared t _ ih => exact ih.imp fun _ h => h.mono (prefix_lookupOrCreate _ t).length_le

end Graph

end TripleStore
