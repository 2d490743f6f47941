import TripleStore.Proofs.Graph.Mutation

/-!
# Reachable graphs

A graph is reachable if it was made by `Graph.createPinned` and went through any requests of any
threads, each with any node table. In a reachable graph all indexes hold the same triples, and the
log of an open transaction leads to them from the indexes it began with.
-/

namespace TripleStore.Graph

/-- The graph was made and went through any number of requests. -/
inductive Reachable (τ : Type) [NodeTable τ] : Graph → Prop where
  | created (config : Config) (nodes : τ) (statements : List Pattern) {g : Graph} :
      (createPinned config nodes statements).1 = .ok g → Reachable τ g
  | performed (who : Thread) (nodes : τ) (r : Request) {g : Graph} :
      Reachable τ g → Reachable τ (g.perform who nodes r).graph

section

variable {g : Graph}

/-- Whatever is asked of a closed graph, it stays as it is. -/
theorem graph_perform_of_closed {τ : Type} [NodeTable τ] (hclosed : g.closed = true) (who : Thread)
    (nodes : τ) (r : Request) : (g.perform who nodes r).graph = g := by
  cases r <;> simp [perform, mutate, control, close, hclosed]

/-- The graph has the configuration and the pinned triples of the other one, and is closed if that
one is. -/
def SameFrame (g g' : Graph) : Prop :=
  g'.config = g.config ∧ g'.pinned = g.pinned ∧ g'.closed = g.closed

theorem sameFrame_mutate {τ : Type} (g : Graph) (nodes : τ)
    (op : Draft τ → Except Error Unit × Draft τ) : SameFrame g (g.mutate nodes op).graph := by
  rw [mutate]
  split
  · exact ⟨rfl, rfl, rfl⟩
  · split <;> exact ⟨rfl, rfl, rfl⟩

theorem sameFrame_undo (g : Graph) : SameFrame g g.undo.2 := by
  rw [undo]
  split <;> exact ⟨rfl, rfl, rfl⟩

theorem sameFrame_control {τ : Type} (nodes : τ) {step : Graph → Except Error Unit × Graph}
    (hstep : SameFrame g (step g).2) : SameFrame g (g.control nodes step).graph := by
  rw [control]
  split
  · exact ⟨rfl, rfl, rfl⟩
  · split
    · exact ⟨rfl, rfl, rfl⟩
    · exact hstep

theorem sameFrame_perform {τ : Type} [NodeTable τ] (who : Thread) (nodes : τ) {r : Request}
    (hr : r ≠ .close) : SameFrame g (g.perform who nodes r).graph := by
  cases r with
  | add p => exact sameFrame_mutate ..
  | delete p => exact sameFrame_mutate ..
  | remove p => exact sameFrame_mutate ..
  | removeFound found => exact sameFrame_mutate ..
  | clear => exact sameFrame_mutate ..
  | begin =>
    refine sameFrame_control nodes ?_
    rw [begin]
    split <;> exact ⟨rfl, rfl, rfl⟩
  | commit =>
    refine sameFrame_control nodes ?_
    rw [commit]
    split <;> exact ⟨rfl, rfl, rfl⟩
  | abort =>
    refine sameFrame_control nodes ?_
    rw [abort]
    split
    · exact sameFrame_undo g
    · exact ⟨rfl, rfl, rfl⟩
  | close => exact absurd rfl hr

theorem config_perform {τ : Type} [NodeTable τ] (who : Thread) (g : Graph) (nodes : τ)
    (r : Request) : (g.perform who nodes r).graph.config = g.config := by
  by_cases hr : r = .close
  · subst hr
    show g.close.config = g.config
    rw [close]
    split
    · rfl
    · exact (sameFrame_undo g).1
  · exact (sameFrame_perform who nodes hr).1

end

/-- Something holds of the indexes, and held when the open transaction began, whose log leads to
them. -/
structure Kept (P : IndexSet → Prop) (g : Graph) : Prop where
  indexes : P g.indexes
  undo : ∀ t, g.txn = some t → ∃ start, P start ∧ Tracks start t.undo g.indexes

namespace Kept

variable {τ : Type} {g g' : Graph} {P : IndexSet → Prop}

theorem imp {Q : IndexSet → Prop} (hPQ : ∀ s, P s → Q s) (h : g.Kept P) : g.Kept Q := by
  refine ⟨hPQ _ h.indexes, fun t ht => ?_⟩
  obtain ⟨start, hstart, hlog⟩ := h.undo t ht
  exact ⟨start, hPQ _ hstart, hlog⟩

theorem of_no_transaction (h : P g.indexes) (hnone : g.txn = none) : g.Kept P :=
  ⟨h, fun t ht => by simp [hnone] at ht⟩

theorem evolves (h : g.Kept P) (he : g.Evolves g') (hP : P g'.indexes) : g'.Kept P := by
  obtain ⟨changes, indexes, htracks, rfl⟩ := he
  refine ⟨hP, fun t ht => ?_⟩
  obtain ⟨t₀, ht₀, rfl⟩ := Option.map_eq_some_iff.mp ht
  obtain ⟨start, hstart, hlog⟩ := h.undo t₀ ht₀
  exact ⟨start, hstart, hlog.trans htracks⟩

/-- Ending a transaction by taking its changes back succeeds and leaves none open. -/
theorem undo_eq (h : g.Kept P) (hP : ∀ s, P s → s.InStep) :
    g.undo.1 = .ok () ∧ P g.undo.2.indexes ∧ g.undo.2.txn = none := by
  rw [Graph.undo]
  split
  next hnone => exact ⟨rfl, h.indexes, hnone⟩
  next t ht =>
    obtain ⟨start, hstart, hlog⟩ := h.undo t ht
    rw [hlog.rollback_eq (hP start hstart)]
    exact ⟨rfl, hstart, rfl⟩

theorem control (h : g.Kept P) {nodes : τ} {step : Graph → Except Error Unit × Graph}
    (hstep : (step g).2.Kept P) : (g.control nodes step).graph.Kept P := by
  rw [Graph.control]
  split
  · exact h
  · split
    · exact h
    · exact hstep

variable [NodeTable τ]

/-- Only a mutation has to be looked at: all other requests keep what holds of the indexes, be it
those of now or those of the start of the transaction. -/
theorem perform (h : g.Kept P) (hP : ∀ s, P s → s.InStep) (who : Thread) (nodes : τ) (r : Request)
    (hr : r.IsMutation → P (g.perform who nodes r).graph.indexes) :
    (g.perform who nodes r).graph.Kept P := by
  obtain ⟨-, hundo, hnone⟩ := h.undo_eq hP
  cases r using Request.mutationCases with
  | mutation r hm => exact h.evolves (evolves_perform (hP _ h.indexes) who nodes hm) (hr hm)
  | begin =>
    refine h.control ?_
    rw [begin]
    split
    · exact h
    · refine ⟨h.indexes, fun t ht => ?_⟩
      cases ht
      exact ⟨g.indexes, h.indexes, .nil⟩
  | commit =>
    refine h.control ?_
    rw [commit]
    split
    · exact of_no_transaction h.indexes rfl
    · exact h
  | abort =>
    refine h.control ?_
    rw [abort]
    split
    · exact of_no_transaction hundo hnone
    · exact h
  | close =>
    show g.close.Kept P
    rw [close]
    split
    · exact h
    · exact of_no_transaction hundo hnone

end Kept

variable {τ : Type} [NodeTable τ] {g g' : Graph}

theorem orders_perform (hg : g.Kept IndexSet.InStep) (who : Thread)
    (nodes : τ) (r : Request) :
    (g.perform who nodes r).graph.indexes.orders = g.indexes.orders := by
  have hkept : g.Kept fun s => s.InStep ∧ s.orders = g.indexes.orders := by
    refine ⟨⟨hg.indexes, rfl⟩, fun t ht => ?_⟩
    obtain ⟨start, hstart, hlog⟩ := hg.undo t ht
    exact ⟨start, ⟨hstart, hlog.orders_eq.symm⟩, hlog⟩
  refine (hkept.perform (fun _ h => h.1) who nodes r fun hr => ?_).indexes.2
  obtain ⟨changes, indexes, htracks, he⟩ := evolves_perform hg.indexes who nodes hr
  rw [he]
  exact ⟨htracks.inStep hg.indexes, htracks.orders_eq⟩

/-- Making a graph puts in its pinned statements one by one. What holds of the table, the graph and
the statements pinned by then at the start and is kept by each of these steps holds in the end. -/
theorem pinAll_steps {P : τ → Graph → List Pattern → Prop}
    (hstep : ∀ {nodes g done p ids nodes' fresh s}, P nodes g done →
      NodeTable.encodeTriple nodes p = (.ok ids, nodes') → g.indexes.insert ids = .ok (fresh, s) →
      P nodes' { g with indexes := s, pinned := g.pinned ++ [ids] } (done ++ [p]))
    {nodes nodes' : τ} (done statements : List Pattern) (hstart : P nodes g done)
    (hg : pinAll g nodes statements = (.ok g', nodes')) : P nodes' g' (done ++ statements) := by
  induction statements generalizing g nodes done with
  | nil =>
    cases hg
    rwa [List.append_nil]
  | cons p ps ih =>
    rw [pinAll] at hg
    cases hencode : NodeTable.encodeTriple nodes p with
    | mk result nodes₁ =>
      rw [hencode] at hg
      cases result with
      | error e => cases hg
      | ok ids =>
        cases hinsert : g.indexes.insert ids with
        | error e =>
          simp only [hinsert] at hg
          cases hg
        | ok answer =>
          simp only [hinsert] at hg
          rw [List.append_cons]
          exact ih _ (hstep hstart hencode hinsert) hg

/-- Making a graph opens no transaction. What holds of table and indexes at the start and is kept by
each statement that is put in holds in the end. -/
theorem pinAll_induct {P : τ → IndexSet → Prop} {nodes : τ} (statements : List Pattern)
    (hstep : ∀ {nodes s p ids nodes' fresh s'}, P nodes s →
      NodeTable.encodeTriple nodes p = (.ok ids, nodes') → s.insert ids = .ok (fresh, s') →
      P nodes' s')
    (hstart : P nodes g.indexes) (htxn : g.txn = none) {nodes' : τ}
    (hg : pinAll g nodes statements = (.ok g', nodes')) : P nodes' g'.indexes ∧ g'.txn = none :=
  pinAll_steps (P := fun nodes g _ => P nodes g.indexes ∧ g.txn = none)
    (fun h hencode hinsert => ⟨hstep h.1 hencode hinsert, h.2⟩) [] statements ⟨hstart, htxn⟩ hg

theorem inStep_createPinned (config : Config) (nodes : τ) (statements : List Pattern)
    (hg : (createPinned config nodes statements).1 = .ok g) : g.indexes.InStep ∧ g.txn = none := by
  have hpair : createPinned config nodes statements =
      (.ok g, (createPinned config nodes statements).2) := Prod.ext hg rfl
  exact pinAll_induct (P := fun _ s => s.InStep) statements
    (fun hs _ hinsert => hs.insert hinsert) ⟨∅, IndexSet.represents_empty _⟩ rfl hpair

theorem kept_of_reachable (h : Reachable τ g) : g.Kept IndexSet.InStep := by
  induction h with
  | created config nodes statements hg =>
    obtain ⟨hstep, hnone⟩ := inStep_createPinned config nodes statements hg
    exact .of_no_transaction hstep hnone
  | @performed who nodes r g _ ih =>
    refine ih.perform (fun _ h => h) who nodes r fun hr => ?_
    obtain ⟨changes, indexes, htracks, he⟩ := evolves_perform ih.indexes who nodes hr
    rw [he]
    exact htracks.inStep ih.indexes

/-- A closed graph has no transaction. -/
theorem Reachable.txn_eq_none (h : Reachable τ g) (hclosed : g.closed = true) : g.txn = none := by
  induction h with
  | created config nodes statements hg => exact (inStep_createPinned config nodes statements hg).2
  | @performed who nodes r g h ih =>
    by_cases hbefore : g.closed = true
    · rw [graph_perform_of_closed hbefore]
      exact ih hbefore
    by_cases hr : r = .close
    · subst hr
      obtain ⟨-, -, hnone⟩ := (kept_of_reachable h).undo_eq fun _ h => h
      show g.close.txn = none
      rw [close, if_neg hbefore]
      exact hnone
    · rw [(sameFrame_perform who nodes hr).2.2] at hclosed
      exact absurd hclosed hbefore

theorem Reachable.closed_eq_false (h : Reachable τ g) {who : Thread}
    (howner : g.inTransaction who = true) : g.closed = false := by
  rw [Bool.eq_false_iff]
  intro hclosed
  simp [inTransaction, h.txn_eq_none hclosed] at howner

end TripleStore.Graph
