import TripleStore.Proofs.Graph.Reachable

/-!
# Aborting a transaction

Whatever the owner of a transaction asks between `begin` and `abort`, aborting succeeds and gives
back every byte of every index, and so does closing the graph. Each request may meet another node
table, so one that fails to resolve an id midway is covered.
-/

namespace TripleStore.Graph

variable {g g₀ : Graph} {who : Thread}

/-- The graph is the first one but for the work of the thread's open transaction. -/
def Working (who : Thread) (g₀ g : Graph) : Prop :=
  ∃ log indexes, Tracks g₀.indexes log indexes ∧
    g = { g₀ with indexes, txn := some ⟨who, log⟩ }

theorem Working.evolves {g' : Graph} (h : Working who g₀ g) (he : g.Evolves g') :
    Working who g₀ g' := by
  obtain ⟨log, indexes, hlog, rfl⟩ := h
  obtain ⟨changes, indexes', hchanges, rfl⟩ := he
  exact ⟨log ++ changes, indexes', hlog.trans hchanges, rfl⟩

theorem Working.undo_eq (hg : g₀.indexes.InStep) (h : Working who g₀ g) :
    g.inTransaction who = true ∧ g.undo = (.ok (), { g₀ with txn := none }) := by
  obtain ⟨log, indexes, hlog, rfl⟩ := h
  refine ⟨by simp [inTransaction], ?_⟩
  simp only [Graph.undo, hlog.rollback_eq hg]

theorem Working.frame (h : Working who g₀ g) : g.closed = g₀.closed ∧ g.config = g₀.config := by
  obtain ⟨log, indexes, -, rfl⟩ := h
  exact ⟨rfl, rfl⟩

variable {τ : Type} [NodeTable τ]

theorem perform_begin_eq (hopen : g.closed = false) (htransactions : g.config.transactions = true)
    (hnone : g.txn = none) (who : Thread) (nodes : τ) :
    g.perform who nodes .begin = ⟨{ g with txn := some ⟨who, []⟩ }, nodes, .ok []⟩ := by
  simp [Graph.perform, control, hopen, htransactions, begin, hnone, Except.map]

/-- No second transaction is begun in the open one. -/
theorem perform_begin_of_txn (hopen : g.closed = false)
    (htransactions : g.config.transactions = true) {t : Transaction} (htxn : g.txn = some t)
    (who : Thread) (nodes : τ) :
    g.perform who nodes .begin = ⟨g, nodes, .error .transactionActive⟩ := by
  simp [Graph.perform, control, hopen, htransactions, begin, htxn, Except.map]

theorem Working.begin_eq (h : Working who g₀ g) (hopen : g₀.closed = false)
    (htransactions : g₀.config.transactions = true) (nodes : τ) :
    g.perform who nodes .begin = ⟨g, nodes, .error .transactionActive⟩ := by
  obtain ⟨hclosed, hconfig⟩ := h.frame
  obtain ⟨log, indexes, -, he⟩ := h
  exact perform_begin_of_txn (hclosed.trans hopen) (hconfig ▸ htransactions)
    (congrArg Graph.txn he) who nodes

theorem Working.commit_eq (h : Working who g₀ g) (hopen : g₀.closed = false)
    (htransactions : g₀.config.transactions = true) (nodes : τ) :
    g.perform who nodes .commit = ⟨{ g with txn := none }, nodes, .ok []⟩ := by
  obtain ⟨log, indexes, -, rfl⟩ := h
  simp [Graph.perform, control, hopen, htransactions, Graph.commit, inTransaction, Except.map]

theorem Working.abort_eq (h : Working who g₀ g) (hg : g₀.indexes.InStep) (hopen : g₀.closed = false)
    (htransactions : g₀.config.transactions = true) (nodes : τ) :
    g.perform who nodes .abort = ⟨{ g₀ with txn := none }, nodes, .ok []⟩ := by
  obtain ⟨hclosed, hconfig⟩ := h.frame
  obtain ⟨howner, hundo⟩ := h.undo_eq hg
  simp only [Graph.perform, control, hclosed, hopen, hconfig, htransactions, Graph.abort, howner,
    hundo]
  rfl

/-- The graph after a thread's requests, each with the node table it met. -/
def performAll (who : Thread) (g : Graph) : List (τ × Request) → Graph
  | [] => g
  | (nodes, r) :: rest => performAll who (g.perform who nodes r).graph rest

theorem Working.perform (hg : g₀.indexes.InStep) (h : Working who g₀ g) (nodes : τ) {r : Request}
    (hr : r ≠ .commit ∧ r ≠ .abort ∧ r ≠ .close) :
    Working who g₀ (g.perform who nodes r).graph := by
  have hstep : g.indexes.InStep := by
    obtain ⟨log, indexes, hlog, rfl⟩ := h
    exact hlog.inStep hg
  cases r using Request.mutationCases with
  | mutation r hm => exact h.evolves (evolves_perform hstep who nodes hm)
  | begin =>
    have hsame : (g.perform who nodes .begin).graph = g := by
      obtain ⟨log, indexes, hlog, rfl⟩ := h
      rw [Graph.perform, control]
      split
      · rfl
      · split <;> rfl
    rwa [hsame]
  | commit => exact absurd rfl hr.1
  | abort => exact absurd rfl hr.2.1
  | close => exact absurd rfl hr.2.2

theorem Working.performAll (hg : g₀.indexes.InStep) (h : Working who g₀ g)
    (work : List (τ × Request))
    (hwork : ∀ x ∈ work, x.2 ≠ .commit ∧ x.2 ≠ .abort ∧ x.2 ≠ .close) :
    Working who g₀ (g.performAll who work) := by
  induction work generalizing g with
  | nil => exact h
  | cons x work ih =>
    rw [List.forall_mem_cons] at hwork
    exact ih (h.perform hg x.1 hwork.1) hwork.2

/-- A thread that could begin found an open graph without a transaction. -/
theorem working_begin (htransactions : g.config.transactions = true) (nodes : τ)
    (hbegin : (g.perform who nodes .begin).result = .ok []) :
    g.closed = false ∧ g.txn = none ∧ Working who g (g.perform who nodes .begin).graph := by
  rw [Graph.perform, control] at hbegin ⊢
  split at hbegin
  · cases hbegin
  next hclosed =>
    rw [htransactions, begin] at hbegin ⊢
    cases htxn : g.txn with
    | some t =>
      rw [htxn] at hbegin
      cases hbegin
    | none =>
      have hopen : g.closed = false := Bool.eq_false_iff.mpr hclosed
      refine ⟨hopen, rfl, [], g.indexes, .nil, ?_⟩
      rw [hopen]
      rfl

/-- Whatever a thread does in a transaction, aborting it, or closing the graph in it, succeeds and
restores every byte of every index. -/
theorem abort_restores_begin (hg : Reachable τ g) (htransactions : g.config.transactions = true)
    (nodes : τ) (hbegin : (g.perform who nodes .begin).result = .ok []) (work : List (τ × Request))
    (hwork : ∀ x ∈ work, x.2 ≠ .commit ∧ x.2 ≠ .abort ∧ x.2 ≠ .close) (nodes' : τ) :
    let worked := (g.perform who nodes .begin).graph.performAll who work
    let aborted := worked.perform who nodes' .abort
    let closed := worked.perform who nodes' .close
    (aborted.result = .ok [] ∧ aborted.graph.indexes = g.indexes ∧ aborted.graph.txn = none) ∧
      (closed.result = .ok [] ∧ closed.graph.indexes = g.indexes ∧ closed.graph.txn = none ∧
        closed.graph.closed = true) := by
  intro worked aborted closed
  have hstep : g.indexes.InStep := (kept_of_reachable hg).indexes
  obtain ⟨hopen, -, hstart⟩ := working_begin htransactions nodes hbegin
  have hworked : Working who g worked := hstart.performAll hstep work hwork
  obtain ⟨howner, hundo⟩ := hworked.undo_eq hstep
  have hclosed : worked.closed = false ∧ worked.config.transactions = true := by
    obtain ⟨log, indexes, -, he⟩ := hworked
    rw [he]
    exact ⟨hopen, htransactions⟩
  constructor
  · have haborted : aborted = ⟨{ g with txn := none }, nodes', .ok []⟩ := by
      simp only [aborted, Graph.perform, control, abort, hclosed, howner, hundo]
      rfl
    rw [haborted]
    exact ⟨rfl, rfl, rfl⟩
  · have hclose : closed = ⟨{ g with txn := none, closed := true }, nodes', .ok []⟩ := by
      simp only [closed, Graph.perform, close, hclosed, hundo]
      rfl
    rw [hclose]
    exact ⟨rfl, rfl, rfl, rfl⟩

theorem abort_restores_begin_after_failed_clear :
    let g := create {}
    let who : Thread := ⟨1⟩
    let p : Pattern := ⟨.term (.blank "b"), .term (.iri "p"), .term (.literal (.simple "1"))⟩
    let work : List (ScreenedTable × Request) := [(.empty, .add p), (⟨.empty, [2]⟩, .clear)]
    let worked := (g.perform who ScreenedTable.empty .begin).graph.performAll who work
    let aborted := worked.perform who ScreenedTable.empty .abort
    let closed := worked.perform who ScreenedTable.empty .close
    (Reachable ScreenedTable g ∧ g.config.transactions = true ∧
        (g.perform who ScreenedTable.empty .begin).result = .ok [] ∧
        ∀ x ∈ work, x.2 ≠ .commit ∧ x.2 ≠ .abort ∧ x.2 ≠ .close) ∧
      (aborted.result = .ok [] ∧ aborted.graph.indexes = g.indexes ∧ aborted.graph.txn = none) ∧
      (closed.result = .ok [] ∧ closed.graph.indexes = g.indexes ∧ closed.graph.txn = none ∧
        closed.graph.closed = true) := by
  intro g who p work worked aborted closed
  have hg : Reachable ScreenedTable g := .created {} .empty [] rfl
  have hbegin : (g.perform who ScreenedTable.empty .begin).result = .ok [] := rfl
  have hwork : ∀ x ∈ work, x.2 ≠ .commit ∧ x.2 ≠ .abort ∧ x.2 ≠ .close := by simp [work]
  exact ⟨⟨hg, rfl, hbegin, hwork⟩, abort_restores_begin hg rfl .empty hbegin work hwork .empty⟩

end TripleStore.Graph
