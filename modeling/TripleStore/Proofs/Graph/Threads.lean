import TripleStore.Proofs.Graph.Query
import TripleStore.Proofs.Graph.Turn

/-!
# Threads that share a graph

Any number of threads take turns on a graph, in any order in which none has to wait. Nobody but the
thread that began a transaction touches the graph until it has ended it, and what the others read is
what was committed last.
-/

namespace TripleStore.Graph

variable {τ : Type} [NodeTable τ]

def after (g : Graph) (past : List (Turn τ)) : Graph := past.foldl (fun g t => t.take g) g

/-- The turns may happen in this order: none of them has to wait. -/
def Run (g : Graph) : List (Turn τ) → Prop
  | [] => True
  | t :: rest => t.Admitted g ∧ (t.take g).Run rest

instance decidableRun (g : Graph) : (turns : List (Turn τ)) → Decidable (g.Run turns)
  | [] => .isTrue trivial
  | t :: rest =>
    have := decidableRun (t.take g) rest
    inferInstanceAs (Decidable (_ ∧ _))

/-- The thread began a transaction and has not committed, aborted or closed since. -/
def Owns (g : Graph) (past : List (Turn τ)) (who : Thread) : Prop :=
  ∃ before t work, past = before ++ t :: work ∧ t.who = who ∧ t.Begins (g.after before) ∧
    ∀ u ∈ work, u.who = who → ¬ u.op.Ends

/-- What was committed last in the turns, or else before. -/
def lastCommitted (g : Graph) (before : IndexSet) : List (Turn τ) → IndexSet
  | [] => before
  | t :: rest =>
    lastCommitted (t.take g) (if t.commits g then (t.take g).indexes else before) rest

variable {g : Graph} {past : List (Turn τ)} {t : Turn τ}

theorem after_concat (g : Graph) (past : List (Turn τ)) (t : Turn τ) :
    g.after (past ++ [t]) = t.take (g.after past) := by
  rw [after, List.foldl_append]
  rfl

theorem run_concat_iff (g : Graph) (past : List (Turn τ)) (t : Turn τ) :
    g.Run (past ++ [t]) ↔ g.Run past ∧ t.Admitted (g.after past) := by
  induction past generalizing g with
  | nil => exact ⟨fun h => ⟨trivial, h.1⟩, fun h => ⟨h.2, trivial⟩⟩
  | cons u past ih =>
    show _ ∧ (u.take g).Run (past ++ [t]) ↔ (_ ∧ (u.take g).Run past) ∧ t.Admitted _
    rw [ih, and_assoc]
    rfl

theorem lastCommitted_concat (g : Graph) (before : IndexSet) (past : List (Turn τ)) (t : Turn τ) :
    g.lastCommitted before (past ++ [t]) =
      if t.commits (g.after past) then (t.take (g.after past)).indexes
      else g.lastCommitted before past := by
  induction past generalizing g before with
  | nil => rfl
  | cons u past ih => exact ih (u.take g) _

theorem owns_concat_iff (g : Graph) (past : List (Turn τ)) (t : Turn τ) (who : Thread) :
    g.Owns (past ++ [t]) who ↔
      (t.who = who ∧ t.Begins (g.after past)) ∨
        (g.Owns past who ∧ ¬ (t.who = who ∧ t.op.Ends)) := by
  constructor
  · rintro ⟨before, b, work, he, hwho, hbegins, hwork⟩
    rcases List.eq_nil_or_concat' work with rfl | ⟨work, u, rfl⟩
    · obtain ⟨rfl, rfl⟩ := List.append_singleton_inj.mp he
      exact .inl ⟨hwho, hbegins⟩
    · rw [← List.cons_append, ← List.append_assoc] at he
      obtain ⟨rfl, rfl⟩ := List.append_singleton_inj.mp he
      refine .inr ⟨⟨before, b, work, rfl, hwho, hbegins, fun v hv => ?_⟩, fun hends => ?_⟩
      · exact hwork v (List.mem_append_left _ hv)
      · exact hwork t (by simp) hends.1 hends.2
  · rintro (⟨hwho, hbegins⟩ | ⟨⟨before, b, work, rfl, hwho, hbegins, hwork⟩, hends⟩)
    · exact ⟨past, t, [], rfl, hwho, hbegins, by simp⟩
    · refine ⟨before, b, work ++ [t], by simp, hwho, hbegins, fun u hu => ?_⟩
      rcases List.mem_append.mp hu with hu | hu
      · exact hwork u hu
      · obtain rfl := List.mem_singleton.mp hu
        exact fun hmine hop => hends ⟨hmine, hop⟩

theorem reachable_after (hg : Reachable τ g) (past : List (Turn τ)) :
    Reachable τ (g.after past) := by
  induction past generalizing g with
  | nil => exact hg
  | cons t past ih => exact ih (reachable_take hg t)

theorem config_after (g : Graph) (past : List (Turn τ)) : (g.after past).config = g.config := by
  induction past generalizing g with
  | nil => rfl
  | cons t past ih => exact (ih (t.take g)).trans (config_take t g)

theorem does_after (hg : Reachable τ g) (htransactions : g.config.transactions = true)
    (ht : t.Admitted (g.after past)) : Does t (g.after past) (g.after (past ++ [t])) := by
  rw [after_concat]
  exact does_take (reachable_after hg past) ((config_after g past).symm ▸ htransactions) ht

/-- A thread is in a transaction if it began one and has not ended it since. -/
theorem Run.owns_iff (h : g.Run past) (hg : Reachable τ g)
    (htransactions : g.config.transactions = true) (hnone : g.txn = none) (who : Thread) :
    g.Owns past who ↔ (g.after past).inTransaction who = true := by
  induction past using List.reverseRecOn with
  | nil =>
    constructor
    · rintro ⟨before, t, work, he, -⟩
      simp at he
    · intro h
      simp [after, inTransaction, hnone] at h
  | append_singleton past t ih =>
    obtain ⟨hpast, ht⟩ := (run_concat_iff g past t).mp h
    rw [owns_concat_iff, ih hpast, (does_after hg htransactions ht).inTransaction_iff]

theorem Run.over (h : g.Run past) (hg : Reachable τ g)
    (htransactions : g.config.transactions = true) (hnone : g.txn = none) :
    Over (g.lastCommitted g.indexes past) (g.after past) := by
  induction past using List.reverseRecOn with
  | nil =>
    refine ⟨(kept_of_reachable hg).indexes, fun _ => rfl, fun t ht => ?_⟩
    simp [after, hnone] at ht
  | append_singleton past t ih =>
    obtain ⟨hpast, ht⟩ := (run_concat_iff g past t).mp h
    have hover := (does_after hg htransactions ht).over (ih hpast)
    rwa [lastCommitted_concat, ← after_concat]

/-- What was committed last, read over a memory table that gave its ids, is told by the statements
that it decodes to. -/
theorem Run.answers_of_covers (h : g.Run past) (hg : Reachable τ g)
    (htransactions : g.config.transactions = true) (hnone : g.txn = none) {m : MemoryTable}
    (hcovers : ∀ ids, (g.lastCommitted g.indexes past).contains ids = true → m.CoversAll ids) :
    { g.after past with indexes := g.lastCommitted g.indexes past }.AnswersByStatements m := by
  obtain ⟨S, hS⟩ := (h.over hg htransactions hnone).inStep
  refine answersByStatements_of_represents hS fun ids hids => hcovers ids ?_
  exact (hS.primary.contains_iff (hS.real hids)).mpr hids

/-- In every run of threads that share a graph a transaction belongs to the one thread that began it
and has not ended it. Until it does, no turn of another thread changes anything of the graph, ends
the transaction or takes it for its own. What such a thread reads is what was committed last: over a
memory table that gave its ids, the statements that these decode to. That is also what is stored
whenever no transaction is open. -/
theorem transactions_isolate_threads (hg : Reachable τ g)
    (htransactions : g.config.transactions = true) (hnone : g.txn = none) (hrun : g.Run past) :
    let committed : Graph := { g.after past with indexes := g.lastCommitted g.indexes past }
    (∀ a b, g.Owns past a → g.Owns past b → a = b) ∧
      (∀ who, g.Owns past who ↔ (g.after past).inTransaction who = true) ∧
      (∀ owner, g.Owns past owner → ∀ t : Turn τ, t.who ≠ owner → t.Admitted (g.after past) →
        t.take (g.after past) = g.after past ∧
        (t.op = .request .commit ∨ t.op = .request .abort →
          t.reply (g.after past) = .done (.error .noTransaction)) ∧
        (t.op = .inTransaction → t.reply (g.after past) = .flag (.ok false))) ∧
      (∀ t : Turn τ, ¬ g.Owns past t.who → t.Admitted (g.after past) → t.op.Reads →
        t.reply (g.after past) = t.reply committed) ∧
      (∀ m : MemoryTable, (∀ ids, committed.indexes.contains ids = true → m.CoversAll ids) →
        committed.AnswersByStatements m) ∧
      ((g.after past).txn = none → (g.after past).indexes = committed.indexes) := by
  intro committed
  have howns := hrun.owns_iff hg htransactions hnone
  have hover := hrun.over hg htransactions hnone
  have hnow := reachable_after hg past
  refine ⟨fun a b ha hb => ?_, howns, fun owner howner => ?_, fun t hout ht hreads => ?_,
    fun m => hrun.answers_of_covers hg htransactions hnone, hover.idle⟩
  · exact inTransaction_inj ((howns a).mp ha) ((howns b).mp hb)
  · have hin := (howns owner).mp howner
    have hconfig : (g.after past).config.transactions = true :=
      (config_after g past).symm ▸ htransactions
    exact fun t hne ht => take_of_stranger (hnow.closed_eq_false hin) hconfig hin hne ht
  · have hwaits : t.op.waits = true := by
      cases hop : t.op with
      | contains p => rfl
      | size => rfl
      | find p => rfl
      | inTransaction => simp [hop, Operation.Reads] at hreads
      | request r => simp [hop, Operation.Reads] at hreads
    have hidle := hover.idle
      (txn_eq_none_of_mustWait_eq_false hnow (ht hwaits) fun hin => hout ((howns t.who).mpr hin))
    rw [show committed = { g.after past with indexes := g.lastCommitted g.indexes past } from rfl,
      ← hidle]

theorem transactions_isolate_threads_past_foreign_commit :
    let statement : Pattern := ⟨.term (.blank "b"), .term (.iri "p"), .term (.iri "o")⟩
    let table := (NodeTable.encodeTriple MemoryTable.empty statement).2
    let turn (number : Nat) (op : Operation) : Turn MemoryTable := ⟨⟨number⟩, table, op⟩
    let g := create {}
    let past := [turn 2 (.request (.add statement)), turn 1 (.request .begin),
      turn 1 (.request .clear), turn 2 (.request .commit)]
    let ended := past ++ [turn 1 (.request .abort)]
    let committed : Graph := { g.after ended with indexes := g.lastCommitted g.indexes ended }
    (Reachable MemoryTable g ∧ g.config.transactions = true ∧ g.txn = none ∧ g.Run past ∧
        g.Run ended ∧ g.Owns past ⟨1⟩ ∧ ¬ g.Owns ended ⟨2⟩ ∧ (g.after ended).txn = none) ∧
      (turn 2 (.request .abort)).take (g.after past) = g.after past ∧
      (turn 2 (.request .abort)).reply (g.after past) = .done (.error .noTransaction) ∧
      (turn 2 (.find statement)).reply (g.after ended) =
        (turn 2 (.find statement)).reply committed ∧
      committed.AnswersByStatements table ∧
      (turn 2 (.find statement)).reply committed = .items (.ok [.ok
        ⟨⟨.real 0, .real 1, .real 2⟩, ⟨.blank "b", .iri "p", .iri "o"⟩⟩]) ∧
      (g.after ended).indexes = committed.indexes := by
  intro statement table turn g past ended committed
  have hg : Reachable MemoryTable g := .created {} .empty [] rfl
  have hpast : g.Run past := by decide +kernel
  have hended : g.Run ended := by decide +kernel
  have hnone : (g.after ended).txn = none := by decide +kernel
  obtain ⟨-, howner, hstrangers, -⟩ := transactions_isolate_threads hg rfl rfl hpast
  obtain ⟨-, hnobody, -, hreads, hanswers, hidle⟩ := transactions_isolate_threads hg rfl rfl hended
  have howns : g.Owns past ⟨1⟩ := (howner ⟨1⟩).mpr (by decide +kernel)
  have hout : ¬ g.Owns ended ⟨2⟩ := by
    rw [hnobody]
    decide +kernel
  obtain ⟨hsame, hreply, -⟩ :=
    hstrangers ⟨1⟩ howns (turn 2 (.request .abort)) (by decide) (by decide)
  -- what was committed last is what the one addition left
  have hcovers (ids : IdTriple) (hids : committed.indexes.contains ids = true) :
      table.CoversAll ids := by
    let added := g.perform ⟨2⟩ table (.add statement)
    have hadded : ReachableOver added.graph added.nodes := .performed ⟨2⟩ _ (.created {} [] rfl)
    obtain ⟨S, hS, hcovers⟩ := (kept_of_reachableOver hadded).indexes
    have hindexes : committed.indexes = added.graph.indexes := by decide +kernel
    have htable : added.nodes = table := by decide +kernel
    rw [htable] at hcovers
    rw [hindexes, hS.contains_iff fun t ht => (hcovers t ht).inRange] at hids
    exact hcovers ids hids
  exact ⟨⟨hg, rfl, rfl, hpast, hended, howns, hout, hnone⟩, hsame, hreply (.inr rfl),
    hreads (turn 2 (.find statement)) hout (by decide +kernel) trivial, hanswers table hcovers,
    by decide +kernel, hidle hnone⟩

end TripleStore.Graph
