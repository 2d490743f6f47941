import TripleStore.Session.State
import TripleStore.Proofs.Graph.Reachable
import TripleStore.Proofs.NodeTable

/-!
# Requests in a session

What a request leaves of the state of a session: the graph it was made of, the node table of that
graph, and whatever the listeners do about its events. A mutation that is refused has no events, so
nothing is left of it but terms in the node table. The refusals of an addition that come before the
terms get ids do not even leave these.
-/

namespace TripleStore

namespace ScreenedTable

/-- A screened table has a real id for a term, or no room for it. -/
theorem lookupOrCreate_answer (nodes : ScreenedTable) (t : Term) :
    (∃ id, (NodeTable.lookupOrCreate nodes t).1 = .ok id ∧ id.isReal = true) ∨
      ∃ cause, (NodeTable.lookupOrCreate nodes t).1 = .error (.shapeMismatch cause) := by
  show (∃ id, (nodes.table.lookupOrCreate t).1 = .ok id ∧ _) ∨
    ∃ cause, (nodes.table.lookupOrCreate t).1 = .error (.shapeMismatch cause)
  obtain ⟨hmem, h⟩ | ⟨-, m', h, -⟩ | ⟨-, -, h⟩ := nodes.table.lookupOrCreate_cases t
  · exact .inl ⟨_, congrArg Prod.fst h, (MemoryTable.lookup_isReal_iff _ t).mpr hmem⟩
  · exact .inl ⟨_, congrArg Prod.fst h, rfl⟩
  · exact .inr ⟨_, congrArg Prod.fst h⟩

theorem encodeTriple_answer (nodes : ScreenedTable) (t : Statement) :
    (∃ ids, (NodeTable.encodeTriple nodes t.toPattern).1 = .ok ids ∧ ids.Real) ∨
      ∃ cause, (NodeTable.encodeTriple nodes t.toPattern).1 = .error (.shapeMismatch cause) := by
  have hencode (nodes : ScreenedTable) (t : Term) {result nodes'}
      (h : NodeTable.encode nodes (.term t) = (result, nodes')) :
      (∃ id, result = .ok id ∧ id.isReal = true) ∨
        ∃ cause, result = .error (.shapeMismatch cause) := by
    have hanswer := nodes.lookupOrCreate_answer t
    rwa [show NodeTable.lookupOrCreate nodes t = (result, nodes') from h] at hanswer
  rw [NodeTable.encodeTriple]
  split
  next h => exact .inr (by simpa using hencode _ _ h)
  next s _ hs =>
    split
    next h => exact .inr (by simpa using hencode _ _ h)
    next p _ hp =>
      split
      next h => exact .inr (by simpa using hencode _ _ h)
      next o _ ho =>
        refine .inl ⟨_, rfl, ?_⟩
        have hs : s.isReal = true := by simpa using hencode _ _ hs
        have hp : p.isReal = true := by simpa using hencode _ _ hp
        have ho : o.isReal = true := by simpa using hencode _ _ ho
        simp [IdTriple.Real, Triple.toList, hs, hp, ho]

end ScreenedTable

/-- An addition that is refused for another reason than a full node table gives no term an id. -/
theorem Draft.nodes_add_of_error {caps : Capabilities} {p : Pattern} {d : Draft ScreenedTable}
    {e : Error} (he : (d.add caps p).1 = .error e) (hroom : ∀ cause, e ≠ .shapeMismatch cause) :
    (d.add caps p).2.nodes = d.nodes := by
  rw [add] at he ⊢
  split at he
  next hdenied => rw [if_pos hdenied]
  next hallowed =>
    rw [if_neg hallowed]
    split at he
    next => rfl
    next t ht =>
      -- the terms have ids by now, so what is left to go wrong is that there was no room for them
      exfalso
      have hanswer := d.nodes.encodeTriple_answer t
      rw [← Pattern.eq_toPattern ht] at hanswer
      split at he
      next hencode =>
        rw [hencode] at hanswer
        obtain ⟨ids, hids, -⟩ | ⟨cause, hcause⟩ := hanswer
        · cases hids
        · cases he
          cases hcause
          exact hroom cause rfl
      next hencode =>
        rw [hencode] at hanswer
        obtain ⟨ids, hids, hreal⟩ | ⟨cause, hcause⟩ := hanswer
        · cases hids
          rw [IndexSet.insert_of_real hreal] at he
          cases he
        · cases hcause

namespace Graph

variable {g : Graph}

theorem nodes_perform_add_of_error {nodes : ScreenedTable} {who : Thread} {p : Pattern} {e : Error}
    (he : (g.perform who nodes (.add p)).result = .error e)
    (hroom : ∀ cause, e ≠ .shapeMismatch cause) : (g.perform who nodes (.add p)).nodes = nodes := by
  rw [perform] at he ⊢
  obtain ⟨-, hmutate⟩ | ⟨d, hresult, hmutate⟩ := mutate_of_error he
  · rw [hmutate]
  · have hnodes := Draft.nodes_add_of_error (congrArg Prod.fst hresult) hroom
    rw [hresult] at hnodes
    rw [hmutate]
    exact hnodes

end Graph

namespace Session.State

theorem changeMember_graphAt (s : State) (place : Nat) :
    s.changeMember place (fun m => { m with graph := s.graphAt place }) = s := by
  have hmembers : s.members.modify place (fun m => { m with graph := s.graphAt place }) =
      s.members := by
    refine Array.ext (Array.size_modify ..) fun n hn hn' => ?_
    rw [Array.getElem_modify]
    split
    next he =>
      subst he
      simp [graphAt, hn']
    next => rfl
  rw [changeMember, hmembers]

theorem setTable_tableOf (s : State) (place : Nat) : s.setTable place (s.tableOf place) = s := by
  have htables : s.tables.setIfInBounds (s.tablePlace place) (s.tableOf place) = s.tables := by
    refine Array.ext (Array.size_setIfInBounds ..) fun n hn hn' => ?_
    rw [Array.getElem_setIfInBounds]
    split
    next he =>
      subst he
      simp [tableOf, hn']
    next => rfl
  rw [setTable, htables]

variable {s : State} {place : Nat} {who : Thread}

/-- The state that has taken over the outcome of a request to the graph at a place. -/
def settle (s : State) (place : Nat) (o : Outcome ScreenedTable) : State :=
  (s.setTable place o.nodes).changeMember place fun m => { m with graph := o.graph }

theorem request_eq (react : React) (q : Request) :
    s.request react who place q =
      match ((s.graphAt place).perform who (s.tableOf place) q).result with
      | .error e => (.error e, s.settle place ((s.graphAt place).perform who (s.tableOf place) q))
      | .ok events =>
        (.ok (), (s.settle place ((s.graphAt place).perform who (s.tableOf place) q)).notify
          react who place events) := rfl

theorem graphAt_settle_of_ne {target : Nat} (hne : target ≠ place) (o : Outcome ScreenedTable) :
    (s.settle target o).graphAt place = s.graphAt place := by
  simp [graphAt, settle, setTable, changeMember, Array.getElem?_modify, hne]

theorem graphAt_settle (hopen : (s.graphAt place).closed = false) (o : Outcome ScreenedTable) :
    (s.settle place o).graphAt place = o.graph := by
  rw [graphAt] at hopen
  cases hmember : s.members[place]? with
  | none =>
    rw [hmember] at hopen
    cases hopen
  | some m => simp [graphAt, settle, setTable, changeMember, Array.getElem?_modify, hmember]

/-- An outcome that leaves the graph as it was reaches nothing but the node table. -/
theorem settle_of_graph_eq {o : Outcome ScreenedTable} (hgraph : o.graph = s.graphAt place) :
    s.settle place o = s.setTable place o.nodes := by
  rw [settle, hgraph]
  exact changeMember_graphAt (s.setTable place o.nodes) place

theorem result_of_request_error {react : React} {q : Request} {e : Error}
    (he : (s.request react who place q).1 = .error e) :
    ((s.graphAt place).perform who (s.tableOf place) q).result = .error e := by
  rw [request_eq] at he
  split at he
  next e' hresult =>
    cases he
    exact hresult
  next => cases he

/-- A request without events reaches no listener. -/
theorem request_of_quiet (react : React) {q : Request} {g : Graph} {nodes : ScreenedTable}
    (he : (s.graphAt place).perform who (s.tableOf place) q = ⟨g, nodes, .ok []⟩) :
    s.request react who place q = (.ok (), s.settle place ⟨g, nodes, .ok []⟩) := by
  rw [request_eq, he]
  rfl

theorem request_of_error (react : React) {q : Request} {e : Error}
    (he : ((s.graphAt place).perform who (s.tableOf place) q).result = .error e)
    (hgraph : ((s.graphAt place).perform who (s.tableOf place) q).graph = s.graphAt place) :
    s.request react who place q =
      (.error e, s.setTable place ((s.graphAt place).perform who (s.tableOf place) q).nodes) := by
  simp only [request_eq, he, settle_of_graph_eq hgraph]

/-- A mutation that is refused leaves every index, the pinned triples and the open transaction with
its log as they were, whatever the node table resolves, and no listener is called for it: the rest
of the session does not depend on what listeners would do. Only terms may have got ids, and not even
these if an addition is refused for being closed, denied or no statement. -/
theorem refused_mutation_leaves_state {q : Request} (hq : q.IsMutation) (who : Thread) :
    (∀ (τ : Type) [NodeTable τ] (g : Graph) (nodes : τ) (e : Error), Graph.Reachable τ g →
      (g.perform who nodes q).result = .error e → (g.perform who nodes q).graph = g) ∧
    ∀ (react : React) (place : Nat) (s : State) (e : Error),
      Graph.Reachable ScreenedTable (s.graphAt place) → (s.request react who place q).1 = .error e →
      ∃ tables, (∀ listeners : React,
          s.request listeners who place q = (.error e, { s with tables })) ∧
        ∀ p, q = .add p → (e = .closed ∨ e = .addDenied ∨ ∃ fault, e = .invalidTerm fault) →
          tables = s.tables := by
  have hgraph (τ : Type) [NodeTable τ] (g : Graph) (nodes : τ) (e : Error)
      (hg : Graph.Reachable τ g) (he : (g.perform who nodes q).result = .error e) :
      (g.perform who nodes q).graph = g :=
    Graph.graph_perform_of_error (Graph.kept_of_reachable hg).indexes who nodes hq he
  refine ⟨hgraph, fun react place s e hg hanswer => ?_⟩
  have he : ((s.graphAt place).perform who (s.tableOf place) q).result = .error e :=
    result_of_request_error hanswer
  have hrequest (listeners : React) := request_of_error listeners he (hgraph _ _ _ e hg he)
  refine ⟨_, hrequest, ?_⟩
  rintro p rfl hrefusal
  have hnodes : ((s.graphAt place).perform who (s.tableOf place) (.add p)).nodes =
      s.tableOf place := by
    refine Graph.nodes_perform_add_of_error he fun cause hcause => ?_
    rcases hrefusal with rfl | rfl | ⟨fault, rfl⟩ <;> cases hcause
  have hsame := setTable_tableOf s place
  rw [← hnodes] at hsame
  exact congrArg State.tables hsame

theorem refused_mutation_leaves_state_after_half_a_clear :
    let who : Thread := ⟨1⟩
    let statement (lexical : String) : Pattern :=
      ⟨.term (.blank "b"), .term (.iri "p"), .term (.literal (.simple lexical))⟩
    let begun := (Graph.create {}).perform who ScreenedTable.empty .begin
    let first := begun.graph.perform who begun.nodes (.add (statement "1"))
    let second := first.graph.perform who first.nodes (.add (statement "2"))
    let s : State :=
      { tables := #[{ second.nodes with hidden := [3] }]
        members := #[{ graph := second.graph, table := 0, listeners := ⟨1, [(0, 0)]⟩ }] }
    let logging : React := fun _ _ _ e s => { state := s.write (.event "watch" e) }
    (Request.IsMutation .clear ∧ Graph.Reachable ScreenedTable (s.graphAt 0) ∧
        (s.request logging who 0 .clear).1 = .error (.notFound (.real 3))) ∧
      ∃ tables, ∀ listeners : React,
        s.request listeners who 0 .clear = (.error (.notFound (.real 3)), { s with tables }) := by
  intro who statement begun first second s logging
  have hg : Graph.Reachable ScreenedTable (s.graphAt 0) :=
    .performed who _ _ (.performed who _ _ (.performed who _ _ (.created {} .empty [] rfl)))
  have he : (s.request logging who 0 .clear).1 = .error (.notFound (.real 3)) := by decide +kernel
  obtain ⟨tables, hrequest, -⟩ :=
    (refused_mutation_leaves_state (q := .clear) trivial who).2 logging 0 s _ hg he
  exact ⟨⟨trivial, hg, he⟩, tables, hrequest⟩

end Session.State

end TripleStore
