import TripleStore.Proofs.Session.Moves

/-!
# Closed graphs

A graph that was closed stays as it is, and whatever is asked of it is refused for that reason
before capabilities, arguments or transactions are looked at. So a refusal leaves the whole session
as it is, and reaches no listener. A cursor that was on its way tells once that the graph is closed.
-/

namespace TripleStore

namespace Graph

variable {τ : Type} [NodeTable τ] {g : Graph}

theorem perform_of_closed_of_ne_close (hclosed : g.closed = true) (who : Thread) (nodes : τ)
    {r : Request} (hr : r ≠ .close) : g.perform who nodes r = ⟨g, nodes, .error .closed⟩ := by
  cases r using Request.mutationCases with
  | mutation r hm => exact perform_of_closed hm hclosed
  | begin => rw [perform, control, if_pos hclosed]
  | commit => rw [perform, control, if_pos hclosed]
  | abort => rw [perform, control, if_pos hclosed]
  | close => exact absurd rfl hr

theorem perform_close_of_closed (hclosed : g.closed = true) (who : Thread) (nodes : τ) :
    g.perform who nodes .close = ⟨g, nodes, .ok []⟩ := by
  rw [perform, close, if_pos hclosed]

theorem closed_close (g : Graph) : g.close.closed = true := by
  rw [close]
  split
  next hclosed => exact hclosed
  next => rfl

theorem after_of_closed (hclosed : g.closed = true) (turns : List (Turn τ)) :
    g.after turns = g := by
  induction turns with
  | nil => rfl
  | cons t turns ih =>
    have htake : t.take g = g := by
      rw [Turn.take]
      split
      · exact graph_perform_of_closed hclosed _ _ _
      · rfl
    show (t.take g).after turns = g
    rw [htake, ih]

/-- What is told of a closed graph, whatever node table it is asked with. -/
structure TellsNothing (g : Graph) : Prop where
  contains {τ : Type} [NodeTable τ] (nodes : τ) (p : Pattern) :
    g.contains nodes p = .error .closed
  find {τ : Type} [NodeTable τ] (nodes : τ) (p : Pattern) : g.find nodes p = .error .closed
  findAll {τ : Type} [NodeTable τ] (nodes : τ) (p : Pattern) : g.findAll nodes p = .error .closed
  statements {τ : Type} [NodeTable τ] (nodes : τ) (p : Pattern) :
    g.statements nodes p = .error .closed
  size : g.size = .error .closed
  isEmpty : g.isEmpty = .error .closed

theorem tellsNothing_of_closed (hclosed : g.closed = true) : g.TellsNothing := by
  have hfind {τ : Type} [NodeTable τ] (nodes : τ) (p : Pattern) :
      g.find nodes p = .error .closed := by rw [find, if_pos hclosed]
  have hall {τ : Type} [NodeTable τ] (nodes : τ) (p : Pattern) :
      g.findAll nodes p = .error .closed := by rw [findAll, hfind]; rfl
  have hsize : g.size = .error .closed := by rw [size, if_pos hclosed]
  exact {
    contains nodes p := by rw [contains, if_pos hclosed]
    find := hfind
    findAll := hall
    statements nodes p := by rw [statements, hall]; rfl
    size := hsize
    isEmpty := by rw [isEmpty, hsize]; rfl }

end Graph

namespace Session.State

variable {s s' : State} {place : Nat}

/-- What a cursor of the graph at a place yields in one state after the other. -/
def yields (place : Nat) : List State → Cursor → List (Option (Except Error Found))
  | [], _ => []
  | s :: later, c =>
    let (item, c) := c.next (s.graphAt place) (s.tableOf place)
    item :: yields place later c

theorem yields_of_done {c : Cursor} (hdone : c.done = true) (states : List State) :
    yields place states c = List.replicate states.length none := by
  induction states with
  | nil => rfl
  | cons s states ih =>
    rw [yields, Cursor.next, if_pos hdone]
    exact congrArg (none :: ·) ih

/-- The graph at a place is closed and refuses everything for it. -/
structure ClosedAt (s : State) (place : Nat) : Prop where
  isClosed : (s.graphAt place).closed = true
  txn : (s.graphAt place).txn = none
  nobody_waits (who : Thread) : s.mustWait who place = false
  refuses (react : React) (who : Thread) (q : Request) :
    q ≠ .close → s.request react who place q = (.error .closed, s)
  close_again (react : React) (who : Thread) : s.request react who place .close = (.ok (), s)
  /-- The body is not carried out, whatever it would do. -/
  transact {β : Type} (react : React) (who : Thread) (skipped : β)
    (body : State → (BodyResult × β) × State) :
    s.transact react who place skipped body = ((.failed .closed, skipped), s)
  tells : (s.graphAt place).TellsNothing

theorem closedAt_of_closed (hclosed : (s.graphAt place).closed = true)
    (hnone : (s.graphAt place).txn = none) : s.ClosedAt place := by
  have hrefuses (react : React) (who : Thread) (q : Request) (hq : q ≠ .close) :
      s.request react who place q = (.error .closed, s) := by
    have hperform := Graph.perform_of_closed_of_ne_close hclosed who (s.tableOf place) hq
    rw [request_of_error react (congrArg Outcome.result hperform) (congrArg Outcome.graph hperform),
      hperform, setTable_tableOf]
  refine ⟨hclosed, hnone, fun who => ?_, hrefuses, fun react who => ?_,
    fun react who skipped body => ?_, Graph.tellsNothing_of_closed hclosed⟩
  · simp [mustWait, Graph.mustWait, hclosed]
  · have hperform := Graph.perform_close_of_closed hclosed who (s.tableOf place)
    rw [request_of_quiet react hperform, settle_of_graph_eq rfl, setTable_tableOf]
  · rw [State.transact, hrefuses react who .begin (by decide)]

theorem yields_of_closed (hclosed : (s.graphAt place).closed = true) (later : List State)
    (c : Cursor) : yields place (s :: later) c =
      (if c.done then none else some (.error .closed)) :: List.replicate later.length none := by
  rw [yields, Cursor.next]
  cases hdone : c.done with
  | true => exact congrArg (none :: ·) (yields_of_done hdone later)
  | false =>
    rw [if_pos hclosed]
    exact congrArg (some (.error .closed) :: ·)
      (yields_of_done (c := { c with done := true }) rfl later)

/-- From the moment a graph was closed it stays as it is, whatever threads, bodies of transactions
and listeners do: no transaction is open, everything asked of it is refused for being closed and
leaves the session as it was, and closing it again does nothing. A cursor yields that error once,
unless it had come to its end before, and then nothing in whatever states it is asked. -/
theorem closed_for_good (hg : Graph.Reachable ScreenedTable (s.graphAt place))
    (hplace : place < s.members.size) (react : React) (who : Thread) :
    let closed := (s.request react who place .close).2
    (∀ listeners : React, s.request listeners who place .close = (.ok (), closed)) ∧
      (∀ s', Reaches closed s' → s'.graphAt place = closed.graphAt place ∧ s'.ClosedAt place) ∧
      (∀ first later, (∀ s' ∈ first :: later, Reaches closed s') → ∀ c : Cursor,
        yields place (first :: later) c =
          (if c.done then none else some (.error .closed)) ::
            List.replicate later.length none) ∧
      ∀ outside fuel who step s', Reaches closed s' →
        Reaches closed (run outside fuel who step s').2 := by
  intro closed
  have hrequest (listeners : React) : s.request listeners who place .close =
      (.ok (), s.settle place ⟨(s.graphAt place).close, s.tableOf place, .ok []⟩) :=
    request_of_quiet listeners rfl
  have hgraph : closed.graphAt place = (s.graphAt place).close := by
    show (s.request react who place .close).2.graphAt place = _
    rw [hrequest, graphAt_settle_of_lt hplace]
  have hclosed : (closed.graphAt place).closed = true := by
    rw [hgraph]
    exact Graph.closed_close _
  have hsize : place < closed.members.size := by
    show place < (s.request react who place .close).2.members.size
    rw [hrequest]
    exact hplace.trans_le (Reaches.start.asked who place .close).size_le
  have hnone : (closed.graphAt place).txn = none := by
    rw [hgraph] at hclosed ⊢
    exact (hg.performed who (s.tableOf place) .close).txn_eq_none hclosed
  have hsame (s') (hs' : Reaches closed s') : s'.graphAt place = closed.graphAt place := by
    obtain ⟨turns, hturns⟩ := hs'.graphAt_eq hsize
    rw [hturns, Graph.after_of_closed hclosed]
  refine ⟨fun listeners => ?_, fun s' hs' => ⟨hsame s' hs', ?_⟩, fun first later hlater c => ?_,
    fun outside fuel who step s' hs' => hs'.trans (reaches_run outside fuel who step s')⟩
  · show _ = (_, (s.request react who place .close).2)
    rw [hrequest, hrequest]
  · rw [← hsame s' hs'] at hclosed hnone
    exact closedAt_of_closed hclosed hnone
  · rw [← hsame first (hlater first List.mem_cons_self)] at hclosed
    exact yields_of_closed hclosed later c

theorem closed_for_good_amid_transaction :
    let who : Thread := ⟨1⟩
    let statement : Pattern := ⟨.term (.blank "b"), .term (.iri "p"), .term (.iri "o")⟩
    let config : Config := { capabilities := { deleteAllowed := false } }
    let begun := (Graph.create config).perform who ScreenedTable.empty .begin
    let added := begun.graph.perform who begun.nodes (.add statement)
    let s : State :=
      { tables := #[added.nodes]
        members := #[{ graph := added.graph, table := 0, listeners := ⟨1, [(0, 0)]⟩ }] }
    let logging : React := fun _ _ _ e s => { state := s.write (.event "watch" e) }
    let c : Cursor := { pending := [IdTriple.any] }
    let closed := (s.request logging who 0 .close).2
    let later := (closed.request logging ⟨2⟩ 0 .clear).2
    (Graph.Reachable ScreenedTable (s.graphAt 0) ∧ 0 < s.members.size ∧
        (s.graphAt 0).inTransaction who = true ∧
        (yields 0 [s, closed] c).map (·.map (·.isOk)) = [some true, some false]) ∧
      s.request logging who 0 .close = (.ok (), closed) ∧
      closed.request logging ⟨2⟩ 0 .clear = (.error .closed, closed) ∧
      later.graphAt 0 = closed.graphAt 0 ∧
      yields 0 [closed, later] c = [some (.error .closed), none] := by
  intro who statement config begun added s logging c closed later
  have hg : Graph.Reachable ScreenedTable (s.graphAt 0) :=
    .performed who _ _ (.performed who _ _ (.created config .empty [] rfl))
  have hplace : 0 < s.members.size := by decide +kernel
  obtain ⟨hclose, hafter, hyields, -⟩ := closed_for_good hg hplace logging who
  have hrefused : closed.request logging ⟨2⟩ 0 .clear = (.error .closed, closed) :=
    (hafter closed .start).2.refuses logging ⟨2⟩ .clear (by decide)
  have hlater : later = closed := by
    show (closed.request logging ⟨2⟩ 0 .clear).2 = closed
    rw [hrefused]
  have hreaches : ∀ s' ∈ [closed, later], Reaches closed s' := by
    rw [hlater]
    simp [Reaches.start]
  exact ⟨⟨hg, hplace, by decide +kernel, by decide +kernel⟩, hclose logging, hrefused,
    (hafter later (hreaches _ (by simp))).1, hyields closed [later] hreaches c⟩

end Session.State

end TripleStore
