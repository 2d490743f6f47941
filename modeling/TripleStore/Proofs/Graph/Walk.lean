import Mathlib.Data.List.Infix
import TripleStore.Proofs.Graph.Progress
import TripleStore.Proofs.Graph.Query

/-!
# Walks through a changing graph

Between the steps of a cursor anything may be asked of its graph, by any thread, and other users of
the node table may add terms. As long as the graph is open the walk yields no statement twice, none
that its pattern does not admit or that was not stored since the cursor was made, and all that it
admits that were stored throughout.
-/

namespace TripleStore

/-- A cursor beside the graph and the node table that it walks through. -/
structure Scene where
  graph : Graph
  nodes : MemoryTable
  cursor : Cursor

/-- What may happen during a walk. -/
inductive Move where
  /-- The cursor takes a step. -/
  | next
  | ask (who : Thread) (r : Request)
  /-- Another user of the node table asks for the id of a term. -/
  | share (t : Term)

def Move.KeepsOpen (move : Move) : Prop := ∀ who, move ≠ .ask who .close

namespace Scene

/-- What the next step of the cursor answers. -/
def answer (s : Scene) : Option (Except Error Found) := (s.cursor.next s.graph s.nodes).1

def move (s : Scene) : Move → Scene
  | .next => { s with cursor := (s.cursor.next s.graph s.nodes).2 }
  | .ask who r =>
    { s with graph := (s.graph.perform who s.nodes r).graph
             nodes := (s.graph.perform who s.nodes r).nodes }
  | .share t => { s with nodes := (s.nodes.lookupOrCreate t).2 }

def after (s : Scene) (moves : List Move) : Scene := moves.foldl move s

/-- The match that a move yields, if it does. -/
def found (s : Scene) : Move → List Found
  | .next =>
    match s.answer with
    | some (.ok f) => [f]
    | _ => []
  | _ => []

/-- The matches that the cursor yields, in order. -/
def yielded (s : Scene) : List Move → List Found
  | [] => []
  | m :: rest => s.found m ++ (s.move m).yielded rest

def statements (s : Scene) : Set Statement := s.graph.statementSet s.nodes

variable {start now : Scene} {moves : List Move}

theorem after_append (start : Scene) (moves later : List Move) :
    start.after (moves ++ later) = (start.after moves).after later := List.foldl_append

theorem yielded_concat (start : Scene) (moves : List Move) (m : Move) :
    start.yielded (moves ++ [m]) = start.yielded moves ++ (start.after moves).found m := by
  induction moves generalizing start with
  | nil => simp [yielded, after]
  | cons first moves ih =>
    rw [List.cons_append, yielded, ih, yielded, List.append_assoc]
    rfl

/-- What the moves of a walk keep of the graph and the node table. -/
structure Traced (start now : Scene) : Prop where
  reachable : Graph.ReachableOver now.graph now.nodes
  opened : now.graph.closed = false
  orders : now.graph.indexes.orders = start.graph.indexes.orders
  terms : start.nodes.terms <+: now.nodes.terms

theorem Traced.move (h : Traced start now) {m : Move} (hm : m.KeepsOpen) :
    Traced start (now.move m) := by
  cases m with
  | next => exact ⟨h.reachable, h.opened, h.orders, h.terms⟩
  | ask who r =>
    have hkept := (Graph.kept_of_reachableOver h.reachable).imp fun _ hs => hs.inStep
    have hr : r ≠ .close := fun he => hm who (he ▸ rfl)
    exact ⟨h.reachable.performed who r,
      (Graph.sameFrame_perform who now.nodes hr).2.2.trans h.opened,
      (Graph.orders_perform hkept who now.nodes r).trans h.orders,
      h.terms.trans (Graph.prefix_perform hkept.indexes who now.nodes r)⟩
  | share t =>
    exact ⟨h.reachable.shared t, h.opened, h.orders,
      h.terms.trans (MemoryTable.prefix_lookupOrCreate now.nodes t)⟩

theorem Traced.after (h : Traced start now) (hmoves : ∀ m ∈ moves, m.KeepsOpen) :
    Traced start (now.after moves) := by
  induction moves generalizing now with
  | nil => exact h
  | cons m moves ih =>
    rw [List.forall_mem_cons] at hmoves
    exact ih (h.move hmoves.1) hmoves.2

theorem Traced.here (h : Traced start now) : Traced now now :=
  ⟨h.reachable, h.opened, rfl, List.prefix_rfl⟩

def order (s : Scene) (p : IdTriple) : IndexOrder := (s.graph.indexes.choose p).order

def Ever (start : Scene) (moves : List Move) (t : IdTriple) : Prop :=
  ∃ before, before <+: moves ∧ (start.after before).graph.indexes.contains t = true

def Always (start : Scene) (moves : List Move) (t : IdTriple) : Prop :=
  ∀ before, before <+: moves → (start.after before).graph.indexes.contains t = true

theorem Ever.concat {t : IdTriple} (h : start.Ever moves t) (m : Move) :
    start.Ever (moves ++ [m]) t := by
  obtain ⟨before, hbefore, ht⟩ := h
  exact ⟨before, hbefore.trans (List.prefix_append ..), ht⟩

theorem Always.of_concat {t : IdTriple} {m : Move} (h : start.Always (moves ++ [m]) t) :
    start.Always moves t :=
  fun before hbefore => h before (hbefore.trans (List.prefix_append ..))

theorem Traced.covers_of_contains (h : Traced start now) {t : IdTriple}
    (ht : now.graph.indexes.contains t = true) : now.nodes.CoversAll t := by
  obtain ⟨⟨S, hS, hcovers⟩, -⟩ := Graph.kept_of_reachableOver h.reachable
  have hr : ∀ t ∈ S, t.InRange := fun t ht => (hcovers t ht).inRange
  exact hcovers t ((hS.contains_iff hr t).mp ht)

theorem Traced.midway (h : Traced start start) (hmoves : ∀ m ∈ moves, m.KeepsOpen)
    {before : List Move} (hbefore : before <+: moves) :
    Traced start (start.after before) ∧ Traced (start.after before) (start.after moves) := by
  obtain ⟨later, rfl⟩ := hbefore
  rw [List.forall_mem_append] at hmoves
  have hthen := h.after hmoves.1
  rw [after_append]
  exact ⟨hthen, hthen.here.after hmoves.2⟩

/-- What was stored at some time got its ids by then, and they mean the same ever since. -/
theorem Ever.covers {t : IdTriple} (h : start.Ever moves t) (hstart : Traced start start)
    (hmoves : ∀ m ∈ moves, m.KeepsOpen) :
    (start.after moves).nodes.CoversAll t ∧ ∀ st,
      NodeTable.decodeTriple (start.after moves).nodes t = .ok st →
        ∃ before, before <+: moves ∧ st ∈ (start.after before).statements := by
  obtain ⟨before, hbefore, hcontains⟩ := h
  obtain ⟨hthen, hsince⟩ := hstart.midway hmoves hbefore
  have hcovers := hthen.covers_of_contains hcontains
  refine ⟨MemoryTable.coversAll_mono hsince.terms.length_le hcovers, fun st hst => ?_⟩
  obtain ⟨st', hst'⟩ := hcovers.exists_decodeTriple
  have hsame := MemoryTable.decodeTriple_of_grown hsince.terms hst'
  rw [Except.ok.inj (hst.symm.trans hsame)]
  exact ⟨before, hbefore, t, hcontains, hst'⟩

section

variable {patterns met : List IdTriple} (hstart : Traced start start)
  (hapart : patterns.Pairwise fun p q => ∀ t, p.Matches t → ¬ q.Matches t)

include hstart hapart

/-- At any time of a walk the next step ends it or yields one more match, with the terms of the ids.
-/
theorem answer_spec (hmoves : ∀ m ∈ moves, m.KeepsOpen)
    (hp : Cursor.Progress start.order patterns (start.Ever moves) (start.Always moves) met
      (start.after moves).cursor) :
    ((start.after moves).answer = none ∧ ((start.after moves).move .next).cursor.done = true ∧
        Cursor.Progress start.order patterns (start.Ever moves) (start.Always moves) met
          ((start.after moves).move .next).cursor ∧
        ∀ t, start.Always moves t → (∃ q ∈ patterns, q.Matches t) → t ∈ met) ∨
      ∃ f, (start.after moves).answer = some (.ok f) ∧
        NodeTable.decodeTriple (start.after moves).nodes f.ids = .ok f.statement ∧
        Cursor.Progress start.order patterns (start.Ever moves) (start.Always moves)
          (met ++ [f.ids]) ((start.after moves).move .next).cursor := by
  have hnow := hstart.after hmoves
  obtain ⟨⟨S, hS, hcovers⟩, -⟩ := Graph.kept_of_reachableOver hnow.reachable
  have hr : ∀ t ∈ S, t.InRange := fun t ht => (hcovers t ht).inRange
  have hcontains (t : IdTriple) := hS.contains_iff hr t
  rcases hp.next hnow.opened hS hr (IndexSet.order_choose_congr hnow.orders) hapart
    (fun t ht => ⟨moves, List.prefix_rfl, (hcontains t).mpr ht⟩)
    (fun t ht => (hcontains t).mp (ht moves List.prefix_rfl)) (start.after moves).nodes with
    ⟨c', hnext, hdone, hp', hall⟩ | ⟨t, c', hnext, hp'⟩
  · refine .inl ⟨by rw [answer, hnext], ?_, ?_, hall⟩
    · rw [move, hnext]
      exact hdone
    · rw [move, hnext]
      exact hp'
  · have ht : t ∈ met ++ [t] ++ c'.page := by simp
    obtain ⟨st, hst⟩ := ((hp'.ever t ht).1.covers hstart hmoves).1.exists_decodeTriple
    refine .inr ⟨⟨t, st⟩, ?_, hst, ?_⟩
    · rw [answer, hnext, Cursor.yield, hst]
      rfl
    · rw [move, hnext]
      exact hp'

/-- What holds at any time of a walk. -/
theorem progress_after (hcursor : start.cursor = { pending := patterns })
    (hmoves : ∀ m ∈ moves, m.KeepsOpen) :
    Cursor.Progress start.order patterns (start.Ever moves) (start.Always moves)
        ((start.yielded moves).map (·.ids)) (start.after moves).cursor ∧
      ∀ f ∈ start.yielded moves,
        NodeTable.decodeTriple (start.after moves).nodes f.ids = .ok f.statement := by
  induction moves using List.reverseRecOn with
  | nil =>
    refine ⟨?_, by simp [yielded]⟩
    show Cursor.Progress _ _ _ _ [] start.cursor
    rw [hcursor]
    exact .start ..
  | append_singleton moves m ih =>
    rw [List.forall_mem_append] at hmoves
    obtain ⟨hbefore, hm⟩ := hmoves
    obtain ⟨hp, hdecodes⟩ := ih hbefore
    have hlater {met : List IdTriple} {c : Cursor}
        (h : Cursor.Progress start.order patterns (start.Ever moves) (start.Always moves) met c) :
        Cursor.Progress start.order patterns (start.Ever (moves ++ [m]))
          (start.Always (moves ++ [m])) met c :=
      h.mono (fun _ ht => ht.concat m) fun _ ht => ht.of_concat
    have hmove : start.after (moves ++ [m]) = (start.after moves).move m := after_append ..
    have hterms := ((hstart.after hbefore).here.move (hm m List.mem_cons_self)).terms
    have hkeep : ∀ f ∈ start.yielded moves,
        NodeTable.decodeTriple ((start.after moves).move m).nodes f.ids = .ok f.statement :=
      fun f hf => MemoryTable.decodeTriple_of_grown hterms (hdecodes f hf)
    rw [hmove, yielded_concat]
    cases m with
    | next =>
      rcases answer_spec hstart hapart hbefore hp with
        ⟨hnone, -, hp', -⟩ | ⟨f, hsome, hst, hp'⟩
      · rw [found, hnone, List.append_nil]
        exact ⟨hlater hp', hkeep⟩
      · rw [found, hsome, List.map_append]
        refine ⟨hlater hp', List.forall_mem_append.mpr ⟨hkeep, fun f' hf' => ?_⟩⟩
        obtain rfl := List.mem_singleton.mp hf'
        exact hst
    | ask who r =>
      rw [found, List.append_nil]
      · exact ⟨hlater hp, hkeep⟩
      · nofun
    | share t =>
      rw [found, List.append_nil]
      · exact ⟨hlater hp, hkeep⟩
      · nofun

end

theorem answer_after_of_done {s : Scene} (hdone : s.cursor.done = true) (later : List Move) :
    (s.after later).answer = none := by
  induction later generalizing s with
  | nil => simp [after, answer, Cursor.next, hdone]
  | cons m later ih =>
    refine ih (s := s.move m) ?_
    cases m with
    | next => simp [move, Cursor.next, hdone]
    | ask who r => exact hdone
    | share t => exact hdone

theorem exists_always {st : Statement} (hstart : Traced start start)
    (hmoves : ∀ m ∈ moves, m.KeepsOpen)
    (hst : ∀ before, before <+: moves → st ∈ (start.after before).statements) :
    ∃ t, start.Always moves t ∧ start.nodes.CoversAll t ∧
      NodeTable.decodeTriple start.nodes t = .ok st := by
  -- the ids of the start serve at all times, since a statement decodes from one triple only
  obtain ⟨t, ht, hdecode⟩ := hst [] List.nil_prefix
  have hcovers := hstart.covers_of_contains ht
  refine ⟨t, fun before hbefore => ?_, hcovers, hdecode⟩
  obtain ⟨hthen, -⟩ := hstart.midway hmoves hbefore
  obtain ⟨t', ht', hdecode'⟩ := hst before hbefore
  have hsame : t' = t := MemoryTable.decodeTriple_inj hdecode'
    (MemoryTable.decodeTriple_of_grown hthen.terms hdecode)
  exact hsame ▸ ht'

/-- No walk through an open graph yields a statement twice, whatever happens meanwhile. What it
yields its pattern admits and was stored at some time since the cursor was made. When it ends it has
yielded all that the pattern admits and was stored all along, and it never starts again. -/
theorem walk_yields_each_once {g : Graph} {m : MemoryTable} {p : Pattern} {c : Cursor}
    (hg : Graph.ReachableOver g m) (hfind : g.find m p = .ok c)
    (hmoves : ∀ move ∈ moves, move.KeepsOpen) :
    let start : Scene := ⟨g, m, c⟩
    let now := start.after moves
    ((start.yielded moves).map (·.statement)).Nodup ∧
      (∀ item, now.answer = some item → ∃ f, item = .ok f ∧
        p.Admits g.capabilities.handlesLiteralTyping f.statement ∧
        ∃ before, before <+: moves ∧ f.statement ∈ (start.after before).statements) ∧
      (now.answer = none → ∀ st, p.Admits g.capabilities.handlesLiteralTyping st →
        (∀ before, before <+: moves → st ∈ (start.after before).statements) →
        ((start.yielded moves).map (·.statement)).count st = 1) ∧
      (now.answer = none → ∀ later, (start.after (moves ++ .next :: later)).answer = none) := by
  intro start now
  obtain ⟨hopen, hc⟩ : g.closed = false ∧ c = { pending := g.patterns m p } := by
    rw [Graph.find] at hfind
    split at hfind
    · cases hfind
    next hopen => exact ⟨Bool.eq_false_iff.mpr hopen, (Except.ok.inj hfind).symm⟩
  have hstart : Traced start start := ⟨hg, hopen, rfl, List.prefix_rfl⟩
  have hnow : Traced start now := hstart.after hmoves
  have hapart : (g.patterns m p).Pairwise fun q q' => ∀ t, q.Matches t → ¬ q'.Matches t :=
    (Graph.nodup_patterns g p).imp_of_mem fun hq hq' hne t hmatch hmatch' =>
      hne (Graph.eq_of_matches g hq hq' hmatch hmatch')
  obtain ⟨hp, hdecodes⟩ := progress_after hstart hapart hc hmoves
  have hnodup : ((start.yielded moves).map (·.statement)).Nodup :=
    Graph.nodup_statements hp.nodup.of_append_left hdecodes
  have hstep := answer_spec hstart hapart hmoves hp
  refine ⟨hnodup, fun item hitem => ?_, fun hnone st hadmits hst => ?_, fun hnone later => ?_⟩
  · rcases hstep with ⟨hnone, -⟩ | ⟨f, hsome, hst, hp'⟩
    · cases hitem.symm.trans hnone
    · obtain ⟨hever, q, hq, hmatch⟩ := hp'.ever f.ids (by simp)
      exact ⟨f, Option.some.inj (hitem.symm.trans hsome),
        Graph.admits_of_matches hnow.terms g hq hmatch hst,
        (hever.covers hstart hmoves).2 f.statement hst⟩
  · rcases hstep with ⟨-, -, -, hall⟩ | ⟨f, hsome, -⟩
    · obtain ⟨t, halways, hcovers, hdecode⟩ := exists_always hstart hmoves hst
      have hmatch := (Graph.exists_matches_iff g p hcovers hdecode).mpr hadmits
      obtain ⟨f, hf, rfl⟩ := List.mem_map.mp (hall t halways hmatch)
      have hsame : f.statement = st := Except.ok.inj ((hdecodes f hf).symm.trans
        (MemoryTable.decodeTriple_of_grown hnow.terms hdecode))
      exact List.count_eq_one_of_mem hnodup (List.mem_map.mpr ⟨f, hf, hsame⟩)
    · cases hnone.symm.trans hsome
  · rcases hstep with ⟨-, hdone, -⟩ | ⟨f, hsome, -⟩
    · rw [after_append]
      exact answer_after_of_done (s := now.move .next) hdone later
    · cases hnone.symm.trans hsome

theorem walk_yields_each_once_past_readding :
    let who : Thread := ⟨1⟩
    let statement (lexical : String) : Statement :=
      ⟨.blank "b", .iri "p", .literal (.simple lexical)⟩
    let first := (Graph.create {}).perform who MemoryTable.empty (.add (statement "1").toPattern)
    let second := first.graph.perform who first.nodes (.add (statement "2").toPattern)
    let start : Scene := ⟨second.graph, second.nodes, { pending := [IdTriple.any] }⟩
    let moves := [.next, .ask who (.delete (statement "1").toPattern),
      .ask who (.add (statement "1").toPattern), .next]
    (Graph.ReachableOver start.graph start.nodes ∧
        start.graph.find start.nodes Pattern.any = .ok start.cursor ∧
        (∀ move ∈ moves, move.KeepsOpen) ∧ (start.after moves).answer = none ∧
        ∀ before, before <+: moves → statement "2" ∈ (start.after before).statements) ∧
      ((start.yielded moves).map (·.statement)).Nodup ∧
      ((start.yielded moves).map (·.statement)).count (statement "2") = 1 ∧
      ∀ later, (start.after (moves ++ .next :: later)).answer = none := by
  intro who statement first second start moves
  have hfirst : Graph.ReachableOver first.graph first.nodes :=
    .performed who _ (.created {} [] rfl)
  have hsecond : Graph.ReachableOver second.graph second.nodes := .performed who _ hfirst
  have hg : Graph.ReachableOver start.graph start.nodes := by
    dsimp only [start]
    exact hsecond
  have hfind : start.graph.find start.nodes Pattern.any = .ok start.cursor := by decide +kernel
  have hmoves : ∀ move ∈ moves, move.KeepsOpen := by
    simp [moves, Move.KeepsOpen]
  have hnone : (start.after moves).answer = none := by decide +kernel
  have hstored : ∀ before, before <+: moves → statement "2" ∈ (start.after before).statements := by
    have hall : ∀ before ∈ moves.inits,
        (start.after before).graph.indexes.contains ⟨.real 0, .real 1, .real 3⟩ = true ∧
          NodeTable.decodeTriple (start.after before).nodes ⟨.real 0, .real 1, .real 3⟩ =
            .ok (statement "2") := by decide +kernel
    intro before hbefore
    exact ⟨_, hall before ((List.mem_inits before moves).mpr hbefore)⟩
  clear_value start
  obtain ⟨hnodup, -, hcount, hend⟩ := walk_yields_each_once hg hfind hmoves
  exact ⟨⟨hg, hfind, hmoves, hnone, hstored⟩, hnodup,
    hcount hnone (statement "2") ⟨trivial, trivial, trivial⟩ hstored, hend hnone⟩

end Scene

end TripleStore
