import TripleStore.Proofs.Graph.Copies
import TripleStore.Proofs.Session.Transact
import TripleStore.Session.Run

/-!
# Copying between graphs

`State.addInto` and `State.deleteFrom` read the statements of one graph and then ask for each of
them at another one, or at the same. Meanwhile listeners may do what they like, as long as they
leave the two graphs alone; terms may get ids, also in a table that both graphs share.
-/

namespace TripleStore.Session.State

open TripleStore.Graph (Holds ReachableOver)
open MemoryTable

def statementsAt (s : State) (place : Nat) : Set Statement :=
  (s.graphAt place).statementSet (s.tableOf place)

def pinnedAt (s : State) (place : Nat) : Set Statement :=
  (s.graphAt place).pinnedSet (s.tableOf place)

/-- The graph at a place uses a table that hides nothing. -/
def Uses (s : State) (place : Nat) (m : MemoryTable) : Prop :=
  s.tables[s.tablePlace place]? = some m.unscreened

/-- The graph at a place is open, and was made and worked on over its table. -/
structure Ready (s : State) (place : Nat) (m : MemoryTable) : Prop where
  uses : s.Uses place m
  isOpen : (s.graphAt place).closed = false
  reachable : ReachableOver (s.graphAt place) m

/-- The graph at a place stays as it is, and its table only gets ids for some of the terms. -/
structure LeftAlone (given : Set Term) (place : Nat) (s s' : State) : Prop where
  graph : s'.graphAt place = s.graphAt place
  table : ∀ m, s.Uses place m → ∃ m', s'.Uses place m' ∧ m.Learns given m'

/-- In calm states the listeners of the target leave both graphs alone. Calm is what requests to the
target and these listeners keep; it says which listeners there are. -/
structure Undisturbed (react : React) (who : Thread) (target source : Nat) (given : Set Term)
    (calm : State → Prop) : Prop where
  settle : ∀ s q, calm s →
    calm (s.settle target ((s.graphAt target).perform who (s.tableOf target) q))
  stays : ∀ listener e s, calm s → calm (react who target listener e s).state
  sparesTarget : ∀ listener e s, calm s →
    LeftAlone given target s (react who target listener e s).state
  sparesSource : ∀ listener e s, calm s →
    LeftAlone given source s (react who target listener e s).state

variable {react : React} {who : Thread} {target source place : Nat} {given : Set Term}
  {calm : State → Prop} {s s' : State} {m n : MemoryTable} {c : Content}

theorem Uses.tableOf (h : s.Uses place m) : s.tableOf place = m.unscreened := by
  rw [State.tableOf, h]
  rfl

theorem Uses.unique (h : s.Uses place m) (h' : s.Uses place n) : m = n :=
  congrArg ScreenedTable.table (Option.some.inj (Eq.trans h.symm h'))

theorem tablePlace_settle (s : State) (target place : Nat) (o : Outcome ScreenedTable) :
    (s.settle target o).tablePlace place = s.tablePlace place := by
  simp only [tablePlace, settle, setTable, changeMember, Array.getElem?_modify]
  split
  · rw [Option.map_map]
    rfl
  · rfl

/-- What a request to the graph at a place leaves is told by the memory table that it uses. -/
theorem Uses.perform (h : s.Uses target m) (who : Thread) (q : Request) :
    (s.graphAt target).perform who (s.tableOf target) q =
      ((s.graphAt target).perform who m q).map unscreened := by
  rw [h.tableOf, Graph.perform_map keepsAnswers_unscreened]

theorem Uses.settle (h : s.Uses target m) (o : Outcome MemoryTable) :
    (s.settle target (o.map unscreened)).Uses target o.nodes := by
  obtain ⟨hplace, -⟩ := Array.getElem?_eq_some_iff.mp h
  rw [Uses, tablePlace_settle]
  exact Array.getElem?_setIfInBounds_self_of_lt hplace

/-- Two graphs that share a table see it grow together. -/
theorem Uses.settle_other (h : s.Uses place n) (htarget : s.Uses target m)
    (o : Outcome MemoryTable) : (s.settle target (o.map unscreened)).Uses place n ∨
      n = m ∧ (s.settle target (o.map unscreened)).Uses place o.nodes := by
  have hafter := htarget.settle o
  rw [Uses] at h htarget
  rw [Uses, tablePlace_settle] at hafter ⊢
  rw [Uses, tablePlace_settle]
  by_cases he : s.tablePlace target = s.tablePlace place
  · rw [he] at htarget hafter
    exact .inr ⟨congrArg ScreenedTable.table (Option.some.inj (h.symm.trans htarget)), hafter⟩
  · exact .inl ((Array.getElem?_setIfInBounds_ne he).trans h)

/-- The target has a content by now, in a table with room. The source, if it is to be still, is the
graph that it was, with the content that it had. -/
structure Course (target source : Nat) (room : MemoryTable → Prop) (still : Prop) (g : Graph)
    (c₀ : Content) (c : Content) (s : State) : Prop where
  target : ∃ m, s.Uses target m ∧ room m ∧ (s.graphAt target).Holds m c
  source : still → s.graphAt source = g ∧ ∃ n, s.Uses source n ∧ g.Holds n c₀

variable {room : MemoryTable → Prop} {still : Prop} {g : Graph} {c₀ : Content} {q : Request}
  {stored : Finset Statement} {report : TripleStore.Report}

theorem Course.leftAlone (h : Course target source room still g c₀ c s)
    (hroom : q.HasRoom who given room) (htarget : LeftAlone given target s s')
    (hsource : LeftAlone given source s s') : Course target source room still g c₀ c s' := by
  obtain ⟨m, huses, hm, hholds⟩ := h.target
  obtain ⟨m', huses', hlearns⟩ := htarget.table m huses
  refine ⟨⟨m', huses', hroom.learns m m' hm hlearns, ?_⟩, fun hstill => ?_⟩
  · rw [htarget.graph]
    exact hholds.learns hlearns
  · obtain ⟨hg, n, hn, hholds₀⟩ := h.source hstill
    obtain ⟨n', hn', hlearns'⟩ := hsource.table n hn
    exact ⟨hsource.graph.trans hg, n', hn', hholds₀.learns hlearns'⟩

/-- A request to the target that its content allows succeeds. -/
theorem Course.settle (h : Course target source room still g c₀ c s) (hq : q.IsMutation)
    (hroom : q.HasRoom who given room) (hopen : c.closed = false)
    (hedit : c.edit q = .ok (stored, report))
    (hstill : still → source = target → ∀ m, g.Holds m c₀ → (g.perform who m q).graph = g) :
    let o := (s.graphAt target).perform who (s.tableOf target) q
    (∃ events, o.result = .ok events) ∧
      Course target source room still g c₀ { c with stored } (s.settle target o) := by
  obtain ⟨m, huses, hm, hholds⟩ := h.target
  have hnodes := hroom.perform (s.graphAt target) m hholds.stored.inStep hm
  have hle := hholds.nodes_perform who q
  have hfollows := Graph.follows_mutation hholds who hq (hroom.fits m hm)
  rw [Content.perform_of_isMutation who c hq, if_neg (Bool.eq_false_iff.mp hopen), hedit]
    at hfollows
  have hisOpen : (s.graphAt target).closed = false := hholds.closed.trans hopen
  simp only [huses.perform]
  generalize ho : (s.graphAt target).perform who m q = o at *
  refine ⟨?_, ⟨o.nodes, huses.settle o, hnodes, ?_⟩, fun hs => ?_⟩
  · have hresult := hfollows.result
    cases hevents : o.result with
    | error e =>
      rw [hevents] at hresult
      cases hresult
    | ok events => exact ⟨events, hevents⟩
  · rw [graphAt_settle hisOpen]
    exact hfollows.holds
  · obtain ⟨hg, n, hn, hholds₀⟩ := h.source hs
    by_cases he : source = target
    · -- the source is the target, so the request itself has to leave it as it is
      subst he
      obtain rfl := hn.unique huses
      refine ⟨?_, o.nodes, huses.settle o, hholds₀.grow hle⟩
      rw [graphAt_settle hisOpen]
      have hsame := hstill hs rfl n hholds₀
      rwa [← hg, ho, hg] at hsame
    · rw [graphAt_settle_of_ne (Ne.symm he)]
      refine ⟨hg, ?_⟩
      obtain hkept | ⟨rfl, hgrown⟩ := hn.settle_other huses o
      · exact ⟨n, hkept, hholds₀⟩
      · exact ⟨o.nodes, hgrown, hholds₀.grow hle⟩

/-- A request to the target, with what its listeners do about it. -/
theorem Course.request (hcalm : Undisturbed react who target source given calm)
    (h : Course target source room still g c₀ c s) (hs : calm s) (hq : q.IsMutation)
    (hroom : q.HasRoom who given room) (hopen : c.closed = false)
    (hedit : c.edit q = .ok (stored, report))
    (hstill : still → source = target → ∀ m, g.Holds m c₀ → (g.perform who m q).graph = g) :
    ∃ s', s.request react who target q = (.ok (), s') ∧ calm s' ∧
      Course target source room still g c₀ { c with stored } s' := by
  obtain ⟨⟨events, hevents⟩, hsettled⟩ := h.settle hq hroom hopen hedit hstill
  rw [request_eq, hevents]
  refine ⟨_, rfl, ?_⟩
  refine notify_induct (P := fun s => calm s ∧
    Course target source room still g c₀ { c with stored } s) (fun listener e s hs => ?_) events
    ⟨hcalm.settle s q hs, hsettled⟩
  exact ⟨hcalm.stays listener e s hs.1,
    hs.2.leftAlone hroom (hcalm.sparesTarget listener e s hs.1)
      (hcalm.sparesSource listener e s hs.1)⟩

/-- What each request keeps, a run of requests keeps. -/
theorem requestAll_induct {P : Finset Statement → State → Prop} {q : Statement → Request}
    {next : Finset Statement → Statement → Finset Statement} (ts : List Statement)
    (hstep : ∀ st ∈ ts, ∀ T s, P T s →
      ∃ s', s.request react who target (q st) = (.ok (), s') ∧ P (next T st) s')
    {T : Finset Statement} (hs : P T s) :
    ∃ s', s.requestAll react who target (ts.map fun st => .ok (q st)) = (.ok (), s') ∧
      P (ts.foldl next T) s' := by
  induction ts generalizing s T with
  | nil => exact ⟨s, rfl, hs⟩
  | cons st ts ih =>
    rw [List.forall_mem_cons] at hstep
    obtain ⟨s₁, hrequest, hs₁⟩ := hstep.1 T s hs
    obtain ⟨s', hrest, hs'⟩ := ih hstep.2 hs₁
    refine ⟨s', ?_, hs'⟩
    rw [List.map_cons, requestAll, hrequest]
    exact hrest

theorem Uses.statementsAt_eq (h : s.Uses place m) (hholds : (s.graphAt place).Holds m c) :
    s.statementsAt place = ↑c.stored := by
  rw [statementsAt, h.tableOf, Graph.statementSet_map keepsAnswers_unscreened,
    Graph.statementSet_eq hholds.stored]

theorem Uses.pinnedAt_eq (h : s.Uses place m) (hholds : (s.graphAt place).Holds m c) :
    s.pinnedAt place = ↑c.pinned := by
  rw [pinnedAt, h.tableOf, Graph.pinnedSet_map keepsAnswers_unscreened, hholds.pinnedSet_eq]

theorem Uses.statements_eq (h : s.Uses place m) (hholds : (s.graphAt place).Holds m c)
    (hopen : (s.graphAt place).closed = false) :
    ∃ ts : List Statement, s.statements place = .ok ts ∧ ts.toFinset = c.stored := by
  rw [statements, h.tableOf, Graph.statements_map keepsAnswers_unscreened]
  exact hholds.statements hopen

/-- What is read of a graph is what it stores. -/
theorem Ready.statementsAt_eq {ts : List Statement} (h : s.Ready place m)
    (hread : s.statements place = .ok ts) : s.statementsAt place = {st | st ∈ ts} := by
  obtain ⟨c, hc⟩ := h.reachable.exists_holds
  obtain ⟨ts', hread', hts⟩ := h.uses.statements_eq hc h.isOpen
  obtain rfl : ts = ts' := Except.ok.inj (hread.symm.trans hread')
  rw [h.uses.statementsAt_eq hc, ← hts, List.coe_toFinset]

theorem Course.addInto (hcalm : Undisturbed react who target source given calm)
    {names : Finset Term} (hgiven : given ⊆ ↑names)
    (h : Course target source (Within names) True g c₀ c s) (hs : calm s)
    (hopen : c.closed = false) (hallowed : c.config.capabilities.addAllowed = true)
    (hself : source = target → g.closed = false ∧ g.capabilities.addAllowed = true)
    {ts : List Statement} (hread : s.statements source = .ok ts) (hts : ts.toFinset = c₀.stored)
    (hterms : ∀ st ∈ c₀.stored, ∀ t ∈ st.toPattern.terms, t ∈ names) :
    ∃ s', s.addInto react who target source = (.ok (), s') ∧
      Course target source (Within names) True g c₀ { c with stored := c.stored ∪ c₀.stored }
        s' := by
  let P (T : Finset Statement) (s : State) : Prop := calm s ∧
    Course target source (Within names) True g c₀ { c with stored := T } s
  have hstep : ∀ st ∈ ts, ∀ T s, P T s →
      ∃ s', s.request react who target (.add st.toPattern) = (.ok (), s') ∧
        P (insert st T) s' := by
    rintro st hst T s ⟨hs, h⟩
    have hst : st ∈ c₀.stored := hts ▸ List.mem_toFinset.mpr hst
    have hedit := Content.edit_add (c := { c with stored := T }) hallowed st
    refine Course.request (c := { c with stored := T }) hcalm h hs trivial
      (Request.hasRoom_add hgiven (hterms st hst) who) hopen hedit fun _ he m hholds => ?_
    rw [hholds.perform_add_of_mem (hself he).1 (hself he).2 hst]
  obtain ⟨s', hrun, -, hafter⟩ := requestAll_induct ts hstep (show P c.stored s from ⟨hs, h⟩)
  rw [Content.foldl_insert, hts] at hafter
  exact ⟨s', by rw [State.addInto, hread]; exact hrun, hafter⟩

theorem Course.deleteFrom (hcalm : Undisturbed react who target source given calm)
    (h : Course target source (fun _ => True) (source ≠ target) g c₀ c s) (hs : calm s)
    (hopen : c.closed = false) (hallowed : c.config.capabilities.deleteAllowed = true)
    {ts : List Statement} (hread : s.statements source = .ok ts) (hts : ts.toFinset = c₀.stored) :
    ∃ s', s.deleteFrom react who target source = (.ok (), s') ∧
      Course target source (fun _ => True) (source ≠ target) g c₀
        { c with stored := c.spared c₀.stored } s' := by
  let P (T : Finset Statement) (s : State) : Prop := calm s ∧
    Course target source (fun _ => True) (source ≠ target) g c₀ { c with stored := T } s
  have hstep : ∀ st ∈ ts, ∀ T s, P T s →
      ∃ s', s.request react who target (.delete st.toPattern) = (.ok (), s') ∧
        P (T \ Content.doomed { c with stored := T } st.toPattern) s' := by
    rintro st - T s ⟨hs, h⟩
    have hedit := Content.edit_delete (c := { c with stored := T }) hallowed st.toPattern
    exact Course.request (c := { c with stored := T }) hcalm h hs trivial
      (Request.hasRoom_delete who given _) hopen hedit fun hne he => absurd he hne
  obtain ⟨s', hrun, -, hafter⟩ := requestAll_induct ts hstep (show P c.stored s from ⟨hs, h⟩)
  rw [Content.foldl_doomed, hts] at hafter
  exact ⟨s', by rw [State.deleteFrom, hread]; exact hrun, hafter⟩

/-- No listener carries out steps when an event reaches it. -/
def OnlyListening (s : State) : Prop := ∀ l ∈ s.listeners, l.steps = []

theorem onlyListening_callListener (run : Step → State → Answer × State) (hs : s.OnlyListening)
    (place listener : Nat) (e : Event) :
    let s' := (s.callListener run place listener e).state
    s'.OnlyListening ∧ s'.members = s.members ∧ s'.tables = s.tables := by
  rw [callListener]
  split
  · exact ⟨hs, rfl, rfl⟩
  next l hl =>
    have hnone : l.steps = [] := hs l (Array.mem_of_getElem? hl)
    dsimp only
    generalize htold : (if l.trigger.query then
        (s.write (.event l.trigger.name e)).write
          (.size l.trigger.name ((s.write (.event l.trigger.name e)).graphAt place).size)
        else s.write (.event l.trigger.name e)) = told
    obtain ⟨hlisteners, hmembers, htables⟩ : told.listeners = s.listeners ∧
        told.members = s.members ∧ told.tables = s.tables := by
      rw [← htold]
      split <;> exact ⟨rfl, rfl, rfl⟩
    split
    · exact ⟨by rwa [OnlyListening, hlisteners], hmembers, htables⟩
    · rw [hnone]
      refine ⟨fun l' hl' => ?_, hmembers, htables⟩
      obtain ⟨n, hn, rfl⟩ := Array.getElem_of_mem hl'
      have hlt : n < s.listeners.size := by simpa [runSteps, hlisteners] using hn
      simp only [runSteps, List.foldl_nil, hlisteners, Array.getElem_modify]
      split <;> exact hs s.listeners[n] (Array.getElem_mem hlt)

theorem undisturbed_callListener (run : Thread → Step → State → Answer × State) (who : Thread)
    (target source : Nat) :
    Undisturbed (fun who place listener e s => s.callListener (run who) place listener e) who
      target source ∅ OnlyListening := by
  have halone (place : Nat) (listener : Nat) (e : Event) (s : State) (hs : s.OnlyListening) :
      LeftAlone ∅ place s (s.callListener (run who) target listener e).state := by
    obtain ⟨-, hmembers, htables⟩ := onlyListening_callListener (run who) hs target listener e
    refine ⟨by rw [graphAt, graphAt, hmembers], fun m hm => ⟨m, ?_, .refl⟩⟩
    rwa [Uses, tablePlace, hmembers, htables]
  exact ⟨fun _ _ hs => hs, fun listener e s hs => (onlyListening_callListener (run who) hs _ _ e).1,
    halone target, halone source⟩

/-- Adding one graph to another leaves the union, and leaves the graph that was added as it was,
even if it was added to itself. Deleting one from another leaves the pinned statements and those
that no statement of the deleted graph matches, by the rule of the graph that they are deleted from;
a graph that is deleted from itself keeps what is pinned. An addition needs ids for its terms,
beside those for the terms that listeners come up with. -/
theorem copying_leaves_exactly (hcalm : Undisturbed react who target source given calm)
    (hs : calm s) (htarget : s.Ready target m) (hsource : s.Ready source n) :
    ((s.graphAt target).capabilities.addAllowed = true →
      ∀ names : Finset Term, m.Within names → given ⊆ ↑names →
      (∀ st ∈ s.statementsAt source, ∀ t ∈ st.toPattern.terms, t ∈ names) →
      ∃ s', s.addInto react who target source = (.ok (), s') ∧
        s'.statementsAt target = s.statementsAt target ∪ s.statementsAt source ∧
        (s'.graphAt target).indexes.InStep ∧ s'.graphAt source = s.graphAt source ∧
        s'.statementsAt source = s.statementsAt source) ∧
    ((s.graphAt target).capabilities.deleteAllowed = true →
      ∃ s', s.deleteFrom react who target source = (.ok (), s') ∧
        s'.statementsAt target = {st ∈ s.statementsAt target | st ∈ s.pinnedAt target ∨
          ∀ u ∈ s.statementsAt source,
            ¬ u.toPattern.Admits (s.graphAt target).capabilities.handlesLiteralTyping st} ∧
        (s'.graphAt target).indexes.InStep ∧
        (source ≠ target → s'.graphAt source = s.graphAt source ∧
          s'.statementsAt source = s.statementsAt source) ∧
        (source = target → s'.statementsAt target = s.pinnedAt target)) := by
  obtain ⟨c, hc⟩ := htarget.reachable.exists_holds
  obtain ⟨c₀, hc₀⟩ := hsource.reachable.exists_holds
  have hopen : c.closed = false := hc.closed.symm.trans htarget.isOpen
  obtain ⟨ts, hread, hts⟩ := hsource.uses.statements_eq hc₀ hsource.isOpen
  rw [htarget.uses.statementsAt_eq hc, hsource.uses.statementsAt_eq hc₀,
    htarget.uses.pinnedAt_eq hc, Graph.capabilities, hc.config]
  constructor
  · intro hallowed names hroom hgiven hterms
    obtain ⟨s', hrun, hafter⟩ := Course.addInto hcalm hgiven
      ⟨⟨m, htarget.uses, hroom, hc⟩, fun _ => ⟨rfl, n, hsource.uses, hc₀⟩⟩ hs hopen hallowed
      (fun he => ⟨hsource.isOpen, by rw [Graph.capabilities, he, hc.config, hallowed]⟩) hread hts
      hterms
    obtain ⟨m', huses, -, hholds⟩ := hafter.target
    obtain ⟨hsame, n', huses', hholds'⟩ := hafter.source trivial
    rw [← hsame] at hholds'
    exact ⟨s', hrun, (huses.statementsAt_eq hholds).trans (Finset.coe_union ..),
      hholds.stored.inStep, hsame, huses'.statementsAt_eq hholds'⟩
  · intro hallowed
    obtain ⟨s', hrun, hafter⟩ := Course.deleteFrom hcalm
      ⟨⟨m, htarget.uses, trivial, hc⟩, fun _ => ⟨rfl, n, hsource.uses, hc₀⟩⟩ hs hopen hallowed
      hread hts
    obtain ⟨m', huses, -, hholds⟩ := hafter.target
    refine ⟨s', hrun, (huses.statementsAt_eq hholds).trans (Finset.coe_filter ..),
      hholds.stored.inStep, fun hne => ?_, fun he => ?_⟩
    · obtain ⟨hsame, n', huses', hholds'⟩ := hafter.source hne
      rw [← hsame] at hholds'
      exact ⟨hsame, huses'.statementsAt_eq hholds'⟩
    · subst he
      have hsame : c₀.stored = c.stored := Finset.coe_injective
        ((hsource.uses.statementsAt_eq hc₀).symm.trans (htarget.uses.statementsAt_eq hc))
      rw [huses.statementsAt_eq hholds, hsame,
        Content.spared_self (htarget.reachable.pinned_subset hc)]

theorem copying_leaves_exactly_of_equal_values :
    let number (lexical : String) : Statement := ⟨.blank "b", .iri "p",
      .literal (.ofDatatype lexical Vocabulary.xsdInteger)⟩
    let who : Thread := ⟨1⟩
    let made := Graph.createPinned {} MemoryTable.empty [(number "1").toPattern]
    let first := (made.1.toOption.getD (Graph.create {})).perform who made.2
      (.add (number "01").toPattern)
    let second := first.graph.perform who first.nodes (.add (number "2").toPattern)
    let untyped : Config := { capabilities := { handlesLiteralTyping := false }, indexOrders := [] }
    let other := (Graph.create untyped).perform who MemoryTable.empty
      (.add (number "001").toPattern)
    let s : State :=
      { tables := #[second.nodes.unscreened, other.nodes.unscreened]
        members := #[{ graph := second.graph, table := 0, listeners := ⟨1, [(0, 0)]⟩ },
          { graph := other.graph, table := 1 }]
        listeners := #[{ trigger := ⟨"watch", none, 1, true, true⟩, steps := [] }] }
    let react : React := fun who place listener e s =>
      s.callListener (run .standard 1 who) place listener e
    (Undisturbed react who 0 1 ∅ OnlyListening ∧ s.OnlyListening ∧ s.Ready 0 second.nodes ∧
        s.Ready 1 other.nodes ∧ (s.graphAt 0).capabilities.addAllowed = true ∧
        (s.graphAt 0).capabilities.deleteAllowed = true) ∧
      (∃ s', s.addInto react who 0 1 = (.ok (), s') ∧
        s'.statementsAt 0 = s.statementsAt 0 ∪ {number "001"} ∧
        s'.graphAt 1 = s.graphAt 1) ∧
      ∃ s', s.deleteFrom react who 0 1 = (.ok (), s') ∧
        number "1" ∈ s'.statementsAt 0 ∧ number "01" ∉ s'.statementsAt 0 ∧
        number "2" ∈ s'.statementsAt 0 ∧ s'.graphAt 1 = s.graphAt 1 := by
  intro number who made first second untyped other s react
  have hmade : made = (.ok (made.1.toOption.getD (Graph.create {})), made.2) :=
    Prod.ext (by decide +kernel) rfl
  have hfirst : ReachableOver first.graph first.nodes :=
    (ReachableOver.created _ _ hmade).performed who (.add (number "01").toPattern)
  have hsecond : ReachableOver second.graph second.nodes :=
    hfirst.performed who (.add (number "2").toPattern)
  obtain ⟨hgraph₀, hgraph₁⟩ : s.graphAt 0 = second.graph ∧ s.graphAt 1 = other.graph := by
    clear_value second other
    exact ⟨rfl, rfl⟩
  have htarget : s.Ready 0 second.nodes := ⟨rfl, by decide +kernel, hgraph₀ ▸ hsecond⟩
  have hcreated : ReachableOver other.graph other.nodes :=
    (ReachableOver.created untyped [] rfl).performed who (.add (number "001").toPattern)
  have hsource : s.Ready 1 other.nodes := ⟨rfl, by decide +kernel, hgraph₁ ▸ hcreated⟩
  have hcalm : Undisturbed react who 0 1 ∅ OnlyListening :=
    undisturbed_callListener (run .standard 1) who 0 1
  have hs : s.OnlyListening := by simp [OnlyListening, s]
  have hadd : (s.graphAt 0).capabilities.addAllowed = true := by decide +kernel
  have hdelete : (s.graphAt 0).capabilities.deleteAllowed = true := by decide +kernel
  have hother : s.statementsAt 1 = {number "001"} := by
    have hread : s.statements 1 = .ok [number "001"] := by decide +kernel
    rw [hsource.statementsAt_eq hread]
    simp
  have hone : number "1" ∈ s.statementsAt 0 ∧ number "1" ∈ s.pinnedAt 0 :=
    ⟨⟨⟨.real 0, .real 1, .real 2⟩, by decide +kernel, by decide +kernel⟩,
      ⟨⟨.real 0, .real 1, .real 2⟩, by decide +kernel, by decide +kernel⟩⟩
  have hloose : number "01" ∉ s.pinnedAt 0 := by
    rintro ⟨t, ht, hst⟩
    have hpinned : (s.graphAt 0).pinned = [⟨.real 0, .real 1, .real 2⟩] := by decide +kernel
    obtain rfl := List.mem_singleton.mp (hpinned ▸ ht)
    exact absurd hst (by decide +kernel)
  have htwo : number "2" ∈ s.statementsAt 0 :=
    ⟨⟨.real 0, .real 1, .real 4⟩, by decide +kernel, by decide +kernel⟩
  let names : Finset Term := (second.nodes.terms ++ other.nodes.terms).toFinset
  have hroom : second.nodes.Within names :=
    ⟨fun t ht => List.mem_toFinset.mpr (List.mem_append_left _ ht),
      (List.toFinset_card_le _).trans (by decide +kernel)⟩
  have hnames : ∀ t ∈ (number "001").toPattern.terms, t ∈ names := by
    have hterms : ∀ t ∈ (number "001").toPattern.terms, t ∈ other.nodes.terms := by
      decide +kernel
    exact fun t ht => List.mem_toFinset.mpr (List.mem_append_right _ (hterms t ht))
  have hmatched : (number "001").toPattern.Admits
      (s.graphAt 0).capabilities.handlesLiteralTyping (number "01") := by decide +kernel
  have hunmatched : ¬ (number "001").toPattern.Admits
      (s.graphAt 0).capabilities.handlesLiteralTyping (number "2") := by decide +kernel
  clear_value names s second other
  obtain ⟨hadded, hdeleted⟩ := copying_leaves_exactly hcalm hs htarget hsource
  rw [hother] at hadded hdeleted
  refine ⟨⟨hcalm, hs, htarget, hsource, hadd, hdelete⟩, ?_, ?_⟩
  · obtain ⟨s', hrun, hunion, -, hsame, -⟩ := hadded hadd names hroom (Set.empty_subset _) (by
      rintro st rfl
      exact hnames)
    exact ⟨s', hrun, hunion, hsame⟩
  · obtain ⟨s', hrun, hleft, -, hsame, -⟩ := hdeleted hdelete
    refine ⟨s', hrun, ?_⟩
    rw [hleft]
    refine ⟨⟨hone.1, .inl hone.2⟩, fun h => ?_, ⟨htwo, .inr ?_⟩, (hsame (by decide)).1⟩
    · exact h.2.resolve_left hloose (number "001") rfl hmatched
    · rintro u rfl
      exact hunmatched

end TripleStore.Session.State
