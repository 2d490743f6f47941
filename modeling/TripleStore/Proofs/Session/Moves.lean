import TripleStore.Proofs.Graph.Threads
import TripleStore.Proofs.Session.Transact
import TripleStore.Session.Run

/-!
# Moves of a session

`State.Reaches` says once what can happen to the graphs of a session and to their listeners: a graph
is asked something, a new graph is made, a listener is registered or taken out. Every step of a
script is made of such moves, with the bodies of its transactions and whatever the listeners that it
sets off do. What a move keeps holds from then on, by whatever route it comes to a graph.
-/

namespace TripleStore.Session

/-- The member was just made. -/
def Member.IsNew (m : Member) : Prop :=
  (∃ (config : Config) (nodes : ScreenedTable) (statements : List Pattern),
      (Graph.createPinned config nodes statements).1 = .ok m.graph) ∧ m.listeners = {}

namespace State

/-- The members of the second state came about from those of the first one. -/
inductive Reaches (start : State) : State → Prop where
  | start : Reaches start start
  | asked (who : Thread) (place : Nat) (q : Request) {s : State} : Reaches start s →
      Reaches start (s.settle place ((s.graphAt place).perform who (s.tableOf place) q))
  | made {m : Member} {s s' : State} : Reaches start s → m.IsNew →
      s'.members = s.members.push m → Reaches start s'
  | registered (listener : Nat) {s : State} {place : Nat} {m : Member} : Reaches start s →
      s.members[place]? = some m →
      Reaches start (s.changeMember place fun m' =>
        { m' with listeners := (m.listeners.register listener).2 })
  | unregistered (token : Nat) {s : State} {place : Nat} {m : Member} : Reaches start s →
      s.members[place]? = some m →
      Reaches start (s.changeMember place fun m' =>
        { m' with listeners := (m.listeners.unregister token).2 })
  | aside {s s' : State} : Reaches start s → s'.members = s.members → Reaches start s'

/-- Listeners do nothing to members but by moves. -/
def Moves (react : React) : Prop :=
  ∀ who place listener e s, Reaches s (react who place listener e s).state

variable {react : React} {who : Thread} {place : Nat} {s s' s'' : State}

theorem Reaches.trans (h : Reaches s s') (h' : Reaches s' s'') : Reaches s s'' := by
  induction h' with
  | start => exact h
  | asked who place q _ ih => exact ih.asked who place q
  | made _ hm he ih => exact ih.made hm he
  | registered listener _ hm ih => exact ih.registered listener hm
  | unregistered token _ hm ih => exact ih.unregistered token hm
  | aside _ he ih => exact ih.aside he

theorem graphAt_settle_of_lt (hplace : place < s.members.size) (o : Outcome ScreenedTable) :
    (s.settle place o).graphAt place = o.graph := by
  simp [graphAt, settle, setTable, changeMember, hplace, Array.getElem_modify]

/-- Other listeners of a graph make no other graph of it. -/
theorem graphAt_relist (s : State) (target place : Nat) (listeners : Registry Nat) :
    (s.changeMember target fun m => { m with listeners }).graphAt place = s.graphAt place := by
  rw [graphAt, graphAt, changeMember, Array.getElem?_modify]
  by_cases he : target = place
  · cases s.members[place]? <;> simp [he]
  · simp [he]

theorem Reaches.size_le (h : Reaches s s') : s.members.size ≤ s'.members.size := by
  induction h with
  | start => exact Nat.le_refl _
  | asked who place q _ ih => simpa [settle, setTable, changeMember] using ih
  | made _ _ he ih =>
    rw [he, Array.size_push]
    exact Nat.le_succ_of_le ih
  | registered listener _ _ ih => simpa [changeMember] using ih
  | unregistered token _ _ ih => simpa [changeMember] using ih
  | aside _ he ih => rwa [he]

/-- By whatever route something comes to a graph, it is the turn of a thread that asks for it. -/
theorem Reaches.graphAt_eq (h : Reaches s s') (hplace : place < s.members.size) :
    ∃ turns : List (Turn ScreenedTable),
      s'.graphAt place = (s.graphAt place).after turns := by
  induction h with
  | start => exact ⟨[], rfl⟩
  | @asked who target q s' h ih =>
    obtain ⟨turns, ih⟩ := ih
    by_cases hne : target = place
    · subst hne
      refine ⟨turns ++ [⟨who, s'.tableOf target, .request q⟩], ?_⟩
      rw [Graph.after_concat, ← ih]
      exact graphAt_settle_of_lt (hplace.trans_le h.size_le) _
    · exact ⟨turns, (graphAt_settle_of_ne hne _).trans ih⟩
  | @made m s' s'' h _ he ih =>
    obtain ⟨turns, ih⟩ := ih
    have hlt : place < s'.members.size := hplace.trans_le h.size_le
    refine ⟨turns, Eq.trans ?_ ih⟩
    simp [graphAt, he, Array.getElem?_push, hlt.ne, hlt]
  | registered listener _ _ ih =>
    obtain ⟨turns, ih⟩ := ih
    exact ⟨turns, (graphAt_relist _ _ _ _).trans ih⟩
  | unregistered token _ _ ih =>
    obtain ⟨turns, ih⟩ := ih
    exact ⟨turns, (graphAt_relist _ _ _ _).trans ih⟩
  | aside _ he ih =>
    obtain ⟨turns, ih⟩ := ih
    refine ⟨turns, Eq.trans ?_ ih⟩
    rw [graphAt, he, graphAt]

section Requests

variable (hreact : Moves react) (who : Thread) (place : Nat)

include hreact

theorem reaches_notify (events : List Event) (s : State) :
    Reaches s (s.notify react who place events) :=
  notify_induct (P := Reaches s) (fun listener e s' h => h.trans (hreact who place listener e s'))
    events .start

theorem reaches_request (q : Request) (s : State) :
    Reaches s (s.request react who place q).2 := by
  have hasked : Reaches s (s.settle place ((s.graphAt place).perform who (s.tableOf place) q)) :=
    Reaches.start.asked who place q
  rw [request_eq]
  split
  · exact hasked
  · exact hasked.trans (reaches_notify hreact who place _ _)

theorem reaches_requestAll (qs : List (Except Error Request)) (s : State) :
    Reaches s (s.requestAll react who place qs).2 := by
  induction qs generalizing s with
  | nil => exact .start
  | cons q qs ih =>
    cases q with
    | error e => exact .start
    | ok q =>
      have hfirst := reaches_request hreact who place q s
      rw [requestAll]
      split
      next he =>
        rw [he] at hfirst
        exact hfirst
      next he =>
        rw [he] at hfirst
        exact hfirst.trans (ih _)

theorem reaches_addInto (target source : Nat) (s : State) :
    Reaches s (s.addInto react who target source).2 := by
  rw [addInto]
  split
  · exact .start
  · exact reaches_requestAll hreact who _ _ s

theorem reaches_deleteFrom (target source : Nat) (s : State) :
    Reaches s (s.deleteFrom react who target source).2 := by
  rw [deleteFrom]
  split
  · exact .start
  · exact reaches_requestAll hreact who _ _ s

theorem reaches_transact {β : Type} (skipped : β) {body : State → (BodyResult × β) × State}
    (hbody : ∀ s, Reaches s (body s).2) (s : State) :
    Reaches s (s.transact react who place skipped body).2 := by
  have hbegun := reaches_request hreact who place .begin s
  rw [transact]
  cases hbegin : s.request react who place .begin with
  | mk answer begun =>
    rw [hbegin] at hbegun
    cases answer with
    | error e => exact hbegun
    | ok =>
      have hleft := hbegun.trans (hbody begun)
      dsimp only
      split
      next b left hresult =>
        rw [hresult] at hleft
        have hcommitted := hleft.trans (reaches_request hreact who place .commit left)
        split
        next hcommit =>
          rw [hcommit] at hcommitted
          exact hcommitted
        next hcommit =>
          rw [hcommit] at hcommitted
          exact hcommitted
      next result left _ hresult =>
        rw [hresult] at hleft
        exact hleft.trans (reaches_request hreact who place .abort left)

theorem reaches_loadAll (ts : List Statement) (s : State) :
    Reaches s (s.loadAll react who place ts).2 := by
  unfold loadAll
  extract_lets body
  have hbody (s : State) : Reaches s (body s).2 := by
    have hall := reaches_requestAll hreact who place (ts.map fun t => .ok (.add t.toPattern)) s
    simp only [body]
    split
    next he =>
      rw [he] at hall
      exact hall
    next he =>
      rw [he] at hall
      exact hall
  have htransact := reaches_transact hreact who place () hbody s
  split
  next he =>
    rw [he] at htransact
    exact htransact
  next he =>
    rw [he] at htransact
    exact htransact

theorem reaches_walkRemoving (every remainder count n : Nat) (c : Cursor) (s : State) :
    Reaches s (s.walkRemoving react who place every remainder count n c).2 := by
  induction count generalizing n c s with
  | zero => exact .start
  | succ count ih =>
    rw [walkRemoving]
    split
    · exact .start
    · exact .start
    next found c _ =>
      split
      · exact (reaches_request hreact who place (.removeFound found) s).trans (ih _ _ _)
      · exact ih _ _ _

/-- The walk may take any number of steps: the one that `actAt` allows is too great to be computed
with. -/
theorem reaches_findRemoving (every remainder : Nat) (steps : Cursor → Nat)
    (found : Except Error Cursor) (s : State) :
    Reaches s (match found with
      | .error e => (Answer.refused (.library e), s)
      | .ok c =>
        let (result, s) := s.walkRemoving react who place every remainder (steps c) 0 c
        (Answer.ofExcept .removals result, s)).2 := by
  cases found with
  | error e => exact .start
  | ok c => exact reaches_walkRemoving hreact who place every remainder (steps c) 0 c s

theorem reaches_removeLast (cursor : String) (s : State) :
    Reaches s (s.removeLast react who cursor).2 := by
  rw [removeLast]
  split
  next o _ =>
    split
    next found _ =>
      have hdropped : Reaches s
          { s with cursors := bindName cursor { o with held := none } s.cursors } :=
        .aside .start rfl
      exact hdropped.trans (reaches_request hreact who o.graph (.removeFound found) _)
    next => exact .start
  next => exact .start

theorem reaches_loadFile (outside : Outside) (format : FileFormat) (content : Option String)
    (s : State) : Reaches s (s.loadFile outside react who place format content).2 := by
  rw [loadFile.eq_def]
  split
  · exact .start
  · split
    · exact .start
    next ts _ => exact reaches_loadAll hreact who place ts s

end Requests

theorem reaches_makeGraph (s : State) (name : String) (config : Config)
    (statements : Option (List Pattern)) (ownTable : Bool) :
    Reaches s (s.makeGraph name config statements ownTable).2 := by
  rw [makeGraph.eq_def]
  dsimp only
  split
  next hmade => exact .aside .start rfl
  next graph hmade =>
    refine .made (m := { graph, table := _ }) .start ⟨?_, rfl⟩ rfl
    cases statements with
    | none =>
      cases hmade
      exact ⟨config, .empty, [], rfl⟩
    | some ts => exact ⟨config, _, ts, hmade⟩

theorem reaches_withOther {f : Nat → Answer × State} (s : State) (other : String)
    (hf : ∀ place, Reaches s (f place).2) : Reaches s (s.withOther other f).2 := by
  rw [withOther]
  split
  · exact hf _
  · exact .start

theorem reaches_actAt (outside : Outside) (hreact : Moves react) (who : Thread) (place : Nat)
    (action : Action) (s : State) : Reaches s (s.actAt outside react who place action).2 := by
  cases action with
  | ask q => exact reaches_request hreact who place q s
  | load ps => exact reaches_requestAll hreact who _ _ s
  | fill template first bound => exact reaches_requestAll hreact who _ _ s
  | findRemove p every remainder =>
    rw [actAt]
    exact reaches_findRemoving hreact who place every remainder longestWalk _ s
  | openCursor cursor p =>
    rw [actAt]
    split
    · exact .start
    · exact .aside .start rfl
  | unregister listener =>
    rw [actAt]
    split
    next token m _ hm => exact Reaches.start.unregistered token hm
    next => exact .start
  | isomorphic other => exact reaches_withOther s other fun _ => .start
  | dependsOn other => exact reaches_withOther s other fun _ => .start
  | addInto other =>
    exact reaches_withOther s other fun other => reaches_addInto hreact who place other s
  | deleteFrom other =>
    exact reaches_withOther s other fun other => reaches_deleteFrom hreact who place other s
  | loadFile format content => exact reaches_loadFile hreact who place outside format content s
  | table query => exact .aside .start rfl
  | contains p => exact .start
  | size => exact .start
  | isEmpty => exact .start
  | isClosed => exact .start
  | inTransaction => exact .start
  | find p => exact .start
  | findStatements p => exact .start
  | count p => exact .start
  | describe => exact .start
  | refused waits needsGraph why => exact .start
  | new config statements ownTable => exact .start
  | advance cursor count => exact .start
  | removeLast cursor => exact .start
  | sizeHint cursor => exact .start
  | hide ids => exact .start

theorem reaches_hide (s : State) (ids : List UInt64) : Reaches s (s.hide ids) := by
  rw [hide]
  split
  · exact .aside .start rfl
  · exact .start

theorem reaches_act (outside : Outside) (hreact : Moves react) (who : Thread) (graph : String)
    (action : Action) (s : State) : Reaches s (s.act outside react who graph action).2 := by
  rw [act.eq_def]
  split
  next config statements ownTable => exact reaches_makeGraph s graph config statements ownTable
  next ids => exact reaches_hide s ids
  next cursor count =>
    split
    · exact .aside .start rfl
    · exact .start
  next cursor => exact reaches_removeLast hreact who cursor s
  next cursor => split <;> exact .start
  next => exact .start
  next =>
    split
    · exact reaches_actAt outside hreact who _ action s
    · exact .start

theorem reaches_listen (s : State) (place : Nat) (trigger : Trigger) (steps : List Step) :
    Reaches s (s.listen place trigger steps).2 := by
  rw [listen]
  split
  · exact .start
  next m hm =>
    exact (Reaches.start.registered s.listeners.size hm).aside rfl

section Scripts

variable {run : Step → State → Answer × State} (hrun : ∀ step s, Reaches s (run step s).2)

include hrun

theorem reaches_runBody (steps : List Step) (s : State) :
    Reaches s (runBody run steps s).2 := by
  induction steps generalizing s with
  | nil => exact .start
  | cons step steps ih =>
    have hfirst := hrun step s
    rw [runBody]
    split
    next he =>
      rw [he] at hfirst
      exact hfirst
    next he =>
      rw [he] at hfirst
      exact hfirst.trans (ih _)

theorem reaches_runSteps (name : String) (steps : List Step) (s : State) :
    Reaches s (s.runSteps run name steps) := by
  induction steps generalizing s with
  | nil => exact .start
  | cons step steps ih =>
    have hfirst : Reaches s ((run step s).2.write (.step name (run step s).1)) :=
      .aside (hrun step s) rfl
    exact hfirst.trans (ih _)

theorem reaches_callListener (place listener : Nat) (e : Event) (s : State) :
    Reaches s (s.callListener run place listener e).state := by
  rw [callListener]
  split
  · exact .start
  next l _ =>
    dsimp only
    generalize htold : (if l.trigger.query then
        (s.write (.event l.trigger.name e)).write
          (.size l.trigger.name ((s.write (.event l.trigger.name e)).graphAt place).size)
        else s.write (.event l.trigger.name e)) = told
    have hmembers : told.members = s.members := by
      rw [← htold]
      split <;> rfl
    split
    · exact .aside .start hmembers
    · have hcounted : Reaches s { told with listeners := told.listeners.modify listener fun l =>
          { l with runs := l.runs + 1 } } := .aside .start hmembers
      exact hcounted.trans (reaches_runSteps hrun l.trigger.name l.steps _)

theorem reaches_runTransaction (hreact : Moves react) (steps : List Step) (ending : BodyEnd)
    (s : State) : Reaches s (s.runTransaction react run who place steps ending).2 := by
  rw [runTransaction]
  exact reaches_transact hreact who place [] (fun s => reaches_runBody hrun steps s) s

end Scripts

/-- Whatever a step of a script does, it does by moves. -/
theorem reaches_run (outside : Outside) (fuel : Nat) (who : Thread) (step : Step) (s : State) :
    Reaches s (run outside fuel who step s).2 := by
  induction fuel generalizing who step s with
  | zero => exact .start
  | succ fuel ih =>
    let react : React := fun who place listener e s =>
      s.callListener (fun step s => run outside fuel who step s) place listener e
    have hreact : Moves react := fun who place listener e s =>
      reaches_callListener (ih who) place listener e s
    rw [run.eq_def]
    dsimp only
    split
    · exact .start
    · cases step with
      | act site action => exact reaches_act outside hreact who site.graph action s
      | listen site trigger steps =>
        dsimp only
        split
        next place _ => exact reaches_listen s place trigger steps
        next => exact .start
      | transaction site steps ending =>
        dsimp only
        split
        next place _ => exact reaches_runTransaction (ih who) hreact steps ending s
        next => exact .start
      | race site ending step =>
        dsimp only
        split
        next place _ =>
          split
          · exact (reaches_request hreact firstThread place ending s).trans
              (ih secondThread step _)
          · exact .start
        next => exact .start

end State

end TripleStore.Session
