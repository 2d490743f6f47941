import TripleStore.Proofs.Graph.Delivery
import TripleStore.Proofs.Session.Moves

/-!
# Listeners of a session

A mutation that succeeds has its events delivered to the listeners that its graph has then. A
listener may do anything: make requests whose events are delivered before it returns, register and
unregister listeners, panic. None of this changes who is called about what. A listener that leaves
the graph alone leaves the outcome of the mutation alone.
-/

namespace TripleStore

theorem deliver_map {α β σ : Type} (call : α → Event → σ → Reaction σ) (f : β → α)
    (listeners : List β) (events : List Event) (s : σ) :
    deliver call (listeners.map f) events s =
      deliver (fun l => call (f l)) listeners events s := by
  simp only [deliver, List.foldl_map]

namespace Session.State

variable {react : React} {who : Thread} {place : Nat} {s s' : State}

def listenersAt (s : State) (place : Nat) : Registry Nat :=
  (s.members[place]?.map (·.listeners)).getD {}

theorem notify_eq (react : React) (who : Thread) (place : Nat) (events : List Event) (s : State) :
    s.notify react who place events =
      deliver (fun l : Nat × Nat => react who place l.2) (s.listenersAt place).entries events
        s := by
  rw [← deliver_map, notify, listenersAt]
  cases s.members[place]? <;> rfl

theorem listenersAt_settle (s : State) (target place : Nat) (o : Outcome ScreenedTable) :
    (s.settle target o).listenersAt place = s.listenersAt place := by
  simp only [listenersAt, settle, setTable, changeMember, Array.getElem?_modify]
  split
  · cases s.members[place]? <;> rfl
  · rfl

theorem listenersAt_relist {target : Nat} {m : Member} (hm : s.members[target]? = some m)
    (listeners : Registry Nat) (place : Nat) :
    (s.changeMember target fun m => { m with listeners }).listenersAt place =
      if target = place then listeners else s.listenersAt place := by
  simp only [listenersAt, changeMember, Array.getElem?_modify]
  split
  next he =>
    subst he
    rw [hm]
    rfl
  next => rfl

/-- The listeners of a graph change by being registered and unregistered only. -/
theorem Reaches.evolves (h : Reaches s s') (place : Nat) :
    (s.listenersAt place).Evolves (s'.listenersAt place) := by
  have hnow {s : State} {place : Nat} {m : Member} (hm : s.members[place]? = some m) :
      m.listeners = s.listenersAt place := by
    rw [listenersAt, hm]
    rfl
  induction h with
  | start => exact .refl
  | asked who target q _ ih => rwa [listenersAt_settle]
  | @made m s s' _ hm he ih =>
    have hsame : s'.listenersAt place = s.listenersAt place := by
      rw [listenersAt, he, Array.getElem?_push]
      split
      next hlast =>
        subst hlast
        simp [listenersAt, hm.2]
      next => rfl
    rwa [hsame]
  | registered listener _ hm ih =>
    rw [listenersAt_relist hm]
    split
    next he =>
      subst he
      rw [hnow hm]
      exact ih.registered listener
    next => exact ih
  | unregistered token _ hm ih =>
    rw [listenersAt_relist hm]
    split
    next he =>
      subst he
      rw [hnow hm]
      exact ih.unregistered token
    next => exact ih
  | @aside s s' _ he ih =>
    have hsame : s'.listenersAt place = s.listenersAt place := by rw [listenersAt, he, listenersAt]
    rwa [hsame]

/-- The calls are those that deliver a batch: each listener of the start is called about each event
of the batch once, in the order of the batch, and about each event in the order of registration. -/
structure DeliversOnce (react : React) (who : Thread) (place : Nat) (events : List Event)
    (s : State) (calls : List (Call (Nat × Nat) State)) : Prop where
  recorded : deliver (recording fun l : Nat × Nat => react who place l.2)
    (s.listenersAt place).entries events (s, []) = (s.notify react who place events, calls)
  schedule : calls.map (fun c => (c.listener, c.event)) =
    schedule (s.listenersAt place).entries events
  chained : Calls (fun l => react who place l.2) s calls (s.notify react who place events)
  /-- The tokens tell the listeners apart and tell their order. -/
  ascending : ((s.listenersAt place).entries.map (·.1)).Pairwise (· < ·)
  hears : ∀ l ∈ (s.listenersAt place).entries,
    (calls.filter fun c => c.listener.1 = l.1).map (·.event) = events
  /-- Whoever is registered in a state that came about since is not called. -/
  later : ∀ s', Reaches s s' → ∀ listener, ∀ c ∈ calls,
    c.listener.1 ≠ ((s'.listenersAt place).register listener).1
  reached : Moves react → ∀ c ∈ calls, Reaches s c.state

theorem exists_deliversOnce (h : (s.listenersAt place).Ordered) (react : React) (who : Thread)
    (events : List Event) : ∃ calls, DeliversOnce react who place events s calls := by
  obtain ⟨calls, hrecorded, hschedule, hchained⟩ := deliver_recording
    (fun l : Nat × Nat => react who place l.2) (s.listenersAt place).entries events s
  rw [← notify_eq] at hrecorded hchained
  refine ⟨calls, hrecorded, hschedule, hchained, h.ascending, fun l hl => ?_,
    fun s' hs' listener c hc => ?_, fun hmoves => ?_⟩
  · have hnodup : ((s.listenersAt place).entries.map (·.1)).Nodup := h.ascending.imp Nat.ne_of_lt
    have hevents := events_of_schedule hnodup hl events
    rwa [← hschedule, List.filter_map, List.map_map] at hevents
  · have hlisted : (c.listener, c.event) ∈ TripleStore.schedule (s.listenersAt place).entries
        events := hschedule ▸ List.mem_map_of_mem hc
    have hentry : c.listener ∈ (s.listenersAt place).entries := by
      simp only [TripleStore.schedule, List.mem_flatMap, List.mem_map, Prod.mk.injEq] at hlisted
      obtain ⟨e, -, l, hl, rfl, -⟩ := hlisted
      exact hl
    exact (hs'.evolves place).token_ne h hentry listener
  · exact (hchained.invariant (P := Reaches s)
      (fun c _ hstate => hstate.trans (hmoves ..)) .start).1

/-- The session without the listeners of the graph at a place. -/
def unheard (s : State) (place : Nat) : State :=
  s.changeMember place fun m => { m with listeners := {} }

theorem tableOf_unheard (s : State) (place : Nat) :
    (s.unheard place).tableOf place = s.tableOf place := by
  simp only [tableOf, tablePlace, unheard, changeMember, Array.getElem?_modify]
  cases s.members[place]? <;> rfl

theorem listenersAt_unheard (s : State) (place : Nat) :
    (s.unheard place).listenersAt place = {} := by
  simp only [listenersAt, unheard, changeMember, Array.getElem?_modify]
  cases s.members[place]? <;> rfl

theorem graphAt_settle_unheard (s : State) (place : Nat) (o : Outcome ScreenedTable) :
    ((s.unheard place).settle place o).graphAt place = (s.settle place o).graphAt place := by
  simp only [graphAt, settle, setTable, unheard, changeMember, Array.getElem?_modify]
  cases s.members[place]? <;> rfl

/-- Without listeners a request that succeeds leaves its outcome, whatever listeners would do. -/
theorem request_unheard (react : React) {q : Request} {events : List Event}
    (hok : ((s.graphAt place).perform who (s.tableOf place) q).result = .ok events) :
    (s.unheard place).request react who place q = (.ok (), (s.unheard place).settle place
      ((s.graphAt place).perform who (s.tableOf place) q)) := by
  have hgraph : (s.unheard place).graphAt place = s.graphAt place := graphAt_relist ..
  rw [request_eq, hgraph, tableOf_unheard, hok]
  simp only [notify_eq, listenersAt_settle, listenersAt_unheard, deliver_nil]

/-- Whatever listeners do, a mutation that succeeds has each of its events brought to each of them
once. If they leave the graph alone while they are called, then the mutation answers the same and
leaves the same graph as without listeners. Whether they panic makes no difference at all. -/
theorem each_listener_hears_each_event_once {screened : Bool}
    (hs : Reaches { screened } s) (react : React) (who : Thread) (place : Nat) {q : Request}
    {events : List Event}
    (hok : ((s.graphAt place).perform who (s.tableOf place) q).result = .ok events) :
    let changed := s.settle place ((s.graphAt place).perform who (s.tableOf place) q)
    s.request react who place q = (.ok (), changed.notify react who place events) ∧
      ∃ calls, DeliversOnce react who place events changed calls ∧
        ((∀ c ∈ calls, (react who place c.listener.2 c.event c.state).state.graphAt place =
            c.state.graphAt place) →
          ∀ silent : React, ((s.unheard place).request silent who place q).1 = .ok () ∧
            ((s.unheard place).request silent who place q).2.graphAt place =
              (s.request react who place q).2.graphAt place) ∧
        ∀ panicking : React, (∀ who place listener e s,
            (panicking who place listener e s).state = (react who place listener e s).state) →
          s.request panicking who place q = s.request react who place q := by
  intro changed
  have hrequest (react : React) :
      s.request react who place q = (.ok (), changed.notify react who place events) := by
    rw [request_eq, hok]
  have hordered : (changed.listenersAt place).Ordered := by
    rw [listenersAt_settle]
    exact (hs.evolves place).ordered Registry.ordered_empty
  obtain ⟨calls, hcalls⟩ := exists_deliversOnce hordered react who events
  refine ⟨hrequest react, calls, hcalls, fun hkeep silent => ?_, fun panicking hsame => ?_⟩
  · have hend := (hcalls.chained.invariant
      (P := fun s' => s'.graphAt place = changed.graphAt place)
      (fun c hc hstate => (hkeep c hc).trans hstate) rfl).2
    rw [request_unheard silent hok, hrequest react]
    exact ⟨rfl, (graphAt_settle_unheard ..).trans hend.symm⟩
  · rw [hrequest, hrequest, notify_eq, notify_eq, deliver_eq_foldl, deliver_eq_foldl]
    simp only [hsame]

theorem each_listener_hears_each_event_once_past_panic :
    let who : Thread := ⟨1⟩
    let statement : Pattern := ⟨.term (.blank "b"), .term (.iri "p"), .term (.iri "o")⟩
    let trigger : Trigger := ⟨"watch", none, 0, false, false⟩
    let made := (State.makeGraph {} "g" {} none false).2
    let s := ((made.listen 0 trigger []).2.listen 0 trigger []).2
    let panicking : React := fun _ _ _ _ s => { state := s, panicked := true }
    let meddling : React := fun who place listener e s =>
      if listener = 0 ∧ e = .removeAllStart then
        { state := ((s.request panicking who place (.add statement)).2.listen place trigger []).2
          panicked := true }
      else { state := s }
    let changed := s.settle 0 ((s.graphAt 0).perform who (s.tableOf 0) .clear)
    Reaches {} s ∧ Moves meddling ∧
      (∃ calls, DeliversOnce meddling who 0 [.removeAllStart, .removeAllEnd] changed calls ∧
        calls.map (fun c => (c.listener.1, c.event)) = [(0, .removeAllStart),
          (1, .removeAllStart), (0, .removeAllEnd), (1, .removeAllEnd)]) ∧
      ((s.request meddling who 0 .clear).2.listenersAt 0).size = 3 ∧
      ((s.unheard 0).request panicking who 0 .clear).2.graphAt 0 =
        (s.request panicking who 0 .clear).2.graphAt 0 := by
  intro who statement trigger made s panicking meddling changed
  have hs : Reaches {} s :=
    (reaches_makeGraph {} "g" {} none false).trans
      ((reaches_listen made 0 trigger []).trans (reaches_listen _ 0 trigger []))
  have hpanicking : Moves panicking := fun _ _ _ _ _ => .start
  have hmoves : Moves meddling := by
    intro who place listener e s
    show Reaches s (if _ then _ else _ : Reaction State).state
    split
    · exact (reaches_request hpanicking who place _ s).trans (reaches_listen _ place trigger [])
    · exact .start
  have hok : ((s.graphAt 0).perform who (s.tableOf 0) .clear).result =
      .ok [.removeAllStart, .removeAllEnd] := by decide +kernel
  have hlisteners : (changed.listenersAt 0).entries = [(0, 0), (1, 1)] := by decide +kernel
  obtain ⟨-, calls, hcalls, -⟩ := each_listener_hears_each_event_once hs meddling who 0 hok
  obtain ⟨-, _, -, hkept, -⟩ := each_listener_hears_each_event_once hs panicking who 0 hok
  refine ⟨hs, hmoves, ⟨calls, hcalls, ?_⟩, by decide +kernel,
    (hkept (fun _ _ => rfl) panicking).2⟩
  have hschedule := congrArg (List.map fun c => (c.1.1, c.2)) hcalls.schedule
  rw [hlisteners, List.map_map] at hschedule
  exact hschedule

end Session.State

end TripleStore
