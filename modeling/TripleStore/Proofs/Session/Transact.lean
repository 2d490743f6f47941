import TripleStore.Proofs.Graph.Abort
import TripleStore.Proofs.Session.Request

/-!
# Bodies of transactions

`State.transact` carries out a body between `begin` and the end of the transaction. Whatever the
body asks of the graph, and whatever listeners do about it, the transaction is ended once: a body
that returns leaves the triples it left, and one that fails or panics leaves every byte of every
index as it was before. Not covered are bodies or listeners that end the transaction themselves.
-/

namespace TripleStore.Session.State

open TripleStore.Graph (Working performAll)

/-- What listeners do about an event, they do to the graph at a place by requests that end no
transaction, as long as the thread holds the one of the graph. -/
def Spares (react : React) (who : Thread) (place : Nat) : Prop :=
  ∀ target listener e s, (s.graphAt place).inTransaction who = true →
    ∃ work : List (ScreenedTable × Request), (∀ x ∈ work, x.2.KeepsTransaction) ∧
      (react who target listener e s).state.graphAt place = (s.graphAt place).performAll who work

/-- What code that works on graphs may have done between two states: any number of requests, none of
which ends the transaction of the graph at a place, attempts to carry out bodies of its own inside
transactions, and whatever leaves that graph alone, such as queries. -/
inductive Inside (react : React) (who : Thread) (place : Nat) : State → State → Prop where
  | start {s} : Inside react who place s s
  | request (target : Nat) (q : Request) {s s'} : Inside react who place s s' →
      (target = place → q.KeepsTransaction) →
      Inside react who place s (s'.request react who target q).2
  | attempt {β : Type} (target : Nat) (skipped : β) (body : State → (BodyResult × β) × State)
      {s s'} : Inside react who place s s' →
      (target ≠ place →
        let begun := (s'.request react who target .begin).2
        Inside react who place begun (body begun).2) →
      Inside react who place s (s'.transact react who target skipped body).2
  | aside {s s' s''} : Inside react who place s s' → s''.graphAt place = s'.graphAt place →
      Inside react who place s s''

variable {react : React} {who : Thread} {place target : Nat} {s s' : State} {g₀ : Graph}

/-- What each reaction keeps, the delivery of events keeps. -/
theorem notify_induct {P : State → Prop} (hreact : ∀ listener e s, P s →
    P (react who target listener e s).state) (events : List Event) (hs : P s) :
    P (s.notify react who target events) := by
  rw [notify, deliver]
  generalize ((s.members[target]?.map (·.listeners.snapshot)).getD []) = listeners
  have heach (e : Event) (s : State) (hs : P s) :
      P (listeners.foldl (fun s l => (react who target l e s).state) s) := by
    induction listeners generalizing s with
    | nil => exact hs
    | cons l ls ih => exact ih _ (hreact l e s hs)
  induction events generalizing s with
  | nil => exact hs
  | cons e es ih => exact ih (heach e s hs)

theorem working_request (hreact : Spares react who place) (hg : g₀.indexes.InStep)
    (hopen : g₀.closed = false) (h : Working who g₀ (s.graphAt place)) {q : Request}
    (hq : target = place → q.KeepsTransaction) :
    Working who g₀ ((s.request react who target q).2.graphAt place) := by
  have hasked : Working who g₀ ((s.settle target
      ((s.graphAt target).perform who (s.tableOf target) q)).graphAt place) := by
    by_cases he : target = place
    · subst he
      rw [graphAt_settle (h.frame.1.trans hopen)]
      exact h.perform hg _ (hq rfl)
    · rw [graphAt_settle_of_ne he]
      exact h
  rw [request_eq]
  split
  · exact hasked
  · refine notify_induct (P := fun s => Working who g₀ (s.graphAt place)) ?_ _ hasked
    intro listener e s hs
    obtain ⟨work, hwork, he⟩ := hreact target listener e s (hs.undo_eq hg).1
    rw [he]
    exact hs.performAll hg work hwork

/-- The graph that a body leaves is the one before the transaction but for the work of the
transaction. -/
theorem Inside.working (hreact : Spares react who place) (hg : g₀.indexes.InStep)
    (hopen : g₀.closed = false) (htransactions : g₀.config.transactions = true)
    (h : Inside react who place s s') (hs : Working who g₀ (s.graphAt place)) :
    Working who g₀ (s'.graphAt place) := by
  induction h with
  | start => exact hs
  | request target q _ hq ih => exact working_request hreact hg hopen (ih hs) hq
  | aside _ he ih => exact he ▸ ih hs
  | @attempt β target skipped body s s' _ _ ih ihbody =>
    have hbegun : Working who g₀ ((s'.request react who target .begin).2.graphAt place) :=
      working_request hreact hg hopen (ih hs) fun _ => by decide
    rw [transact]
    cases hb : s'.request react who target .begin with
    | mk answer begun =>
      rw [hb] at hbegun ihbody
      cases answer with
      | error e => exact hbegun
      | ok =>
        -- on the graph itself a second transaction is refused, so the body ran on another one
        have hne : target ≠ place := by
          rintro rfl
          have hrefused := (ih hs).begin_eq hopen htransactions (s'.tableOf target)
          have hanswer := request_of_error react (congrArg Outcome.result hrefused)
            (congrArg Outcome.graph hrefused)
          rw [hb] at hanswer
          cases hanswer
        have hleft := ihbody hne hbegun
        have hended (q : Request) := working_request (q := q) hreact hg hopen hleft
          fun he => absurd he hne
        dsimp only
        split
        next b left hbody =>
          rw [hbody] at hended
          have hcommitted := hended .commit
          split
          next hcommit =>
            rw [hcommit] at hcommitted
            exact hcommitted
          next hcommit =>
            rw [hcommit] at hcommitted
            exact hcommitted
        next result left _ hbody =>
          rw [hbody] at hended
          exact hended .abort

/-- A transaction that the body left open is ended once, as the body came back. -/
theorem transact_of_working {β : Type} (skipped : β) {body : State → (BodyResult × β) × State}
    {left : State} {result : BodyResult × β} (hg : g₀.indexes.InStep) (hopen : g₀.closed = false)
    (htransactions : g₀.config.transactions = true)
    (hbegin : (s.request react who place .begin).1 = .ok ())
    (hbody : body (s.request react who place .begin).2 = (result, left))
    (hleft : Working who g₀ (left.graphAt place)) :
    ∃ after, s.transact react who place skipped body = (result, after) ∧
      after.graphAt place =
        if result.1 = .returned then { left.graphAt place with txn := none }
        else { g₀ with txn := none } := by
  have hclosed : (left.graphAt place).closed = false := hleft.frame.1.trans hopen
  have hcommit := request_of_quiet react
    (hleft.commit_eq hopen htransactions (left.tableOf place))
  have habort := request_of_quiet react
    (hleft.abort_eq hg hopen htransactions (left.tableOf place))
  have hbegun : s.request react who place .begin =
      (.ok (), (s.request react who place .begin).2) := Prod.ext hbegin rfl
  obtain ⟨came, value⟩ := result
  rw [transact, hbegun]
  cases came with
  | returned =>
    simp only [hbody, hcommit]
    exact ⟨_, rfl, graphAt_settle hclosed _⟩
  | failed e =>
    simp only [hbody, habort]
    exact ⟨_, rfl, graphAt_settle hclosed _⟩
  | panicked =>
    simp only [hbody, habort]
    exact ⟨_, rfl, graphAt_settle hclosed _⟩

/-- A body that returns leaves what it left and its answer, and one that fails or panics does so
with every index as it was; either way no transaction is open afterwards. A thread that holds the
transaction already is refused, and the body is not carried out. -/
theorem transact_whole_or_nothing {β : Type} (hg : Graph.Reachable ScreenedTable (s.graphAt place))
    (htransactions : (s.graphAt place).config.transactions = true) (skipped : β)
    (body : State → (BodyResult × β) × State) :
    ((s.graphAt place).closed = false → (s.graphAt place).txn = none → Spares react who place →
      ∀ result left, body (s.request react who place .begin).2 = (result, left) →
        Inside react who place (s.request react who place .begin).2 left →
        ∃ after, s.transact react who place skipped body = (result, after) ∧
          (after.graphAt place).txn = none ∧
          (result.1 = .returned →
            (after.graphAt place).indexes = (left.graphAt place).indexes) ∧
          (result.1 ≠ .returned →
            (after.graphAt place).indexes = (s.graphAt place).indexes)) ∧
    ((s.graphAt place).inTransaction who = true →
      s.transact react who place skipped body = ((.failed .transactionActive, skipped), s)) := by
  have hstep := (Graph.kept_of_reachable hg).indexes
  constructor
  · intro hopen hnone hreact result left hbody hinside
    have hbegun := request_of_quiet react
      (Graph.perform_begin_eq hopen htransactions hnone who (s.tableOf place))
    have hstart : Working who (s.graphAt place)
        ((s.request react who place .begin).2.graphAt place) := by
      rw [hbegun, graphAt_settle hopen]
      exact ⟨[], (s.graphAt place).indexes, .nil, rfl⟩
    have hleft := hinside.working hreact hstep hopen htransactions hstart
    obtain ⟨after, hafter, hgraph⟩ := transact_of_working skipped hstep hopen htransactions
      (congrArg Prod.fst hbegun) hbody hleft
    refine ⟨after, hafter, ?_, fun hreturned => ?_, fun hreturned => ?_⟩
    · rw [hgraph]
      split <;> rfl
    · rw [hgraph, if_pos hreturned]
    · rw [hgraph, if_neg hreturned]
  · intro howner
    have hopen := hg.closed_eq_false howner
    have hrefused : (s.graphAt place).perform who (s.tableOf place) .begin =
        ⟨s.graphAt place, s.tableOf place, .error .transactionActive⟩ := by
      cases htxn : (s.graphAt place).txn with
      | none => simp [Graph.inTransaction, htxn] at howner
      | some t => exact Graph.perform_begin_of_txn hopen htransactions htxn who (s.tableOf place)
    have hrequest := request_of_error react (congrArg Outcome.result hrefused)
      (congrArg Outcome.graph hrefused)
    rw [hrefused, setTable_tableOf] at hrequest
    rw [transact, hrequest]

theorem transact_whole_or_nothing_of_failing_body :
    let who : Thread := ⟨1⟩
    let statement (lexical : String) : Pattern :=
      ⟨.term (.blank "b"), .term (.iri "p"), .term (.literal (.simple lexical))⟩
    let added := (Graph.create {}).perform who ScreenedTable.empty (.add (statement "1"))
    let s : State :=
      { tables := #[added.nodes]
        members := #[{ graph := added.graph, table := 0, listeners := ⟨1, [(0, 0)]⟩ }] }
    let logging : React := fun _ _ _ e s => { state := s.write (.event "watch" e) }
    let clearing (s : State) : (BodyResult × Nat) × State :=
      ((.returned, 1), (s.request logging who 0 .clear).2)
    let body (s : State) : (BodyResult × Nat) × State :=
      let added := (s.request logging who 0 (.add (statement "2"))).2
      let refused := (added.request logging who 0 (.add Pattern.any)).2
      let attempted := (refused.transact logging who 0 0 clearing).2
      ((.panicked, 7), (attempted.request logging who 0 (.delete (statement "1"))).2)
    let begun := (s.request logging who 0 .begin).2
    (Graph.Reachable ScreenedTable (s.graphAt 0) ∧ (s.graphAt 0).config.transactions = true ∧
        (s.graphAt 0).closed = false ∧ (s.graphAt 0).txn = none ∧ Spares logging who 0 ∧
        Inside logging who 0 begun (body begun).2 ∧ (begun.graphAt 0).inTransaction who = true) ∧
      (∃ after, s.transact logging who 0 0 body = ((.panicked, 7), after) ∧
        (after.graphAt 0).txn = none ∧
        (after.graphAt 0).indexes = (s.graphAt 0).indexes) ∧
      begun.transact logging who 0 0 clearing = ((.failed .transactionActive, 0), begun) := by
  intro who statement added s logging clearing body begun
  have hg : Graph.Reachable ScreenedTable (s.graphAt 0) :=
    .performed who _ _ (.created {} .empty [] rfl)
  have htransactions : (s.graphAt 0).config.transactions = true := by decide +kernel
  have hopen : (s.graphAt 0).closed = false := by decide +kernel
  have hnone : (s.graphAt 0).txn = none := by decide +kernel
  have hgraph : begun.graphAt 0 = { s.graphAt 0 with txn := some ⟨who, []⟩ } := by
    have hbegin := Graph.perform_begin_eq hopen htransactions hnone who (s.tableOf 0)
    show (s.request logging who 0 .begin).2.graphAt 0 = _
    rw [request_of_quiet logging hbegin, graphAt_settle hopen]
  have hbegun : Graph.Reachable ScreenedTable (begun.graphAt 0) := by
    have hreach := hg.performed who (s.tableOf 0) .begin
    rwa [Graph.perform_begin_eq hopen htransactions hnone, ← hgraph] at hreach
  have howner : (begun.graphAt 0).inTransaction who = true := by
    rw [hgraph]
    rfl
  have hspares : Spares logging who 0 := fun _ _ _ _ _ => ⟨[], by simp, rfl⟩
  have hpanics (s : State) : body s = ((.panicked, 7), (body s).2) := rfl
  have hinside (s : State) : Inside logging who 0 s (body s).2 :=
    .request 0 _ (.attempt 0 0 clearing (.request 0 _ (.request 0 _ .start fun _ => by decide)
      fun _ => by decide) fun hne => absurd rfl hne) fun _ => by decide
  obtain ⟨after, hafter, hended, -, hindexes⟩ :=
    (transact_whole_or_nothing hg htransactions 0 body).1 hopen hnone hspares (.panicked, 7) _
      (hpanics _) (hinside _)
  have hbegun_transactions : (begun.graphAt 0).config.transactions = true := by
    rw [hgraph]
    exact htransactions
  exact ⟨⟨hg, htransactions, hopen, hnone, hspares, hinside begun, howner⟩,
    ⟨after, hafter, hended, hindexes (by decide)⟩,
    (transact_whole_or_nothing hbegun hbegun_transactions 0 clearing).2 howner⟩

end TripleStore.Session.State
