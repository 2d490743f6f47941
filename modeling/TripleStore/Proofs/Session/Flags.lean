import TripleStore.Proofs.Graph.Flags
import TripleStore.Proofs.Session.Moves

/-!
# Flags in a session

However a request comes to a graph, be it made directly, by way of a cursor, by copying, by reading
a file, in the body of a transaction or by a listener, the flags of the graph bind it. What they
forbid leaves the session as it was, so that no listener hears of it.
-/

namespace TripleStore

/-- A request that is no mutation has no events. -/
theorem Graph.events_of_not_mutation {τ : Type} [NodeTable τ] {g : Graph} {who : Thread} {nodes : τ}
    {r : Request} (hr : ¬ r.IsMutation) {events : List Event}
    (hok : (g.perform who nodes r).result = .ok events) : events = [] := by
  have hcontrol {step : Graph → Except Error Unit × Graph}
      (hok : (g.control nodes step).result = .ok events) : events = [] := by
    rw [control] at hok
    split at hok
    · cases hok
    · split at hok
      · exact (Except.ok.inj hok).symm
      · dsimp only at hok
        cases hresult : (step g).1 with
        | error e =>
          rw [hresult] at hok
          cases hok
        | ok =>
          rw [hresult] at hok
          exact (Except.ok.inj hok).symm
  cases r using Request.mutationCases with
  | mutation r hm => exact absurd hm hr
  | begin => exact hcontrol hok
  | commit => exact hcontrol hok
  | abort => exact hcontrol hok
  | close => exact (Except.ok.inj hok).symm

namespace Session.State

open TripleStore.Graph (createPinned)

variable {s s' : State} {place : Nat} {who : Thread}

/-- A request that is no mutation does the same whatever listeners do. -/
theorem request_silent (react silent : React) {q : Request} (hq : ¬ q.IsMutation) :
    s.request react who place q = s.request silent who place q := by
  rw [request_eq, request_eq]
  cases hresult : ((s.graphAt place).perform who (s.tableOf place) q).result with
  | error e => rfl
  | ok events =>
    obtain rfl := Graph.events_of_not_mutation hq hresult
    rfl

/-- The request is refused and leaves the session as it is, whatever listeners would do. -/
def Refused (who : Thread) (place : Nat) (s : State) (q : Request) : Prop :=
  ∃ e, ∀ react, s.request react who place q = (.error e, s)

/-- Of requests that are all refused the first one ends the run. -/
theorem requestAll_of_refused {α : Type} {q : α → Request}
    (h : ∀ a, s.Refused who place (q a)) (xs : List α) :
    ∃ result, ∀ react, s.requestAll react who place (xs.map fun a => .ok (q a)) = (result, s) := by
  cases xs with
  | nil => exact ⟨.ok (), fun _ => rfl⟩
  | cons a xs =>
    obtain ⟨e, he⟩ := h a
    exact ⟨.error e, fun react => by rw [List.map_cons, requestAll, he]⟩

theorem addInto_of_refused (h : ∀ t : Statement, s.Refused who place (.add t.toPattern))
    (react : React) (source : Nat) : (s.addInto react who place source).2 = s := by
  rw [addInto]
  split
  · rfl
  next ts _ =>
    obtain ⟨result, hall⟩ := requestAll_of_refused h ts
    rw [hall]

theorem deleteFrom_of_refused (h : ∀ t : Statement, s.Refused who place (.delete t.toPattern))
    (react : React) (source : Nat) : (s.deleteFrom react who place source).2 = s := by
  rw [deleteFrom]
  split
  · rfl
  next ts _ =>
    obtain ⟨result, hall⟩ := requestAll_of_refused h ts
    rw [hall]

/-- A file whose statements are all refused is read without an event. -/
theorem loadAll_of_refused (react silent : React)
    (h : ∀ t : Statement, (s.request silent who place .begin).2.Refused who place
      (.add t.toPattern)) (ts : List Statement) :
    s.loadAll react who place ts = s.loadAll silent who place ts := by
  obtain ⟨result, hall⟩ := requestAll_of_refused h ts
  unfold loadAll transact
  rw [request_silent react silent (q := .begin) not_false]
  cases hbegin : s.request silent who place .begin with
  | mk answer begun =>
    rw [hbegin] at hall
    cases answer with
    | error e => rfl
    | ok =>
      simp only [hall]
      cases result with
      | error e => simp only [request_silent react silent (q := .abort) not_false]
      | ok => simp only [request_silent react silent (q := .commit) not_false]

/-- What the flags of the graph at a place come to in a session: `g` is the graph as it was made. -/
structure ObeysFlags (flags : Capabilities) (g : Graph) (place : Nat) (s : State) : Prop where
  stores_pinned : flags.addAllowed = false →
    (s.graphAt place).indexes.Represents g.pinned.toFinset
  loses_undone : flags.deleteAllowed = false → ∀ s' t, Reaches s s' →
    (s.graphAt place).Stored t → ¬ (s'.graphAt place).Stored t →
    ∃ (before work : List (Turn ScreenedTable)) (turn : Turn ScreenedTable)
      (later : List (Turn ScreenedTable)),
      s.graphAt place = g.after before ∧
      s'.graphAt place = g.after (before ++ work ++ turn :: later) ∧
      (g.after (before ++ work)).Stored t ∧ ¬ (g.after (before ++ work ++ [turn])).Stored t ∧
      g.UndoesAddition (before ++ work) turn t
  refuses : ∀ q e, flags.refusal? q = some e → ∀ react who,
    s.request react who place q = (.error (if (s.graphAt place).closed then .closed else e), s)
  /-- Copying into the graph, deleting from it and reading a file into it reach no listener. -/
  copies : flags.addAllowed = false → ∀ react who source, (s.addInto react who place source).2 = s
  deletes : flags.deleteAllowed = false → ∀ react who source,
    (s.deleteFrom react who place source).2 = s
  loads : flags.addAllowed = false → ∀ react silent who ts,
    s.loadAll react who place ts = s.loadAll silent who place ts

section

variable {flags : Capabilities} (hplace : place < s.members.size)
  (hflags : (s.graphAt place).HonorsFlags flags ScreenedTable)

include hplace hflags

theorem Reaches.request_eq_of_refusal (h : Reaches s s') {q : Request} {e : Error}
    (he : flags.refusal? q = some e) (react : React) (who : Thread) :
    s'.request react who place q =
      (.error (if (s'.graphAt place).closed then .closed else e), s') := by
  obtain ⟨before, hbefore⟩ := h.graphAt_eq hplace
  have hperform := hflags.refuses q e he before who (s'.tableOf place)
  rw [← hbefore] at hperform
  rw [request_of_error react (congrArg Outcome.result hperform) (congrArg Outcome.graph hperform),
    hperform, setTable_tableOf]

/-- If a later state has lost a triple, some turn in between took its addition back. -/
theorem Reaches.exists_undoesAddition (h : Reaches s s') (hdenied : flags.deleteAllowed = false)
    {s'' : State} {t : IdTriple} (h' : Reaches s' s'') (hin : (s'.graphAt place).Stored t)
    (hout : ¬ (s''.graphAt place).Stored t) :
    ∃ (before work : List (Turn ScreenedTable)) (turn : Turn ScreenedTable)
      (later : List (Turn ScreenedTable)),
      s'.graphAt place = (s.graphAt place).after before ∧
      s''.graphAt place = (s.graphAt place).after (before ++ work ++ turn :: later) ∧
      ((s.graphAt place).after (before ++ work)).Stored t ∧
      ¬ ((s.graphAt place).after (before ++ work ++ [turn])).Stored t ∧
      (s.graphAt place).UndoesAddition (before ++ work) turn t := by
  obtain ⟨before, hbefore⟩ := h.graphAt_eq hplace
  obtain ⟨turns, hturns⟩ := h'.graphAt_eq (hplace.trans_le h.size_le)
  rw [hbefore] at hin hturns
  rw [hturns, ← Graph.after_append] at hout
  obtain ⟨work, turn, ⟨later, rfl⟩, hkept, hlost⟩ :=
    exists_gain (P := fun w => ¬ ((s.graphAt place).after (before ++ w)).Stored t)
      (by rwa [List.append_nil, not_not]) hout
  rw [not_not] at hkept
  rw [← List.append_assoc] at hlost
  refine ⟨before, work, turn, later, hbefore, ?_, hkept, hlost,
    hflags.loses_undone hdenied _ _ _ hkept hlost⟩
  rw [hturns, ← Graph.after_append]
  simp

theorem Reaches.obeysFlags (h : Reaches s s') :
    s'.ObeysFlags flags (s.graphAt place) place := by
  have hadds (hadd : flags.addAllowed = false) {s'' : State} (h : Reaches s s'') (who : Thread)
      (t : Statement) : s''.Refused who place (.add t.toPattern) := by
    have hrefusal : flags.refusal? (.add t.toPattern) = some .addDenied := by
      simp [Capabilities.refusal?, hadd]
    exact ⟨_, fun react => h.request_eq_of_refusal hplace hflags hrefusal react who⟩
  have hdeletes (hdelete : flags.deleteAllowed = false) (who : Thread) (t : Statement) :
      s'.Refused who place (.delete t.toPattern) := by
    have hrefusal : flags.refusal? (.delete t.toPattern) = some .deleteDenied := by
      simp [Capabilities.refusal?, hdelete]
    exact ⟨_, fun react => h.request_eq_of_refusal hplace hflags hrefusal react who⟩
  have hbegun (react : React) (who : Thread) :
      Reaches s (s'.request react who place .begin).2 := by
    rw [request_silent react (fun _ _ _ _ s => { state := s }) (q := .begin) not_false]
    exact h.trans (reaches_request (fun _ _ _ _ _ => .start) who place .begin s')
  refine ⟨fun hadd => ?_, fun hdelete _ _ => h.exists_undoesAddition hplace hflags hdelete,
    fun _ _ he => h.request_eq_of_refusal hplace hflags he,
    fun hadd react who => addInto_of_refused (hadds hadd h who) react,
    fun hdelete react who => deleteFrom_of_refused (hdeletes hdelete who) react,
    fun hadd react silent who =>
      loadAll_of_refused react silent (hadds hadd (hbegun silent who) who)⟩
  obtain ⟨before, hbefore⟩ := h.graphAt_eq hplace
  rw [hbefore]
  exact hflags.stores_pinned hadd before

end

/-- The flags of a graph bind whatever is done to it in the time to come, by any route. Without
additions it stores the statements it was made with and no others. Without deletes a triple stops
being stored only when a transaction is taken back that it was added in. Without removal by cursors
these leave the graph alone. Whatever is refused for a flag leaves the session as it was, and no
listener is called for it. -/
theorem flags_bind_every_route :
    (∀ {τ : Type} [NodeTable τ] {config : Config} {nodes nodes' : τ} {statements : List Pattern}
      {g : Graph}, createPinned config nodes statements = (.ok g, nodes') →
        List.Forall₂ (fun p ids => ∃ table : τ, (NodeTable.encodeTriple table p).1 = .ok ids)
          statements g.pinned ∧
        g.HonorsFlags config.capabilities τ) ∧
      (∀ {config : Config} {nodes nodes' : MemoryTable} {statements : List Pattern} {g : Graph},
        createPinned config nodes statements = (.ok g, nodes') →
        config.capabilities.addAllowed = false →
        ∀ (past : List (Turn MemoryTable)) (later : MemoryTable), nodes'.terms <+: later.terms →
          (g.after past).statementSet later = {st | ∃ p ∈ statements, p.statement? = some st}) ∧
      (∀ {config : Config} {nodes nodes' : ScreenedTable} {statements : List Pattern} {s : State}
        {place : Nat}, createPinned config nodes statements = (.ok (s.graphAt place), nodes') →
        place < s.members.size → ∀ s', Reaches s s' →
          s'.ObeysFlags config.capabilities (s.graphAt place) place) ∧
      ∀ outside fuel who step s, Reaches s (run outside fuel who step s).2 := by
  refine ⟨fun hg => ⟨(Graph.createPinned_spec hg).2, Graph.createPinned_honorsFlags hg⟩,
    fun hg hadd past later hle => ?_,
    fun hg hplace s' h => h.obeysFlags hplace (Graph.createPinned_honorsFlags hg), reaches_run⟩
  have hspells := (Graph.spells_pinned (Graph.createPinned_decodes hg)).grow hle
  have hstored := (Graph.createPinned_honorsFlags hg).stores_pinned hadd past
  rw [Graph.statementSet_eq ⟨_, hstored, hspells⟩]
  ext st
  simp

theorem flags_bind_every_route_past_taken_back_addition :
    let who : Thread := ⟨1⟩
    let statement (lexical : String) : Pattern :=
      ⟨.term (.blank "b"), .term (.iri "p"), .term (.literal (.simple lexical))⟩
    let made := createPinned { capabilities := { addAllowed := false } } MemoryTable.empty
      [statement "1"]
    let past : List (Turn MemoryTable) := [⟨who, made.2, .request (.add (statement "2"))⟩,
      ⟨who, made.2, .request .clear⟩]
    let growing : Config := { capabilities := { deleteAllowed := false } }
    let s : State :=
      { members := #[{ graph := .create growing, table := 0, listeners := ⟨1, [(0, 0)]⟩ }] }
    let logging : React := fun _ _ _ e s => { state := s.write (.event "watch" e) }
    let added := ((s.request logging who 0 .begin).2.request logging who 0
      (.add (statement "1"))).2
    let aborted := (added.request logging who 0 .abort).2
    let t : IdTriple := ⟨.real 0, .real 1, .real 2⟩
    (∃ g, made = (.ok g, made.2) ∧ g.pinned = [t] ∧
        (g.after past).indexes.Represents g.pinned.toFinset ∧
        (g.after past).statementSet made.2 =
          {st | ∃ p ∈ [statement "1"], p.statement? = some st}) ∧
      Reaches s added ∧ Reaches added aborted ∧ (added.graphAt 0).Stored t ∧
      ¬ (aborted.graphAt 0).Stored t ∧
      (∃ (past : List (Turn ScreenedTable)) (turn : Turn ScreenedTable),
        (s.graphAt 0).UndoesAddition past turn t) ∧
      added.request logging who 0 .clear = (.error .deleteDenied, added) := by
  intro who statement made past growing s logging added aborted t
  have hmoves : Moves logging := fun _ _ _ _ _ => .aside .start rfl
  have hadded : Reaches s added :=
    (reaches_request hmoves who 0 .begin s).trans (reaches_request hmoves who 0 _ _)
  have haborted : Reaches added aborted := reaches_request hmoves who 0 .abort added
  have hin : (added.graphAt 0).Stored t := ⟨by decide, by decide +kernel⟩
  have hout : ¬ (aborted.graphAt 0).Stored t := by
    rintro ⟨-, hcontains⟩
    exact absurd hcontains (by decide +kernel)
  let g := made.1.toOption.getD (.create {})
  have hg : made = (.ok g, made.2) := Prod.ext (by decide +kernel) rfl
  have hmade : createPinned growing ScreenedTable.empty [] = (.ok (s.graphAt 0), .empty) := rfl
  have hobeys := flags_bind_every_route.2.2.1 hmade (by decide) added hadded
  obtain ⟨before, work, turn, -, -, -, -, -, hundoes⟩ :=
    hobeys.loses_undone rfl aborted t haborted hin hout
  have hrefused := hobeys.refuses .clear .deleteDenied rfl logging who
  refine ⟨⟨g, hg, by decide +kernel, (flags_bind_every_route.1 hg).2.stores_pinned rfl past,
      flags_bind_every_route.2.1 hg rfl past made.2 List.prefix_rfl⟩,
    hadded, haborted, hin, hout, ⟨_, turn, hundoes⟩, ?_⟩
  rwa [show (added.graphAt 0).closed = false by decide +kernel] at hrefused

end Session.State

end TripleStore
