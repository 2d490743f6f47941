import TripleStore.Proofs.Graph.Content
import TripleStore.Proofs.NodeTable.Room

/-!
# A graph does what its content says

`Graph.Holds` relates a graph and the memory table it uses to a content. Whatever else has been
given ids, by other graphs of the table too, a request does to the graph what it does to the
content, and the two report the same. What the table can fail at is kept apart: `Request.Fits` says
that it has the ids that the request needs.
-/

namespace TripleStore

open MemoryTable

/-- The table has ids for the statement that the request adds, or gave those of the match that it
deletes. -/
structure Request.Fits (m : MemoryTable) (r : Request) : Prop where
  encodes : ∀ p, r = .add p → p.isConcrete = true →
    ∃ ids, (NodeTable.encodeTriple m p).1 = .ok ids
  decodes : ∀ found, r = .removeFound found →
    NodeTable.decodeTriple m found.ids = .ok found.statement

/-- A mutation puts only terms into the table that it is asked to add. -/
theorem Draft.Derives.within {pinned : List IdTriple} {asked : List Pattern}
    {d₀ d : Draft MemoryTable} {names : Finset Term} (h : Draft.Derives pinned asked d₀ d)
    (hm : d₀.nodes.Within names) (hasked : ∀ p ∈ asked, ∀ t ∈ p.terms, t ∈ names) :
    d.nodes.Within names := by
  induction h with
  | refl => exact hm
  | report e _ ih => exact ih
  | encode _ hp ih => exact (ih.encodeTriple (hasked _ hp)).1
  | add _ hp hencode _ ih =>
    have hm' := (ih.encodeTriple (hasked _ hp)).1
    rwa [hencode] at hm'
  | remove _ _ _ ih => exact ih

namespace Graph

/-- The transactions belong to one thread, and the log of the first one leads to the indexes from
what was stored when the second one began. -/
def Logs (m : MemoryTable) (indexes : IndexSet) (t : Transaction) (u : Thread × Finset Statement) :
    Prop :=
  t.owner = u.1 ∧ ∃ start : IndexSet, start.Spells m u.2 ∧ Tracks start t.undo indexes

/-- The graph stores the content in ids of the table. -/
structure Holds (g : Graph) (m : MemoryTable) (c : Content) : Prop where
  config : g.config = c.config
  closed : g.closed = c.closed
  stored : g.indexes.Spells m c.stored
  pinned : m.Spells g.pinned.toFinset c.pinned
  txn : Option.Rel (Logs m g.indexes) g.txn c.txn

variable {g : Graph} {m m' : MemoryTable} {c : Content} {r : Request}

theorem Holds.txn_cases (h : g.Holds m c) : (g.txn = none ∧ c.txn = none) ∨
    ∃ t u, g.txn = some t ∧ c.txn = some u ∧ Logs m g.indexes t u := by
  have htxn := h.txn
  generalize g.txn = t, c.txn = u at htxn ⊢
  cases htxn with
  | none => exact .inl ⟨rfl, rfl⟩
  | some ht => exact .inr ⟨_, _, rfl, rfl, ht⟩

/-- What others have put into the table since makes no difference. -/
theorem Holds.grow (h : g.Holds m c) (hle : m.terms <+: m'.terms) : g.Holds m' c where
  config := h.config
  closed := h.closed
  stored := h.stored.grow hle
  pinned := h.pinned.grow hle
  txn := by
    obtain ⟨hg, hc⟩ | ⟨t, u, hg, hc, howner, start, hstart, hlog⟩ := h.txn_cases
    · exact hg ▸ hc ▸ .none
    · exact hg ▸ hc ▸ .some ⟨howner, start, hstart.grow hle, hlog⟩

/-- The draft comes to what the content says. -/
def Agrees (o : Except Error Unit × Draft MemoryTable) :
    Except Error (Finset Statement × Report) → Prop
  | .error e => o.1 = .error e
  | .ok (stored, report) =>
    o.1 = .ok () ∧ o.2.indexes.Spells o.2.nodes stored ∧ Report.ofEvents o.2.events = report

theorem agrees_add (h : g.Holds m c) (p : Pattern) (hfits : Request.Fits m (.add p)) :
    Agrees (Draft.add g.capabilities p { nodes := m, indexes := g.indexes }) (c.edit (.add p)) := by
  rw [Draft.add, Content.edit, capabilities, h.config]
  split
  · rfl
  · cases hp : p.statement? with
    | none => rfl
    | some st =>
      obtain ⟨ids, hids⟩ := hfits.encodes p rfl (by rw [Pattern.isConcrete, hp]; rfl)
      have hencode : NodeTable.encodeTriple m p = (.ok ids, (NodeTable.encodeTriple m p).2) :=
        Prod.ext hids rfl
      generalize (NodeTable.encodeTriple m p).2 = m' at hencode
      obtain ⟨st', rfl, hdecode⟩ := decodeTriple_encodeTriple hencode
      obtain rfl : st' = st := Option.some.inj hp
      obtain ⟨fresh, indexes, hinsert, hspells⟩ :=
        (h.stored.grow (prefix_encodeTriple hencode)).insert hdecode
      simp only [hencode, hinsert]
      exact ⟨rfl, hspells, rfl⟩

/-- Deleting all matches of a pattern comes to deleting the doomed statements. -/
theorem Holds.deleteMatching (h : g.Holds m c) (p : Pattern) (events : List Event) :
    ∃ (d : Draft MemoryTable) (gone : List Statement), Draft.deleteAll g.pinned (g.matching m p)
        { nodes := m, indexes := g.indexes, events } = (.ok (), d) ∧
      gone.Nodup ∧ gone.toFinset = c.doomed p ∧ d.events = events ++ gone.map .deleteTriple ∧
      d.indexes.Spells d.nodes (c.stored \ c.doomed p) := by
  obtain ⟨d, gone, hall, hnodup, hgone, hnodes, hevents, hspells⟩ := Draft.deleteMatching_spec
    (d := { nodes := m, indexes := g.indexes, events }) h.stored h.pinned rfl p
  have hdoomed : gone.toFinset = c.doomed p := by
    rw [hgone, capabilities, h.config]
    rfl
  rw [hdoomed] at hspells
  rw [← hnodes] at hspells
  exact ⟨d, gone, hall, hnodup, hdoomed, hevents, hspells⟩

theorem agrees_delete (h : g.Holds m c) (p : Pattern) :
    Agrees (Draft.delete g p { nodes := m, indexes := g.indexes }) (c.edit (.delete p)) := by
  obtain ⟨d, gone, hall, hnodup, hgone, hevents, hspells⟩ := h.deleteMatching p []
  have hempty : d.events.isEmpty = true ↔ c.doomed p = ∅ := by
    rw [hevents, ← hgone, List.toFinset_eq_empty_iff]
    simp
  have hdeletes : Report.ofEvents d.events = .deletes (c.doomed p) := by
    rw [hevents, List.nil_append, Report.ofEvents_deletes hnodup, hgone]
  rw [Draft.delete, Content.edit, capabilities, h.config]
  split
  · rfl
  · rw [hall, Content.deletion]
    cases p.statement? with
    | none => exact ⟨rfl, hspells, hdeletes⟩
    | some st =>
      by_cases hnone : c.doomed p = ∅
      · have hreported : d.events = [] := List.isEmpty_iff.mp (hempty.mpr hnone)
        simp only [if_pos hnone, if_pos (hempty.mpr hnone)]
        refine ⟨rfl, hspells, ?_⟩
        rw [Draft.report, hreported]
        rfl
      · simp only [if_neg hnone, if_neg (mt hempty.mp hnone)]
        exact ⟨rfl, hspells, hdeletes⟩

theorem agrees_remove (h : g.Holds m c) (p : Pattern) :
    Agrees (Draft.remove g p { nodes := m, indexes := g.indexes }) (c.edit (.remove p)) := by
  obtain ⟨d, gone, hall, hnodup, hgone, hevents, hspells⟩ := h.deleteMatching p []
  rw [Draft.remove, Content.edit, capabilities, h.config]
  split
  · rfl
  · rw [hall]
    refine ⟨rfl, hspells, ?_⟩
    show Report.ofEvents (d.events ++ [.removeRequest p]) = _
    rw [hevents, List.nil_append, Report.ofEvents_append, Report.ofEvents_deletes hnodup, hgone]

theorem agrees_clear (h : g.Holds m c) :
    Agrees (Draft.clear g { nodes := m, indexes := g.indexes }) (c.edit .clear) := by
  obtain ⟨d, gone, hall, hnodup, hgone, hevents, hspells⟩ :=
    h.deleteMatching Pattern.any [.removeAllStart]
  rw [Draft.clear, Content.edit, capabilities, h.config]
  split
  · rfl
  · rw [Draft.clearAll_matching h.stored.inStep rfl]
    have hclear : Draft.deleteAll g.pinned (g.matching m Pattern.any)
        (Draft.report { nodes := m, indexes := g.indexes } .removeAllStart) = (.ok (), d) := hall
    rw [hclear]
    refine ⟨rfl, hspells, ?_⟩
    show Report.ofEvents (d.events ++ [.removeAllEnd]) = _
    rw [hevents, Report.ofEvents_append, Report.ofEvents_append, Report.ofEvents_deletes hnodup,
      hgone]

theorem agrees_removeFound (h : g.Holds m c) {found : Found}
    (hfits : Request.Fits m (.removeFound found)) :
    Agrees (Draft.removeFound g found { nodes := m, indexes := g.indexes })
      (c.edit (.removeFound found)) := by
  have hdecode := hfits.decodes found rfl
  have hpinned : g.pinned.contains found.ids = true ↔ found.statement ∈ c.pinned := by
    rw [List.contains_iff_mem, ← List.mem_toFinset, h.pinned.mem_iff hdecode]
  obtain ⟨indexes, hremove, hspells⟩ := h.stored.remove hdecode
  rw [Draft.removeFound, Content.edit, capabilities, h.config]
  split
  · rfl
  · split
    · rfl
    · by_cases hin : found.statement ∈ c.pinned
      · have hkept : found.statement ∉ c.stored \ c.pinned :=
          fun hd => (Finset.mem_sdiff.mp hd).2 hin
        rw [if_pos (hpinned.mpr hin), if_neg hkept]
        exact ⟨rfl, h.stored, rfl⟩
      · rw [if_neg (mt hpinned.mp hin)]
        by_cases hstored : found.statement ∈ c.stored
        · rw [decide_eq_true hstored] at hremove
          rw [hremove, if_pos (Finset.mem_sdiff.mpr ⟨hstored, hin⟩)]
          exact ⟨rfl, hspells, rfl⟩
        · rw [decide_eq_false hstored] at hremove
          rw [hremove, if_neg (fun hd => hstored (Finset.mem_sdiff.mp hd).1)]
          exact ⟨rfl, Finset.erase_eq_of_notMem hstored ▸ hspells, rfl⟩

theorem agrees_operation (h : g.Holds m c) (hr : r.IsMutation) (hfits : r.Fits m) :
    Agrees (g.operation r { nodes := m, indexes := g.indexes }) (c.edit r) := by
  cases r with
  | add p => exact agrees_add h p hfits
  | delete p => exact agrees_delete h p
  | remove p => exact agrees_remove h p
  | removeFound found => exact agrees_removeFound h hfits
  | clear => exact agrees_clear h
  | begin | commit | abort | close => exact hr.elim

/-- What a request leaves behind is what the content says. -/
structure Follows (o : Outcome MemoryTable) (expected : Content × Except Error Report) : Prop where
  holds : o.graph.Holds o.nodes expected.1
  result : o.result.map Report.ofEvents = expected.2

theorem Holds.storedOver (h : g.Holds m c) : g.indexes.StoredOver m := by
  obtain ⟨S, hS, hspells⟩ := h.stored
  exact ⟨S, hS, fun t ht => hspells.covers ht⟩

/-- Whatever is asked of a graph, its table only grows. -/
theorem Holds.nodes_perform (h : g.Holds m c) (who : Thread) (r : Request) :
    m.terms <+: (g.perform who m r).nodes.terms := prefix_perform h.stored.inStep who m r

/-- A request that fails leaves the content as it was. -/
theorem Holds.perform_of_error (h : g.Holds m c) (who : Thread) (hr : r.IsMutation) {e : Error}
    (he : (g.perform who m r).result = .error e) :
    (g.perform who m r).graph.Holds (g.perform who m r).nodes c := by
  rw [graph_perform_of_error h.stored.inStep who m hr he]
  exact h.grow (h.nodes_perform who r)

theorem follows_mutation (h : g.Holds m c) (who : Thread) (hr : r.IsMutation) (hfits : r.Fits m) :
    Follows (g.perform who m r) (c.perform who r) := by
  have hle := h.nodes_perform who r
  rw [Content.perform_of_isMutation who c hr]
  cases hclosed : g.closed with
  | true =>
    rw [perform_of_closed hr hclosed, if_pos (h.closed ▸ hclosed)]
    exact ⟨h, rfl⟩
  | false =>
    have hagrees := agrees_operation h hr hfits
    have hderives := derives_operation h.stored.inStep m r
    rw [if_neg (by rw [← h.closed, hclosed]; decide)]
    cases hop : g.operation r { nodes := m, indexes := g.indexes } with
    | mk result d =>
      rw [hop] at hagrees hderives
      cases hedit : c.edit r with
      | error e =>
        rw [hedit] at hagrees
        obtain rfl : result = .error e := hagrees
        have hperform : g.perform who m r = ⟨g, d.nodes, .error e⟩ :=
          Graph.perform_of_error h.stored.inStep hr hclosed hop
        rw [hperform] at hle ⊢
        exact ⟨h.grow hle, rfl⟩
      | ok answer =>
        obtain ⟨stored, report⟩ := answer
        rw [hedit] at hagrees
        obtain ⟨rfl, hstored, rfl⟩ := hagrees
        have hperform : g.perform who m r =
            ⟨{ g with indexes := d.indexes, txn := g.txn.map (·.record d.changes) }, d.nodes,
              .ok d.events⟩ := perform_of_ok hr hclosed hop
        rw [hperform] at hle ⊢
        have htracks := hderives.tracks h.stored.inStep rfl
        refine ⟨⟨h.config, h.closed, hstored, h.pinned.grow hle, ?_⟩, rfl⟩
        obtain ⟨hg, hc⟩ | ⟨t, u, hg, hc, howner, start, hstart, hlog⟩ :=
          (h.grow hle).txn_cases
        · rw [hg, hc]
          exact .none
        · rw [hg, hc]
          exact .some ⟨howner, start, hstart, hlog.trans htracks⟩

/-- Ending a transaction by taking its changes back restores what was stored when it began. -/
theorem Holds.undo (h : g.Holds m c) : g.undo.1 = .ok () ∧ g.undo.2.Holds m c.undo := by
  rw [Graph.undo, Content.undo]
  obtain ⟨hg, hc⟩ | ⟨t, u, hg, hc, -, start, hstart, hlog⟩ := h.txn_cases
  · rw [hg, hc]
    exact ⟨rfl, h⟩
  · rw [hg, hc]
    simp only [hlog.rollback_eq hstart.inStep]
    exact ⟨trivial, h.config, h.closed, hstart, h.pinned, .none⟩

theorem Holds.inTransaction (h : g.Holds m c) (who : Thread) :
    g.inTransaction who = c.inTransaction who := by
  rw [Graph.inTransaction, Content.inTransaction]
  obtain ⟨hg, hc⟩ | ⟨t, u, hg, hc, howner, -⟩ := h.txn_cases
  · rw [hg, hc]
    rfl
  · rw [hg, hc, Option.any_some, Option.any_some, howner]

/-- The transaction of a graph changes as that of its content does. -/
theorem follows_control (h : g.Holds m c) {step : Graph → Except Error Unit × Graph}
    {step' : Except Error Content}
    (hstep : (∃ e, step g = (.error e, g) ∧ step' = .error e) ∨
      ∃ g' c', step g = (.ok (), g') ∧ step' = .ok c' ∧ g'.Holds m c') :
    Follows (g.control m step) (c.control step') := by
  unfold Graph.control Content.control
  rw [h.closed, h.config]
  split
  · exact ⟨h, rfl⟩
  · split
    · exact ⟨h, rfl⟩
    · obtain ⟨e, hg, hc⟩ | ⟨g', c', hg, hc, h'⟩ := hstep
      · rw [hg, hc]
        exact ⟨h, rfl⟩
      · rw [hg, hc]
        exact ⟨h', rfl⟩

/-- A graph does what its content does, and reports the same. -/
theorem follows_perform (h : g.Holds m c) (who : Thread) (hfits : r.Fits m) :
    Follows (g.perform who m r) (c.perform who r) := by
  obtain ⟨hundo, hundone⟩ := h.undo
  cases r using Request.mutationCases with
  | mutation r hr => exact follows_mutation h who hr hfits
  | begin =>
    show Follows (g.control m (Graph.begin who)) (c.control (c.begin who))
    refine follows_control h ?_
    rw [Graph.begin, Content.begin]
    obtain ⟨hg, hc⟩ | ⟨t, u, hg, hc, -⟩ := h.txn_cases
    · rw [hg, hc]
      exact .inr ⟨_, _, rfl, rfl, h.config, h.closed, h.stored, h.pinned,
        .some ⟨rfl, g.indexes, h.stored, .nil⟩⟩
    · rw [hg, hc]
      exact .inl ⟨_, rfl, rfl⟩
  | commit =>
    show Follows (g.control m (Graph.commit who)) (c.control (c.commit who))
    refine follows_control h ?_
    rw [Graph.commit, Content.commit, h.inTransaction]
    split
    · exact .inr ⟨_, _, rfl, rfl, h.config, h.closed, h.stored, h.pinned, .none⟩
    · exact .inl ⟨_, rfl, rfl⟩
  | abort =>
    show Follows (g.control m (Graph.abort who)) (c.control (c.abort who))
    refine follows_control h ?_
    rw [Graph.abort, Content.abort, h.inTransaction]
    split
    · exact .inr ⟨_, _, Prod.ext hundo rfl, rfl, hundone⟩
    · exact .inl ⟨_, rfl, rfl⟩
  | close =>
    refine ⟨?_, rfl⟩
    show g.close.Holds m (if c.closed then c else { c.undo with closed := true })
    rw [Graph.close, h.closed]
    split
    · exact h
    · exact ⟨hundone.config, rfl, hundone.stored, hundone.pinned, hundone.txn⟩

/-- A table with room has ids for whatever is added of its names. -/
theorem fits_of_within {names : Finset Term} (hm : m.Within names)
    (hasks : ∀ p ∈ r.asks, ∀ t ∈ p.terms, t ∈ names) (hr : ∀ found, r ≠ .removeFound found) :
    r.Fits m where
  encodes := by
    rintro p rfl hp
    have hencode := (hm.encodeTriple (hasks p (List.mem_singleton_self p))).2
    rwa [if_pos hp] at hencode
  decodes found he := absurd he (hr found)

theorem within_perform {names : Finset Term} (hm : m.Within names) (hstep : g.indexes.InStep)
    (who : Thread) (hasks : ∀ p ∈ r.asks, ∀ t ∈ p.terms, t ∈ names) :
    (g.perform who m r).nodes.Within names := by
  by_cases hr : r.IsMutation
  · obtain ⟨d, hd⟩ := mutated_perform hstep who m hr
    rw [hd.nodes]
    exact hd.derives.within hm hasks
  · rwa [nodes_perform_of_not_mutation who g m hr]

theorem holds_create (config : Config) :
    (create config).Holds m { config, stored := ∅, pinned := ∅ } where
  config := rfl
  closed := rfl
  stored := ⟨∅, IndexSet.represents_empty _, .empty m⟩
  pinned := .empty m
  txn := .none

/-- Pinning a statement under its ids comes to storing it and pinning it. -/
theorem Holds.pin (h : g.Holds m c) (hnone : g.txn = none) {t : IdTriple} {st : Statement}
    (hst : NodeTable.decodeTriple m t = .ok st) {indexes : IndexSet}
    (hindexes : indexes.Spells m (insert st c.stored)) :
    Holds { g with indexes, pinned := g.pinned ++ [t] } m (c.pin {st}) where
  config := h.config
  closed := h.closed
  stored := by
    rwa [Finset.insert_eq, Finset.union_comm] at hindexes
  pinned := by
    have hpinned := h.pinned.insert hst
    rw [Finset.insert_eq, Finset.insert_eq, Finset.union_comm, Finset.union_comm {st}] at hpinned
    rwa [List.toFinset_append, List.toFinset_cons, List.toFinset_nil, insert_empty_eq]
  txn := by
    obtain ⟨hg, hc⟩ | ⟨t, u, hg, -⟩ := h.txn_cases
    · show Option.Rel (Logs m indexes) g.txn c.txn
      rw [hg, hc]
      exact .none
    · rw [hnone] at hg
      cases hg

/-- Pinning statements comes to storing them and pinning them, unless one has a wildcard. -/
theorem pinAll_spec {names : Finset Term} (hm : m.Within names) (h : g.Holds m c)
    (hnone : g.txn = none) (statements : List Pattern)
    (hnames : ∀ p ∈ statements, ∀ t ∈ p.terms, t ∈ names) :
    (pinAll g m statements).2.Within names ∧ m.terms <+: (pinAll g m statements).2.terms ∧
      if statements.all Pattern.isConcrete then
        ∃ g', (pinAll g m statements).1 = .ok g' ∧ g'.Holds (pinAll g m statements).2
          (c.pin (statements.filterMap Pattern.statement?).toFinset)
      else (pinAll g m statements).1 = .error (.invalidTerm .wildcard) := by
  induction statements generalizing g m c with
  | nil => exact ⟨hm, List.prefix_rfl, g, rfl, c.pin_empty.symm ▸ h⟩
  | cons p ps ih =>
    rw [List.forall_mem_cons] at hnames
    obtain ⟨hm', hresult⟩ := hm.encodeTriple hnames.1
    rw [pinAll]
    cases hencode : NodeTable.encodeTriple m p with
    | mk result m' =>
      rw [hencode] at hm' hresult
      have hle := prefix_encodeTriple hencode
      cases hp : p.statement? with
      | none =>
        have hwildcard : p.isConcrete = false := by rw [Pattern.isConcrete, hp]; rfl
        rw [hwildcard] at hresult
        obtain rfl : result = .error (.invalidTerm .wildcard) := hresult
        rw [List.all_cons, hwildcard]
        exact ⟨hm', hle, rfl⟩
      | some st =>
        have hconcrete : p.isConcrete = true := by rw [Pattern.isConcrete, hp]; rfl
        rw [hconcrete] at hresult
        obtain ⟨ids, rfl⟩ : ∃ ids, result = .ok ids := hresult
        obtain ⟨st', rfl, hdecode⟩ := decodeTriple_encodeTriple hencode
        obtain rfl : st' = st := Option.some.inj hp
        obtain ⟨fresh, indexes, hinsert, hspells⟩ := (h.stored.grow hle).insert hdecode
        have h' := (h.grow hle).pin hnone hdecode hspells
        obtain ⟨hrest, hgrown, hpinned⟩ := ih hm' h' hnone hnames.2
        simp only [hinsert]
        rw [List.all_cons, hconcrete, List.filterMap_cons_some hp, List.toFinset_cons,
          Content.pin_insert]
        exact ⟨hrest, hle.trans hgrown, hpinned⟩

/-- A new graph stores what its content says, or is refused for the same reason. -/
theorem createPinned_follows {names : Finset Term} (hm : m.Within names) (config : Config)
    (statements : List Pattern) (hnames : ∀ p ∈ statements, ∀ t ∈ p.terms, t ∈ names) :
    (createPinned config m statements).2.Within names ∧
      m.terms <+: (createPinned config m statements).2.terms ∧
      match Content.create config statements with
      | .error e => (createPinned config m statements).1 = .error e
      | .ok c => ∃ g, (createPinned config m statements).1 = .ok g ∧
          g.Holds (createPinned config m statements).2 c := by
  obtain ⟨hm', hle, hresult⟩ := pinAll_spec hm (holds_create _) rfl statements hnames
  refine ⟨hm', hle, ?_⟩
  unfold Content.create
  by_cases hall : statements.all Pattern.isConcrete = true
  · rw [if_pos hall] at hresult ⊢
    exact hresult
  · rw [if_neg hall] at hresult ⊢
    exact hresult

end Graph

end TripleStore
