import TripleStore.Graph.Listener
import TripleStore.Proofs.Graph.Events
import TripleStore.Proofs.Graph.Pinned
import TripleStore.Proofs.Graph.Refinement

/-!
# A listener that mirrors a graph

A listener that knows what is stored when it is registered can follow the events from then on.
Events name statements while a graph stores ids and matches by value, and matches that cursors found
may be removed long after they were deleted. The copy is exact all the same after every request,
whether it succeeds or fails, until a transaction is undone.
-/

namespace TripleStore

open MemoryTable

variable {g : Graph} {m : MemoryTable} {c : Content} {found : List Found}

namespace Graph

/-- The table gave the ids of the pinned triples. -/
theorem ReachableOver.covers_pinned (h : ReachableOver g m) : ∀ t ∈ g.pinned, m.CoversAll t := by
  induction h with
  | created config statements hg =>
    intro t ht
    obtain ⟨n, hn, rfl⟩ := List.getElem_of_mem ht
    have hdecodes := createPinned_decodes hg
    obtain ⟨st, -, hst⟩ := hdecodes.get (hdecodes.length_eq ▸ hn) hn
    exact coversAll_of_decodeTriple hst
  | @performed who r g nodes h ih =>
    rw [pinned_perform]
    have hstep := (kept_of_reachableOver h).indexes.inStep
    exact fun t ht => coversAll_mono (prefix_perform hstep who nodes r).length_le (ih t ht)
  | @shared t g nodes _ ih =>
    exact fun u hu => coversAll_mono (prefix_lookupOrCreate nodes t).length_le (ih u hu)

/-- A graph over a memory table has a content. -/
theorem ReachableOver.exists_holds (h : ReachableOver g m) : ∃ c, g.Holds m c := by
  have hkept := kept_of_reachableOver h
  obtain ⟨T, hT⟩ := hkept.indexes.exists_spells
  obtain ⟨P, hP⟩ := exists_spells (S := g.pinned.toFinset) fun t ht =>
    h.covers_pinned t (List.mem_toFinset.mp ht)
  have hopen : ∃ txn, Option.Rel (Logs m g.indexes) g.txn txn := by
    cases htxn : g.txn with
    | none => exact ⟨none, .none⟩
    | some t =>
      obtain ⟨start, hstart, hlog⟩ := hkept.undo t htxn
      obtain ⟨T₀, hT₀⟩ := hstart.exists_spells
      exact ⟨some (t.owner, T₀), .some ⟨rfl, start, hT₀, hlog⟩⟩
  obtain ⟨txn, htxn⟩ := hopen
  exact ⟨⟨g.config, T, P, txn, g.closed⟩, ⟨rfl, rfl, hT, hP, htxn⟩⟩

theorem Holds.pinned_eq_empty (h : g.Holds m c) (hpinned : g.pinned = []) : c.pinned = ∅ := by
  rw [Finset.eq_empty_iff_forall_notMem]
  intro st hst
  obtain ⟨t, ht, -⟩ := h.pinned.encodes st hst
  simp [hpinned] at ht

/-- An addition that succeeds has ids for its statement. -/
theorem encodes_of_perform_ok {who : Thread} {p : Pattern} {events : List Event}
    (hok : (g.perform who m (.add p)).result = .ok events) :
    ∃ ids, (NodeTable.encodeTriple m p).1 = .ok ids := by
  cases hencode : NodeTable.encodeTriple m p with
  | mk result nodes =>
    cases result with
    | ok ids => exact ⟨ids, rfl⟩
    | error e =>
      exfalso
      have hadd : ∃ e' d, Draft.add g.capabilities p { nodes := m, indexes := g.indexes } =
          (.error e', d) := by
        rw [Draft.add]
        split
        · exact ⟨_, _, rfl⟩
        · split
          · exact ⟨_, _, rfl⟩
          · simp only [hencode]
            exact ⟨_, _, rfl⟩
      obtain ⟨e', d, hadd⟩ := hadd
      rw [Graph.perform, mutate, hadd] at hok
      split at hok <;> cases hok

/-- Unless a transaction is undone, the events of a request tell what it leaves stored, and one that
fails leaves everything stored. -/
theorem Holds.tells (h : g.Holds m c) (hpinned : c.pinned = ∅) (who : Thread) {r : Request}
    (hr : r ≠ .abort ∧ r ≠ .close) (hfound : ∀ f, r = .removeFound f →
      NodeTable.decodeTriple m f.ids = .ok f.statement) :
    ∃ c', (g.perform who m r).graph.Holds (g.perform who m r).nodes c' ∧
      match (g.perform who m r).result with
      | .error _ => c'.stored = c.stored
      | .ok events => r.Tells c.stored c'.stored (.ofEvents events) := by
  have hfollows (hfits : r.Fits m) := follows_perform h who hfits
  have htells := (Content.tells_perform hpinned who hr).2
  cases hresult : (g.perform who m r).result with
  | error e =>
    -- a table without room for an addition is where the content does not tell what happens
    by_cases hm : r.IsMutation
    · exact ⟨c, h.perform_of_error who hm hresult, rfl⟩
    · obtain ⟨hholds, hreport⟩ :=
        hfollows ⟨fun p he => (hm (he ▸ trivial)).elim, hfound⟩
      rw [hresult] at hreport
      rw [← hreport] at htells
      exact ⟨_, hholds, htells⟩
  | ok events =>
    obtain ⟨hholds, hreport⟩ :=
      hfollows ⟨fun p he _ => encodes_of_perform_ok (he ▸ hresult), hfound⟩
    rw [hresult] at hreport
    rw [← hreport] at htells
    exact ⟨_, hholds, htells⟩

/-- The graph was made over the table, both went through any number of requests to the graph and of
terms that other users gave the table, and cursors found the matches on the way. -/
inductive FoundOver : Graph → MemoryTable → List Found → Prop where
  | start {g : Graph} {nodes : MemoryTable} : ReachableOver g nodes → FoundOver g nodes []
  | performed (who : Thread) (r : Request) {g : Graph} {nodes : MemoryTable} {found : List Found} :
      FoundOver g nodes found →
      FoundOver (g.perform who nodes r).graph (g.perform who nodes r).nodes found
  | shared (t : Term) {g : Graph} {nodes : MemoryTable} {found : List Found} :
      FoundOver g nodes found → FoundOver g (nodes.lookupOrCreate t).2 found
  | yielded (cursor : Cursor) {g : Graph} {nodes : MemoryTable} {found : List Found} {f : Found} :
      FoundOver g nodes found → (cursor.next g nodes).1 = some (.ok f) →
      FoundOver g nodes (f :: found)

namespace FoundOver

theorem reachable (h : FoundOver g m found) : ReachableOver g m := by
  induction h with
  | start h => exact h
  | performed who r _ ih => exact ih.performed who r
  | shared t _ ih => exact ih.shared t
  | yielded cursor _ _ ih => exact ih

/-- What was found keeps its terms, however long ago that was. -/
theorem decodes (h : FoundOver g m found) :
    ∀ f ∈ found, NodeTable.decodeTriple m f.ids = .ok f.statement := by
  induction h with
  | start _ => exact List.forall_mem_nil _
  | @performed who r g nodes found h ih =>
    have hstep := (kept_of_reachableOver h.reachable).indexes.inStep
    exact fun f hf => decodeTriple_of_grown (prefix_perform hstep who nodes r) (ih f hf)
  | @shared t g nodes found _ ih =>
    exact fun f hf => decodeTriple_of_grown (prefix_lookupOrCreate nodes t) (ih f hf)
  | yielded cursor _ hnext ih =>
    exact List.forall_mem_cons.mpr ⟨Cursor.decodes_of_next hnext, ih⟩

/-- A mirror of what was stored before a request becomes one of what is stored after it, or stays
one if the request fails. -/
theorem mirrored (h : FoundOver g m found) (hpinned : g.pinned = []) (who : Thread) {r : Request}
    (hr : r ≠ .abort ∧ r ≠ .close) (hfound : ∀ f, r = .removeFound f → f ∈ found)
    {o : Outcome MemoryTable} (ho : g.perform who m r = o) :
    match o.result with
    | .error _ => o.graph.statementSet o.nodes = g.statementSet m
    | .ok events =>
      events.foldl Event.mirrored (g.statementSet m) = o.graph.statementSet o.nodes ∧
        NamesRemoved r (g.statementSet m) (o.graph.statementSet o.nodes) events := by
  obtain ⟨c, hholds⟩ := h.reachable.exists_holds
  obtain ⟨c', hholds', htells⟩ := hholds.tells (hholds.pinned_eq_empty hpinned) who hr
    fun f he => h.decodes f (hfound f he)
  rw [ho] at hholds' htells
  rw [statementSet_eq hholds.stored, statementSet_eq hholds'.stored]
  revert htells
  split
  · exact fun he => congrArg _ he
  · exact Request.Tells.mirrored

end FoundOver

end Graph

/-- Listeners with all that they write down, of which the registry of their graph is a part. They
see the graph and its table, and leave both as they are. -/
structure Audience (α σ : Type) where
  call : Graph → MemoryTable → α → Event → σ → Reaction σ
  registry : σ → Registry α

/-- A listener among others that copies what events tell. The others leave its copy alone, and none
takes it out of the registry. -/
structure Mirror (α σ : Type) extends Audience α σ where
  listener : α
  token : Nat
  copy : σ → Set Statement
  copies : ∀ g m e s, copy (call g m listener e s).state = e.mirrored (copy s)
  spared : ∀ l, l ≠ listener → ∀ g m e s, copy (call g m l e s).state = copy s
  stays : ∀ l g m e s, (token, listener) ∈ (registry s).entries →
    (token, listener) ∈ (registry (call g m l e s).state).entries

namespace Mirror

variable {α σ : Type} (M : Mirror α σ) {s : σ}

def Registered (s : σ) : Prop := (M.token, M.listener) ∈ (M.registry s).entries

def notify (g : Graph) (m : MemoryTable) (events : List Event) (s : σ) : σ :=
  deliver (M.call g m) (M.registry s).snapshot events s

/-- The mirror copies an event if it is among the listeners, be it called once or more often. -/
theorem copy_foldl (g : Graph) (m : MemoryTable) (e : Event) (listeners : List α) (s : σ) :
    let told := listeners.foldl (fun s l => (M.call g m l e s).state) s
    (M.listener ∉ listeners → M.copy told = M.copy s) ∧
      (M.listener ∈ listeners → M.copy told = e.mirrored (M.copy s)) := by
  induction listeners generalizing s with
  | nil => exact ⟨fun _ => rfl, fun h => absurd h List.not_mem_nil⟩
  | cons l rest ih =>
    obtain ⟨hout, hin⟩ := ih (M.call g m l e s).state
    rw [List.foldl_cons]
    by_cases hl : l = M.listener
    · subst hl
      rw [M.copies] at hout hin
      refine ⟨fun h => absurd List.mem_cons_self h, fun _ => ?_⟩
      by_cases hrest : M.listener ∈ rest
      · rw [hin hrest, Event.mirrored_mirrored]
      · exact hout hrest
    · rw [M.spared l hl] at hout hin
      rw [List.mem_cons, or_iff_right (Ne.symm hl)]
      exact ⟨hout, hin⟩

theorem registered_foldl (g : Graph) (m : MemoryTable) (e : Event) (listeners : List α)
    (h : M.Registered s) :
    M.Registered (listeners.foldl (fun s l => (M.call g m l e s).state) s) := by
  induction listeners generalizing s with
  | nil => exact h
  | cons l rest ih => exact ih (M.stays l g m e s h)

/-- A registered mirror copies all events, and stays registered. -/
theorem notify_spec (g : Graph) (m : MemoryTable) (events : List Event) (h : M.Registered s) :
    M.copy (M.notify g m events s) = events.foldl Event.mirrored (M.copy s) ∧
      M.Registered (M.notify g m events s) := by
  have hin : M.listener ∈ (M.registry s).snapshot := List.mem_map.mpr ⟨_, h, rfl⟩
  rw [notify]
  generalize (M.registry s).snapshot = listeners at hin
  induction events generalizing s with
  | nil => exact ⟨rfl, h⟩
  | cons e events ih =>
    obtain ⟨hcopy, hregistered⟩ := ih (M.registered_foldl g m e listeners h)
    rw [List.foldl_cons, ← (M.copy_foldl g m e listeners s).2 hin]
    exact ⟨hcopy, hregistered⟩

end Mirror

/-- A graph over a memory table, with what its cursors found and what its listeners wrote down. -/
structure Watch (σ : Type) where
  graph : Graph
  nodes : MemoryTable
  found : List Found
  memory : σ

namespace Watch

variable {α σ : Type}

/-- What may happen to a graph that is watched. -/
inductive Step (σ : Type) where
  | ask (who : Thread) (r : Request)
  /-- Any cursor of the graph takes a step. -/
  | next (cursor : Cursor)
  /-- Another user of the node table asks for the id of a term. -/
  | share (t : Term)
  /-- Something else is written down, or a listener is registered or taken out. -/
  | outside (memory : σ)

def statements (w : Watch σ) : Set Statement := w.graph.statementSet w.nodes

/-- Takes a step. The events of a request that succeeds are delivered. -/
def step (M : Mirror α σ) (w : Watch σ) : Step σ → Watch σ
  | .ask who r =>
    let o := w.graph.perform who w.nodes r
    { w with
      graph := o.graph
      nodes := o.nodes
      memory :=
        match o.result with
        | .error _ => w.memory
        | .ok events => M.notify o.graph o.nodes events w.memory }
  | .next cursor =>
    { w with
      found :=
        match (cursor.next w.graph w.nodes).1 with
        | some (.ok f) => f :: w.found
        | _ => w.found }
  | .share t => { w with nodes := (w.nodes.lookupOrCreate t).2 }
  | .outside memory => { w with memory }

/-- No transaction is undone, what is to be removed was found at some time, and the mirror is left
alone. -/
def Allows (M : Mirror α σ) (w : Watch σ) : Step σ → Prop
  | .ask _ r => (r ≠ .abort ∧ r ≠ .close) ∧ ∀ f, r = .removeFound f → f ∈ w.found
  | .outside memory => M.copy memory = M.copy w.memory ∧ M.Registered memory
  | .next _ | .share _ => True

def after (M : Mirror α σ) (w : Watch σ) (steps : List (Step σ)) : Watch σ :=
  steps.foldl (step M) w

/-- Each step is allowed when it is taken. -/
def AllowsAll (M : Mirror α σ) (w : Watch σ) : List (Step σ) → Prop
  | [] => True
  | first :: rest => w.Allows M first ∧ (w.step M first).AllowsAll M rest

/-- The mirror is registered, and its copy is what the graph stores. -/
structure Mirrored (M : Mirror α σ) (w : Watch σ) : Prop where
  found : w.graph.FoundOver w.nodes w.found
  unpinned : w.graph.pinned = []
  registered : M.Registered w.memory
  copy : M.copy w.memory = w.statements

variable {M : Mirror α σ} {w start : Watch σ}

/-- The listeners are told of a request that succeeds, and the mirror copies what it changed. -/
theorem Mirrored.ask (h : w.Mirrored M) {who : Thread} {r : Request}
    (hr : w.Allows M (.ask who r)) : (w.step M (.ask who r)).Mirrored M := by
  have hframe := Graph.sameFrame_perform who w.nodes hr.1.2 (g := w.graph)
  have hmirrored := h.found.mirrored h.unpinned who hr.1 hr.2 rfl
  have hmemory : M.Registered (w.step M (.ask who r)).memory ∧
      M.copy (w.step M (.ask who r)).memory = (w.step M (.ask who r)).statements := by
    rw [Watch.step]
    cases hresult : (w.graph.perform who w.nodes r).result with
    | error e =>
      rw [hresult] at hmirrored
      exact ⟨h.registered, h.copy.trans hmirrored.symm⟩
    | ok events =>
      rw [hresult] at hmirrored
      obtain ⟨hcopy, hregistered⟩ := M.notify_spec (w.graph.perform who w.nodes r).graph
        (w.graph.perform who w.nodes r).nodes events h.registered
      refine ⟨hregistered, hcopy.trans ?_⟩
      rw [h.copy]
      exact hmirrored.1
  exact ⟨h.found.performed who r, hframe.2.1.trans h.unpinned, hmemory.1, hmemory.2⟩

theorem Mirrored.step (h : w.Mirrored M) {s : Step σ} (hs : w.Allows M s) :
    (w.step M s).Mirrored M := by
  cases s with
  | ask who r => exact h.ask hs
  | next cursor =>
    refine ⟨?_, h.unpinned, h.registered, h.copy⟩
    show w.graph.FoundOver w.nodes (match (cursor.next w.graph w.nodes).1 with
      | some (.ok f) => f :: w.found
      | _ => w.found)
    split
    next f hnext => exact h.found.yielded cursor hnext
    next => exact h.found
  | share t =>
    have hfound := h.found.shared t
    refine ⟨hfound, h.unpinned, h.registered, h.copy.trans ?_⟩
    obtain ⟨c, hholds⟩ := h.found.reachable.exists_holds
    have hgrown := hholds.grow (prefix_lookupOrCreate w.nodes t)
    exact (Graph.statementSet_eq hholds.stored).trans (Graph.statementSet_eq hgrown.stored).symm
  | outside memory => exact ⟨h.found, h.unpinned, hs.2, hs.1.trans h.copy⟩

theorem Mirrored.after (h : w.Mirrored M) {steps : List (Step σ)} (hsteps : w.AllowsAll M steps) :
    (w.after M steps).Mirrored M := by
  induction steps generalizing w with
  | nil => exact h
  | cons first rest ih => exact ih (h.step hsteps.1) hsteps.2

end Watch

end TripleStore
