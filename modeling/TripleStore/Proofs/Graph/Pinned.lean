import Mathlib.Combinatorics.Enumerative.DoubleCounting
import TripleStore.Proofs.Graph.Query
import TripleStore.Proofs.Graph.Threads

/-!
# Pinned triples

The triples that a graph was made with are stored in every index for good. No way of deleting takes
a pinned triple out, but taking changes back does not look whether a triple is pinned. So the log of
the open transaction is part of the invariant: no change in it is about a pinned triple. Nothing is
assumed of the node tables that the requests meet.
-/

namespace TripleStore

open MemoryTable

def Change.ids : Change → IdTriple
  | .added t | .removed t => t

/-- None of the changes is about a pinned triple. -/
def Untouched (pinned : List IdTriple) (changes : List Change) : Prop :=
  ∀ c ∈ changes, c.ids ∉ pinned

variable {pinned : List IdTriple}

theorem untouched_nil : Untouched pinned [] := fun _ hc => absurd hc List.not_mem_nil

theorem Untouched.append {changes further : List Change} (h : Untouched pinned changes)
    (h' : Untouched pinned further) : Untouched pinned (changes ++ further) :=
  List.forall_mem_append.mpr ⟨h, h'⟩

theorem Untouched.concat {changes : List Change} {c : Change} (h : Untouched pinned changes)
    (hc : c.ids ∉ pinned) : Untouched pinned (changes ++ [c]) :=
  h.append (List.forall_mem_singleton.mpr hc)

/-- All indexes hold the same triples, with the pinned ones among them. -/
def IndexSet.Stores (pinned : List IdTriple) (s : IndexSet) : Prop :=
  ∃ S, s.Represents S ∧ ∀ t ∈ pinned, t ∈ S

namespace IndexSet.Stores

variable {s s' : IndexSet} {t : IdTriple} {changed : Bool}

theorem inStep (h : s.Stores pinned) : s.InStep := by
  obtain ⟨S, hS, -⟩ := h
  exact ⟨S, hS⟩

theorem insert (h : s.Stores pinned) (hinsert : s.insert t = .ok (changed, s')) :
    s'.Stores pinned := by
  obtain ⟨S, hS, hpinned⟩ := h
  exact ⟨_, (hS.of_insert hinsert).2.1, fun u hu => Finset.mem_insert_of_mem (hpinned u hu)⟩

theorem insert_self (h : s.Stores pinned) (hinsert : s.insert t = .ok (changed, s')) :
    s'.Stores (pinned ++ [t]) := by
  obtain ⟨S, hS, hpinned⟩ := h
  refine ⟨_, (hS.of_insert hinsert).2.1, List.forall_mem_append.mpr ⟨fun u hu => ?_, ?_⟩⟩
  · exact Finset.mem_insert_of_mem (hpinned u hu)
  · exact List.forall_mem_singleton.mpr (Finset.mem_insert_self t S)

theorem remove (h : s.Stores pinned) (ht : t ∉ pinned) (hremove : s.remove t = .ok (changed, s')) :
    s'.Stores pinned := by
  obtain ⟨S, hS, hpinned⟩ := h
  refine ⟨_, (hS.of_remove hremove).2.1, fun u hu => Finset.mem_erase.mpr ⟨?_, hpinned u hu⟩⟩
  rintro rfl
  exact ht hu

/-- No pinned triple is new. -/
theorem notMem_of_insert (h : s.Stores pinned) (hinsert : s.insert t = .ok (true, s')) :
    t ∉ pinned := by
  obtain ⟨S, hS, hpinned⟩ := h
  exact fun ht => (hS.of_insert hinsert).1.mp rfl (hpinned t ht)

theorem contains (h : s.Stores pinned) {x : TripleIndex} (hx : x ∈ s.indexes) (ht : t ∈ pinned) :
    x.contains t = true := by
  obtain ⟨S, hS, hpinned⟩ := h
  exact ((hS.index hx).contains_iff (hS.real (hpinned t ht))).mpr (hpinned t ht)

theorem card_le (h : s.Stores pinned) : pinned.toFinset.card ≤ s.size := by
  obtain ⟨S, hS, hpinned⟩ := h
  rw [hS.size_eq]
  exact Finset.card_le_card fun t ht => hpinned t (List.mem_toFinset.mp ht)

end IndexSet.Stores

/-- A mutation leaves the pinned triples stored and notes no change of them. -/
theorem Draft.Derives.stores {τ : Type} [NodeTable τ] {asked : List Pattern} {d₀ d : Draft τ}
    (h : Draft.Derives pinned asked d₀ d) (hs : d₀.indexes.Stores pinned)
    (hchanges : Untouched pinned d₀.changes) :
    d.indexes.Stores pinned ∧ Untouched pinned d.changes := by
  induction h with
  | refl => exact ⟨hs, hchanges⟩
  | report e _ ih => exact ih
  | encode _ _ ih => exact ih
  | @add _ _ _ ids fresh _ _ _ _ hinsert ih =>
    refine ⟨ih.1.insert hinsert, ?_⟩
    cases fresh with
    | true => exact ih.2.concat (c := .added ids) (ih.1.notMem_of_insert hinsert)
    | false => exact ih.2
  | @remove _ ids found _ _ hloose hremove ih =>
    have hids : ids ∉ pinned := fun hin => by
      rw [List.contains_iff_mem.mpr hin] at hloose
      cases hloose
    refine ⟨ih.1.remove hids hremove, ?_⟩
    cases found with
    | true => exact ih.2.concat (c := .removed ids) hids
    | false => exact ih.2

namespace Graph

variable {τ : Type} [NodeTable τ] {g g' : Graph}

/-- The pinned triples are stored, they were when the open transaction began, and its log is about
none of them. -/
structure Guarded (g : Graph) : Prop where
  kept : g.Kept (IndexSet.Stores g.pinned)
  log : ∀ t, g.txn = some t → Untouched g.pinned t.undo

theorem pinned_perform (who : Thread) (g : Graph) (nodes : τ) (r : Request) :
    (g.perform who nodes r).graph.pinned = g.pinned := by
  by_cases hr : r = .close
  · subst hr
    show g.close.pinned = g.pinned
    rw [close]
    split
    · rfl
    · exact (sameFrame_undo g).2.1
  · exact (sameFrame_perform who nodes hr).2.1

/-- What is no mutation opens a transaction without changes, ends one, or leaves it as it is. -/
theorem txn_perform_of_not_mutation (who : Thread) (g : Graph) (nodes : τ) {r : Request}
    (hr : ¬ r.IsMutation) {t : Transaction} (ht : (g.perform who nodes r).graph.txn = some t) :
    g.txn = some t ∨ t.undo = [] := by
  have hcontrol {step : Graph → Except Error Unit × Graph}
      (hstep : (step g).2.txn = some t → g.txn = some t ∨ t.undo = [])
      (h : (g.control nodes step).graph.txn = some t) : g.txn = some t ∨ t.undo = [] := by
    rw [control] at h
    split at h
    · exact .inl h
    · split at h
      · exact .inl h
      · exact hstep h
  have hundo (h : g.undo.2.txn = some t) : g.txn = some t ∨ t.undo = [] := by
    rw [txn_undo] at h
    cases h
  cases r using Request.mutationCases with
  | mutation r hm => exact absurd hm hr
  | begin =>
    refine hcontrol (fun h => ?_) ht
    rw [begin] at h
    split at h
    · exact .inl h
    · cases h
      exact .inr rfl
  | commit =>
    refine hcontrol (fun h => ?_) ht
    rw [commit] at h
    split at h
    · cases h
    · exact .inl h
  | abort =>
    refine hcontrol (fun h => ?_) ht
    rw [abort] at h
    split at h
    · exact hundo h
    · exact .inl h
  | close =>
    have h : g.close.txn = some t := ht
    rw [close] at h
    split at h
    · exact .inl h
    · exact hundo h

/-- Every request, whether it succeeds or fails, keeps the pinned triples guarded. -/
theorem Guarded.perform (h : g.Guarded) (who : Thread) (nodes : τ) (r : Request) :
    (g.perform who nodes r).graph.Guarded := by
  have hstep : g.indexes.InStep := h.kept.indexes.inStep
  refine ⟨?_, ?_⟩
  · rw [pinned_perform]
    refine h.kept.perform (fun _ hs => hs.inStep) who nodes r fun hr => ?_
    obtain ⟨d, hd⟩ := mutated_perform hstep who nodes hr
    rcases hd.graph with he | he
    · rw [he]
      exact h.kept.indexes
    · rw [he]
      exact (hd.derives.stores h.kept.indexes untouched_nil).1
  · rw [pinned_perform]
    intro t ht
    by_cases hr : r.IsMutation
    · obtain ⟨d, hd⟩ := mutated_perform hstep who nodes hr
      rcases hd.graph with he | he
      · rw [he] at ht
        exact h.log t ht
      · rw [he] at ht
        obtain ⟨t₀, ht₀, rfl⟩ := Option.map_eq_some_iff.mp ht
        exact (h.log t₀ ht₀).append (hd.derives.stores h.kept.indexes untouched_nil).2
    · rcases txn_perform_of_not_mutation who g nodes hr ht with ht | hnone
      · exact h.log t ht
      · rw [hnone]
        exact untouched_nil

theorem Guarded.after (h : g.Guarded) (past : List (Turn τ)) :
    (g.after past).Guarded ∧ (g.after past).pinned = g.pinned := by
  induction past generalizing g with
  | nil => exact ⟨h, rfl⟩
  | cons t past ih =>
    have hturn : (t.take g).Guarded ∧ (t.take g).pinned = g.pinned := by
      rw [Turn.take]
      split
      next r _ => exact ⟨h.perform t.who t.nodes r, pinned_perform t.who g t.nodes r⟩
      · exact ⟨h, rfl⟩
    obtain ⟨hguarded, hpinned⟩ := ih hturn.1
    exact ⟨hguarded, hpinned.trans hturn.2⟩

/-- A new graph pins the ids that the table gave its statements, and stores them. -/
theorem createPinned_spec {config : Config} {nodes nodes' : τ} {statements : List Pattern}
    (hg : createPinned config nodes statements = (.ok g, nodes')) :
    g.Guarded ∧ List.Forall₂ (fun p ids => ∃ table : τ,
      (NodeTable.encodeTriple table p).1 = .ok ids) statements g.pinned := by
  obtain ⟨hstores, hnone, hids⟩ := pinAll_steps
    (P := fun (_ : τ) g done => g.indexes.Stores g.pinned ∧ g.txn = none ∧
      List.Forall₂ (fun p ids => ∃ table : τ, (NodeTable.encodeTriple table p).1 = .ok ids)
        done g.pinned)
    (fun {nodes} _ _ _ _ _ _ _ h hencode hinsert =>
      ⟨h.1.insert_self hinsert, h.2.1,
        List.rel_append h.2.2 (.cons ⟨nodes, congrArg Prod.fst hencode⟩ .nil)⟩)
    [] statements ⟨⟨∅, IndexSet.represents_empty _, by simp [create]⟩, rfl, .nil⟩ hg
  exact ⟨⟨.of_no_transaction hstores hnone, fun t ht => by rw [hnone] at ht; cases ht⟩, hids⟩

/-- In a graph over a memory table the pinned triples decode to the statements it was made with. -/
theorem createPinned_decodes {config : Config} {nodes nodes' : MemoryTable}
    {statements : List Pattern} (hg : createPinned config nodes statements = (.ok g, nodes')) :
    List.Forall₂ (fun p ids => ∃ st : Statement, p = st.toPattern ∧
      NodeTable.decodeTriple nodes' ids = .ok st) statements g.pinned := by
  refine pinAll_steps
    (P := fun (m : MemoryTable) g done => List.Forall₂ (fun p ids => ∃ st : Statement,
      p = st.toPattern ∧ NodeTable.decodeTriple m ids = .ok st) done g.pinned)
    (fun {m _ _ _ _ m' _ _} hdecodes hencode _ => ?_) [] statements .nil hg
  refine List.rel_append (hdecodes.imp ?_) (.cons (decodeTriple_encodeTriple hencode) .nil)
  rintro p ids ⟨st, hst, hdecode⟩
  exact ⟨st, hst, decodeTriple_of_grown (prefix_encodeTriple hencode) hdecode⟩

/-- Different statements are different pinned triples. -/
theorem card_statements_le {m : MemoryTable} {statements : List Pattern}
    (h : List.Forall₂ (fun p ids => ∃ st : Statement, p = st.toPattern ∧
      NodeTable.decodeTriple m ids = .ok st) statements pinned) :
    statements.toFinset.card ≤ pinned.toFinset.card := by
  refine Finset.card_le_card_of_forall_subsingleton
    (fun p ids => ∃ st : Statement, p = st.toPattern ∧ NodeTable.decodeTriple m ids = .ok st)
    (fun p hp => ?_) ?_
  · obtain ⟨n, hn, rfl⟩ := List.getElem_of_mem (List.mem_toFinset.mp hp)
    have hn' : n < pinned.length := h.length_eq ▸ hn
    exact ⟨pinned[n], List.mem_toFinset.mpr (List.getElem_mem hn'), h.get hn hn'⟩
  · rintro ids - p ⟨-, st, rfl, hst⟩ q ⟨-, st', rfl, hst'⟩
    rw [Except.ok.inj (hst.symm.trans hst')]

/-- What holds of a graph that has the pinned triples for good: they are in every index, no change
of the open transaction is about them, and the graph counts them. -/
structure KeepsPinned (pinned : List IdTriple) (g : Graph) : Prop where
  stored : ∀ t ∈ pinned, ∀ x ∈ g.indexes.indexes, x.contains t = true
  unlogged : ∀ txn, g.txn = some txn → ∀ c ∈ txn.undo, c.ids ∉ pinned
  size : g.closed = false → ∃ n, g.size = .ok n ∧ pinned.toFinset.card ≤ n
  not_isEmpty : pinned ≠ [] → g.isEmpty ≠ .ok true

theorem Guarded.keepsPinned (h : g.Guarded) : g.KeepsPinned g.pinned := by
  have hcard := h.kept.indexes.card_le
  refine ⟨fun t ht x hx => h.kept.indexes.contains hx ht, h.log, fun hopen => ?_,
    fun hsome hempty => ?_⟩
  · exact ⟨g.indexes.size, by rw [size, hopen]; rfl, hcard⟩
  · have hpositive : 0 < g.pinned.toFinset.card :=
      Finset.card_pos.mpr (List.toFinset_nonempty_iff _ |>.mpr hsome)
    rw [isEmpty, size] at hempty
    split at hempty
    · cases hempty
    · rw [Except.map, Except.ok.injEq, beq_iff_eq] at hempty
      omega

/-- Whatever threads ask of a graph after it was made, the statements it was made with are stored in
every index, under the ids that the node table gave them, and no change of the open transaction is
about one of them. So the graph never counts fewer triples than there are such statements, and is
never found empty if there is one. -/
theorem pinned_always_stored :
    (∀ {τ : Type} [NodeTable τ] {config : Config} {nodes nodes' : τ} {statements : List Pattern}
      {g : Graph}, createPinned config nodes statements = (.ok g, nodes') →
        List.Forall₂ (fun p ids => ∃ table : τ, (NodeTable.encodeTriple table p).1 = .ok ids)
          statements g.pinned ∧
        ∀ past : List (Turn τ), (g.after past).KeepsPinned g.pinned) ∧
      ∀ {config : Config} {nodes nodes' : MemoryTable} {statements : List Pattern} {g : Graph},
        createPinned config nodes statements = (.ok g, nodes') →
        List.Forall₂ (fun p ids => ∃ st : Statement, p = st.toPattern ∧
          NodeTable.decodeTriple nodes' ids = .ok st) statements g.pinned ∧
        ∀ (past : List (Turn MemoryTable)) (n : Nat), (g.after past).size = .ok n →
          statements.toFinset.card ≤ n := by
  have hkeeps {τ : Type} [NodeTable τ] {config : Config} {nodes nodes' : τ}
      {statements : List Pattern} {g : Graph}
      (hg : createPinned config nodes statements = (.ok g, nodes')) (past : List (Turn τ)) :
      (g.after past).KeepsPinned g.pinned := by
    obtain ⟨hguarded, hpinned⟩ := (createPinned_spec hg).1.after past
    exact hpinned ▸ hguarded.keepsPinned
  refine ⟨fun hg => ⟨(createPinned_spec hg).2, hkeeps hg⟩, fun {_ _ _ _ g} hg => ?_⟩
  have hdecodes := createPinned_decodes hg
  refine ⟨hdecodes, fun past n hn => ?_⟩
  have hopen : (g.after past).closed = false := by
    by_contra hclosed
    rw [size, if_pos (Bool.not_eq_false _ ▸ hclosed)] at hn
    cases hn
  obtain ⟨n', hn', hcard⟩ := (hkeeps hg past).size hopen
  cases hn'.symm.trans hn
  exact (card_statements_le hdecodes).trans hcard

theorem pinned_always_stored_past_every_deletion :
    let number (lexical : String) : Pattern := ⟨.term (.blank "b"), .term (.iri "p"),
      .term (.literal (.ofDatatype lexical Vocabulary.xsdInteger))⟩
    let statements := [number "1", number "2", number "1"]
    let made := createPinned {} MemoryTable.empty statements
    let found : Found := ⟨⟨.real 0, .real 1, .real 2⟩, ⟨.blank "b", .iri "p",
      .literal (.ofDatatype "1" Vocabulary.xsdInteger)⟩⟩
    let turn (r : Request) : Turn MemoryTable := ⟨⟨1⟩, made.2, .request r⟩
    let past := [turn .begin, turn (.add (number "1")), turn (.delete (number "01")),
      turn (.remove Pattern.any), turn (.removeFound found), turn .clear, turn .abort]
    ∃ g, made = (.ok g, made.2) ∧ g.pinned.contains found.ids = true ∧
      (g.after past).KeepsPinned g.pinned ∧
      (g.after past).size = .ok 2 ∧ statements.toFinset.card ≤ 2 := by
  intro number statements made found turn past
  let g := made.1.toOption.getD (create {})
  have hg : made = (.ok g, made.2) := Prod.ext (by decide +kernel) rfl
  have hsize : (g.after past).size = .ok 2 := by decide +kernel
  refine ⟨g, hg, by decide +kernel, (pinned_always_stored.1 hg).2 past, hsize, ?_⟩
  exact (pinned_always_stored.2 hg).2 past 2 hsize

end Graph

end TripleStore
