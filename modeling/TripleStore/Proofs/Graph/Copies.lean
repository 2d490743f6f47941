import TripleStore.Proofs.Graph.Tables

/-!
# Adding and deleting statement by statement

What is left of a graph when the statements of another one are added to it or deleted from it one by
one. Adding each comes to the union, and one that is stored already leaves every byte as it was. A
deletion may take out several statements of equal values, which later ones then no longer find;
still, what is left is what none of them matches, and what is pinned.
-/

namespace TripleStore

open MemoryTable

/-- Tables of a kind have room for a request, and stay of the kind when it is carried out or others
give ids to some of the terms. -/
structure Request.HasRoom (who : Thread) (given : Set Term) (room : MemoryTable → Prop)
    (r : Request) : Prop where
  fits : ∀ m, room m → r.Fits m
  perform : ∀ (g : Graph) (m : MemoryTable), g.indexes.InStep → room m →
    room (g.perform who m r).nodes
  learns : ∀ m m', room m → m.Learns given m' → room m'

theorem Request.hasRoom_add {given : Set Term} {names : Finset Term} (hgiven : given ⊆ ↑names)
    {p : Pattern} (hp : ∀ t ∈ p.terms, t ∈ names) (who : Thread) :
    HasRoom who given (MemoryTable.Within names) (.add p) := by
  have hasks : ∀ q ∈ asks (.add p), ∀ t ∈ q.terms, t ∈ names := List.forall_mem_singleton.mpr hp
  exact ⟨fun m hm => Graph.fits_of_within hm hasks fun _ h => (nomatch h),
    fun g m hstep hm => Graph.within_perform hm hstep who hasks,
    fun m m' hm hlearns => hlearns.within hgiven hm⟩

/-- A deletion needs no ids. -/
theorem Request.hasRoom_delete (who : Thread) (given : Set Term) (p : Pattern) :
    HasRoom who given (fun _ => True) (.delete p) :=
  ⟨fun _ _ => ⟨fun _ h => (nomatch h), fun _ h => (nomatch h)⟩, fun _ _ _ _ => trivial,
    fun _ _ _ _ => trivial⟩

theorem firstError_map_ok {ε α : Type} (as : List α) :
    firstError (as.map (.ok : α → Except ε α)) = .ok as := by
  induction as with
  | nil => rfl
  | cons a as ih => rw [List.map_cons, firstError, ih, Except.map]

namespace Graph

variable {g : Graph} {m : MemoryTable} {c : Content} {st : Statement}

/-- Adding a statement that is stored leaves graph and table as they are. -/
theorem Holds.perform_add_of_mem (h : g.Holds m c) (hopen : g.closed = false)
    (hallowed : g.capabilities.addAllowed = true) (hst : st ∈ c.stored) (who : Thread) :
    g.perform who m (.add st.toPattern) = ⟨g, m, .ok [.addTriple st]⟩ := by
  obtain ⟨S, hS, hspells⟩ := h.stored
  obtain ⟨t, ht, hdecode⟩ := hspells.encodes st hst
  have hencode := encodeTriple_of_decodeTriple hdecode
  obtain ⟨fresh, indexes, hinsert⟩ : ∃ fresh indexes, g.indexes.insert t = .ok (fresh, indexes) :=
    ⟨_, _, IndexSet.insert_of_real (hS.real ht) g.indexes⟩
  obtain rfl : fresh = false :=
    Bool.eq_false_iff.mpr fun hfresh => (hS.of_insert hinsert).1.mp hfresh ht
  obtain rfl := h.stored.inStep.insert_unchanged hinsert
  have hop : g.operation (.add st.toPattern) { nodes := m, indexes := g.indexes } =
      (.ok (), ⟨m, g.indexes, [], [.addTriple st]⟩) := by
    simp [operation, Draft.add, hallowed, hencode, hinsert, Draft.report,
      show st.toPattern.statement? = some st from rfl]
  rw [perform_of_ok (r := .add st.toPattern) trivial hopen hop]
  cases g with
  | mk config indexes pinned txn closed => cases txn <;> simp [Transaction.record]

theorem Holds.learns {given : Set Term} {m' : MemoryTable} (h : g.Holds m c)
    (hlearns : m.Learns given m') : g.Holds m' c :=
  h.grow hlearns.prefix_terms

theorem ReachableOver.guarded (h : ReachableOver g m) : g.Guarded := by
  induction h with
  | created config statements hg => exact (createPinned_spec hg).1
  | performed who r _ ih => exact ih.perform who _ r
  | shared t _ ih => exact ih

theorem ReachableOver.pinned_subset (h : ReachableOver g m) (hholds : g.Holds m c) :
    c.pinned ⊆ c.stored := by
  intro st hst
  obtain ⟨t, ht, hdecode⟩ := hholds.pinned.encodes st hst
  have hstored : st ∈ g.statementSet m :=
    ⟨t, h.guarded.kept.indexes.contains (List.mem_cons_self ..) (List.mem_toFinset.mp ht), hdecode⟩
  rwa [statementSet_eq hholds.stored] at hstored

/-- All statements of an open graph are found. -/
theorem Holds.statements (h : g.Holds m c) (hopen : g.closed = false) :
    ∃ ts : List Statement, g.statements m Pattern.any = .ok ts ∧ ts.toFinset = c.stored := by
  obtain ⟨S, hS, hspells⟩ := h.stored
  obtain ⟨items, -, hfind, -, hmem, -⟩ :=
    findAll_spec hS (fun t ht => hspells.covers ht) Pattern.any
  rw [if_neg (Bool.eq_false_iff.mp hopen)] at hfind
  refine ⟨items.map Found.statement, ?_, ?_⟩
  · rw [Graph.statements, hfind]
    show (firstError (items.map .ok)).map _ = _
    rw [firstError_map_ok]
    rfl
  · ext st
    rw [List.mem_toFinset, hmem, statementSet_eq h.stored]
    exact and_iff_left ⟨trivial, trivial, trivial⟩

end Graph

namespace Content

variable {c : Content}

theorem edit_add (hallowed : c.config.capabilities.addAllowed = true) (st : Statement) :
    c.edit (.add st.toPattern) =
      .ok (insert st c.stored, .ofEvents [.addTriple st]) := by
  rw [edit, hallowed]
  rfl

theorem edit_delete (hallowed : c.config.capabilities.deleteAllowed = true) (p : Pattern) :
    c.edit (.delete p) = .ok (c.stored \ c.doomed p, c.deletion p) := by
  rw [edit, hallowed]
  rfl

/-- Putting in statements one by one comes to the union. -/
theorem foldl_insert (ts : List Statement) (T : Finset Statement) :
    ts.foldl (fun T st => insert st T) T = T ∪ ts.toFinset := by
  induction ts generalizing T with
  | nil => exact (Finset.union_empty T).symm
  | cons st ts ih =>
    rw [List.foldl_cons, ih, List.toFinset_cons, Finset.insert_union, Finset.union_insert]

/-- The stored statements that are pinned or that none of the statements matches. -/
def spared (c : Content) (S : Finset Statement) : Finset Statement :=
  c.stored.filter fun st => st ∈ c.pinned ∨
    ∀ u ∈ S, ¬ u.toPattern.Admits c.config.capabilities.handlesLiteralTyping st

/-- Deleting statements one by one spares what none of them matches, whatever was deleted before
its turn came. -/
theorem foldl_doomed (c : Content) (ts : List Statement) (T : Finset Statement) :
    ts.foldl (fun T st => T \ doomed { c with stored := T } st.toPattern) T =
      spared { c with stored := T } ts.toFinset := by
  induction ts generalizing T with
  | nil => simp [spared]
  | cons u ts ih =>
    rw [List.foldl_cons, ih]
    ext st
    simp only [spared, doomed, List.toFinset_cons, Finset.forall_mem_insert, Finset.mem_filter,
      Finset.mem_sdiff]
    tauto

/-- Every statement matches itself, so that deleting all of them spares the pinned ones only. -/
theorem spared_self (hpinned : c.pinned ⊆ c.stored) : c.spared c.stored = c.pinned := by
  ext st
  rw [spared, Finset.mem_filter]
  refine ⟨fun ⟨hstored, hkept⟩ => hkept.resolve_right fun hnone => ?_,
    fun hst => ⟨hpinned hst, .inl hst⟩⟩
  exact hnone st hstored (Pattern.admits_of_statement? (p := st.toPattern) rfl _)

end Content

end TripleStore
