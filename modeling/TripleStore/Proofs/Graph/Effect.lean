import TripleStore.Proofs.Graph.Mirror

/-!
# What a mutation leaves stored

A mutation that succeeds changes the stored statements by what it was asked for and by nothing else.
What is added is that very statement, beside others of its value; what is deleted are the matches
under the rule of the graph, whatever ids they have, but for the pinned ones. A match that a cursor
found is deleted as the statement that it is, never by its value.
-/

namespace TripleStore

/-- What a mutation leaves of the stored statements, some of which are pinned. -/
def Request.Leaves (byValue : Bool) (stored pinned after : Set Statement) : Request → Prop
  | .add p => ∃ st : Statement, p = st.toPattern ∧ after = insert st stored
  | .delete p | .remove p => after = stored \ {st | st ∉ pinned ∧ p.Admits byValue st}
  | .removeFound found => after = stored \ ({found.statement} \ pinned)
  | .clear => after = stored ∩ pinned
  | .begin | .commit | .abort | .close => True

namespace Content

variable {c : Content}

theorem coe_sdiff_doomed (c : Content) (p : Pattern) : (↑(c.stored \ c.doomed p) : Set Statement) =
    ↑c.stored \ {st | st ∉ (↑c.pinned : Set Statement) ∧
      p.Admits c.config.capabilities.handlesLiteralTyping st} := by
  ext st
  simp only [doomed, Finset.coe_sdiff, Finset.coe_filter, Finset.mem_sdiff, Set.mem_sdiff,
    Set.mem_ofPred_eq, Finset.mem_coe]
  tauto

theorem edit_leaves {r : Request} {stored : Finset Statement} {report : Report}
    (h : c.edit r = .ok (stored, report)) :
    r.Leaves c.config.capabilities.handlesLiteralTyping ↑c.stored ↑c.pinned ↑stored := by
  cases r with
  | add p =>
    rw [edit] at h
    split at h
    · cases h
    · split at h
      · cases h
      next st hst =>
        cases h
        exact ⟨st, Pattern.eq_toPattern hst, Finset.coe_insert st c.stored⟩
  | delete p | remove p =>
    rw [edit] at h
    split at h
    · cases h
    · cases h
      exact c.coe_sdiff_doomed p
  | removeFound found =>
    rw [edit] at h
    split at h
    · cases h
    · split at h
      · cases h
      · split at h
        next hin =>
          cases h
          have hloose : found.statement ∉ (↑c.pinned : Set Statement) := (Finset.mem_sdiff.mp hin).2
          have hself : ({found.statement} : Set Statement) \ ↑c.pinned = {found.statement} :=
            sdiff_eq_left.mpr (Set.disjoint_singleton_left.mpr hloose)
          rw [Request.Leaves, Finset.coe_erase, hself]
        next hout =>
          cases h
          rw [Request.Leaves, eq_comm, sdiff_eq_left, Set.disjoint_right]
          rintro st ⟨rfl, hloose⟩ hin
          exact hout (Finset.mem_sdiff.mpr ⟨hin, hloose⟩)
  | clear =>
    rw [edit] at h
    split at h
    · cases h
    · cases h
      rw [Request.Leaves, coe_sdiff_doomed]
      ext st
      simp [Pattern.Admits, Pattern.any, Triple.constant, Node.Admits]
  | begin | commit | abort | close => trivial

end Content

namespace Graph

variable {g : Graph} {m : MemoryTable} {c : Content} {found : List Found}

/-- What the pinned triples decode to. -/
def pinnedSet {τ : Type} [NodeTable τ] (g : Graph) (nodes : τ) : Set Statement :=
  {st | ∃ t ∈ g.pinned, NodeTable.decodeTriple nodes t = .ok st}

theorem Holds.pinnedSet_eq (h : g.Holds m c) : g.pinnedSet m = ↑c.pinned := by
  ext st
  constructor
  · rintro ⟨t, ht, hst⟩
    exact (h.pinned.mem_iff hst).mp (List.mem_toFinset.mpr ht)
  · intro hst
    obtain ⟨t, ht, hdecode⟩ := h.pinned.encodes st hst
    exact ⟨t, List.mem_toFinset.mp ht, hdecode⟩

/-- A mutation that succeeds leaves stored exactly what it was asked to leave, in every index. The
matches that it may be asked to remove are those that cursors found. -/
theorem successful_mutation_leaves (h : FoundOver g m found) (who : Thread) {r : Request}
    (hfound : ∀ f, r = .removeFound f → f ∈ found) {events : List Event}
    (hok : (g.perform who m r).result = .ok events) :
    let o := g.perform who m r
    r.Leaves g.capabilities.handlesLiteralTyping (g.statementSet m) (g.pinnedSet m)
        (o.graph.statementSet o.nodes) ∧
      o.graph.indexes.InStep := by
  intro o
  obtain ⟨c, hholds⟩ := h.reachable.exists_holds
  have hfits : r.Fits m :=
    ⟨fun p he _ => encodes_of_perform_ok (he ▸ hok), fun f he => h.decodes f (hfound f he)⟩
  obtain ⟨hafter, hreport⟩ : Follows o (c.perform who r) := follows_perform hholds who hfits
  refine ⟨?_, hafter.stored.inStep⟩
  rw [capabilities, hholds.config, statementSet_eq hholds.stored,
    statementSet_eq hafter.stored, hholds.pinnedSet_eq]
  cases r using Request.mutationCases with
  | mutation r hr =>
    rw [show o.result = .ok events from hok, Content.perform_of_isMutation who c hr] at hreport
    rw [Content.perform_of_isMutation who c hr]
    split at hreport
    · cases hreport
    next hopen =>
      rw [if_neg hopen]
      split at hreport
      · cases hreport
      next stored report hedit =>
        exact Content.edit_leaves hedit
  | begin => trivial
  | commit => trivial
  | abort => trivial
  | close => trivial

theorem successful_mutation_leaves_pinned_value :
    let number (lexical : String) : Statement := ⟨.blank "b", .iri "p",
      .literal (.ofDatatype lexical Vocabulary.xsdInteger)⟩
    let made := createPinned { indexOrders := [] } MemoryTable.empty [(number "1").toPattern]
    let added :=
      (made.1.toOption.getD (create {})).perform ⟨1⟩ made.2 (.add (number "01").toPattern)
    let g := added.graph
    let m := added.nodes
    let found : Found := ⟨⟨.real 0, .real 1, .real 3⟩, number "01"⟩
    let o := g.perform ⟨2⟩ m (.removeFound found)
    FoundOver g m [found] ∧ o.result = .ok [.deleteTriple (number "01")] ∧
      o.graph.statementSet o.nodes = g.statementSet m \ ({number "01"} \ g.pinnedSet m) ∧
      number "1" ∈ o.graph.statementSet o.nodes ∧ number "01" ∉ o.graph.statementSet o.nodes ∧
      o.graph.indexes.InStep := by
  intro number made added g m found o
  have hmade : made = (.ok (made.1.toOption.getD (create {})), made.2) :=
    Prod.ext (by decide +kernel) rfl
  have hcreated : ReachableOver (made.1.toOption.getD (create {})) made.2 := .created _ _ hmade
  have hadded : ReachableOver g m := hcreated.performed ⟨1⟩ (.add (number "01").toPattern)
  have hfound : FoundOver g m [found] :=
    .yielded { pending := [⟨.any, .any, .real 3⟩] } (.start hadded) (by decide +kernel)
  have hok : o.result = .ok [.deleteTriple (number "01")] := by decide +kernel
  have hstored : g.indexes.contains ⟨.real 0, .real 1, .real 2⟩ = true := by decide +kernel
  have hone : NodeTable.decodeTriple m ⟨.real 0, .real 1, .real 2⟩ = .ok (number "1") := by
    decide +kernel
  have hpinned : g.pinned = [⟨.real 0, .real 1, .real 2⟩] := by decide +kernel
  clear_value g m
  have hloose : number "01" ∉ g.pinnedSet m := by
    rintro ⟨t, ht, hst⟩
    rw [hpinned, List.mem_singleton] at ht
    rw [ht, hone] at hst
    exact absurd (Except.ok.inj hst) (by decide)
  obtain ⟨hleaves, hstep⟩ := successful_mutation_leaves hfound ⟨2⟩
    (by rintro f ⟨⟩; exact List.mem_singleton_self found) hok
  have hleaves : o.graph.statementSet o.nodes =
      g.statementSet m \ ({number "01"} \ g.pinnedSet m) := hleaves
  refine ⟨hfound, hok, hleaves, ?_, ?_, hstep⟩
  · rw [hleaves]
    exact ⟨⟨_, hstored, hone⟩, fun h => absurd h.1 (by decide)⟩
  · rw [hleaves]
    exact fun h => h.2 ⟨rfl, hloose⟩

end Graph

end TripleStore
