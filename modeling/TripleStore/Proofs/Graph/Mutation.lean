import TripleStore.Graph.Request
import TripleStore.Proofs.Graph.Undo
import TripleStore.Proofs.Index.Query

/-!
# What a mutation leaves behind

`Draft.Derives` says once which steps a mutation is made of: it gives ids to the terms that it is
asked to add, puts triples in, takes triples out that are not pinned, and notes each effective
change. A mutation that fails leaves the bytes of the indexes as they were, and one that succeeds
hands its log to the open transaction. Nothing is assumed of the node table.
-/

namespace TripleStore

theorem Pattern.eq_toPattern {p : Pattern} {t : Statement} (h : p.statement? = some t) :
    p = t.toPattern := by
  obtain ⟨s, p', o⟩ := p
  cases s <;> cases p' <;> cases o <;> cases h
  rfl

/-- The request changes triples and neither the transaction nor the life of the graph. -/
def Request.IsMutation : Request → Prop
  | .add _ | .delete _ | .remove _ | .removeFound _ | .clear => True
  | .begin | .commit | .abort | .close => False

/-- A request is a mutation or one of the others. -/
@[elab_as_elim]
theorem Request.mutationCases {motive : Request → Prop}
    (mutation : ∀ r : Request, r.IsMutation → motive r) (begin : motive .begin)
    (commit : motive .commit) (abort : motive .abort) (close : motive .close) (r : Request) :
    motive r := by
  cases r with
  | add p => exact mutation _ trivial
  | delete p => exact mutation _ trivial
  | remove p => exact mutation _ trivial
  | removeFound found => exact mutation _ trivial
  | clear => exact mutation _ trivial
  | begin => exact begin
  | commit => exact commit
  | abort => exact abort
  | close => exact close

def Request.KeepsTransaction (r : Request) : Prop := r ≠ .commit ∧ r ≠ .abort ∧ r ≠ .close

instance (r : Request) : Decidable r.KeepsTransaction := inferInstanceAs (Decidable (_ ∧ _ ∧ _))

/-- The patterns that the request asks to be added. -/
def Request.asks : Request → List Pattern
  | .add p => [p]
  | _ => []

namespace Draft

variable {τ : Type} [NodeTable τ]

/-- The draft came about from the first one by the steps of mutations: only patterns that were asked
to be added are given ids, and no pinned triple is taken out. -/
inductive Derives (pinned : List IdTriple) (asked : List Pattern) (d₀ : Draft τ) :
    Draft τ → Prop where
  | refl : Derives pinned asked d₀ d₀
  | report (e : Event) {d : Draft τ} : Derives pinned asked d₀ d →
      Derives pinned asked d₀ (d.report e)
  | encode {d : Draft τ} {p : Pattern} : Derives pinned asked d₀ d → p ∈ asked →
      Derives pinned asked d₀ { d with nodes := (NodeTable.encodeTriple d.nodes p).2 }
  | add {d : Draft τ} {nodes : τ} {p ids fresh indexes} : Derives pinned asked d₀ d → p ∈ asked →
      NodeTable.encodeTriple d.nodes p = (.ok ids, nodes) →
      d.indexes.insert ids = .ok (fresh, indexes) →
      Derives pinned asked d₀ { d with
        nodes, indexes
        changes := if fresh then d.changes ++ [.added ids] else d.changes }
  | remove {d : Draft τ} {ids found indexes} : Derives pinned asked d₀ d →
      pinned.contains ids = false →
      d.indexes.remove ids = .ok (found, indexes) →
      Derives pinned asked d₀
        { d with indexes, changes := if found then d.changes ++ [.removed ids] else d.changes }

variable {pinned : List IdTriple} {asked : List Pattern} {d₀ d : Draft τ}

theorem derives_add (h : Derives pinned asked d₀ d) (caps : Capabilities) {p : Pattern}
    (hp : p ∈ asked) : Derives pinned asked d₀ (d.add caps p).2 := by
  rw [add]
  split
  · exact h
  · split
    · exact h
    next t _ =>
      cases hencode : NodeTable.encodeTriple d.nodes p with
      | mk result nodes =>
        have hnodes : Derives pinned asked d₀ { d with nodes } := by
          have hstep := h.encode hp
          rwa [hencode] at hstep
        cases result with
        | error e => exact hnodes
        | ok ids =>
          simp only
          split
          · exact hnodes
          next hinsert => exact (h.add hp hencode hinsert).report (.addTriple t)

theorem derives_deleteAll (ids : List IdTriple) {d : Draft τ} (h : Derives pinned asked d₀ d) :
    Derives pinned asked d₀ (deleteAll pinned ids d).2 := by
  induction ids generalizing d with
  | nil => exact h
  | cons t ids ih =>
    rw [deleteAll]
    split
    · exact ih h
    next hout =>
      have hloose := Bool.eq_false_iff.mpr hout
      split
      · exact h
      next removed _ =>
        split
        · exact h
        next hremove => exact ih (h.remove hloose hremove)
        next hremove => exact ih ((h.remove hloose hremove).report (.deleteTriple removed))

/-- If the triples are stored, each once, then each is a change, as clearing takes for granted. -/
theorem clearAll_eq_deleteAll (pinned : List IdTriple) {ids : List IdTriple} {d : Draft τ}
    {S : Finset IdTriple} (hS : d.indexes.Represents S) (hids : ids.Nodup)
    (hstored : ∀ t ∈ ids, t.Real → t ∈ S) : clearAll pinned ids d = deleteAll pinned ids d := by
  induction ids generalizing d S with
  | nil => rfl
  | cons t ids ih =>
    obtain ⟨hfirst, hrest⟩ := List.nodup_cons.mp hids
    rw [List.forall_mem_cons] at hstored
    rw [clearAll, deleteAll]
    split
    · exact ih hS hrest hstored.2
    · split
      · rfl
      · cases hremove : d.indexes.remove t with
        | error e => rfl
        | ok answer =>
          obtain ⟨changed, indexes⟩ := answer
          have ht : t.Real := IndexSet.real_of_remove hremove
          obtain ⟨hfound, hdrop, -⟩ := hS.of_remove hremove
          obtain rfl : changed = true := hfound.mpr (hstored.1 ht)
          refine ih hdrop hrest fun u hu hreal => ?_
          have hne : u ≠ t := fun he => hfirst (he ▸ hu)
          exact Finset.mem_erase.mpr ⟨hne, hstored.2 u hu hreal⟩

variable {g : Graph}

theorem derives_delete (h : Derives g.pinned asked d₀ d) (p : Pattern) :
    Derives g.pinned asked d₀ (delete g p d).2 := by
  have hall := derives_deleteAll (g.matching d.nodes p) h
  rw [delete]
  split
  · exact h
  · split
    next hresult =>
      rw [hresult] at hall
      exact hall
    next hresult =>
      rw [hresult] at hall
      split
      next t _ =>
        split
        · exact hall.report (.deleteTriple t)
        · exact hall
      · exact hall

theorem derives_remove (h : Derives g.pinned asked d₀ d) (p : Pattern) :
    Derives g.pinned asked d₀ (remove g p d).2 := by
  have hall := derives_deleteAll (g.matching d.nodes p) h
  rw [remove]
  split
  · exact h
  · split
    next hresult =>
      rw [hresult] at hall
      exact hall
    next hresult =>
      rw [hresult] at hall
      exact hall.report (.removeRequest p)

theorem derives_removeFound (h : Derives g.pinned asked d₀ d) (found : Found) :
    Derives g.pinned asked d₀ (removeFound g found d).2 := by
  rw [removeFound]
  split
  · exact h
  · split
    · exact h
    · split
      · exact h
      next hout =>
        have hloose := Bool.eq_false_iff.mpr hout
        split
        · exact h
        next hremove => exact h.remove hloose hremove
        next hremove => exact (h.remove hloose hremove).report (.deleteTriple found.statement)

theorem matching_any (g : Graph) (nodes : τ) :
    g.matching nodes Pattern.any = g.indexes.find IdTriple.any :=
  List.append_nil _

/-- The matches that clearing goes through are stored, each once. -/
theorem clearAll_matching (hg : g.indexes.InStep) (hd : d.indexes = g.indexes) :
    clearAll g.pinned (g.matching d.nodes Pattern.any) (d.report .removeAllStart) =
      deleteAll g.pinned (g.matching d.nodes Pattern.any) (d.report .removeAllStart) := by
  obtain ⟨S, hS⟩ := hg
  obtain ⟨hnodup, hstored⟩ := hS.nodup_find IdTriple.any
  rw [matching_any]
  exact clearAll_eq_deleteAll g.pinned (hd ▸ hS : d.indexes.Represents S) hnodup hstored

theorem derives_clear (h : Derives g.pinned asked d₀ d) (hg : g.indexes.InStep)
    (hd : d.indexes = g.indexes) : Derives g.pinned asked d₀ (clear g d).2 := by
  have hall := derives_deleteAll (g.matching d.nodes Pattern.any) (h.report .removeAllStart)
  rw [clear, clearAll_matching hg hd]
  split
  · exact h
  · split
    next hresult =>
      rw [hresult] at hall
      exact hall
    next hresult =>
      rw [hresult] at hall
      exact hall.report .removeAllEnd

/-- The changes that a draft notes are effective, and lead to its indexes. -/
theorem Derives.tracks (h : Derives pinned asked d₀ d) (hs : d₀.indexes.InStep)
    (hnone : d₀.changes = []) : Tracks d₀.indexes d.changes d.indexes := by
  induction h with
  | refl => exact hnone ▸ Tracks.nil
  | report e _ ih => exact ih
  | encode _ _ ih => exact ih
  | @add d _ _ _ fresh _ _ _ _ hinsert ih =>
    cases fresh with
    | true => exact ih.added hinsert
    | false => exact (ih.inStep hs).insert_unchanged hinsert ▸ ih
  | @remove d _ found _ _ _ hremove ih =>
    cases found with
    | true => exact ih.removed hremove
    | false => exact (ih.inStep hs).remove_unchanged hremove ▸ ih

end Draft

namespace Graph

/-- What a mutation does to a graph: the indexes change, and an open transaction logs how. -/
def Evolves (g g' : Graph) : Prop :=
  ∃ changes indexes, Tracks g.indexes changes indexes ∧
    g' = { g with indexes, txn := g.txn.map (·.record changes) }

theorem evolves_refl (g : Graph) : g.Evolves g := by
  refine ⟨[], g.indexes, .nil, ?_⟩
  cases g with
  | mk config indexes pinned txn closed => cases txn <;> simp [Transaction.record]

/-- A mutation fails on a closed graph, or its draft does and is taken back. -/
theorem mutate_of_error {τ : Type} {g : Graph} {nodes : τ}
    {op : Draft τ → Except Error Unit × Draft τ} {e : Error}
    (he : (g.mutate nodes op).result = .error e) :
    (e = .closed ∧ g.mutate nodes op = ⟨g, nodes, .error .closed⟩) ∨
      ∃ d, op { nodes, indexes := g.indexes } = (.error e, d) ∧
        g.mutate nodes op =
          ⟨{ g with indexes := (rollback d.indexes d.changes).2 }, d.nodes, .error e⟩ := by
  rw [mutate] at he ⊢
  by_cases hclosed : g.closed = true
  · rw [if_pos hclosed] at he ⊢
    exact .inl ⟨(Except.error.inj he).symm, rfl⟩
  · rw [if_neg hclosed] at he ⊢
    cases hop : op { nodes, indexes := g.indexes } with
    | mk result d =>
      rw [hop] at he
      cases result with
      | error e' =>
        cases he
        exact .inr ⟨d, rfl, rfl⟩
      | ok => cases he

variable {τ : Type} [NodeTable τ] {g : Graph}

/-- A mutation derives a draft. Either it fails and the graph is as it was, or the graph takes over
the indexes of the draft, and an open transaction its log. -/
structure Mutated (g : Graph) (nodes : τ) (asked : List Pattern) (o : Outcome τ) (d : Draft τ) :
    Prop where
  derives : Draft.Derives g.pinned asked { nodes, indexes := g.indexes } d
  nodes : o.nodes = d.nodes
  graph : o.graph = g ∨
    o.graph = { g with indexes := d.indexes, txn := g.txn.map (·.record d.changes) }

theorem mutated_mutate (hg : g.indexes.InStep) (nodes : τ) {asked : List Pattern}
    {op : Draft τ → Except Error Unit × Draft τ}
    (hop : Draft.Derives g.pinned asked { nodes, indexes := g.indexes }
      (op { nodes, indexes := g.indexes }).2) :
    ∃ d, Mutated g nodes asked (g.mutate nodes op) d := by
  rw [mutate]
  split
  · exact ⟨_, .refl, rfl, .inl rfl⟩
  · split
    next d hresult =>
      rw [hresult] at hop
      refine ⟨d, hop, rfl, .inl ?_⟩
      simp only [(hop.tracks hg rfl).rollback_eq hg]
    next d hresult =>
      rw [hresult] at hop
      exact ⟨d, hop, rfl, .inr rfl⟩

def operation (g : Graph) : Request → Draft τ → Except Error Unit × Draft τ
  | .add p => Draft.add g.capabilities p
  | .delete p => Draft.delete g p
  | .remove p => Draft.remove g p
  | .removeFound found => Draft.removeFound g found
  | .clear => Draft.clear g
  | .begin | .commit | .abort | .close => fun d => (.ok (), d)

theorem perform_eq_mutate_operation (g : Graph) (who : Thread) (nodes : τ) {r : Request}
    (hr : r.IsMutation) : g.perform who nodes r = g.mutate nodes (g.operation r) := by
  cases r with
  | add p => rfl
  | delete p => rfl
  | remove p => rfl
  | removeFound found => rfl
  | clear => rfl
  | begin => exact hr.elim
  | commit => exact hr.elim
  | abort => exact hr.elim
  | close => exact hr.elim

theorem derives_operation (hg : g.indexes.InStep) (nodes : τ) (r : Request) :
    Draft.Derives g.pinned r.asks { nodes, indexes := g.indexes }
      (g.operation r { nodes, indexes := g.indexes }).2 := by
  cases r with
  | add p => exact Draft.derives_add .refl g.capabilities (List.mem_singleton_self p)
  | delete p => exact Draft.derives_delete .refl p
  | remove p => exact Draft.derives_remove .refl p
  | removeFound found => exact Draft.derives_removeFound .refl found
  | clear => exact Draft.derives_clear .refl hg rfl
  | begin => exact .refl
  | commit => exact .refl
  | abort => exact .refl
  | close => exact .refl

/-- Every mutation is one step that derives a draft, whatever it is asked for. -/
theorem perform_eq_mutate (hg : g.indexes.InStep) (who : Thread) (nodes : τ) {r : Request}
    (hr : r.IsMutation) : ∃ op, g.perform who nodes r = g.mutate nodes op ∧
      Draft.Derives g.pinned r.asks { nodes, indexes := g.indexes }
        (op { nodes, indexes := g.indexes }).2 :=
  ⟨g.operation r, g.perform_eq_mutate_operation who nodes hr, derives_operation hg nodes r⟩

section

variable {who : Thread} {nodes : τ} {r : Request} {d : Draft τ} {e : Error}

theorem perform_of_closed (hr : r.IsMutation) (hclosed : g.closed = true) :
    g.perform who nodes r = ⟨g, nodes, .error .closed⟩ := by
  rw [perform_eq_mutate_operation g who nodes hr, mutate, if_pos hclosed]

theorem perform_of_ok (hr : r.IsMutation) (hopen : g.closed = false)
    (hop : g.operation r { nodes, indexes := g.indexes } = (.ok (), d)) :
    g.perform who nodes r =
      ⟨{ g with indexes := d.indexes, txn := g.txn.map (·.record d.changes) }, d.nodes,
        .ok d.events⟩ := by
  rw [perform_eq_mutate_operation g who nodes hr, mutate, if_neg (Bool.eq_false_iff.mp hopen), hop]

/-- A draft that fails is taken back, whatever it had done by then. -/
theorem perform_of_error (hg : g.indexes.InStep) (hr : r.IsMutation) (hopen : g.closed = false)
    (hop : g.operation r { nodes, indexes := g.indexes } = (.error e, d)) :
    g.perform who nodes r = ⟨g, d.nodes, .error e⟩ := by
  have hderives := derives_operation hg nodes r
  rw [hop] at hderives
  rw [perform_eq_mutate_operation g who nodes hr, mutate, if_neg (Bool.eq_false_iff.mp hopen), hop]
  simp only [(hderives.tracks hg rfl).rollback_eq hg]

end

theorem mutated_perform (hg : g.indexes.InStep) (who : Thread) (nodes : τ) {r : Request}
    (hr : r.IsMutation) : ∃ d, Mutated g nodes r.asks (g.perform who nodes r) d := by
  obtain ⟨op, hperform, hop⟩ := perform_eq_mutate hg who nodes hr
  rw [hperform]
  exact mutated_mutate hg nodes hop

/-- A mutation that fails leaves the graph as it was: what it had done by then is taken back, and
neither the pinned triples nor the log of the open transaction have been touched. -/
theorem graph_perform_of_error (hg : g.indexes.InStep) (who : Thread) (nodes : τ) {r : Request}
    (hr : r.IsMutation) {e : Error} (he : (g.perform who nodes r).result = .error e) :
    (g.perform who nodes r).graph = g := by
  obtain ⟨op, hperform, hop⟩ := perform_eq_mutate hg who nodes hr
  rw [hperform] at he ⊢
  obtain ⟨-, hmutate⟩ | ⟨d, hresult, hmutate⟩ := mutate_of_error he
  · rw [hmutate]
  · rw [hresult] at hop
    simp only [hmutate, (hop.tracks hg rfl).rollback_eq hg]

theorem evolves_perform (hg : g.indexes.InStep) (who : Thread) (nodes : τ) {r : Request}
    (hr : r.IsMutation) : g.Evolves (g.perform who nodes r).graph := by
  obtain ⟨d, hd⟩ := mutated_perform hg who nodes hr
  rcases hd.graph with he | he
  · rw [he]
    exact evolves_refl g
  · exact ⟨d.changes, d.indexes, hd.derives.tracks hg rfl, he⟩

end Graph

end TripleStore
