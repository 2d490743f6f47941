import TripleStore.Proofs.Graph.Pinned
import TripleStore.Proofs.Graph.Spelling

/-!
# What the flags of a graph forbid

Each way of changing triples looks at the flags by itself, and taking changes back does not look at
them. A graph without additions holds its pinned triples and no others: deletes leave these in
place, so nothing is logged that could be taken back. A graph without deletes loses a triple only
with a transaction that is taken back and that the triple was added in. Turns are not assumed to
wait for one another.
-/

namespace TripleStore

/-- Why the flags refuse a request, if they do. To remove what a cursor found takes two of them. -/
def Capabilities.refusal? (c : Capabilities) : Request → Option Error
  | .add _ => if c.addAllowed then none else some .addDenied
  | .delete _ | .remove _ | .clear => if c.deleteAllowed then none else some .deleteDenied
  | .removeFound _ =>
    if !c.iteratorRemoveAllowed then some .cursorRemoval
    else if !c.deleteAllowed then some .deleteDenied
    else none
  | .begin | .commit | .abort | .close => none

/-- Somewhere in a list what did not hold at its start comes to hold. -/
theorem exists_gain {α : Type} {P : List α → Prop} {xs : List α} (hstart : ¬ P [])
    (hend : P xs) : ∃ ys x, ys ++ [x] <+: xs ∧ ¬ P ys ∧ P (ys ++ [x]) := by
  induction xs using List.reverseRecOn with
  | nil => exact absurd hend hstart
  | append_singleton xs x ih =>
    by_cases hbefore : P xs
    · obtain ⟨ys, y, hle, hgain⟩ := ih hbefore
      exact ⟨ys, y, hle.trans (List.prefix_append xs [x]), hgain⟩
    · exact ⟨xs, x, List.prefix_rfl, hbefore, hend⟩

/-- An addition puts in one triple, if any. -/
theorem Draft.indexes_add {τ : Type} [NodeTable τ] (caps : Capabilities) (p : Pattern)
    (d : Draft τ) : (d.add caps p).2.indexes = d.indexes ∨
      ∃ ids fresh, d.indexes.insert ids = .ok (fresh, (d.add caps p).2.indexes) := by
  rw [add]
  split
  · exact .inl rfl
  · split
    · exact .inl rfl
    · split
      · exact .inl rfl
      next ids _ _ =>
        split
        · exact .inl rfl
        next fresh indexes hinsert => exact .inr ⟨ids, fresh, hinsert⟩

/-- If nothing is asked to be added, the pinned triples stay the only ones. -/
theorem Draft.Derives.represents_pinned {τ : Type} [NodeTable τ] {pinned : List IdTriple}
    {d₀ d : Draft τ} (h : Draft.Derives pinned [] d₀ d)
    (hs : d₀.indexes.Represents pinned.toFinset) : d.indexes.Represents pinned.toFinset := by
  induction h with
  | refl => exact hs
  | report e _ ih => exact ih
  | encode _ hp => exact absurd hp List.not_mem_nil
  | add _ hp => exact absurd hp List.not_mem_nil
  | @remove _ ids _ _ _ hloose hremove ih =>
    have hout : ids ∉ pinned.toFinset := by
      rw [List.mem_toFinset, ← List.contains_iff_mem, hloose]
      exact Bool.false_ne_true
    have hdrop := (ih.of_remove hremove).2.1
    rwa [Finset.erase_eq_of_notMem hout] at hdrop

namespace Graph

variable {τ : Type} [NodeTable τ] {g : Graph} {t : IdTriple}

def Stored (g : Graph) (t : IdTriple) : Prop := t.Real ∧ g.indexes.contains t = true

theorem stored_iff {S : Finset IdTriple} (hS : g.indexes.Represents S) : g.Stored t ↔ t ∈ S := by
  constructor
  · rintro ⟨hreal, hcontains⟩
    exact (hS.primary.contains_iff hreal).mp hcontains
  · intro ht
    exact ⟨hS.real ht, (hS.primary.contains_iff (hS.real ht)).mpr ht⟩

theorem stored_congr {g' : Graph} (h : g'.indexes = g.indexes) : g'.Stored t ↔ g.Stored t := by
  rw [Stored, Stored, h]

section Refusals

variable {r : Request} {e : Error}

theorem operation_of_refusal (h : g.capabilities.refusal? r = some e) (d : Draft τ) :
    g.operation r d = (.error e, d) := by
  cases r with
  | add p => simp_all [Capabilities.refusal?, operation, Draft.add]
  | delete p => simp_all [Capabilities.refusal?, operation, Draft.delete]
  | remove p => simp_all [Capabilities.refusal?, operation, Draft.remove]
  | removeFound found =>
    rw [Capabilities.refusal?] at h
    rw [operation, Draft.removeFound]
    split at h
    next hcursor =>
      cases h
      rw [if_pos hcursor]
    next hcursor =>
      rw [if_neg hcursor]
      split at h
      next hdelete =>
        cases h
        rw [if_pos hdelete]
      next => cases h
  | clear => simp_all [Capabilities.refusal?, operation, Draft.clear]
  | begin => cases h
  | commit => cases h
  | abort => cases h
  | close => cases h

theorem isMutation_of_refusal {c : Capabilities} (h : c.refusal? r = some e) : r.IsMutation := by
  cases r with
  | add p => trivial
  | delete p => trivial
  | remove p => trivial
  | removeFound found => trivial
  | clear => trivial
  | begin => cases h
  | commit => cases h
  | abort => cases h
  | close => cases h

/-- What the flags refuse is not even begun. -/
theorem perform_of_refusal (h : g.capabilities.refusal? r = some e) (who : Thread) (nodes : τ) :
    g.perform who nodes r = ⟨g, nodes, .error (if g.closed then .closed else e)⟩ := by
  rw [perform_eq_mutate_operation g who nodes (isMutation_of_refusal h), mutate,
    operation_of_refusal h]
  split <;> rfl

/-- Without deletes a mutation is an addition, or refused. -/
theorem refusal?_of_deleteAllowed_eq_false {c : Capabilities} (hdenied : c.deleteAllowed = false)
    (hr : r.IsMutation) : (∃ p, r = .add p) ∨ ∃ e, c.refusal? r = some e := by
  cases r with
  | add p => exact .inl ⟨p, rfl⟩
  | delete p => exact .inr ⟨.deleteDenied, by simp [Capabilities.refusal?, hdenied]⟩
  | remove p => exact .inr ⟨.deleteDenied, by simp [Capabilities.refusal?, hdenied]⟩
  | removeFound found =>
    cases hcursor : c.iteratorRemoveAllowed with
    | true => exact .inr ⟨.deleteDenied, by simp [Capabilities.refusal?, hdenied, hcursor]⟩
    | false => exact .inr ⟨.cursorRemoval, by simp [Capabilities.refusal?, hcursor]⟩
  | clear => exact .inr ⟨.deleteDenied, by simp [Capabilities.refusal?, hdenied]⟩
  | begin => exact hr.elim
  | commit => exact hr.elim
  | abort => exact hr.elim
  | close => exact hr.elim

end Refusals

theorem after_append (g : Graph) (past later : List (Turn τ)) :
    g.after (past ++ later) = (g.after past).after later := List.foldl_append ..

theorem pinned_after (g : Graph) (past : List (Turn τ)) : (g.after past).pinned = g.pinned := by
  induction past generalizing g with
  | nil => rfl
  | cons t past ih =>
    refine (ih (t.take g)).trans ?_
    rw [Turn.take]
    split
    · exact pinned_perform ..
    · rfl

section Additions

/-- Without additions a mutation leaves the pinned triples and no others. -/
theorem represents_pinned_perform (hg : g.indexes.Represents g.pinned.toFinset)
    (hdenied : g.capabilities.addAllowed = false) (who : Thread) (nodes : τ) {r : Request}
    (hr : r.IsMutation) :
    (g.perform who nodes r).graph.indexes.Represents g.pinned.toFinset := by
  have hasks : (g.perform who nodes r).graph = g ∨ r.asks = [] := by
    cases r with
    | add p =>
      have hrefused : g.capabilities.refusal? (.add p) = some .addDenied := by
        simp [Capabilities.refusal?, hdenied]
      rw [perform_of_refusal hrefused]
      exact .inl rfl
    | _ => exact .inr rfl
  rcases hasks with hsame | hasks
  · rwa [hsame]
  · obtain ⟨d, hd⟩ := mutated_perform ⟨_, hg⟩ who nodes hr
    rcases hd.graph with he | he
    · rwa [he]
    · rw [he]
      exact (hasks ▸ hd.derives).represents_pinned hg

/-- Without additions a graph holds its pinned triples and no others, and did so when the open
transaction began. -/
theorem kept_pinned_after (h : g.Kept fun s => s.Represents g.pinned.toFinset)
    (hdenied : g.capabilities.addAllowed = false) (past : List (Turn τ)) :
    (g.after past).Kept fun s => s.Represents g.pinned.toFinset := by
  induction past using List.reverseRecOn with
  | nil => exact h
  | append_singleton past t ih =>
    have hpinned : (g.after past).pinned = g.pinned := pinned_after g past
    have hcapabilities : (g.after past).capabilities = g.capabilities :=
      congrArg Config.capabilities (config_after g past)
    rw [after_concat, Turn.take]
    split
    next r _ =>
      refine ih.perform (fun _ hs => ⟨_, hs⟩) t.who t.nodes r fun hr => ?_
      have hmutation := represents_pinned_perform (hpinned.symm ▸ ih.indexes)
        (hcapabilities ▸ hdenied) t.who t.nodes hr
      rwa [hpinned] at hmutation
    next => exact ih

end Additions

/-- What a turn can do to a graph, whether or not it should have waited. -/
inductive Takes (t : Turn τ) (g : Graph) : Graph → Prop where
  | nothing : Takes t g g
  | mutation {r : Request} : t.op = .request r → r.IsMutation →
      Takes t g (g.perform t.who t.nodes r).graph
  | begins : t.Begins g → g.txn = none → Takes t g { g with txn := some ⟨t.who, []⟩ }
  | commits : Takes t g { g with txn := none }
  | undoes (closed : Bool) :
      t.op = .request .abort ∧ g.inTransaction t.who = true ∨ t.op = .request .close →
      Takes t g { g.undo.2 with closed }

theorem takes_control {t : Turn τ} {step : Graph → Except Error Unit × Graph}
    (hstep : g.closed = false → g.config.transactions = true → Takes t g (step g).2) :
    Takes t g (g.control t.nodes step).graph := by
  rw [control]
  split
  · exact .nothing
  next hopen =>
    split
    · exact .nothing
    next htransactions =>
      exact hstep (Bool.eq_false_iff.mpr hopen) (by simpa using htransactions)

theorem takes_take (t : Turn τ) (g : Graph) : Takes t g (t.take g) := by
  obtain ⟨who, nodes, op⟩ := t
  cases op with
  | request r =>
    cases r using Request.mutationCases with
    | mutation r hr => exact .mutation rfl hr
    | begin =>
      refine takes_control fun hopen htransactions => ?_
      rw [begin]
      split
      · exact .nothing
      next hnone =>
        exact .begins ⟨rfl, by rw [perform_begin_eq hopen htransactions hnone]⟩ hnone
    | commit =>
      refine takes_control fun _ _ => ?_
      rw [commit]
      split
      · exact .commits
      · exact .nothing
    | abort =>
      refine takes_control fun _ _ => ?_
      rw [abort]
      split
      next howner => exact .undoes _ (.inl ⟨rfl, howner⟩)
      · exact .nothing
    | close =>
      show Takes _ g g.close
      rw [close]
      split
      · exact .nothing
      · exact .undoes true (.inr rfl)
  | contains p => exact .nothing
  | size => exact .nothing
  | find p => exact .nothing
  | inTransaction => exact .nothing

/-- After a turn that begins a transaction, further turns are the work of that transaction. -/
structure Spans (g : Graph) (before : List (Turn τ)) (b : Turn τ) (work : List (Turn τ)) :
    Prop where
  begins : b.Begins (g.after before)
  begun : g.after (before ++ [b]) = { g.after before with txn := some ⟨b.who, []⟩ }
  working : ∀ w, w <+: work → Working b.who (g.after before) (g.after (before ++ b :: w))

/-- An open transaction was begun at some turn, and all turns since then are its work. -/
theorem exists_spans (hg : Reachable τ g) (hnone : g.txn = none) (past : List (Turn τ))
    {txn : Transaction} (htxn : (g.after past).txn = some txn) :
    ∃ before b work, past = before ++ b :: work ∧ g.Spans before b work := by
  induction past using List.reverseRecOn generalizing txn with
  | nil => simp [after, hnone] at htxn
  | append_singleton past t ih =>
    -- a turn that leaves a transaction open extends the work of the one that was open before
    have hextends {txn₀ : Transaction} (hopen : (g.after past).txn = some txn₀)
        (hevolves : (g.after past).Evolves (g.after (past ++ [t]))) :
        ∃ before b work, past ++ [t] = before ++ b :: work ∧ g.Spans before b work := by
      obtain ⟨before, b, work, rfl, hspans⟩ := ih hopen
      refine ⟨before, b, work ++ [t], by simp, hspans.begins, hspans.begun, fun w hw => ?_⟩
      rcases List.prefix_concat_iff.mp hw with rfl | hw
      · have hlast := (hspans.working work List.prefix_rfl).evolves hevolves
        rwa [List.append_assoc, List.cons_append] at hlast
      · exact hspans.working w hw
    have htake := takes_take t (g.after past)
    rw [← after_concat] at htake
    generalize hnow : g.after (past ++ [t]) = now at htake hextends htxn
    cases htake with
    | nothing => exact hextends htxn (evolves_refl _)
    | @mutation r hop hr =>
      have hevolves := evolves_perform (kept_of_reachable (reachable_after hg past)).indexes
        t.who t.nodes hr
      have hopen : (g.after past).txn ≠ none := by
        obtain ⟨changes, indexes, -, he⟩ := hevolves
        intro hclosed
        rw [he, hclosed] at htxn
        cases htxn
      obtain ⟨txn₀, htxn₀⟩ := Option.ne_none_iff_exists'.mp hopen
      exact hextends htxn₀ hevolves
    | begins hbegins hidle =>
      refine ⟨past, t, [], rfl, hbegins, hnow, fun w hw => ?_⟩
      rw [List.prefix_nil.mp hw, hnow]
      exact ⟨[], _, .nil, rfl⟩
    | commits => cases htxn
    | undoes closed _ => simp [txn_undo] at htxn

section Deletions

variable {t : IdTriple}

/-- Without deletes a mutation takes nothing out. -/
theorem Stored.perform (ht : g.Stored t) (hg : g.indexes.InStep)
    (hdenied : g.capabilities.deleteAllowed = false) (who : Thread) (nodes : τ) {r : Request}
    (hr : r.IsMutation) : (g.perform who nodes r).graph.Stored t := by
  obtain ⟨p, rfl⟩ | ⟨e, hrefused⟩ := refusal?_of_deleteAllowed_eq_false hdenied hr
  · obtain ⟨S, hS⟩ := hg
    have hin := (stored_iff hS).mp ht
    cases hclosed : g.closed with
    | true =>
      rw [perform_of_closed hr hclosed]
      exact ht
    | false =>
      rcases hop : g.operation (.add p) { nodes, indexes := g.indexes } with ⟨_ | _, d⟩
      · rw [perform_of_error ⟨S, hS⟩ hr hclosed hop]
        exact ht
      · rw [perform_of_ok hr hclosed hop]
        have hindexes := Draft.indexes_add g.capabilities p { nodes, indexes := g.indexes }
        rw [show Draft.add g.capabilities p { nodes, indexes := g.indexes } = (.ok (), d) from hop]
          at hindexes
        rcases hindexes with hsame | ⟨ids, fresh, hinsert⟩
        · exact (stored_congr hsame).mpr ht
        · exact (stored_iff (hS.of_insert hinsert).2.1).mpr (Finset.mem_insert_of_mem hin)
  · rw [perform_of_refusal hrefused]
    exact ht

/-- Without deletes a triple comes in by an addition, unless a transaction is taken back. -/
theorem addition_of_gain (hdenied : g.capabilities.deleteAllowed = false) {u : Turn τ}
    (hbefore : ¬ g.Stored t) (hafter : (u.take g).Stored t) (hopen : (u.take g).txn ≠ none) :
    ∃ p, u.op = .request (.add p) := by
  have htake := takes_take u g
  generalize u.take g = g' at htake hafter hopen
  cases htake with
  | nothing => exact absurd hafter hbefore
  | @mutation r hop hr =>
    obtain ⟨p, rfl⟩ | ⟨e, hrefused⟩ := refusal?_of_deleteAllowed_eq_false hdenied hr
    · exact ⟨p, hop⟩
    · rw [perform_of_refusal hrefused] at hafter
      exact absurd hafter hbefore
  | begins => exact absurd hafter hbefore
  | commits => exact absurd hafter hbefore
  | undoes closed _ => exact absurd (txn_undo g) hopen

/-- The turn after the others takes a transaction back, with an addition that had put the triple
in. -/
def UndoesAddition (g : Graph) (past : List (Turn τ)) (turn : Turn τ) (t : IdTriple) : Prop :=
  ∃ before b work, past = before ++ b :: work ∧ g.Spans before b work ∧
    (turn.op = .request .abort ∧ turn.who = b.who ∨ turn.op = .request .close) ∧
    (g.after (past ++ [turn])).indexes = (g.after before).indexes ∧
    ∃ w u p, w ++ [u] <+: work ∧ u.op = .request (.add p) ∧
      ¬ (g.after (before ++ b :: w)).Stored t ∧ (g.after (before ++ b :: (w ++ [u]))).Stored t

/-- Without deletes nothing but taking an addition back takes a triple out. -/
theorem undoesAddition_of_lost (hg : Reachable τ g) (hnone : g.txn = none)
    (hdenied : g.capabilities.deleteAllowed = false) {past : List (Turn τ)} {turn : Turn τ}
    (hstored : (g.after past).Stored t) (hlost : ¬ (g.after (past ++ [turn])).Stored t) :
    g.UndoesAddition past turn t := by
  have hflags (past : List (Turn τ)) : (g.after past).capabilities.deleteAllowed = false := by
    rw [capabilities, config_after]
    exact hdenied
  have hstep (past : List (Turn τ)) : (g.after past).indexes.InStep :=
    (kept_of_reachable (reachable_after hg past)).indexes
  have htake := takes_take turn (g.after past)
  rw [← after_concat] at htake
  generalize hnow : g.after (past ++ [turn]) = now at htake hlost
  cases htake with
  | nothing => exact absurd hstored hlost
  | mutation _ hr => exact absurd (hstored.perform (hstep past) (hflags past) _ _ hr) hlost
  | begins => exact absurd hstored hlost
  | commits => exact absurd hstored hlost
  | undoes closed hop =>
    cases htxn : (g.after past).txn with
    | none =>
      have hsame : (g.after past).undo.2.indexes = (g.after past).indexes := by rw [undo, htxn]
      exact absurd ((stored_congr hsame).mpr hstored) hlost
    | some txn =>
      obtain ⟨before, b, work, rfl, hspans⟩ := exists_spans hg hnone past htxn
      obtain ⟨howner, hundo⟩ := (hspans.working work List.prefix_rfl).undo_eq (hstep before)
      have hrestored :
          (g.after (before ++ b :: work)).undo.2.indexes = (g.after before).indexes := by
        rw [hundo]
      have hout : ¬ (g.after (before ++ b :: [])).Stored t := by
        rw [hspans.begun]
        exact fun hin => hlost ((stored_congr hrestored).mpr hin)
      obtain ⟨w, u, hle, hbefore, hafter⟩ :=
        exists_gain (P := fun w => (g.after (before ++ b :: w)).Stored t) hout hstored
      have hopen : (g.after (before ++ b :: (w ++ [u]))).txn ≠ none := by
        obtain ⟨log, indexes, -, he⟩ := hspans.working _ hle
        rw [he]
        exact Option.some_ne_none _
      have hu : g.after (before ++ b :: (w ++ [u])) = u.take (g.after (before ++ b :: w)) := by
        rw [← List.cons_append, ← List.append_assoc, after_concat]
      obtain ⟨p, hp⟩ := addition_of_gain (hflags _) hbefore (hu ▸ hafter) (hu ▸ hopen)
      refine ⟨before, b, work, rfl, hspans, ?_, ?_, w, u, p, hle, hp, hbefore, hafter⟩
      · exact hop.imp_left fun h => ⟨h.1, inTransaction_inj h.2 howner⟩
      · rw [hnow]
        exact hrestored

end Deletions

/-- A new graph stores its pinned triples and no others. It has the flags that it was to have, but
for one that no request looks at. -/
theorem createPinned_flags {config : Config} {nodes nodes' : τ} {statements : List Pattern}
    (hg : createPinned config nodes statements = (.ok g, nodes')) :
    g.indexes.Represents g.pinned.toFinset ∧ g.txn = none ∧
      ∃ canBeEmpty, g.capabilities = { config.capabilities with canBeEmpty } := by
  refine pinAll_steps
    (P := fun (_ : τ) g _ => g.indexes.Represents g.pinned.toFinset ∧ g.txn = none ∧
      ∃ canBeEmpty, g.capabilities = { config.capabilities with canBeEmpty })
    (fun h _ hinsert => ⟨?_, h.2⟩) [] statements ⟨IndexSet.represents_empty _, rfl, ?_⟩ hg
  · have hput := (h.1.of_insert hinsert).2.1
    rwa [List.toFinset_append, List.toFinset_cons, List.toFinset_nil, Finset.union_comm,
      insert_empty_eq, ← Finset.insert_eq]
  · show ∃ canBeEmpty, (if statements.isEmpty then config.capabilities
      else { config.capabilities with canBeEmpty := false }) = _
    split
    · exact ⟨config.capabilities.canBeEmpty, rfl⟩
    · exact ⟨false, rfl⟩

/-- The pinned triples of a new graph over a memory table spell the statements it was made with. -/
theorem spells_pinned {m : MemoryTable} {statements : List Pattern} {pinned : List IdTriple}
    (h : List.Forall₂ (fun p ids => ∃ st : Statement, p = st.toPattern ∧
      NodeTable.decodeTriple m ids = .ok st) statements pinned) :
    m.Spells pinned.toFinset (statements.filterMap Pattern.statement?).toFinset := by
  induction h with
  | nil => exact .empty m
  | cons hfirst _ ih =>
    obtain ⟨st, rfl, hdecode⟩ := hfirst
    rw [List.filterMap_cons_some (show st.toPattern.statement? = some st from rfl),
      List.toFinset_cons, List.toFinset_cons]
    exact ih.insert hdecode

/-- What the flags of a graph come to over all turns that the graph may ever take. -/
structure HonorsFlags (flags : Capabilities) (τ : Type) [NodeTable τ] (g : Graph) : Prop where
  stores_pinned : flags.addAllowed = false → ∀ past : List (Turn τ),
    (g.after past).indexes.Represents g.pinned.toFinset
  loses_undone : flags.deleteAllowed = false → ∀ (past : List (Turn τ)) (turn : Turn τ) t,
    (g.after past).Stored t → ¬ (g.after (past ++ [turn])).Stored t →
      g.UndoesAddition past turn t
  cursors_keep : flags.iteratorRemoveAllowed = false →
    ∀ (past : List (Turn τ)) who (nodes : τ) found,
      ((g.after past).perform who nodes (.removeFound found)).graph = g.after past
  refuses : ∀ r e, flags.refusal? r = some e → ∀ (past : List (Turn τ)) who (nodes : τ),
    (g.after past).perform who nodes r =
      ⟨g.after past, nodes, .error (if (g.after past).closed then .closed else e)⟩

theorem createPinned_honorsFlags {config : Config} {nodes nodes' : τ} {statements : List Pattern}
    (hg : createPinned config nodes statements = (.ok g, nodes')) :
    g.HonorsFlags config.capabilities τ := by
  obtain ⟨hstored, hnone, canBeEmpty, hflags⟩ := createPinned_flags hg
  have hreach : Reachable τ g := .created config nodes statements (congrArg Prod.fst hg)
  have hlater (past : List (Turn τ)) :
      (g.after past).capabilities = { config.capabilities with canBeEmpty } := by
    rw [capabilities, config_after]
    exact hflags
  have hrefuses {r : Request} {e : Error} (he : config.capabilities.refusal? r = some e)
      (past : List (Turn τ)) (who : Thread) (nodes : τ) :
      (g.after past).perform who nodes r =
        ⟨g.after past, nodes, .error (if (g.after past).closed then .closed else e)⟩ := by
    refine perform_of_refusal ?_ who nodes
    rw [hlater, ← he]
    cases r <;> rfl
  refine ⟨fun hadd past => ?_, fun hdelete past turn t hin hout => ?_,
    fun hcursor past who nodes found => ?_, fun r e he past who nodes => hrefuses he past who nodes⟩
  · exact (kept_pinned_after (.of_no_transaction hstored hnone) (hflags ▸ hadd) past).indexes
  · exact undoesAddition_of_lost hreach hnone (hflags ▸ hdelete) hin hout
  · have he : config.capabilities.refusal? (.removeFound found) = some .cursorRemoval := by
      simp [Capabilities.refusal?, hcursor]
    rw [hrefuses he]

end Graph

end TripleStore
