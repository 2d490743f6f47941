import TripleStore.Proofs.Graph.Content

/-!
# What events tell about the stored statements

Putting in what is said to be added and taking out what is said to be deleted follows what a content
stores: `Request.Tells` says once what a request that succeeds reports. An addition may be one of a
statement that is there already, and a deletion may be of nothing. No event tells that a transaction
was undone.
-/

namespace TripleStore

/-- What a listener makes of an event that mirrors what is stored. -/
def Event.mirrored (stored : Set Statement) : Event → Set Statement
  | .addTriple st => insert st stored
  | .deleteTriple st => stored \ {st}
  | _ => stored

theorem Event.mirrored_mirrored (stored : Set Statement) (e : Event) :
    e.mirrored (e.mirrored stored) = e.mirrored stored := by
  cases e with
  | addTriple st => exact Set.insert_eq_of_mem (Set.mem_insert st stored)
  | deleteTriple st => exact Set.sdiff_sdiff.trans (by rw [Set.union_self]; rfl)
  | removeAllStart | removeAllEnd | removeRequest _ => rfl

theorem Pattern.admits_of_statement? {p : Pattern} {st : Statement} (h : p.statement? = some st)
    (byValue : Bool) : p.Admits byValue st := by
  have hself (t : Term) : (Node.term t).Admits byValue t := by
    rw [Node.Admits]
    split <;> rfl
  obtain ⟨s, p', o⟩ := p
  cases s <;> cases p' <;> cases o <;> cases h
  exact ⟨hself _, hself _, hself _⟩

/-- What the report of a request tells about the statements stored before it and after it. -/
inductive Request.Tells (r : Request) (before after : Finset Statement) : Report → Prop where
  | adds {st : Statement} : after = insert st before →
      Tells r before after (.ofEvents [.addTriple st])
  | deletes {report : Report} {gone : Finset Statement} : gone ⊆ before → after = before \ gone →
      report.deleted = gone.val → (∀ st, some (.addTriple st) ∉ report.outline) →
      Tells r before after report
  /-- A statement was to be deleted that was not there. -/
  | missed {p : Pattern} {st : Statement} : r = .delete p → p.statement? = some st → st ∉ before →
      after = before → Tells r before after (.ofEvents [.deleteTriple st])

namespace Content

variable {c : Content} {r : Request}

theorem doomed_subset (c : Content) (p : Pattern) : c.doomed p ⊆ c.stored :=
  (Finset.filter_subset _ _).trans Finset.sdiff_subset

/-- A statement that is stored and not pinned is doomed by its own pattern. -/
theorem mem_doomed {p : Pattern} {st : Statement} (hp : p.statement? = some st)
    (hst : st ∈ c.stored) (hpinned : st ∉ c.pinned) : st ∈ c.doomed p :=
  Finset.mem_filter.mpr
    ⟨Finset.mem_sdiff.mpr ⟨hst, hpinned⟩, Pattern.admits_of_statement? hp _⟩

theorem tells_nothing (c : Content) (r : Request) : r.Tells c.stored c.stored (.ofEvents []) :=
  .deletes (Finset.empty_subset _) Finset.sdiff_empty.symm rfl (by simp [Report.ofEvents])

theorem tells_deletes (c : Content) (r : Request) (p : Pattern) :
    r.Tells c.stored (c.stored \ c.doomed p) (.deletes (c.doomed p)) :=
  .deletes (c.doomed_subset p) rfl rfl (by simp [Report.deletes])

/-- A statement that is to be deleted and is not stored is reported, but not one that was. -/
theorem tells_deletion (hpinned : c.pinned = ∅) (p : Pattern) :
    (Request.delete p).Tells c.stored (c.stored \ c.doomed p) (c.deletion p) := by
  rw [deletion]
  cases hp : p.statement? with
  | none => exact c.tells_deletes _ p
  | some st =>
    by_cases hnone : c.doomed p = ∅
    · have hout : st ∉ c.stored := fun hin => by
        have hdoomed := mem_doomed hp hin (hpinned ▸ Finset.notMem_empty st)
        rw [hnone] at hdoomed
        exact Finset.notMem_empty st hdoomed
      simp only [if_pos hnone]
      exact .missed rfl hp hout (by rw [hnone, Finset.sdiff_empty])
    · simp only [if_neg hnone]
      exact c.tells_deletes _ p

/-- What a mutation reports tells what it leaves stored. -/
theorem tells_edit (hpinned : c.pinned = ∅) {stored : Finset Statement} {report : Report}
    (h : c.edit r = .ok (stored, report)) : r.Tells c.stored stored report := by
  cases r with
  | add p =>
    rw [edit] at h
    split at h
    · cases h
    · split at h
      · cases h
      · cases h
        exact .adds rfl
  | delete p =>
    rw [edit] at h
    split at h
    · cases h
    · cases h
      exact tells_deletion hpinned p
  | remove p =>
    rw [edit] at h
    split at h
    · cases h
    · cases h
      exact .deletes (c.doomed_subset p) rfl
        (by simp [Report.deletes, Report.ofEvents, Event.deleted?])
        (by simp [Report.deletes, Report.ofEvents, Event.masked, Event.deleted?])
  | removeFound found =>
    rw [edit] at h
    split at h
    · cases h
    · split at h
      · cases h
      · split at h
        next hin =>
          cases h
          have hstored := (Finset.mem_sdiff.mp hin).1
          exact .deletes (Finset.singleton_subset_iff.mpr hstored) (Finset.erase_eq _ _)
            (by simp [Report.ofEvents, Event.deleted?])
            (by simp [Report.ofEvents, Event.masked, Event.deleted?])
        next =>
          cases h
          exact c.tells_nothing _
  | clear =>
    rw [edit] at h
    split at h
    · cases h
    · cases h
      exact .deletes (c.doomed_subset Pattern.any) rfl
        (by show (0 : Multiset Statement) + _ + 0 = _; rw [zero_add, add_zero]; rfl)
        (by simp [Report.deletes, Report.ofEvents, Event.masked, Event.deleted?])
  | begin | commit | abort | close =>
    cases h
    exact c.tells_nothing _

theorem tells_control (hpinned : c.pinned = ∅) (r : Request) {step : Except Error Content}
    (hstep : ∀ c', step = .ok c' → c'.stored = c.stored ∧ c'.pinned = c.pinned) :
    (c.control step).1.pinned = ∅ ∧
      match (c.control step).2 with
      | .error _ => (c.control step).1.stored = c.stored
      | .ok report => r.Tells c.stored (c.control step).1.stored report := by
  unfold control
  split
  · exact ⟨hpinned, rfl⟩
  · split
    · exact ⟨hpinned, c.tells_nothing r⟩
    · split
      · exact ⟨hpinned, rfl⟩
      next c' =>
        obtain ⟨hstored, hsame⟩ := hstep c' rfl
        refine ⟨hsame.trans hpinned, ?_⟩
        show r.Tells c.stored c'.stored (.ofEvents [])
        rw [hstored]
        exact c.tells_nothing r

/-- Unless a transaction is undone, what a request reports tells what it leaves stored, and one that
fails leaves everything stored. -/
theorem tells_perform (hpinned : c.pinned = ∅) (who : Thread) (hr : r ≠ .abort ∧ r ≠ .close) :
    (c.perform who r).1.pinned = ∅ ∧
      match (c.perform who r).2 with
      | .error _ => (c.perform who r).1.stored = c.stored
      | .ok report => r.Tells c.stored (c.perform who r).1.stored report := by
  cases r using Request.mutationCases with
  | mutation r hm =>
    rw [perform_of_isMutation who c hm]
    split
    · exact ⟨hpinned, rfl⟩
    · cases hedit : c.edit r with
      | error e => exact ⟨hpinned, rfl⟩
      | ok answer => exact ⟨hpinned, tells_edit hpinned hedit⟩
  | begin =>
    refine tells_control hpinned _ fun c' hc' => ?_
    rw [begin] at hc'
    split at hc'
    · cases hc'
    · cases hc'
      exact ⟨rfl, rfl⟩
  | commit =>
    refine tells_control hpinned _ fun c' hc' => ?_
    rw [commit] at hc'
    split at hc'
    · cases hc'
      exact ⟨rfl, rfl⟩
    · cases hc'
  | abort => exact absurd rfl hr.1
  | close => exact absurd rfl hr.2

end Content

/-- The deletions among the events name what a request removed, each once. Only if it was to delete
one statement and removed nothing do they name this statement. -/
def NamesRemoved (r : Request) (before after : Set Statement) (events : List Event) : Prop :=
  ((events.filterMap Event.deleted?).Nodup ∧
      ∀ st, st ∈ events.filterMap Event.deleted? ↔ st ∈ before ∧ st ∉ after) ∨
    ∃ p st, r = .delete p ∧ p.statement? = some st ∧ after = before ∧
      events.filterMap Event.deleted? = [st]

section

variable {r : Request} {before after : Finset Statement} {events : List Event} {st : Statement}

theorem Report.mem_outline_ofEvents (h : .addTriple st ∈ events) :
    some (.addTriple st) ∈ (ofEvents events).outline :=
  List.mem_map.mpr ⟨_, h, rfl⟩

theorem Report.deleted_ofEvents (events : List Event) :
    (ofEvents events).deleted = ↑(events.filterMap Event.deleted?) := rfl

/-- Without additions a mirror loses the deleted statements. -/
theorem foldl_mirrored (hadds : ∀ st, .addTriple st ∉ events) (stored : Set Statement) :
    events.foldl Event.mirrored stored =
      stored \ {st | st ∈ events.filterMap Event.deleted?} := by
  induction events generalizing stored with
  | nil => simp
  | cons e events ih =>
    have hrest : ∀ st, .addTriple st ∉ events := fun st h => hadds st (List.mem_cons_of_mem e h)
    rw [List.foldl_cons, ih hrest]
    cases e with
    | addTriple st => exact absurd List.mem_cons_self (hadds st)
    | deleteTriple st =>
      ext u
      simp only [Event.mirrored, Event.deleted?, List.filterMap_cons, Set.mem_sdiff,
        Set.mem_singleton_iff, Set.mem_ofPred_eq, List.mem_cons, not_or, and_assoc]
    | removeAllStart | removeAllEnd | removeRequest _ => rfl

theorem Report.eq_of_ofEvents (h : ofEvents events = ofEvents [.addTriple st]) :
    events = [.addTriple st] := by
  obtain ⟨e, rfl, he⟩ := List.map_eq_singleton_iff.mp (congrArg Report.outline h)
  cases e with
  | addTriple st' => exact congrArg (fun e => [e]) (Option.some.inj he)
  | deleteTriple _ | removeAllStart | removeAllEnd | removeRequest _ => cases he

/-- A mirror of what was stored before a request becomes one of what is stored after it. -/
theorem Request.Tells.mirrored (h : r.Tells before after (.ofEvents events)) :
    events.foldl Event.mirrored ↑before = (↑after : Set Statement) ∧
      NamesRemoved r ↑before ↑after events := by
  generalize hreport : Report.ofEvents events = report at h
  cases h with
  | adds hafter =>
    obtain rfl := Report.eq_of_ofEvents hreport
    subst hafter
    refine ⟨(Finset.coe_insert _ _).symm, .inl ⟨List.nodup_nil, fun st => ⟨fun h => ?_, ?_⟩⟩⟩
    · cases h
    · rintro ⟨hbefore, hafter⟩
      exact absurd (Finset.mem_coe.mpr (Finset.mem_insert_of_mem hbefore)) hafter
  | @deletes _ gone hgone hafter hdeleted hadds =>
    subst hreport hafter
    rw [Report.deleted_ofEvents] at hdeleted
    have hmem (st : Statement) : st ∈ events.filterMap Event.deleted? ↔ st ∈ gone := by
      rw [← Multiset.mem_coe, hdeleted, Finset.mem_val]
    have hnodup : (events.filterMap Event.deleted?).Nodup := by
      rw [← Multiset.coe_nodup, hdeleted]
      exact gone.nodup
    rw [foldl_mirrored fun st hst => hadds st (Report.mem_outline_ofEvents hst)]
    refine ⟨?_, .inl ⟨hnodup, fun st => ?_⟩⟩
    · ext st
      simp only [Set.mem_sdiff, Set.mem_ofPred_eq, hmem, Finset.mem_coe, Finset.mem_sdiff]
    · rw [hmem, Finset.mem_coe, Finset.mem_coe, Finset.mem_sdiff, not_and_not_right]
      exact ⟨fun hst => ⟨hgone hst, fun _ => hst⟩, fun h => h.2 h.1⟩
  | @missed p st hr hp hout hafter =>
    subst hafter
    have hdeleted : events.filterMap Event.deleted? = [st] := by
      have hcoe := congrArg Report.deleted hreport
      exact List.perm_singleton.mp (Multiset.coe_eq_coe.mp hcoe)
    have hadds : ∀ st', .addTriple st' ∉ events := fun st' hst' => by
      have hin := Report.mem_outline_ofEvents hst'
      rw [hreport] at hin
      simp [Report.ofEvents, Event.masked, Event.deleted?] at hin
    refine ⟨?_, .inr ⟨p, st, hr, hp, rfl, hdeleted⟩⟩
    rw [foldl_mirrored hadds, hdeleted]
    ext u
    simp only [Set.mem_sdiff, Set.mem_ofPred_eq, List.mem_singleton, Finset.mem_coe]
    exact and_iff_left_of_imp fun hu he => hout (he ▸ hu)

end

end TripleStore
