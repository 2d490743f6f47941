import TripleStore.Proofs.Index.Query

/-!
# An index set behaves as one finite set

Every run of changes on an index set is followed by the same run on a finite set of id triples, and
every answer of the index set is that of the finite set. The orders that are kept show only in the
order of the matches.
-/

namespace TripleStore.IndexSet

inductive Command where
  | insert (t : IdTriple)
  | remove (t : IdTriple)
  | removeMatching (pattern : IdTriple)
  | clear

/-- The index set after a call. A call that fails leaves it as it was. -/
def perform (s : IndexSet) : Command → IndexSet
  | .insert t => ((s.insert t).toOption.map Prod.snd).getD s
  | .remove t => ((s.remove t).toOption.map Prod.snd).getD s
  | .removeMatching pattern => (s.removeMatching pattern).2
  | .clear => s.clear

def run (orders : List IndexOrder) (commands : List Command) : IndexSet :=
  commands.foldl perform (empty orders)

/-- The call hangs on no lookup. -/
def Command.IsDirect : Command → Prop
  | .removeMatching _ => False
  | _ => True

def Command.contents (S : Finset IdTriple) : Command → Finset IdTriple
  | .insert t => if t.Real then Insert.insert t S else S
  | .remove t => S.erase t
  | .removeMatching pattern => S.filter fun t => ¬ pattern.Matches t
  | .clear => ∅

def contents (commands : List Command) : Finset IdTriple := commands.foldl Command.contents ∅

/-- The answers of the index set are those of a set of triples. -/
structure AnswersAs (s : IndexSet) (S : Finset IdTriple) : Prop where
  insert : ∀ t : IdTriple, t.Real → (s.insert t).map Prod.fst = .ok (decide (t ∉ S))
  remove : ∀ t : IdTriple, t.Real → (s.remove t).map Prod.fst = .ok (decide (t ∈ S))
  refuses : ∀ t : IdTriple, ¬ t.Real → ∃ id ∈ t.toList, id.isReal = false ∧
    s.insert t = .error (.invalidTerm (.notStorable id)) ∧
    s.remove t = .error (.invalidTerm (.notStorable id)) ∧
    s.perform (.insert t) = s ∧ s.perform (.remove t) = s
  contains : ∀ t, s.contains t = decide (t ∈ S)
  mem_find : ∀ pattern t, t ∈ s.find pattern ↔ t ∈ S ∧ pattern.Matches t
  find_sorted : ∀ pattern, (s.find pattern).Pairwise (IdTriple.Before (s.choose pattern).order)
  nodup_find : ∀ pattern, (s.find pattern).Nodup
  containsMatch : ∀ pattern, s.containsMatch pattern = true ↔ s.find pattern ≠ []
  removeMatching : ∀ pattern, (s.removeMatching pattern).1 = .ok (s.find pattern)
  size : s.size = S.card
  consistent : s.isConsistent = true

/-- The answers of two index sets differ at most in the order of the matches. -/
structure SameAnswers (s s' : IndexSet) : Prop where
  insert : ∀ t, (s.insert t).map Prod.fst = (s'.insert t).map Prod.fst
  remove : ∀ t, (s.remove t).map Prod.fst = (s'.remove t).map Prod.fst
  contains : ∀ t, s.contains t = s'.contains t
  find : ∀ pattern, (s.find pattern).Perm (s'.find pattern)
  containsMatch : ∀ pattern, s.containsMatch pattern = s'.containsMatch pattern
  removeMatching : ∀ pattern, ∃ ts ts', (s.removeMatching pattern).1 = .ok ts ∧
    (s'.removeMatching pattern).1 = .ok ts' ∧ ts.Perm ts'
  size : s.size = s'.size
  consistent : s.isConsistent = s'.isConsistent

variable {s : IndexSet} {S : Finset IdTriple}

theorem perform_insert_of_real {t : IdTriple} (ht : t.Real) (s : IndexSet) :
    s.perform (.insert t) = (s.put t).2 := by
  rw [perform, insert_of_real ht]
  rfl

theorem perform_remove_of_real {t : IdTriple} (ht : t.Real) (s : IndexSet) :
    s.perform (.remove t) = (s.drop t).2 := by
  rw [perform, remove_of_real ht]
  rfl

theorem perform_of_not_real {t : IdTriple} (ht : ¬ t.Real) (s : IndexSet) :
    s.perform (.insert t) = s ∧ s.perform (.remove t) = s := by
  obtain ⟨id, -, hrefused⟩ := refused_of_not_real ht
  simp only [perform, (hrefused s).1, (hrefused s).2]
  exact ⟨rfl, rfl⟩

/-- What a call answers that is about a triple with a mark. -/
theorem refusal_of_not_real {t : IdTriple} (ht : ¬ t.Real) (s : IndexSet) :
    ∃ id ∈ t.toList, id.isReal = false ∧
      s.insert t = .error (.invalidTerm (.notStorable id)) ∧
      s.remove t = .error (.invalidTerm (.notStorable id)) ∧
      s.perform (.insert t) = s ∧ s.perform (.remove t) = s := by
  obtain ⟨id, hid, hrefused⟩ := refused_of_not_real ht
  have hmark : id.isReal = false := by simpa using List.find?_some hid
  exact ⟨id, List.mem_of_find?_eq_some hid, hmark, (hrefused s).1, (hrefused s).2,
    perform_of_not_real ht s⟩

/-- Taking out stored triples one by one does not fail half-way. -/
theorem Represents.removeAll (h : s.Represents S) {ts : List IdTriple}
    (hts : ∀ t ∈ ts, t.Real) :
    (s.removeAll ts).1 = .ok () ∧ (s.removeAll ts).2.Represents (S \ ts.toFinset) := by
  induction ts generalizing s S with
  | nil => exact ⟨rfl, by simpa [IndexSet.removeAll] using h⟩
  | cons t ts ih =>
    simp only [List.forall_mem_cons] at hts
    obtain ⟨hok, hrep⟩ := ih (h.drop hts.1).2 hts.2
    have hset : S \ (t :: ts).toFinset = S.erase t \ ts.toFinset := by
      ext u
      simp only [List.toFinset_cons, Finset.mem_sdiff, Finset.mem_insert, Finset.mem_erase]
      tauto
    rw [hset]
    simp only [IndexSet.removeAll, remove_of_real hts.1]
    exact ⟨hok, hrep⟩

theorem Represents.removeMatching (h : s.Represents S) (hr : ∀ t ∈ S, t.InRange)
    (pattern : IdTriple) :
    (s.removeMatching pattern).1 = .ok (s.find pattern) ∧
      (s.removeMatching pattern).2.Represents (S.filter fun t => ¬ pattern.Matches t) := by
  have hmem := (h.find_spec hr pattern).2
  obtain ⟨hok, hrep⟩ := h.removeAll fun t ht => h.real ((hmem t).mp ht).1
  have hset : S \ (s.find pattern).toFinset = S.filter fun t => ¬ pattern.Matches t := by
    ext t
    rw [Finset.mem_sdiff, Finset.mem_filter, List.mem_toFinset, hmem, IdTriple.isMatch_iff]
    tauto
  rw [hset] at hrep
  exact ⟨by simp [IndexSet.removeMatching, hok, Except.map], hrep⟩

/-- A call that hangs on no lookup changes an index set as it changes the set of its triples,
whether they can be read back or not. -/
theorem Represents.perform_direct (h : s.Represents S) {c : Command} (hc : c.IsDirect) :
    (s.perform c).Represents (c.contents S) := by
  cases c with
  | insert t =>
    by_cases ht : t.Real
    · rw [perform_insert_of_real ht, Command.contents, if_pos ht]
      exact (h.put ht).2
    · rw [(perform_of_not_real ht s).1, Command.contents, if_neg ht]
      exact h
  | remove t =>
    by_cases ht : t.Real
    · rw [perform_remove_of_real ht]
      exact (h.drop ht).2
    · have hout : t ∉ S := fun hin => ht (h.real hin)
      rw [(perform_of_not_real ht s).2, Command.contents, Finset.erase_eq_of_notMem hout]
      exact h
  | removeMatching pattern => exact hc.elim
  | clear => exact h.clear

/-- A call changes an index set as it changes the set of its triples. -/
theorem Represents.perform (h : s.Represents S) (hr : ∀ t ∈ S, t.InRange) (c : Command) :
    (s.perform c).Represents (c.contents S) := by
  cases c with
  | removeMatching pattern => exact (h.removeMatching hr pattern).2
  | _ => exact h.perform_direct trivial

theorem Command.inRange_contents {c : Command} (hr : ∀ t ∈ S, t.InRange)
    (hc : ∀ t, c = .insert t → t.InRange) : ∀ t ∈ c.contents S, t.InRange := by
  intro t ht
  cases c with
  | insert u =>
    rw [contents] at ht
    split at ht
    · rcases Finset.mem_insert.mp ht with rfl | ht
      · exact hc t rfl
      · exact hr t ht
    · exact hr t ht
  | remove u => exact hr t (Finset.mem_of_mem_erase ht)
  | removeMatching pattern => exact hr t (Finset.mem_of_mem_filter t ht)
  | clear => exact absurd ht (Finset.notMem_empty t)

/-- A run of calls is followed by the set of the triples. -/
theorem represents_run (orders : List IndexOrder) {commands : List Command}
    (hr : ∀ t, .insert t ∈ commands → t.InRange) :
    (run orders commands).Represents (contents commands) ∧
      ∀ t ∈ contents commands, t.InRange := by
  have hrun : ∀ (cs : List Command) (s : IndexSet) (S : Finset IdTriple), s.Represents S →
      (∀ t ∈ S, t.InRange) → (∀ t, .insert t ∈ cs → t.InRange) →
      (cs.foldl IndexSet.perform s).Represents (cs.foldl Command.contents S) ∧
        ∀ t ∈ cs.foldl Command.contents S, t.InRange := by
    intro cs
    induction cs with
    | nil => exact fun s S h hS _ => ⟨h, hS⟩
    | cons c cs ih =>
      intro s S h hS hcs
      refine ih _ _ (h.perform hS c) (Command.inRange_contents hS fun t he => ?_) fun t ht =>
        hcs t (List.mem_cons_of_mem c ht)
      exact hcs t (he ▸ List.mem_cons_self)
  exact hrun commands _ _ (represents_empty orders) (by simp) hr

theorem Represents.answersAs (h : s.Represents S) (hr : ∀ t ∈ S, t.InRange) : s.AnswersAs S where
  insert t := h.insert_answer
  remove t := h.remove_answer
  refuses t ht := refusal_of_not_real ht s
  contains t := Bool.eq_iff_iff.mpr ((h.contains_iff hr t).trans decide_eq_true_iff.symm)
  mem_find pattern t := by rw [(h.find_spec hr pattern).2, IdTriple.isMatch_iff]
  find_sorted pattern := (h.find_spec hr pattern).1
  nodup_find pattern := (h.nodup_find pattern).1
  containsMatch pattern := by
    rw [h.containsMatch_eq hr, Bool.not_eq_true', Ne, ← List.isEmpty_iff, Bool.not_eq_true]
  removeMatching pattern := (h.removeMatching hr pattern).1
  size := h.size_eq
  consistent := h.isConsistent_eq hr

theorem AnswersAs.sameAnswers {s' : IndexSet} (h : s.AnswersAs S) (h' : s'.AnswersAs S) :
    s.SameAnswers s' := by
  have hfind (pattern : IdTriple) : (s.find pattern).Perm (s'.find pattern) :=
    (List.perm_ext_iff_of_nodup (h.nodup_find pattern) (h'.nodup_find pattern)).mpr fun t => by
      rw [h.mem_find, h'.mem_find]
  constructor
  case find => exact hfind
  case insert =>
    intro t
    by_cases ht : t.Real
    · rw [h.insert t ht, h'.insert t ht]
    · obtain ⟨id, -, hrefused⟩ := refused_of_not_real ht
      rw [(hrefused s).1, (hrefused s').1]
  case remove =>
    intro t
    by_cases ht : t.Real
    · rw [h.remove t ht, h'.remove t ht]
    · obtain ⟨id, -, hrefused⟩ := refused_of_not_real ht
      rw [(hrefused s).2, (hrefused s').2]
  case contains => exact fun t => (h.contains t).trans (h'.contains t).symm
  case containsMatch =>
    intro pattern
    rw [Bool.eq_iff_iff, h.containsMatch, h'.containsMatch]
    rw [Ne, Ne, ← List.length_eq_zero_iff, ← List.length_eq_zero_iff, (hfind pattern).length_eq]
  case removeMatching =>
    exact fun pattern => ⟨_, _, h.removeMatching pattern, h'.removeMatching pattern,
      hfind pattern⟩
  case size => exact h.size.trans h'.size.symm
  case consistent => exact h.consistent.trans h'.consistent.symm

/-- After every run of calls the index set answers as the set of the triples, and the orders it
keeps show in nothing but the order of the matches. -/
theorem run_answersAs_contents (orders : List IndexOrder) (commands : List Command)
    (hr : ∀ t, .insert t ∈ commands → t.InRange) :
    (run orders commands).AnswersAs (contents commands) ∧
      ∀ others, (run orders commands).SameAnswers (run others commands) := by
  have hall (orders : List IndexOrder) : (run orders commands).AnswersAs (contents commands) := by
    obtain ⟨hrep, hS⟩ := represents_run orders hr
    exact hrep.answersAs hS
  exact ⟨hall orders, fun others => (hall orders).sameAnswers (hall others)⟩

theorem run_answersAs_contents_beside_greatest_id :
    let commands : List Command := [.insert ⟨.real 1, .real 2, .real 3⟩,
      .insert ⟨.real 1, .real 2, .real NodeId.maxValue⟩, .insert ⟨.real 1, .any, .real 3⟩,
      .removeMatching ⟨.any, .any, .real 3⟩]
    (∀ t, .insert t ∈ commands → t.InRange) ∧
      (run [.osp, .osp] commands).AnswersAs (contents commands) ∧
      ∀ others, (run [.osp, .osp] commands).SameAnswers (run others commands) := by
  intro commands
  have hr : ∀ t, .insert t ∈ commands → t.InRange := by
    intro t ht
    simp only [commands, List.mem_cons, Command.insert.injEq, List.not_mem_nil, or_false,
      reduceCtorEq] at ht
    rcases ht with rfl | rfl | rfl <;> decide
  exact ⟨hr, run_answersAs_contents [.osp, .osp] commands hr⟩

end TripleStore.IndexSet
