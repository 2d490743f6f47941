import TripleStore.Proofs.Index.Refinement

/-!
# Triples that do not read back

A triple of real ids is taken in whatever numbers the ids carry. With a number beyond the greatest
one its key reads back as a triple with a mark, or not at all. `ReadsBack` lists what an index set
answers then: such a triple is new once, a member, and counted, but no lookup finds it. In its place
a lookup may find a triple with a mark; and a key that reads back as nothing sets the count apart
from what lookups find, and the indexes apart from one another.
-/

namespace TripleStore.IndexSet

/-- What an index set answers that holds the triples of a set, whether they read back or not. -/
structure ReadsBack (s : IndexSet) (S : Finset IdTriple) : Prop where
  insert : ∀ t : IdTriple, t.Real → (s.insert t).map Prod.fst = .ok (decide (t ∉ S))
  remove : ∀ t : IdTriple, t.Real → (s.remove t).map Prod.fst = .ok (decide (t ∈ S))
  refuses : ∀ t : IdTriple, ¬ t.Real → ∃ id ∈ t.toList, id.isReal = false ∧
    s.insert t = .error (.invalidTerm (.notStorable id)) ∧
    s.remove t = .error (.invalidTerm (.notStorable id)) ∧
    s.perform (.insert t) = s ∧ s.perform (.remove t) = s
  contains : ∀ t : IdTriple, t.Real → s.contains t = decide (t ∈ S)
  mem_find : ∀ pattern u, u ∈ s.find pattern ↔
    .missing ∉ pattern.toList ∧ pattern.Matches u ∧ ∃ t ∈ S, t.readBack? = some u
  /-- The stored triples that lookups find are those told by their bits. -/
  found : ∀ t ∈ S, (t ∈ s.find .any ↔ t.InRange) ∧ (t ∈ s.find t ↔ t.InRange)
  /-- Lookups find no mark exactly if no number has the bits of one. -/
  real : (∀ pattern, ∀ u ∈ s.find pattern, u.Real) ↔ ∀ t ∈ S, t.readBack?.isSome → t.InRange
  size : s.size = S.card
  size_eq_found : s.size = (s.find .any).length ↔ ∀ t ∈ S, t.readBack?.isSome
  consistent : 1 < s.orders.length → (s.isConsistent = true ↔ ∀ t ∈ S, t.readBack?.isSome)

variable {s : IndexSet} {S : Finset IdTriple}

/-- The stored triples that a lookup finds are those told by their bits. -/
theorem Represents.mem_find_of_mem (h : s.Represents S) {pattern t : IdTriple} (ht : t ∈ S)
    (hmissing : .missing ∉ pattern.toList) (hmatch : pattern.Matches t) :
    t ∈ s.find pattern ↔ t.InRange := by
  rw [h.mem_find_iff, ← IdTriple.readBack?_eq_self_iff]
  constructor
  · rintro ⟨-, -, u, hu, hback⟩
    obtain rfl := IdTriple.eq_of_readBack?_of_real hback (h.real hu) (h.real ht)
    exact hback
  · exact fun hback => ⟨hmissing, hmatch, t, ht, hback⟩

theorem any_matches (t : IdTriple) : IdTriple.any.Matches t := by
  simp [IdTriple.Matches, IdTriple.any, Triple.constant]

theorem Represents.find_real_iff (h : s.Represents S) :
    (∀ pattern, ∀ u ∈ s.find pattern, u.Real) ↔
      ∀ t ∈ S, t.readBack?.isSome → t.InRange := by
  constructor
  · intro hreal t ht hsome
    obtain ⟨u, hback⟩ := Option.isSome_iff_exists.mp hsome
    have hu : u ∈ s.find .any :=
      h.mem_find_iff.mpr ⟨by decide, any_matches u, t, ht, hback⟩
    obtain rfl := IdTriple.eq_of_readBack?_of_real hback (h.real ht) (hreal .any u hu)
    exact (IdTriple.readBack?_eq_self_iff u).mp hback
  · intro hinRange pattern u hu
    obtain ⟨-, -, t, ht, hback⟩ := h.mem_find_iff.mp hu
    have hr : t.InRange := hinRange t ht (by rw [hback, Option.isSome_some])
    rw [(IdTriple.readBack?_eq_self_iff t).mpr hr] at hback
    exact Option.some.inj hback ▸ h.real ht

theorem Represents.size_eq_found_iff (h : s.Represents S) :
    s.size = (s.find .any).length ↔ ∀ t ∈ S, t.readBack?.isSome := by
  obtain ⟨ts, hts, hmem⟩ := h.index (s.choose_mem .any)
  have hfind : s.find .any = ts.filterMap IdTriple.readBack? := scan_any_eq hts.keeps
  rw [h.size_eq, ← length_eq_card hts.nodup hmem, hfind, eq_comm, List.filterMap_length_eq_length]
  simp only [hmem]

/-- With a second index the check takes a key that reads back as nothing for a difference. -/
theorem Represents.isConsistent_iff (h : s.Represents S) (ho : 1 < s.orders.length) :
    s.isConsistent = true ↔ ∀ t ∈ S, t.readBack?.isSome := by
  refine ⟨fun hconsistent => ?_, h.isConsistent_eq_of_readBack?⟩
  obtain ⟨x, hx⟩ : ∃ x, x ∈ s.others := by
    apply List.exists_mem_of_length_pos
    simpa [orders, indexes] using ho
  obtain ⟨ts, hts, hmem⟩ := h.primary
  obtain ⟨us, hus, hmem'⟩ := h.others x hx
  have hlen : x.len = (ts.filterMap IdTriple.readBack?).length := by
    rw [isConsistent, List.all_eq_true, scan_any_eq hts.keeps] at hconsistent
    have hx := hconsistent x hx
    rw [Bool.and_eq_true, beq_iff_eq] at hx
    exact hx.1
  rw [hus.len_eq, length_eq_card hus.nodup hmem', ← length_eq_card hts.nodup hmem, eq_comm,
    List.filterMap_length_eq_length] at hlen
  simpa only [hmem] using hlen

theorem Represents.readsBack (h : s.Represents S) : s.ReadsBack S where
  insert t := h.insert_answer
  remove t := h.remove_answer
  refuses t ht := refusal_of_not_real ht s
  contains t ht := Bool.eq_iff_iff.mpr ((h.primary.contains_iff ht).trans decide_eq_true_iff.symm)
  mem_find pattern u := h.mem_find_iff
  found t ht := by
    have hmissing : NodeId.missing ∉ t.toList := fun hm => absurd (h.real ht _ hm) (by decide)
    exact ⟨h.mem_find_of_mem ht (by decide) (any_matches t),
      h.mem_find_of_mem ht hmissing (by simp [IdTriple.Matches])⟩
  real := h.find_real_iff
  size := h.size_eq
  size_eq_found := h.size_eq_found_iff
  consistent := h.isConsistent_iff

theorem orders_perform_direct (s : IndexSet) {c : Command} (hc : c.IsDirect) :
    (s.perform c).orders = s.orders := by
  cases c with
  | insert t =>
    by_cases ht : t.Real
    · rw [perform_insert_of_real ht, orders_put]
    · rw [(perform_of_not_real ht s).1]
  | remove t =>
    by_cases ht : t.Real
    · rw [perform_remove_of_real ht, orders_drop]
    · rw [(perform_of_not_real ht s).2]
  | removeMatching pattern => exact hc.elim
  | clear => exact orders_clear s

/-- A run of calls that hang on no lookup is followed by the set of the triples. -/
theorem represents_direct_run (orders : List IndexOrder) {commands : List Command}
    (hc : ∀ c ∈ commands, c.IsDirect) :
    (run orders commands).Represents (contents commands) ∧
      (run orders commands).orders = (empty orders).orders := by
  induction commands using List.reverseRecOn with
  | nil => exact ⟨represents_empty orders, rfl⟩
  | append_singleton commands c ih =>
    rw [List.forall_mem_append, List.forall_mem_singleton] at hc
    obtain ⟨hrep, horders⟩ := ih hc.1
    rw [run, contents, List.foldl_concat, List.foldl_concat, ← run, ← contents]
    exact ⟨hrep.perform_direct hc.2, (orders_perform_direct _ hc.2).trans horders⟩

/-- After every run of calls that put in and take out triples, whatever numbers their ids carry, the
index set of some orders answers as follows from what the triples read back as. -/
theorem direct_run_readsBack (orders : List IndexOrder) (commands : List Command)
    (hc : ∀ c ∈ commands, c.IsDirect) :
    (run orders commands).ReadsBack (contents commands) ∧
      (run orders commands).orders = (empty orders).orders := by
  obtain ⟨hrep, horders⟩ := represents_direct_run orders hc
  exact ⟨hrep.readsBack, horders⟩

/-- A triple with the greatest id, one with a number beyond it, and one with the bits of a mark. -/
theorem direct_run_readsBack_beyond_greatest :
    let commands : List Command := [.insert ⟨.real 1, .real 2, .real NodeId.maxValue⟩,
      .insert ⟨.real (NodeId.maxValue + 1), .real 2, .real 3⟩,
      .insert ⟨.real 1, .real 2, .real NodeId.rawMissing⟩, .insert ⟨.real 1, .any, .real 3⟩,
      .remove ⟨.real (NodeId.maxValue + 1), .real 2, .real 3⟩]
    (∀ c ∈ commands, c.IsDirect) ∧ (run [.pos, .osp] commands).ReadsBack (contents commands) ∧
      (run [.pos, .osp] commands).orders = [.spo, .pos, .osp] := by
  intro commands
  have hc : ∀ c ∈ commands, c.IsDirect := by
    simp only [commands, List.forall_mem_cons, Command.IsDirect]
    simp
  exact ⟨hc, direct_run_readsBack [.pos, .osp] commands hc⟩

/-- Put in as new, the triple beyond the greatest id is counted but not found, and the indexes are
taken to differ; the one with the bits of a mark is found as a triple with that mark. -/
theorem insert_new_not_found :
    let beyond : IdTriple := ⟨.real (NodeId.maxValue + 1), .real 1, .real 1⟩
    let marked : IdTriple := ⟨.real NodeId.rawMissing, .real 1, .real 1⟩
    let s := run [.pos] [.insert beyond]
    let s' := run [.pos] [.insert marked]
    ((empty [.pos]).insert beyond).map Prod.fst = .ok true ∧ s.find .any = [] ∧
      s.find beyond = [] ∧ s.size = 1 ∧ s.isConsistent = false ∧
      ((empty [.pos]).insert marked).map Prod.fst = .ok true ∧
      s'.find .any = [⟨.missing, .real 1, .real 1⟩] ∧ s'.find marked = [] := by
  decide +kernel

end TripleStore.IndexSet
