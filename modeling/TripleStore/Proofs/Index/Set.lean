import Mathlib.Data.Finset.Card
import TripleStore.Index.Set
import TripleStore.Proofs.Index.Sorted

/-!
# An index set represents a finite set of triples

`IndexSet.Represents` says that every index of a set holds the same triples. Each operation keeps
the indexes in step, and the represented set together with the orders determines the index set byte
for byte, so an operation that restores the set restores the bytes.
-/

namespace TripleStore

/-- The index holds the triples of a set. -/
def TripleIndex.Represents (x : TripleIndex) (S : Finset IdTriple) : Prop :=
  ∃ ts, x.Lists ts ∧ ∀ t, t ∈ ts ↔ t ∈ S

namespace TripleIndex.Represents

variable {x : TripleIndex} {S : Finset IdTriple} {t : IdTriple}

theorem insert (h : x.Represents S) (ht : t.Real) :
    ((x.insert t).1 = true ↔ t ∉ S) ∧ (x.insert t).2.Represents (Insert.insert t S) := by
  obtain ⟨ts, hts, hmem⟩ := h
  obtain ⟨hfresh, us, hus, hmem'⟩ := hts.insert ht
  refine ⟨by rw [hfresh, hmem], us, hus, fun u => ?_⟩
  rw [hmem', hmem, Finset.mem_insert]

theorem erase (h : x.Represents S) (ht : t.Real) :
    ((x.erase t).1 = true ↔ t ∈ S) ∧ (x.erase t).2.Represents (S.erase t) := by
  obtain ⟨ts, hts, hmem⟩ := h
  obtain ⟨hfound, us, hus, hmem'⟩ := hts.erase ht
  refine ⟨by rw [hfound, hmem], us, hus, fun u => ?_⟩
  rw [hmem', hmem, Finset.mem_erase]

theorem clear (h : x.Represents S) : x.clear.Represents ∅ := by
  obtain ⟨ts, hts, -⟩ := h
  exact ⟨[], hts.clear, by simp⟩

theorem contains_iff (h : x.Represents S) (ht : t.Real) : x.contains t = true ↔ t ∈ S := by
  obtain ⟨ts, hts, hmem⟩ := h
  rw [TripleIndex.contains, hts.held.contains_iff, hts.exists_key_iff ht, hmem]

theorem unique {y : TripleIndex} (h : x.Represents S) (h' : y.Represents S)
    (ho : x.order = y.order) : x = y := by
  obtain ⟨ts, hts, hmem⟩ := h
  obtain ⟨us, hus, hmem'⟩ := h'
  exact hts.unique hus ho fun t => (hmem t).trans (hmem' t).symm

end TripleIndex.Represents

namespace IndexSet

/-- Every index holds the triples of a set, and the first one holds them by subject. -/
structure Represents (s : IndexSet) (S : Finset IdTriple) : Prop where
  primary : s.primary.Represents S
  others : ∀ x ∈ s.others, x.Represents S
  primary_order : s.primary.order = .spo

variable {s : IndexSet} {S : Finset IdTriple} {t : IdTriple}

theorem Represents.index (h : s.Represents S) {x : TripleIndex} (hx : x ∈ s.indexes) :
    x.Represents S := by
  rcases List.mem_cons.mp hx with rfl | hx
  · exact h.primary
  · exact h.others x hx

theorem Represents.real (h : s.Represents S) (ht : t ∈ S) : t.Real := by
  obtain ⟨ts, hts, hmem⟩ := h.primary
  exact hts.real t ((hmem t).mpr ht)

theorem represents_empty (orders : List IndexOrder) : (empty orders).Represents ∅ := by
  have hempty (order : IndexOrder) : (TripleIndex.empty order).Represents ∅ :=
    ⟨[], TripleIndex.lists_empty order, by simp⟩
  refine ⟨hempty .spo, fun x hx => ?_, rfl⟩
  obtain ⟨order, -, rfl⟩ := List.mem_map.mp hx
  exact hempty order

theorem Represents.clear (h : s.Represents S) : s.clear.Represents ∅ := by
  refine ⟨h.primary.clear, fun x hx => ?_, h.primary_order⟩
  obtain ⟨y, hy, rfl⟩ := List.mem_map.mp hx
  exact (h.others y hy).clear

/-- The set and the orders determine the index set. -/
theorem Represents.unique {s' : IndexSet} (h : s.Represents S) (h' : s'.Represents S)
    (ho : s.orders = s'.orders) : s = s' := by
  have hall : ∀ xs ys : List TripleIndex, (∀ x ∈ xs, x.Represents S) → (∀ y ∈ ys, y.Represents S) →
      xs.map (·.order) = ys.map (·.order) → xs = ys := by
    intro xs
    induction xs with
    | nil => exact fun ys _ _ he => (List.map_eq_nil_iff.mp he.symm).symm
    | cons x xs ih =>
      intro ys hxs hys he
      cases ys with
      | nil => simp at he
      | cons y ys =>
        simp only [List.forall_mem_cons] at hxs hys
        simp only [List.map_cons, List.cons.injEq] at he
        rw [hxs.1.unique hys.1 he.1, ih ys hxs.2 hys.2 he.2]
  have hidx := hall s.indexes s'.indexes (fun x => h.index) (fun x => h'.index) ho
  cases s
  cases s'
  simpa [indexes] using hidx

@[simp] theorem orders_put (s : IndexSet) (t : IdTriple) : (s.put t).2.orders = s.orders := by
  simp [put, orders, indexes, Function.comp_def]

@[simp] theorem orders_drop (s : IndexSet) (t : IdTriple) : (s.drop t).2.orders = s.orders := by
  simp [drop, orders, indexes, Function.comp_def]

@[simp] theorem orders_clear (s : IndexSet) : s.clear.orders = s.orders := by
  simp [clear, orders, indexes, Function.comp_def]

/-- Putting in a triple adds it to every index, and tells whether it is new. -/
theorem Represents.put (h : s.Represents S) (ht : t.Real) :
    ((s.put t).1 = true ↔ t ∉ S) ∧ (s.put t).2.Represents (Insert.insert t S) := by
  constructor
  · simp only [IndexSet.put, Bool.or_eq_true, List.any_map, List.any_eq_true,
      Function.comp_apply]
    constructor
    · rintro (hfresh | ⟨x, hx, hfresh⟩)
      · exact (h.primary.insert ht).1.mp hfresh
      · exact ((h.others x hx).insert ht).1.mp hfresh
    · exact fun hnew => .inl ((h.primary.insert ht).1.mpr hnew)
  · refine ⟨(h.primary.insert ht).2, fun x hx => ?_, h.primary_order⟩
    simp only [IndexSet.put, List.map_map, List.mem_map] at hx
    obtain ⟨y, hy, rfl⟩ := hx
    exact ((h.others y hy).insert ht).2

/-- Taking out a triple removes it from every index, and tells whether it was there. -/
theorem Represents.drop (h : s.Represents S) (ht : t.Real) :
    ((s.drop t).1 = true ↔ t ∈ S) ∧ (s.drop t).2.Represents (S.erase t) := by
  constructor
  · simp only [IndexSet.drop, Bool.or_eq_true, List.any_map, List.any_eq_true,
      Function.comp_apply]
    constructor
    · rintro (hfound | ⟨x, hx, hfound⟩)
      · exact (h.primary.erase ht).1.mp hfound
      · exact ((h.others x hx).erase ht).1.mp hfound
    · exact fun hold => .inl ((h.primary.erase ht).1.mpr hold)
  · refine ⟨(h.primary.erase ht).2, fun x hx => ?_, h.primary_order⟩
    simp only [IndexSet.drop, List.map_map, List.mem_map] at hx
    obtain ⟨y, hy, rfl⟩ := hx
    exact ((h.others y hy).erase ht).2

theorem checkStorable_eq_ok_iff (t : IdTriple) : checkStorable t = .ok () ↔ t.Real := by
  rw [← IdTriple.mark?_eq_none_iff, checkStorable]
  cases t.mark? <;> simp

/-- A triple with a mark can neither be put in nor be taken out. -/
theorem refused_of_not_real (ht : ¬ t.Real) :
    ∃ id, t.mark? = some id ∧ ∀ s : IndexSet,
      s.insert t = .error (.invalidTerm (.notStorable id)) ∧
        s.remove t = .error (.invalidTerm (.notStorable id)) := by
  rw [← IdTriple.mark?_eq_none_iff] at ht
  obtain ⟨id, hid⟩ := Option.ne_none_iff_exists'.mp ht
  refine ⟨id, hid, fun s => ?_⟩
  simp only [IndexSet.insert, remove, checkStorable, hid]
  exact ⟨rfl, rfl⟩

theorem insert_of_real (ht : t.Real) (s : IndexSet) : s.insert t = .ok (s.put t) := by
  rw [IndexSet.insert, (checkStorable_eq_ok_iff t).mpr ht]
  rfl

theorem remove_of_real (ht : t.Real) (s : IndexSet) : s.remove t = .ok (s.drop t) := by
  rw [remove, (checkStorable_eq_ok_iff t).mpr ht]
  rfl

/-- What a call answers that puts in a triple of real ids. -/
theorem Represents.insert_answer (h : s.Represents S) (ht : t.Real) :
    (s.insert t).map Prod.fst = .ok (decide (t ∉ S)) := by
  have hfresh : (s.put t).1 = decide (t ∉ S) :=
    Bool.eq_iff_iff.mpr ((h.put ht).1.trans decide_eq_true_iff.symm)
  rw [insert_of_real ht, Except.map, hfresh]

theorem Represents.remove_answer (h : s.Represents S) (ht : t.Real) :
    (s.remove t).map Prod.fst = .ok (decide (t ∈ S)) := by
  have hfound : (s.drop t).1 = decide (t ∈ S) :=
    Bool.eq_iff_iff.mpr ((h.drop ht).1.trans decide_eq_true_iff.symm)
  rw [remove_of_real ht, Except.map, hfound]

end IndexSet

end TripleStore
