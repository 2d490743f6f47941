import TripleStore.Index.InPlace
import TripleStore.Proofs.Index.Refinement
import TripleStore.Proofs.Index.Wire
import TripleStore.Proofs.Record.InPlace

/-!
# Indexes changed in place stay in step

An index whose records have the shape of its keys refuses no triple, so a triple is put into every
index of a set or into none, move by move as at once. If some index did refuse one, the indexes
before it would be left as they were, byte for byte.
-/

namespace TripleStore

open InPlace (on_bind_of_ok)

namespace TripleIndex

/-- The index is made of keys, of which there are at most so many. -/
structure Within (x : TripleIndex) (n : Nat) : Prop where
  shape : x.records.shape = .indexKey
  held : ∃ rs, x.records.Holds rs
  len_le : x.len ≤ n

variable {x : TripleIndex} {n : Nat} {t : IdTriple}

theorem mapError_buildKey (x : TripleIndex) (t : IdTriple) :
    (x.buildKey t).mapError Error.shapeMismatch = .ok (x.key t) := by
  rw [buildKey, x.writeAll_key t Array.size_replicate]
  rfl

theorem on_onRecords_of_ok {α : Type} {call : InPlace RecordError Buffer α} {a : α}
    {records : Buffer} (h : call.on x.records = (.ok a, records)) :
    (onRecords call).on x = (.ok a, { x with records }) := by
  rw [onRecords, InPlace.on_onPart, h]
  rfl

theorem within_empty (order : IndexOrder) : (empty order).Within 0 :=
  ⟨rfl, ⟨[], Buffer.holds_empty _⟩, Nat.le_refl 0⟩

theorem Within.clear (h : x.Within n) : x.clear.Within 0 :=
  ⟨h.shape, ⟨[], Buffer.holds_empty _⟩, Nat.le_refl 0⟩

theorem Within.admits_entry (h : x.Within n) (t : IdTriple) :
    x.records.shape.Admits (x.entry t) :=
  h.shape ▸ indexKey_admits_entry t

theorem Within.insert (h : x.Within n) (t : IdTriple) : (x.insert t).2.Within (n + 1) := by
  obtain ⟨rs, hrs⟩ := h.held
  have hfits := Shape.admits_iff_fits.mp (h.admits_entry t)
  have hlen := x.records.len_perform_le (.insert (x.entry t))
  rw [Buffer.perform, Buffer.insert_of_fits hfits] at hlen
  exact ⟨(Buffer.shape_put _ _).trans h.shape, ⟨_, (hrs.put (h.admits_entry t)).1⟩,
    Nat.le_trans hlen (Nat.succ_le_succ h.len_le)⟩

theorem Within.erase (h : x.Within n) (t : IdTriple) : (x.erase t).2.Within n := by
  obtain ⟨rs, hrs⟩ := h.held
  refine ⟨(Buffer.shape_erase _ _).trans h.shape, ⟨_, (hrs.erase (x.key t)).1⟩,
    Nat.le_trans ?_ h.len_le⟩
  simp only [TripleIndex.erase, len, Buffer.erase]
  cases x.records.find (x.key t)
  · exact Nat.sub_le _ _
  · exact Nat.le_refl _

theorem Within.on_insertInPlace (h : x.Within n)
    (hfits : (n + 1) * Shape.indexKey.recordLength ≤ Bytes.capacity) (t : IdTriple) :
    (insertInPlace t).on x = (.ok (x.insert t).1, (x.insert t).2) := by
  obtain ⟨rs, hrs⟩ := h.held
  have hroom : (x.records.len + 1) * x.records.shape.recordLength ≤ Bytes.capacity := by
    rw [h.shape]
    exact Nat.le_trans (Nat.mul_le_mul_right _ (Nat.succ_le_succ h.len_le)) hfits
  have hcreate : x.records.shape.create (x.key t) none = .ok (x.entry t) := by
    have hcheck : x.records.shape.check (x.key t) none = .ok () := h.admits_entry t
    rw [Shape.create, hcheck]
    rfl
  have hmade := congrArg (Except.mapError Error.shapeMismatch) hcreate
  have hput := hrs.on_insertInPlace hroom (x.entry t)
  rw [Buffer.insert_of_fits (Shape.admits_iff_fits.mp (h.admits_entry t))] at hput
  rw [insertInPlace, on_bind_of_ok (InPlace.on_get x), mapError_buildKey,
    on_bind_of_ok (InPlace.on_require_ok (x.key t) x), hmade, Except.mapError,
    on_bind_of_ok (InPlace.on_require_ok (x.entry t) x)]
  exact on_onRecords_of_ok hput

theorem Within.on_removeInPlace (h : x.Within n)
    (hfits : n * Shape.indexKey.recordLength ≤ Bytes.capacity) (t : IdTriple) :
    (removeInPlace t).on x = (.ok (x.erase t).1, (x.erase t).2) := by
  obtain ⟨rs, hrs⟩ := h.held
  have hroom : x.records.bytes.size ≤ Bytes.capacity := by
    rw [hrs.size_eq, h.shape]
    exact Nat.le_trans (Nat.mul_le_mul_right _ h.len_le) hfits
  have herase := on_onRecords_of_ok (hrs.on_removeInPlace hroom (x.key t))
  rw [removeInPlace, on_bind_of_ok (InPlace.on_get x), mapError_buildKey,
    on_bind_of_ok (InPlace.on_require_ok (x.key t) x), on_bind_of_ok herase]
  rfl

end TripleIndex

namespace TripleIndex.Represents

variable {x : TripleIndex} {S : Finset IdTriple} {t : IdTriple}

theorem within (h : x.Represents S) : x.Within S.card := by
  obtain ⟨ts, hts, hmem⟩ := h
  refine ⟨hts.shape, ⟨_, hts.held⟩, ?_⟩
  rw [hts.len_eq, IndexSet.length_eq_card hts.nodup hmem]

/-- An index that takes a new triple and gives it up is what it was. -/
theorem erase_insert (h : x.Represents S) (ht : t.Real) (hnew : t ∉ S) :
    ((x.insert t).2.erase t).2 = x := by
  have herased := ((h.insert ht).2.erase ht).2
  rw [Finset.erase_insert hnew] at herased
  exact herased.unique h rfl

theorem insert_of_mem (h : x.Represents S) (ht : t.Real) (hold : t ∈ S) :
    (x.insert t).2 = x := by
  have hinserted := (h.insert ht).2
  rw [Finset.insert_eq_of_mem hold] at hinserted
  exact hinserted.unique h rfl

end TripleIndex.Represents

namespace IndexSet

variable {s : IndexSet} {S : Finset IdTriple} {t : IdTriple} {n : Nat} {xs : List TripleIndex}

/-- Every index is made of keys, of which there are at most so many. -/
def Within (s : IndexSet) (n : Nat) : Prop := ∀ x ∈ s.indexes, x.Within n

section Each

variable {insert : TripleIndex → Except (Halt Error) Bool × TripleIndex}
  {undo : TripleIndex → TripleIndex} {f : TripleIndex → Bool × TripleIndex}

/-- Indexes that refuse nothing take the triple one after the other. -/
theorem insertEach_append (hxs : ∀ x ∈ xs, insert x = (.ok (f x).1, (f x).2)) (added : Bool)
    (done rest : List TripleIndex) :
    insertEach insert undo added done (xs ++ rest) =
      insertEach insert undo (added || xs.any fun x => (f x).1)
        (done ++ xs.map fun x => (f x).2) rest := by
  induction xs generalizing added done with
  | nil => simp
  | cons x xs ih =>
    rw [List.forall_mem_cons] at hxs
    rw [List.cons_append, insertEach, hxs.1]
    simp only
    rw [ih hxs.2, List.any_cons, Bool.or_assoc, List.map_cons, List.append_assoc,
      List.singleton_append]

theorem insertEach_of_ok (hxs : ∀ x ∈ xs, insert x = (.ok (f x).1, (f x).2)) :
    insertEach insert undo false [] xs =
      (.ok (xs.any fun x => (f x).1), xs.map fun x => (f x).2) := by
  have heach : insertEach insert undo false [] (xs ++ []) = _ := insertEach_append hxs false [] []
  rwa [List.append_nil, Bool.false_or, List.nil_append] at heach

/-- If an index refuses the triple, those before it give it up if it was new in one of them. -/
theorem insertEach_of_refused {x x' : TripleIndex} {e : Error}
    (hxs : ∀ y ∈ xs, insert y = (.ok (f y).1, (f y).2)) (hx : insert x = (.error (.refused e), x'))
    (back : List TripleIndex) :
    insertEach insert undo false [] (xs ++ x :: back) =
      (.error (.refused e), xs.map (fun y =>
        if xs.any (fun y => (f y).1) then undo (f y).2 else (f y).2) ++ x' :: back) := by
  rw [insertEach_append hxs, insertEach, hx]
  simp only [Bool.false_or, List.nil_append]
  split
  · rw [List.map_map]
    rfl
  · rfl

theorem removeEach_of_ok {remove : TripleIndex → Except (Halt Error) Bool × TripleIndex}
    (hxs : ∀ x ∈ xs, remove x = (.ok (f x).1, (f x).2)) (removed : Bool) :
    removeEach remove removed xs =
      (.ok (removed || xs.any fun x => (f x).1), xs.map fun x => (f x).2) := by
  induction xs generalizing removed with
  | nil => simp [removeEach]
  | cons x xs ih =>
    rw [List.forall_mem_cons] at hxs
    rw [removeEach, hxs.1]
    simp only
    rw [ih hxs.2, List.any_cons, Bool.or_assoc, List.map_cons]

end Each

theorem on_onIndexes {α : Type} (call : List TripleIndex → Except (Halt Error) α × List TripleIndex)
    (s : IndexSet) :
    (onIndexes call).on s = ((call s.indexes).1, s.withIndexes (call s.indexes).2) := by
  rw [onIndexes, on_bind_of_ok (InPlace.on_get s), on_bind_of_ok (InPlace.on_set s _)]
  cases (call s.indexes).1 <;> rfl

/-- Putting in a triple index by index comes to putting it in at once. -/
theorem Within.on_insertInPlace (h : s.Within n)
    (hfits : (n + 1) * Shape.indexKey.recordLength ≤ Bytes.capacity) (t : IdTriple) :
    (insertInPlace t).on s = InPlace.allOrNothing s (s.insert t) := by
  rw [insertInPlace, IndexSet.insert]
  cases checkStorable t with
  | error e => rfl
  | ok _ =>
    rw [on_bind_of_ok (InPlace.on_require_ok () s), on_onIndexes,
      insertEach_of_ok fun x hx => (h x hx).on_insertInPlace hfits t]
    simp [indexes, withIndexes, Except.map, InPlace.allOrNothing, put, Function.comp_def]

/-- Taking out a triple index by index comes to taking it out at once. -/
theorem Within.on_removeInPlace (h : s.Within n)
    (hfits : n * Shape.indexKey.recordLength ≤ Bytes.capacity) (t : IdTriple) :
    (removeInPlace t).on s = InPlace.allOrNothing s (s.remove t) := by
  rw [removeInPlace, IndexSet.remove]
  cases checkStorable t with
  | error e => rfl
  | ok _ =>
    rw [on_bind_of_ok (InPlace.on_require_ok () s), on_onIndexes,
      removeEach_of_ok fun x hx => (h x hx).on_removeInPlace hfits t]
    simp [indexes, withIndexes, Except.map, InPlace.allOrNothing, drop, Function.comp_def]

/-! ### A refused triple leaves no trace -/

/-- When an index refuses a triple, those before it are as they were, whether they had it or not. -/
theorem insertEach_restores {front back : List TripleIndex} {x x' : TripleIndex} {e : Error}
    (hfront : ∀ y ∈ front, y.Represents S) (ht : t.Real)
    (hfits : (S.card + 1) * Shape.indexKey.recordLength ≤ Bytes.capacity)
    (hx : (TripleIndex.insertInPlace t).on x = (.error (.refused e), x')) :
    insertEach (TripleIndex.insertInPlace t).on
        (fun y => ((TripleIndex.removeInPlace t).on y).2) false [] (front ++ x :: back) =
      (.error (.refused e), front ++ x' :: back) := by
  have hstep : ∀ y ∈ front, (TripleIndex.insertInPlace t).on y =
      (.ok (y.insert t).1, (y.insert t).2) := fun y hy =>
    (hfront y hy).within.on_insertInPlace hfits t
  have hrestored : ∀ y ∈ front,
      (if front.any (fun z => (z.insert t).1) then
        ((TripleIndex.removeInPlace t).on (y.insert t).2).2 else (y.insert t).2) = y := by
    intro y hy
    have hinserted := (hfront y hy).insert ht
    split
    next hadded =>
      obtain ⟨z, hz, hfresh⟩ := List.any_eq_true.mp hadded
      have hnew : t ∉ S := ((hfront z hz).insert ht).1.mp hfresh
      have hwithin := hinserted.2.within
      rw [Finset.card_insert_of_notMem hnew] at hwithin
      rw [hwithin.on_removeInPlace hfits t]
      exact (hfront y hy).erase_insert ht hnew
    next hadded =>
      have hold : t ∈ S := by
        by_contra hnew
        exact hadded (List.any_eq_true.mpr ⟨y, hy, hinserted.1.mpr hnew⟩)
      exact (hfront y hy).insert_of_mem ht hold
  rw [insertEach_of_refused hstep hx, List.map_congr_left hrestored, List.map_id']

-- an index whose records are too short for keys refuses
example :
    let short : TripleIndex := ⟨.spo, .empty ⟨8, 0, by decide⟩⟩
    (TripleIndex.insertInPlace ⟨.real 1, .real 2, .real 3⟩).on short =
      (.error (.refused (.shapeMismatch (.keyLength 8 24))), short) := rfl

/-! ### A run of calls -/

theorem within_empty (orders : List IndexOrder) : (empty orders).Within 0 := by
  intro x hx
  rcases List.mem_cons.mp hx with rfl | hx
  · exact TripleIndex.within_empty .spo
  · obtain ⟨order, -, rfl⟩ := List.mem_map.mp hx
    exact TripleIndex.within_empty order

theorem Within.mono {m : Nat} (h : s.Within n) (hle : n ≤ m) : s.Within m :=
  fun x hx => ⟨(h x hx).shape, (h x hx).held, Nat.le_trans (h x hx).len_le hle⟩

theorem within_map {f : TripleIndex → TripleIndex} (h : ∀ x ∈ s.indexes, (f x).Within n) :
    Within ⟨f s.primary, s.others.map f⟩ n := by
  intro x hx
  obtain ⟨y, hy, rfl⟩ := List.mem_map.mp (show x ∈ s.indexes.map f from hx)
  exact h y hy

theorem Within.put (h : s.Within n) (t : IdTriple) : (s.put t).2.Within (n + 1) := by
  have hall := within_map fun x hx => (h x hx).insert t
  simpa [IndexSet.put, Function.comp_def] using hall

theorem Within.drop (h : s.Within n) (t : IdTriple) : (s.drop t).2.Within n := by
  have hall := within_map fun x hx => (h x hx).erase t
  simpa [IndexSet.drop, Function.comp_def] using hall

theorem Within.clear (h : s.Within n) : s.clear.Within 0 :=
  within_map fun x hx => (h x hx).clear

theorem Within.removeAll (h : s.Within n) (ts : List IdTriple) : (s.removeAll ts).2.Within n := by
  induction ts generalizing s with
  | nil => exact h
  | cons t ts ih =>
    have hdropped := h.drop t
    rw [IndexSet.removeAll, remove]
    cases checkStorable t with
    | error e => exact h
    | ok _ => exact ih hdropped

/-- Taking out triples one by one, index by index, ends where taking each out at once does. -/
theorem Within.on_removeAllInPlace (h : s.Within n)
    (hfits : n * Shape.indexKey.recordLength ≤ Bytes.capacity) (ts : List IdTriple) :
    (removeAllInPlace ts).on s =
      ((s.removeAll ts).1.mapError Halt.refused, (s.removeAll ts).2) := by
  induction ts generalizing s with
  | nil => rfl
  | cons t ts ih =>
    have hdropped := h.drop t
    rw [removeAllInPlace, InPlace.on_bind, h.on_removeInPlace hfits t, IndexSet.removeAll, remove]
    cases checkStorable t with
    | error e => rfl
    | ok _ => exact ih hdropped

theorem Within.on_removeMatchingInPlace (h : s.Within n)
    (hfits : n * Shape.indexKey.recordLength ≤ Bytes.capacity) (pattern : IdTriple) :
    (removeMatchingInPlace pattern).on s =
      ((s.removeMatching pattern).1.mapError Halt.refused, (s.removeMatching pattern).2) := by
  rw [removeMatchingInPlace, on_bind_of_ok (InPlace.on_get s), InPlace.on_bind,
    h.on_removeAllInPlace hfits (s.find pattern), removeMatching]
  rcases s.removeAll (s.find pattern) with ⟨e | _, s'⟩ <;> rfl

theorem Within.perform (h : s.Within n) (c : Command) : (s.perform c).Within (n + 1) := by
  have hmore : s.Within (n + 1) := h.mono (Nat.le_succ n)
  cases c with
  | insert t =>
    rw [IndexSet.perform, IndexSet.insert]
    cases checkStorable t with
    | error e => exact hmore
    | ok _ => exact h.put t
  | remove t =>
    rw [IndexSet.perform, IndexSet.remove]
    cases checkStorable t with
    | error e => exact hmore
    | ok _ => exact hmore.drop t
  | removeMatching pattern => exact hmore.removeAll (s.find pattern)
  | clear => exact h.clear.mono (Nat.zero_le _)

def Command.inPlace : Command → InPlace Error IndexSet Unit
  | .insert t => do
    let _ ← insertInPlace t
    return ()
  | .remove t => do
    let _ ← removeInPlace t
    return ()
  | .removeMatching pattern => do
    let _ ← removeMatchingInPlace pattern
    return ()
  | .clear => modify IndexSet.clear

/-- The index set of some orders that a run of calls leaves, whatever comes of each. -/
def runInPlace (orders : List IndexOrder) (commands : List Command) : IndexSet :=
  commands.foldl (fun s c => (c.inPlace.on s).2) (empty orders)

theorem Within.on_inPlace (h : s.Within n)
    (hfits : (n + 1) * Shape.indexKey.recordLength ≤ Bytes.capacity) (c : Command) :
    (c.inPlace.on s).2 = s.perform c := by
  have hkept : n * Shape.indexKey.recordLength ≤ Bytes.capacity :=
    Nat.le_trans (Nat.mul_le_mul_right _ (Nat.le_succ n)) hfits
  cases c with
  | insert t =>
    rw [Command.inPlace, InPlace.on_bind, h.on_insertInPlace hfits t, IndexSet.perform]
    cases s.insert t <;> rfl
  | remove t =>
    rw [Command.inPlace, InPlace.on_bind, h.on_removeInPlace hkept t, IndexSet.perform]
    cases s.remove t <;> rfl
  | removeMatching pattern =>
    rw [Command.inPlace, InPlace.on_bind, h.on_removeMatchingInPlace hkept pattern,
      IndexSet.perform]
    cases (s.removeMatching pattern).1 <;> rfl
  | clear => rfl

/-- So long as there is memory for a key a call, a run of calls made index by index, some of them
refused, leaves the index set that the run is said to lead to. -/
theorem runInPlace_eq_run (orders : List IndexOrder) (commands : List Command)
    (hfits : commands.length * Shape.indexKey.recordLength ≤ Bytes.capacity) :
    runInPlace orders commands = run orders commands ∧
      (run orders commands).Within commands.length := by
  induction commands using List.reverseRecOn with
  | nil => exact ⟨rfl, within_empty orders⟩
  | append_singleton commands c ih =>
    rw [List.length_append, List.length_singleton] at hfits ⊢
    obtain ⟨hsame, hwithin⟩ :=
      ih (Nat.le_trans (Nat.mul_le_mul_right _ (Nat.le_succ _)) hfits)
    rw [runInPlace, run, List.foldl_concat, List.foldl_concat, ← runInPlace, ← run, hsame]
    exact ⟨hwithin.on_inPlace hfits c, hwithin.perform c⟩

end IndexSet

end TripleStore
