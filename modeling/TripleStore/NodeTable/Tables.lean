import TripleStore.Error
import TripleStore.Value

/-!
# Terms, found by id, by term and by value

The tables behind a node table: the terms in order of first sight, the id of each term, and the ids
of the terms of each value. A new term goes into all three at once, so that they tell the same:
`Sound` says how the first two are inverse to each other and how the third shares the ids out.
-/

namespace TripleStore

/-- Changes what a map, given by its entries, holds for a key. -/
def alterEntry {κ α : Type} [DecidableEq κ] (key : κ) (f : Option α → α) :
    List (κ × α) → List (κ × α)
  | [] => [(key, f none)]
  | (k, a) :: entries =>
    if k = key then (k, f (some a)) :: entries else (k, a) :: alterEntry key f entries

theorem lookup_entry_cons {κ α : Type} [DecidableEq κ] (key k : κ) (a : α)
    (entries : List (κ × α)) :
    ((key, a) :: entries).lookup k = if k = key then some a else entries.lookup k := by
  rw [List.lookup_cons]
  by_cases h : k = key
  · rw [if_pos h, beq_iff_eq.mpr h]
  · rw [if_neg h, beq_eq_false_iff_ne.mpr h]

/-- The entry of the key has changed, and no other one. -/
theorem lookup_alterEntry {κ α : Type} [DecidableEq κ] (key k : κ) (f : Option α → α)
    (entries : List (κ × α)) : (alterEntry key f entries).lookup k =
      if k = key then some (f (entries.lookup key)) else entries.lookup k := by
  induction entries with
  | nil => exact lookup_entry_cons key k _ []
  | cons entry entries ih =>
    obtain ⟨k', a⟩ := entry
    rw [alterEntry, lookup_entry_cons, lookup_entry_cons]
    by_cases hkey : k' = key
    · subst hkey
      rw [if_pos rfl, if_pos rfl, lookup_entry_cons]
      split <;> rfl
    · rw [if_neg hkey, if_neg (Ne.symm hkey), lookup_entry_cons, ih]
      by_cases hk : k = k'
      · rw [if_pos hk, if_pos hk, if_neg (hk ▸ hkey)]
      · rw [if_neg hk, if_neg hk]

/-- The terms that have ids. -/
structure Tables where
  /-- The terms, each at the place that its id numbers. -/
  vector : Array Term
  ids : List (Term × NodeId)
  /-- The ids of the terms of a value, in the order in which they were given. -/
  byValue : List (ValueKey × List NodeId)
deriving DecidableEq

namespace Tables

def empty : Tables := ⟨#[], [], []⟩

def resolve (m : Tables) (id : NodeId) : Option Term := do
  let v ← id.value?
  m.vector[v.toNat]?

/-- The ids of the terms of a value. -/
def under (m : Tables) (key : ValueKey) : List NodeId := (m.byValue.lookup key).getD []

def append (m : Tables) (t : Term) (id : NodeId) : Tables where
  vector := m.vector.push t
  ids := alterEntry t (fun _ => id) m.ids
  byValue := alterEntry (ValueKey.of t) (fun ids => ids.getD [] ++ [id]) m.byValue

/-- The id of a term, a new one on first sight. There are as many ids as real ids. -/
def lookupOrCreate (m : Tables) (t : Term) : Except Error NodeId × Tables :=
  match m.ids.lookup t with
  | some id => (.ok id, m)
  | none =>
    match NodeId.ofValue m.vector.size.toUInt64 with
    | .error e => (.error (.shapeMismatch e), m)
    | .ok id => (.ok id, m.append t id)

/-- The three tables tell the same of terms and ids. -/
structure Sound (m : Tables) : Prop where
  /-- Every place has a real id. -/
  size_le : m.vector.size ≤ NodeId.maxValue.toNat + 1
  /-- A term is found under an id exactly if the id stands for the term. -/
  lookup_eq_some_iff : ∀ t id, m.ids.lookup t = some id ↔ m.resolve id = some t
  /-- Each id stands under the value of its term, and under no other one. -/
  mem_under_iff : ∀ key id, id ∈ m.under key ↔ ∃ t, m.resolve id = some t ∧ ValueKey.of t = key
  ascending : ∀ key, (m.under key).Pairwise fun id id' => id.toRaw < id'.toRaw

theorem sound_empty : empty.Sound where
  size_le := Nat.zero_le _
  lookup_eq_some_iff t id := by cases id <;> simp [empty, resolve, NodeId.value?]
  mem_under_iff key id := by cases id <;> simp [empty, resolve, under, NodeId.value?]
  ascending key := List.Pairwise.nil

variable {m : Tables} {t : Term} {id : NodeId}

theorem resolve_real (m : Tables) (v : UInt64) : m.resolve (.real v) = m.vector[v.toNat]? := rfl

/-- The ids that resolve number the places. -/
theorem exists_of_resolve (h : m.resolve id = some t) :
    ∃ v : UInt64, id = .real v ∧ v.toNat < m.vector.size := by
  cases id with
  | real v =>
    obtain ⟨hv, -⟩ := Array.getElem?_eq_some_iff.mp h
    exact ⟨v, rfl, hv⟩
  | missing => cases h
  | any => cases h

theorem toNat_toUInt64 {n : Nat} (h : n ≤ NodeId.maxValue.toNat + 1) : n.toUInt64.toNat = n := by
  have hmax : NodeId.maxValue.toNat = 2 ^ 63 - 1 := by decide
  exact UInt64.toNat_ofNat_of_lt' (by rw [UInt64.size]; omega)

/-- As long as there are real ids, the next one numbers the first place that is free. -/
theorem ofValue_size (h : m.vector.size ≤ NodeId.maxValue.toNat + 1) :
    NodeId.ofValue m.vector.size.toUInt64 =
      if m.vector.size ≤ NodeId.maxValue.toNat then .ok (.real m.vector.size.toUInt64)
      else .error (.idOutOfRange m.vector.size.toUInt64) := by
  rw [NodeId.ofValue]
  simp only [UInt64.lt_iff_toNat_lt, toNat_toUInt64 h]
  split <;> split <;> first | rfl | omega

/-- The new id stands for the new term, every other one for what it stood for. -/
theorem resolve_append (h : m.vector.size ≤ NodeId.maxValue.toNat + 1) (t : Term) (id : NodeId) :
    (m.append t (.real m.vector.size.toUInt64)).resolve id =
      if id = .real m.vector.size.toUInt64 then some t else m.resolve id := by
  cases id with
  | real v =>
    have hplace : v.toNat = m.vector.size ↔ v = m.vector.size.toUInt64 := by
      rw [← UInt64.toNat_inj, toNat_toUInt64 h]
    rw [resolve_real, resolve_real, append, Array.getElem?_push]
    simp only [hplace, NodeId.real.injEq]
  | missing => rfl
  | any => rfl

/-- The next id is free. -/
theorem resolve_size (h : m.vector.size ≤ NodeId.maxValue.toNat + 1) :
    m.resolve (.real m.vector.size.toUInt64) = none := by
  rw [resolve_real, toNat_toUInt64 h]
  exact Array.getElem?_size

theorem under_append (key : ValueKey) : (m.append t id).under key =
    if key = ValueKey.of t then m.under key ++ [id] else m.under key := by
  rw [append, under, lookup_alterEntry]
  split
  next h => rw [h, Option.getD_some, under]
  next => rfl

namespace Sound

theorem ids_append (hm : m.Sound) (hnew : m.ids.lookup t = none) (u : Term) (id : NodeId) :
    (m.append t (.real m.vector.size.toUInt64)).ids.lookup u = some id ↔
      (m.append t (.real m.vector.size.toUInt64)).resolve id = some u := by
  rw [resolve_append hm.size_le, append, lookup_alterEntry]
  by_cases hu : u = t
  · subst hu
    rw [if_pos rfl, Option.some_inj, eq_comm]
    split
    next hid => exact iff_of_true hid rfl
    next hid =>
      refine iff_of_false hid fun h => ?_
      rw [(hm.lookup_eq_some_iff u id).mpr h] at hnew
      cases hnew
  · rw [if_neg hu, hm.lookup_eq_some_iff]
    split
    next hid =>
      rw [hid, resolve_size hm.size_le]
      exact iff_of_false nofun fun h => hu (Option.some.inj h).symm
    next => exact Iff.rfl

/-- A term with a new id leaves the tables sound. -/
theorem append (hm : m.Sound) (hnew : m.ids.lookup t = none)
    (hroom : m.vector.size ≤ NodeId.maxValue.toNat) :
    (m.append t (.real m.vector.size.toUInt64)).Sound where
  size_le := by
    show (m.vector.push t).size ≤ _
    rw [Array.size_push]
    omega
  lookup_eq_some_iff := hm.ids_append hnew
  mem_under_iff key id := by
    have hold := hm.mem_under_iff key id
    rw [resolve_append hm.size_le, under_append]
    by_cases hid : id = .real m.vector.size.toUInt64
    · subst hid
      rw [resolve_size hm.size_le] at hold
      have hnone : NodeId.real m.vector.size.toUInt64 ∉ m.under key := fun h => by
        obtain ⟨u, hu, -⟩ := hold.mp h
        cases hu
      split
      next hkey => simp [hkey]
      next hkey => simp [hnone, Ne.symm hkey]
    · rw [if_neg hid, ← hold]
      split
      next => simp [hid]
      next => exact Iff.rfl
  ascending key := by
    rw [under_append]
    split
    next =>
      refine List.pairwise_append.mpr ⟨hm.ascending key, List.pairwise_singleton _ _, ?_⟩
      intro id hid id' hid'
      obtain rfl := List.mem_singleton.mp hid'
      obtain ⟨u, hu, -⟩ := (hm.mem_under_iff key id).mp hid
      obtain ⟨v, rfl, hv⟩ := exists_of_resolve hu
      show v < m.vector.size.toUInt64
      rwa [UInt64.lt_iff_toNat_lt, toNat_toUInt64 hm.size_le]
    next => exact hm.ascending key

/-- Asking for the id of a term keeps the tables sound. -/
theorem lookupOrCreate (hm : m.Sound) (t : Term) : (m.lookupOrCreate t).2.Sound := by
  rw [Tables.lookupOrCreate, ofValue_size hm.size_le]
  split
  next => exact hm
  next hnew =>
    by_cases hroom : m.vector.size ≤ NodeId.maxValue.toNat
    · rw [if_pos hroom]
      exact hm.append hnew hroom
    · rw [if_neg hroom]
      exact hm

end Sound

end Tables

end TripleStore
