import Mathlib.Data.List.Induction
import Mathlib.Logic.Function.Basic
import TripleStore.Proofs.Record.Buffer

/-!
# A buffer behaves as a map

Every run of calls on a buffer is followed by the same run on a map from keys to values, and
`Buffer.ReadsAs` says how the map is read back: as one run of bytes, by slots and by keys. A record
of another shape is refused and leaves no trace.
-/

namespace TripleStore

namespace Shape

variable {s : Shape} {r : Record}

/-- The parts of the record have the lengths of the shape. There is no value where it takes no
bytes. -/
def Fits (s : Shape) (r : Record) : Prop :=
  r.key.length = s.keyLength ∧
    r.value.map List.length = if s.valueLength = 0 then none else some s.valueLength

instance (s : Shape) (r : Record) : Decidable (s.Fits r) := inferInstanceAs (Decidable (_ ∧ _))

/-- The check of a record passes if it fits, and otherwise tells what does not. -/
theorem check_eq_ok_or_error (s : Shape) (r : Record) :
    (s.Fits r ∧ s.check r.key r.value = .ok ()) ∨
      (¬ s.Fits r ∧ ∃ e, s.check r.key r.value = .error e ∧ e.isShapeMismatch = true) := by
  rw [check.eq_def, Fits]
  by_cases hk : r.key.length = s.keyLength
  · rw [if_neg (not_not.mpr hk)]
    cases hv : r.value with
    | none =>
      by_cases h0 : s.valueLength = 0
      · exact .inl ⟨⟨hk, by simp [h0]⟩, by simp [hasValue, h0]⟩
      · have hvalue : s.hasValue = true := by simp [hasValue, Nat.pos_of_ne_zero h0]
        exact .inr ⟨by simp [h0], .missingValue s.valueLength, by simp [hvalue], rfl⟩
    | some v =>
      by_cases h0 : s.valueLength = 0
      · exact .inr ⟨by simp [h0], .unexpectedValue, by simp [hasValue, h0], rfl⟩
      · have hvalue : s.hasValue = true := by simp [hasValue, Nat.pos_of_ne_zero h0]
        by_cases hl : v.length = s.valueLength
        · exact .inl ⟨⟨hk, by simp [h0, hl]⟩, by simp [hvalue, hl]⟩
        · exact .inr
            ⟨by simp [h0, hl], .valueLength s.valueLength v.length, by simp [hvalue, hl], rfl⟩
  · rw [if_pos hk]
    exact .inr ⟨fun h => hk h.1, _, rfl, rfl⟩

theorem admits_iff_fits : s.Admits r ↔ s.Fits r := by
  rw [Admits]
  rcases s.check_eq_ok_or_error r with ⟨hfits, hcheck⟩ | ⟨hfits, e, hcheck, -⟩
  · exact ⟨fun _ => hfits, fun _ => hcheck⟩
  · refine ⟨fun h => ?_, fun h => absurd h hfits⟩
    rw [hcheck] at h
    cases h

def recordOf (s : Shape) (key value : List UInt8) : Record :=
  ⟨key, if s.hasValue then some value else none⟩

theorem Admits.recordOf_eq (h : s.Admits r) : s.recordOf r.key (r.value.getD []) = r := by
  obtain ⟨key, value⟩ := r
  rcases h.value_eq with ⟨hs, v, rfl, -⟩ | ⟨hs, rfl⟩ <;> simp [recordOf, hs]

theorem Admits.length_value (h : s.Admits r) : (r.value.getD []).length = s.valueLength := by
  have hbytes := h.length_bytes
  rw [Record.bytes, List.length_append, h.length_key, recordLength] at hbytes
  exact Nat.add_left_cancel hbytes

end Shape

namespace Buffer

inductive Command where
  | insert (r : Record)
  | remove (key : List UInt8)
  | clear

/-- The buffer after a call. A call that fails leaves it as it was. -/
def perform (b : Buffer) : Command → Buffer
  | .insert r => ((b.insert r).toOption.map Prod.snd).getD b
  | .remove key => (b.erase key).2
  | .clear => b.clear

def run (s : Shape) (commands : List Command) : Buffer := commands.foldl perform (empty s)

def Command.contents (s : Shape) (m : List UInt8 → Option (List UInt8)) :
    Command → List UInt8 → Option (List UInt8)
  | .insert r => if s.Fits r then Function.update m r.key (some (r.value.getD [])) else m
  | .remove key => Function.update m key none
  | .clear => fun _ => none

def contents (s : Shape) (commands : List Command) : List UInt8 → Option (List UInt8) :=
  commands.foldl (Command.contents s) fun _ => none

/-- The buffer reads as a map, whose entries stand in it in ascending order of their keys. -/
structure ReadsAs (b : Buffer) (s : Shape) (m : List UInt8 → Option (List UInt8))
    (entries : List (List UInt8 × List UInt8)) : Prop where
  shape : b.shape = s
  mem_entries : ∀ key value, (key, value) ∈ entries ↔ m key = some value
  ascending : entries.Pairwise fun x y => x.1 < y.1
  lengths : ∀ x ∈ entries, x.1.length = s.keyLength ∧ x.2.length = s.valueLength
  bytes : b.bytes.toList = entries.flatMap fun x => x.1 ++ x.2
  len : b.len = entries.length
  size : b.bytes.size = b.len * (s.keyLength + s.valueLength)
  insert : ∀ r, s.Fits r → (b.insert r).map Prod.fst = .ok (m r.key).isNone
  refuses : ∀ r, ¬ s.Fits r → b.perform (.insert r) = b ∧
    ∃ e, b.insert r = .error e ∧ e.isShapeMismatch = true
  remove : ∀ key, (b.erase key).1 = (m key).map (s.recordOf key)
  contains : ∀ key, b.contains key = (m key).isSome
  toList : b.toList = entries.map fun x => s.recordOf x.1 x.2
  get? : ∀ slot, b.get? slot = entries[slot]?.map fun x => s.recordOf x.1 x.2
  key? : ∀ slot, b.key? slot = entries[slot]?.map Prod.fst
  /-- Reading a slot through its shape, which checks its offset, gives the same. -/
  read : b.bytes.size < Bytes.addressSpace → ∀ slot < b.len,
    (s.read b.bytes slot).map some = .ok (b.get? slot) ∧ s.key? b.bytes slot = b.key? slot

variable {b : Buffer} {rs : List Record} {s : Shape} {m : List UInt8 → Option (List UInt8)}

theorem Holds.slice_value_eq (h : b.Holds rs) {i : Nat} (hi : i < rs.length) :
    Bytes.slice b.bytes (i * b.shape.recordLength + b.shape.keyLength) b.shape.valueLength =
      rs[i].value.getD [] := by
  have hadmits := h.admits _ (List.getElem_mem hi)
  have hsplit : rs.take i ++ rs[i] :: rs.drop (i + 1) = rs := by
    rw [← List.drop_eq_getElem_cons hi, List.take_append_drop]
  have hlength : (rs.take i).length = i := by
    rw [List.length_take]
    omega
  have hfront := (hsplit.symm ▸ h : b.Holds (rs.take i ++ rs[i] :: rs.drop (i + 1))).length_front
  have hbytes := h.bytes
  conv at hbytes => rw [← hsplit]
  rw [List.flatMap_append, List.flatMap_cons, Record.bytes] at hbytes
  rw [hlength] at hfront
  rw [Bytes.slice, Array.toList_extract, hbytes, ← hfront, ← hadmits.length_key,
    ← hadmits.length_value, List.extract_eq_take_drop, List.append_assoc, ← List.append_assoc,
    ← List.length_append, List.drop_left, Nat.add_sub_cancel_left, List.take_left]

theorem Holds.record_eq (h : b.Holds rs) {i : Nat} (hi : i < rs.length) : b.record i = rs[i] := by
  have hadmits := h.admits _ (List.getElem_mem hi)
  rw [record, h.slotKey_eq hi, h.slice_value_eq hi]
  exact hadmits.recordOf_eq

theorem Holds.get?_eq (h : b.Holds rs) (slot : Nat) : b.get? slot = rs[slot]? := by
  rw [get?, h.len]
  split
  next hlt => rw [h.record_eq hlt, List.getElem?_eq_getElem hlt]
  next hlt => rw [List.getElem?_eq_none (Nat.le_of_not_lt hlt)]

theorem Holds.key?_eq (h : b.Holds rs) (slot : Nat) : b.key? slot = rs[slot]?.map Record.key := by
  rw [key?, h.len]
  split
  next hlt => rw [h.slotKey_eq hlt, List.getElem?_eq_getElem hlt, Option.map_some]
  next hlt => rw [List.getElem?_eq_none (Nat.le_of_not_lt hlt), Option.map_none]

theorem Holds.toList_eq (h : b.Holds rs) : b.toList = rs := by
  have hget : b.get? = fun slot => rs[slot]? := funext h.get?_eq
  rw [toList, h.len, hget]
  clear h hget
  induction rs using List.reverseRecOn with
  | nil => rfl
  | append_singleton rs r ih =>
    have hfront : (List.range rs.length).filterMap (fun slot => (rs ++ [r])[slot]?) =
        (List.range rs.length).filterMap fun slot => rs[slot]? :=
      List.filterMap_congr fun slot hslot => List.getElem?_append_left (List.mem_range.mp hslot)
    rw [List.length_append, List.length_singleton, List.range_succ, List.filterMap_append, hfront,
      ih]
    simp

/-- The map has the keys and values of the records. -/
def Collects (m : List UInt8 → Option (List UInt8)) (rs : List Record) : Prop :=
  ∀ key value, m key = some value ↔ ∃ r ∈ rs, r.key = key ∧ r.value.getD [] = value

theorem Collects.isSome_iff (hm : Collects m rs) (key : List UInt8) :
    (m key).isSome = true ↔ ∃ r ∈ rs, r.key = key := by
  rw [Option.isSome_iff_exists]
  constructor
  · rintro ⟨value, hvalue⟩
    obtain ⟨r, hr, hk, -⟩ := (hm key value).mp hvalue
    exact ⟨r, hr, hk⟩
  · rintro ⟨r, hr, hk⟩
    exact ⟨_, (hm key _).mpr ⟨r, hr, hk, rfl⟩⟩

theorem mem_split_iff (key : List UInt8) (r : Record) :
    r ∈ below key rs ++ above key rs ↔ r ∈ rs ∧ r.key ≠ key := by
  rw [List.mem_append, below, above, List.mem_filter, List.mem_filter, ← and_or_left]
  simp only [decide_eq_true_eq]
  grind

theorem Collects.erase (hm : Collects m rs) (key : List UInt8) :
    Collects (Function.update m key none) (below key rs ++ above key rs) := by
  intro key' value
  simp only [mem_split_iff]
  by_cases hkey : key' = key
  · subst hkey
    rw [Function.update_self]
    simp only [reduceCtorEq, false_iff]
    rintro ⟨r, ⟨-, hne⟩, hk, -⟩
    exact hne hk
  · rw [Function.update_of_ne hkey, hm key' value]
    constructor
    · rintro ⟨r, hr, rfl, hv⟩
      exact ⟨r, ⟨hr, hkey⟩, rfl, hv⟩
    · rintro ⟨r, ⟨hr, -⟩, hk, hv⟩
      exact ⟨r, hr, hk, hv⟩

theorem Collects.put (hm : Collects m rs) (r : Record) :
    Collects (Function.update m r.key (some (r.value.getD [])))
      (below r.key rs ++ r :: above r.key rs) := by
  intro key value
  have herase := hm.erase r.key key value
  have hmem (r' : Record) : r' ∈ below r.key rs ++ r :: above r.key rs ↔
      r' = r ∨ r' ∈ below r.key rs ++ above r.key rs := by
    simp only [List.mem_append, List.mem_cons]
    tauto
  simp only [hmem, or_and_right, exists_or, exists_eq_left]
  by_cases hkey : key = r.key
  · subst hkey
    rw [Function.update_self] at herase ⊢
    rw [← herase]
    simp
  · rw [Function.update_of_ne hkey] at herase ⊢
    rw [← herase]
    simp [Ne.symm hkey]

/-- Taking out a key gives the record that was there. -/
theorem Holds.erase_fst (h : b.Holds rs) (hm : Collects m rs) (key : List UInt8) :
    (b.erase key).1 = (m key).map (b.shape.recordOf key) := by
  rcases h.find_split key with ⟨r, rfl, hfind, hrs⟩ | ⟨hne, hfind, -⟩
  · have hr : r ∈ rs := hrs ▸ List.mem_append_right _ List.mem_cons_self
    obtain ⟨hlt, hget⟩ := getElem_of_split hrs
    have hvalue : m r.key = some (r.value.getD []) := (hm _ _).mpr ⟨r, hr, rfl, rfl⟩
    rw [hvalue, Option.map_some, (h.admits r hr).recordOf_eq]
    simp only [Buffer.erase, hfind]
    rw [h.record_eq hlt, hget]
  · have hnone : m key = none := by
      rw [← Option.not_isSome_iff_eq_none, hm.isSome_iff]
      rintro ⟨r, hr, hk⟩
      exact hne r hr hk
    simp only [Buffer.erase, hfind, hnone, Option.map_none]

theorem insert_of_fits {r : Record} (hr : b.shape.Fits r) : b.insert r = .ok (b.put r) := by
  rw [Buffer.insert, Shape.admits_iff_fits.mpr hr]
  rfl

theorem insert_of_not_fits {r : Record} (hr : ¬ b.shape.Fits r) :
    ∃ e, b.insert r = .error e ∧ e.isShapeMismatch = true := by
  obtain ⟨hfits, -⟩ | ⟨-, e, hcheck, he⟩ := b.shape.check_eq_ok_or_error r
  · exact absurd hfits hr
  · exact ⟨e, by rw [Buffer.insert, hcheck]; rfl, he⟩

theorem perform_insert_of_not_fits {r : Record} (hr : ¬ b.shape.Fits r) :
    b.perform (.insert r) = b := by
  obtain ⟨e, he, -⟩ := insert_of_not_fits hr
  rw [perform, he]
  rfl

/-- A call changes the records of a buffer as it changes the map of their keys and values. -/
theorem Holds.perform (h : b.Holds rs) (hm : Collects m rs) (c : Command) :
    (b.perform c).shape = b.shape ∧
      ∃ rs', (b.perform c).Holds rs' ∧ Collects (c.contents b.shape m) rs' := by
  cases c with
  | insert r =>
    by_cases hr : b.shape.Fits r
    · rw [Buffer.perform, insert_of_fits hr, Command.contents, if_pos hr]
      exact ⟨shape_put b r, _, (h.put (Shape.admits_iff_fits.mpr hr)).1, hm.put r⟩
    · rw [perform_insert_of_not_fits hr, Command.contents, if_neg hr]
      exact ⟨rfl, rs, h, hm⟩
  | remove key => exact ⟨shape_erase b key, _, (h.erase key).1, hm.erase key⟩
  | clear => exact ⟨rfl, [], holds_empty b.shape, fun _ _ => by simp [Command.contents]⟩

theorem holds_run (s : Shape) (commands : List Command) :
    (run s commands).shape = s ∧
      ∃ rs, (run s commands).Holds rs ∧ Collects (contents s commands) rs := by
  induction commands using List.reverseRecOn with
  | nil => exact ⟨rfl, [], holds_empty s, fun _ _ => by simp [contents]⟩
  | append_singleton commands c ih =>
    obtain ⟨hshape, rs, h, hm⟩ := ih
    obtain ⟨hkept, hnext⟩ := h.perform hm c
    rw [run, contents, List.foldl_concat, List.foldl_concat, ← run, ← contents]
    rw [hshape] at hkept hnext
    exact ⟨hkept, hnext⟩

/-- Offsets that lie in memory pass the check of a slot. -/
theorem Holds.slotStart_eq (h : b.Holds rs) (hsize : b.bytes.size < Bytes.addressSpace) {slot : Nat}
    (hslot : slot < b.len) :
    b.shape.slotStart b.bytes.size slot = .ok (slot * b.shape.recordLength) := by
  have hstop : slot * b.shape.recordLength + b.shape.recordLength ≤ b.bytes.size := by
    rw [h.size_eq, ← Nat.succ_mul]
    exact Nat.mul_le_mul_right _ hslot
  simp only [Shape.slotStart, Shape.slotRange?, if_pos (Nat.lt_of_le_of_lt hstop hsize),
    if_pos hstop]

theorem Holds.readsAs (h : b.Holds rs) (hm : Collects m rs) :
    b.ReadsAs b.shape m (rs.map fun r => (r.key, r.value.getD [])) where
  shape := rfl
  mem_entries key value := by
    rw [hm, List.mem_map]
    simp only [Prod.mk.injEq]
  ascending := List.pairwise_map.mpr h.ascending
  lengths := List.forall_mem_map.mpr fun r hr =>
    ⟨(h.admits r hr).length_key, (h.admits r hr).length_value⟩
  bytes := by
    rw [h.bytes, List.flatMap_map]
    rfl
  len := by rw [h.len, List.length_map]
  size := h.size_eq
  insert r hr := by
    have hput := (h.put (Shape.admits_iff_fits.mpr hr)).2
    have hfresh : (b.put r).1 = (m r.key).isNone := by
      rw [Bool.eq_iff_iff, hput, ← Option.not_isSome, Bool.not_eq_true', ← Bool.not_eq_true,
        hm.isSome_iff]
      simp
    rw [insert_of_fits hr, ← hfresh]
    rfl
  refuses r hr := ⟨perform_insert_of_not_fits hr, insert_of_not_fits hr⟩
  remove := h.erase_fst hm
  contains key := by rw [Bool.eq_iff_iff, h.contains_iff, hm.isSome_iff]
  toList := by
    rw [h.toList_eq, List.map_map]
    exact (List.map_id' rs).symm.trans
      (List.map_congr_left fun r hr => (h.admits r hr).recordOf_eq.symm)
  get? slot := by
    rw [h.get?_eq, List.getElem?_map, Option.map_map]
    cases hr : rs[slot]? with
    | none => rfl
    | some r => exact congrArg some (h.admits r (List.mem_of_getElem? hr)).recordOf_eq.symm
  key? slot := by
    rw [h.key?_eq, List.getElem?_map, Option.map_map]
    rfl
  read hsize slot hslot := by
    have hstart := h.slotStart_eq hsize hslot
    rw [Shape.read, Shape.key?, hstart, get?, key?, if_pos hslot, if_pos hslot]
    exact ⟨rfl, rfl⟩

/-- After every run of calls the buffer reads as the map that the calls lead to. -/
theorem run_reads_as_map (s : Shape) (commands : List Command) :
    ∃ entries, (run s commands).ReadsAs s (contents s commands) entries := by
  obtain ⟨hshape, rs, h, hm⟩ := holds_run s commands
  have hreads := h.readsAs hm
  rw [hshape] at hreads
  exact ⟨_, hreads⟩

end Buffer

end TripleStore
