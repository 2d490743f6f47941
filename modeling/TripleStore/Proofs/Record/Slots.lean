import TripleStore.Proofs.Record.Patch
import TripleStore.Proofs.Record.SortedMap

/-!
# Slots of a byte buffer

Records of one shape are written into slots of a buffer in any order. A slot then reads as the
record last written into it, or as the bytes it had; no other byte changes. `Shape.Inside` says
which slots there are: those whose bytes all lie in the buffer, at offsets below the size of the
address space.
-/

namespace TripleStore.Shape

/-- All bytes of a slot lie in a buffer of some length, and no offset of them overflows. -/
def Inside (s : Shape) (len slot : Nat) : Prop :=
  (slot + 1) * s.recordLength ≤ len ∧ (slot + 1) * s.recordLength < Bytes.addressSpace

instance (s : Shape) (len slot : Nat) : Decidable (s.Inside len slot) :=
  inferInstanceAs (Decidable (_ ∧ _))

structure Write where
  record : Record
  slot : Nat

/-- The write succeeds on a buffer of some length. -/
def Takes (s : Shape) (len : Nat) (w : Write) : Prop := s.Fits w.record ∧ s.Inside len w.slot

instance (s : Shape) (len : Nat) (w : Write) : Decidable (s.Takes len w) :=
  inferInstanceAs (Decidable (_ ∧ _))

/-- The buffer after a write. A write that fails leaves it as it was. -/
def perform (s : Shape) (buf : Array UInt8) (w : Write) : Array UInt8 :=
  (s.write w.record buf w.slot).toOption.getD buf

def run (s : Shape) (buf : Array UInt8) (writes : List Write) : Array UInt8 :=
  writes.foldl s.perform buf

/-- The record of the last write into a slot that succeeds. -/
def lastWritten? (s : Shape) (len : Nat) (writes : List Write) (slot : Nat) : Option Record :=
  (writes.filter fun w => s.Takes len w ∧ w.slot = slot).getLast?.map Write.record

/-- The byte at an offset is one of a slot. -/
def Covers (s : Shape) (slot offset : Nat) : Prop :=
  slot * s.recordLength ≤ offset ∧ offset < (slot + 1) * s.recordLength

def slotBytes (s : Shape) (buf : Array UInt8) (slot : Nat) : List UInt8 :=
  Bytes.slice buf (slot * s.recordLength) s.recordLength

/-- The record that the bytes of a slot make up. -/
def parse (s : Shape) (bs : List UInt8) : Record :=
  s.recordOf (bs.take s.keyLength) (bs.drop s.keyLength)

/-- What a buffer shows that some writes led to from another one. -/
structure ReadsBack (s : Shape) (buf after : Array UInt8) (writes : List Write) : Prop where
  size : after.size = buf.size
  read_written : ∀ slot r, s.lastWritten? buf.size writes slot = some r → s.read after slot = .ok r
  read_original : ∀ slot, s.Inside buf.size slot → s.lastWritten? buf.size writes slot = none →
    ∃ r, s.read after slot = .ok r ∧ s.Fits r ∧ r.bytes = s.slotBytes buf slot
  read_fails : ∀ slot, ¬ s.Inside buf.size slot → ∃ e, s.read after slot = .error e
  outside : ∀ offset, (∀ w ∈ writes, s.Takes buf.size w → ¬ s.Covers w.slot offset) →
    after[offset]? = buf[offset]?
  write_fails_iff : ∀ r slot, (∃ e, s.write r after slot = .error e) ↔
    ¬ s.Fits r ∨ ¬ s.Inside buf.size slot
  failed_write : ∀ w, ¬ s.Takes buf.size w → s.perform after w = after
  write_back : ∀ slot r, s.read after slot = .ok r → s.write r after slot = .ok after
  key? : ∀ slot, s.key? after slot = (s.read after slot).toOption.map Record.key
  isSome_key?_iff : ∀ slot, (s.key? after slot).isSome = true ↔ s.Inside buf.size slot

variable {s : Shape} {r : Record} {buf : Array UInt8} {slot : Nat}

/-! ### The bytes of a record -/

theorem Fits.length_bytes (h : s.Fits r) : r.bytes.length = s.recordLength :=
  (admits_iff_fits.mpr h).length_bytes

theorem Fits.parse_bytes (h : s.Fits r) : s.parse r.bytes = r := by
  have hadmits := admits_iff_fits.mpr h
  rw [parse, Record.bytes, List.take_left' hadmits.length_key, List.drop_left' hadmits.length_key]
  exact hadmits.recordOf_eq

theorem fits_parse {bs : List UInt8} (h : bs.length = s.recordLength) : s.Fits (s.parse bs) := by
  have hkey : (bs.take s.keyLength).length = s.keyLength := by
    rw [List.length_take, h, recordLength]
    omega
  refine ⟨hkey, ?_⟩
  by_cases hv : s.valueLength = 0
  · simp [parse, recordOf, hasValue, hv]
  · have hvalue : (bs.drop s.keyLength).length = s.valueLength := by
      rw [List.length_drop, h, recordLength, Nat.add_sub_cancel_left]
    have hhas : s.hasValue = true := decide_eq_true (Nat.pos_of_ne_zero hv)
    rw [parse, recordOf, if_pos hhas, if_neg hv, Option.map_some, hvalue]

theorem bytes_parse {bs : List UInt8} (h : bs.length = s.recordLength) :
    (s.parse bs).bytes = bs := by
  conv_rhs => rw [← List.take_append_drop s.keyLength bs]
  by_cases hv : s.valueLength = 0
  · have hdrop : bs.drop s.keyLength = [] := by
      rw [List.drop_eq_nil_iff, h, recordLength, hv]
      exact Nat.le_refl _
    simp [parse, recordOf, hasValue, hv, Record.bytes, hdrop]
  · simp [parse, recordOf, hasValue, Nat.pos_of_ne_zero hv, Record.bytes]

/-- Two shapes that a record fits are one, so a record of another shape does not fit. -/
theorem Fits.eq {s' : Shape} (h : s.Fits r) (h' : s'.Fits r) : s = s' := by
  have hkey : s.keyLength = s'.keyLength := h.1.symm.trans h'.1
  have hvalue : s.valueLength = s'.valueLength := by
    have hboth := h.2.symm.trans h'.2
    split at hboth <;> split at hboth <;> simp_all
  cases s
  cases s'
  simp_all

/-- A record that a shape makes fits it. -/
theorem fits_of_create {key : List UInt8} {value : Option (List UInt8)}
    (h : s.create key value = .ok r) : s.Fits r := by
  rcases s.check_eq_ok_or_error ⟨key, value⟩ with ⟨hr, hcheck⟩ | ⟨-, e, hcheck, -⟩
  · rw [create, hcheck] at h
    obtain rfl := Except.ok.inj h
    exact hr
  · rw [create, hcheck] at h
    cases h

/-! ### One write and one read -/

theorem inside_iff_of_lt {len : Nat} (h : len < Bytes.addressSpace) (slot : Nat) :
    s.Inside len slot ↔ (slot + 1) * s.recordLength ≤ len :=
  ⟨And.left, fun hle => ⟨hle, Nat.lt_of_le_of_lt hle h⟩⟩

theorem slotStart_of_inside {len : Nat} (h : s.Inside len slot) :
    s.slotStart len slot = .ok (slot * s.recordLength) := by
  obtain ⟨hle, hlt⟩ := h
  rw [Nat.succ_mul] at hle hlt
  simp only [slotStart, slotRange?, if_pos hlt, if_pos hle]

theorem slotStart_of_not_inside {len : Nat} (h : ¬ s.Inside len slot) :
    ∃ offset, s.slotStart len slot = .error (.outOfBounds offset s.recordLength len) := by
  rw [Inside, Nat.succ_mul] at h
  simp only [slotStart, slotRange?]
  by_cases hlt : slot * s.recordLength + s.recordLength < Bytes.addressSpace
  · have hle : ¬ slot * s.recordLength + s.recordLength ≤ len := fun hle => h ⟨hle, hlt⟩
    exact ⟨slot * s.recordLength, by simp only [if_pos hlt, if_neg hle]⟩
  · exact ⟨Bytes.addressSpace - 1, by simp only [if_neg hlt]⟩

theorem Inside.le (h : s.Inside buf.size slot) :
    slot * s.recordLength + s.recordLength ≤ buf.size :=
  Nat.succ_mul slot _ ▸ h.1

theorem length_slotBytes (h : s.Inside buf.size slot) :
    (s.slotBytes buf slot).length = s.recordLength :=
  Bytes.length_slice h.le

/-- The slot is read in two parts, which are those of its bytes. -/
theorem read_of_inside (h : s.Inside buf.size slot) :
    s.read buf slot = .ok (s.parse (s.slotBytes buf slot)) := by
  have hkeyLength : slot * s.recordLength + s.keyLength ≤ buf.size :=
    Nat.le_trans (Nat.add_le_add_left (Nat.le_add_right _ _) _) h.le
  have hkey := Bytes.length_slice hkeyLength
  have hparts : s.slotBytes buf slot = Bytes.slice buf (slot * s.recordLength) s.keyLength ++
      Bytes.slice buf (slot * s.recordLength + s.keyLength) s.valueLength :=
    Bytes.slice_add hkeyLength s.valueLength
  rw [parse, hparts, List.take_left' hkey, List.drop_left' hkey, read, slotStart_of_inside h]
  rfl

theorem read_of_not_inside (h : ¬ s.Inside buf.size slot) : ∃ e, s.read buf slot = .error e := by
  obtain ⟨offset, hstart⟩ := slotStart_of_not_inside h
  exact ⟨_, by rw [read, hstart]; rfl⟩

theorem key?_eq (s : Shape) (buf : Array UInt8) (slot : Nat) :
    s.key? buf slot = (s.read buf slot).toOption.map Record.key := by
  rw [key?, read]
  cases s.slotStart buf.size slot <;> rfl

theorem write_of_takes (hr : s.Fits r) (h : s.Inside buf.size slot) :
    s.write r buf slot = .ok (Bytes.overwrite buf (slot * s.recordLength) r.bytes) := by
  have hcheck : s.check r.key r.value = .ok () := admits_iff_fits.mpr hr
  rw [write, hcheck, slotStart_of_inside h]
  rfl

theorem write_of_not_takes (h : ¬ (s.Fits r ∧ s.Inside buf.size slot)) :
    ∃ e, s.write r buf slot = .error e := by
  rcases s.check_eq_ok_or_error r with ⟨hr, hcheck⟩ | ⟨-, e, hcheck, -⟩
  · obtain ⟨offset, hstart⟩ := slotStart_of_not_inside fun hin => h ⟨hr, hin⟩
    exact ⟨_, by rw [write, hcheck, hstart]; rfl⟩
  · exact ⟨e, by rw [write, hcheck]; rfl⟩

theorem perform_of_takes {w : Write} (h : s.Takes buf.size w) :
    s.perform buf w = Bytes.overwrite buf (w.slot * s.recordLength) w.record.bytes := by
  rw [perform, write_of_takes h.1 h.2]
  rfl

theorem perform_of_not_takes {w : Write} (h : ¬ s.Takes buf.size w) : s.perform buf w = buf := by
  obtain ⟨e, he⟩ := write_of_not_takes h
  rw [perform, he]
  rfl

theorem Takes.end_le {w : Write} (h : s.Takes buf.size w) :
    w.slot * s.recordLength + w.record.bytes.length ≤ buf.size :=
  h.1.length_bytes ▸ h.2.le

/-- A write changes the bytes of its slot and no others. -/
theorem getElem?_perform (buf : Array UInt8) {w : Write} {offset : Nat}
    (h : ¬ (s.Takes buf.size w ∧ s.Covers w.slot offset)) :
    (s.perform buf w)[offset]? = buf[offset]? := by
  by_cases hw : s.Takes buf.size w
  · rw [perform_of_takes hw, Bytes.getElem?_overwrite hw.end_le, if_neg]
    rw [hw.1.length_bytes, ← Nat.succ_mul]
    exact fun hcovers => h ⟨hw, hcovers⟩
  · rw [perform_of_not_takes hw]

theorem size_perform (buf : Array UInt8) (w : Write) : (s.perform buf w).size = buf.size := by
  by_cases hw : s.Takes buf.size w
  · rw [perform_of_takes hw, Bytes.size_overwrite hw.end_le]
  · rw [perform_of_not_takes hw]

theorem slotBytes_perform_self {w : Write} (h : s.Takes buf.size w) :
    s.slotBytes (s.perform buf w) w.slot = w.record.bytes := by
  have hslice := Bytes.slice_overwrite h.end_le
  rw [perform_of_takes h, slotBytes]
  rwa [h.1.length_bytes] at hslice

/-- Slots have no byte in common. -/
theorem Covers.unique {slot' offset : Nat} (h : s.Covers slot offset) (h' : s.Covers slot' offset) :
    slot = slot' := by
  have hlt : slot < slot' + 1 := Nat.lt_of_mul_lt_mul_right (Nat.lt_of_le_of_lt h.1 h'.2)
  have hgt : slot' < slot + 1 := Nat.lt_of_mul_lt_mul_right (Nat.lt_of_le_of_lt h'.1 h.2)
  omega

theorem slotBytes_perform_of_ne {w : Write} (h : ¬ (s.Takes buf.size w ∧ w.slot = slot)) :
    s.slotBytes (s.perform buf w) slot = s.slotBytes buf slot := by
  refine Bytes.slice_congr fun i hle hlt => getElem?_perform buf ?_
  rintro ⟨hw, hcovers⟩
  have hslot : s.Covers slot i := ⟨hle, Nat.succ_mul slot _ ▸ hlt⟩
  exact h ⟨hw, hcovers.unique hslot⟩

/-! ### A run of writes -/

theorem run_concat (s : Shape) (buf : Array UInt8) (writes : List Write) (w : Write) :
    s.run buf (writes ++ [w]) = s.perform (s.run buf writes) w :=
  List.foldl_concat ..

theorem lastWritten?_concat (s : Shape) (len : Nat) (writes : List Write) (w : Write)
    (slot : Nat) :
    s.lastWritten? len (writes ++ [w]) slot =
      if s.Takes len w ∧ w.slot = slot then some w.record else s.lastWritten? len writes slot := by
  rw [lastWritten?, lastWritten?, List.filter_append, List.filter_singleton]
  by_cases hw : s.Takes len w ∧ w.slot = slot
  · simp [hw]
  · simp [hw]

theorem takes_of_lastWritten? {len : Nat} {writes : List Write}
    (h : s.lastWritten? len writes slot = some r) : s.Fits r ∧ s.Inside len slot := by
  obtain ⟨w, hw, rfl⟩ := Option.map_eq_some_iff.mp h
  have hmem := List.mem_filter.mp (List.mem_of_getLast? hw)
  obtain ⟨htakes, rfl⟩ := of_decide_eq_true hmem.2
  exact htakes

theorem size_run (s : Shape) (buf : Array UInt8) (writes : List Write) :
    (s.run buf writes).size = buf.size := by
  induction writes using List.reverseRecOn with
  | nil => rfl
  | append_singleton writes w ih => rw [run_concat, size_perform, ih]

/-- The bytes of a slot are those of the record last written into it, or what they were. -/
theorem slotBytes_run (s : Shape) (buf : Array UInt8) (writes : List Write) (slot : Nat) :
    s.slotBytes (s.run buf writes) slot =
      match s.lastWritten? buf.size writes slot with
      | some r => r.bytes
      | none => s.slotBytes buf slot := by
  induction writes using List.reverseRecOn with
  | nil => rfl
  | append_singleton writes w ih =>
    have hsize := size_run s buf writes
    rw [run_concat, lastWritten?_concat]
    by_cases hw : s.Takes buf.size w ∧ w.slot = slot
    · obtain ⟨htakes, rfl⟩ := hw
      rw [if_pos ⟨htakes, rfl⟩, slotBytes_perform_self (hsize.symm ▸ htakes)]
    · rw [if_neg hw, slotBytes_perform_of_ne (hsize.symm ▸ hw), ih]

theorem getElem?_run (s : Shape) (buf : Array UInt8) (writes : List Write) (offset : Nat)
    (h : ∀ w ∈ writes, s.Takes buf.size w → ¬ s.Covers w.slot offset) :
    (s.run buf writes)[offset]? = buf[offset]? := by
  induction writes using List.reverseRecOn with
  | nil => rfl
  | append_singleton writes w ih =>
    rw [List.forall_mem_append, List.forall_mem_singleton] at h
    rw [run_concat, getElem?_perform, ih h.1]
    rw [size_run]
    exact fun hw => h.2 hw.1 hw.2

/-- Writing back what a slot reads as changes nothing. -/
theorem write_of_read (h : s.read buf slot = .ok r) : s.write r buf slot = .ok buf := by
  by_cases hin : s.Inside buf.size slot
  · have hlength := length_slotBytes hin
    rw [read_of_inside hin] at h
    obtain rfl := Except.ok.inj h
    rw [write_of_takes (fits_parse hlength) hin, bytes_parse hlength, slotBytes,
      Bytes.overwrite_slice hin.le]
  · obtain ⟨e, he⟩ := read_of_not_inside hin
    rw [he] at h
    cases h

/-- After any writes, of records made for this shape or another one, every slot reads as the record
last written into it or as the bytes it had, and nothing else has changed. A write fails exactly if
the record was made for another shape or the slot is not inside, which in memory is a matter of the
length alone. -/
theorem run_readsBack (s : Shape) (buf : Array UInt8) (writes : List Write) :
    s.ReadsBack buf (s.run buf writes) writes ∧
      (∀ other key value r, create other key value = .ok r → (s.Fits r ↔ s = other)) ∧
      (buf.size < Bytes.addressSpace →
        ∀ slot, s.Inside buf.size slot ↔ (slot + 1) * s.recordLength ≤ buf.size) := by
  have hsize := size_run s buf writes
  have hfails (r : Record) (slot : Nat) :
      (∃ e, s.write r (s.run buf writes) slot = .error e) ↔
        ¬ s.Fits r ∨ ¬ s.Inside buf.size slot := by
    rw [← not_and_or]
    constructor
    · rintro ⟨e, he⟩ ⟨hr, hin⟩
      rw [write_of_takes hr (hsize.symm ▸ hin)] at he
      cases he
    · exact fun h => write_of_not_takes (hsize.symm ▸ h)
  refine ⟨?_, ?_, fun hlt slot => inside_iff_of_lt hlt slot⟩
  · constructor
    case size => exact hsize
    case outside => exact getElem?_run s buf writes
    case write_fails_iff => exact hfails
    case key? => exact key?_eq s _
    case write_back => exact fun slot r => write_of_read
    case read_fails => exact fun slot hout => read_of_not_inside (hsize.symm ▸ hout)
    case failed_write => exact fun w hw => perform_of_not_takes (hsize.symm ▸ hw)
    case read_written =>
      intro slot r hlast
      obtain ⟨hr, hin⟩ := takes_of_lastWritten? hlast
      rw [read_of_inside (hsize.symm ▸ hin), slotBytes_run, hlast]
      exact congrArg Except.ok hr.parse_bytes
    case read_original =>
      intro slot hin hlast
      have hlength := length_slotBytes hin
      refine ⟨s.parse (s.slotBytes buf slot), ?_, fits_parse hlength, bytes_parse hlength⟩
      rw [read_of_inside (hsize.symm ▸ hin), slotBytes_run, hlast]
    case isSome_key?_iff =>
      intro slot
      rw [key?_eq]
      by_cases hin : s.Inside buf.size slot
      · rw [read_of_inside (hsize.symm ▸ hin)]
        exact iff_of_true rfl hin
      · have hout : ¬ s.Inside (s.run buf writes).size slot := hsize.symm ▸ hin
        obtain ⟨e, he⟩ := read_of_not_inside hout
        rw [he]
        exact iff_of_false Bool.false_ne_true hin
  · intro other key value r hmade
    have hr : other.Fits r := fits_of_create hmade
    exact ⟨fun h => h.eq hr, fun h => h ▸ hr⟩

end TripleStore.Shape
