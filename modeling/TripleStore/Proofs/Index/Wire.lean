import TripleStore.Proofs.Index.Key
import TripleStore.Proofs.Record.Patch

/-!
# Ids and index keys on the wire

An id that is told by its bits is written into eight bytes of a buffer and read back from them, and
bits stand for an id exactly if they are those of such an id. The key of a triple is what its ids
leave in a buffer when they are written one behind the other, so keys are told apart by their bytes
and stand to each other as the raw ids do.
-/

namespace TripleStore

namespace NodeId

/-- What writing an id at an offset of a buffer does, and what is read there afterwards. -/
structure WritesInPlace (id : NodeId) (buf : Array UInt8) (offset : Nat) : Prop where
  succeeds_iff : (∃ buf', id.write buf offset = .ok buf') ↔ offset + size ≤ buf.size
  refuses : ¬ offset + size ≤ buf.size →
    id.write buf offset = .error (.outOfBounds offset size buf.size)
  keeps_size : ∀ buf', id.write buf offset = .ok buf' → buf'.size = buf.size
  keeps_others : ∀ buf', id.write buf offset = .ok buf' →
    ∀ i, i < offset ∨ offset + size ≤ i → buf'[i]? = buf[i]?
  reads_back : ∀ buf', id.write buf offset = .ok buf' → read buf' offset = .ok id

variable {id : NodeId} {buf : Array UInt8} {offset : Nat}

theorem write_of_fits (id : NodeId) (h : offset + size ≤ buf.size) :
    id.write buf offset = .ok (Bytes.overwrite buf offset id.toBytes) := if_pos h

theorem write_of_not_fits (id : NodeId) (h : ¬ offset + size ≤ buf.size) :
    id.write buf offset = .error (.outOfBounds offset size buf.size) := if_neg h

theorem read_overwrite (hid : id.InRange) (h : offset + size ≤ buf.size) :
    read (Bytes.overwrite buf offset id.toBytes) offset = .ok id := by
  have hlength : id.toBytes.length = size := id.length_toBytes
  have hsize : (Bytes.overwrite buf offset id.toBytes).size = buf.size :=
    Bytes.size_overwrite (hlength ▸ h)
  have hslice : Bytes.slice (Bytes.overwrite buf offset id.toBytes) offset size = id.toBytes := by
    have hwhole := Bytes.slice_overwrite (hlength ▸ h : offset + id.toBytes.length ≤ buf.size)
    rwa [hlength] at hwhole
  rw [read, if_pos (hsize ▸ h), hslice, ofBytes_toBytes, ofRaw_toRaw hid]

theorem InRange.writesInPlace (hid : id.InRange) (buf : Array UInt8) (offset : Nat) :
    id.WritesInPlace buf offset := by
  by_cases h : offset + size ≤ buf.size
  · have hbytes : offset + id.toBytes.length ≤ buf.size := by rwa [id.length_toBytes]
    have hwritten {buf' : Array UInt8} (hwrite : id.write buf offset = .ok buf') :
        buf' = Bytes.overwrite buf offset id.toBytes := by
      rw [id.write_of_fits h] at hwrite
      exact (Except.ok.inj hwrite).symm
    refine ⟨⟨fun _ => h, fun _ => ⟨_, id.write_of_fits h⟩⟩, fun hnot => absurd h hnot, ?_, ?_, ?_⟩
    · intro buf' hwrite
      rw [hwritten hwrite, Bytes.size_overwrite hbytes]
    · intro buf' hwrite i hi
      rw [hwritten hwrite, Bytes.getElem?_overwrite hbytes, id.length_toBytes, if_neg (by omega)]
    · intro buf' hwrite
      rw [hwritten hwrite, read_overwrite hid h]
  · have hrefused := id.write_of_not_fits h
    have hnone {buf' : Array UInt8} : id.write buf offset ≠ .ok buf' := by
      rw [hrefused]
      exact nofun
    exact ⟨⟨fun ⟨_, hwrite⟩ => absurd hwrite hnone, fun hfits => absurd hfits h⟩,
      fun _ => hrefused, fun _ hwrite => absurd hwrite hnone, fun _ hwrite => absurd hwrite hnone,
      fun _ hwrite => absurd hwrite hnone⟩

/-- Bits stand for an id exactly if it has these bits and no other id shares them. -/
theorem ofRaw_eq_ok_iff {raw : UInt64} {id : NodeId} :
    ofRaw raw = .ok id ↔ id.InRange ∧ id.toRaw = raw := by
  constructor
  · intro h
    rw [ofRaw] at h
    split at h
    next he => cases h; exact ⟨trivial, he.symm⟩
    next =>
      split at h
      next he => cases h; exact ⟨trivial, he.symm⟩
      next =>
        split at h
        next hle => cases h; exact ⟨hle, rfl⟩
        next => cases h
  · rintro ⟨hid, rfl⟩
    exact ofRaw_toRaw hid

theorem exists_inRange_iff (raw : UInt64) : (∃ id : NodeId, id.InRange ∧ id.toRaw = raw) ↔
    raw.toNat < 2 ^ 63 ∨ raw = -8 ∨ raw = -9 := by
  have hmax {v : UInt64} : v ≤ maxValue ↔ v.toNat < 2 ^ 63 := by
    rw [UInt64.le_iff_toNat_le]
    exact Nat.lt_succ_iff.symm
  constructor
  · rintro ⟨id, hid, rfl⟩
    cases id with
    | real v => exact .inl (hmax.mp hid)
    | missing => exact .inr (.inl rfl)
    | any => exact .inr (.inr rfl)
  · rintro (hlt | rfl | rfl)
    · exact ⟨.real raw, hmax.mpr hlt, rfl⟩
    · exact ⟨.missing, trivial, rfl⟩
    · exact ⟨.any, trivial, rfl⟩

end NodeId

namespace TripleIndex

open NodeId (writeAll)

/-- Ids written one behind the other fill the buffer behind what was there. -/
theorem writeAll_columnBytes (ids : List NodeId) (front rest : List UInt8)
    (h : rest.length = ids.length * NodeId.size) :
    writeAll ids (front ++ rest).toArray front.length =
      .ok (front ++ columnBytes ids).toArray := by
  induction ids generalizing front rest with
  | nil =>
    obtain rfl := List.eq_nil_of_length_eq_zero (by simpa using h)
    rfl
  | cons id ids ih =>
    have hsize : rest.length = NodeId.size + ids.length * NodeId.size := by
      rw [h, List.length_cons, Nat.succ_mul, Nat.add_comm]
    have hfits : front.length + NodeId.size ≤ (front ++ rest).toArray.size := by
      rw [List.size_toArray, List.length_append]
      omega
    have hdropped : (rest.drop NodeId.size).length = ids.length * NodeId.size := by
      rw [List.length_drop]
      omega
    have hnext := ih (front ++ id.toBytes) _ hdropped
    rw [List.length_append, NodeId.length_toBytes] at hnext
    rw [writeAll, id.write_of_fits hfits, Bytes.overwrite_append, NodeId.length_toBytes,
      columnBytes_cons, ← List.append_assoc]
    exact hnext

variable (x : TripleIndex) {t u : IdTriple}

/-- The key of a triple is what its ids leave in a buffer of the length of a key. -/
theorem writeAll_key (t : IdTriple) {buf : Array UInt8} (h : buf.size = 3 * NodeId.size) :
    writeAll (x.order.permute t).toList buf 0 = .ok (x.key t).toArray :=
  writeAll_columnBytes (x.order.permute t).toList [] buf.toList h

/-- Keys are compared as the raw ids in the columns are. -/
theorem compare_key (ht : t.InRange) (hu : u.InRange) :
    compareOfLessAndEq (x.key t) (x.key u) =
      compareOfLessAndEq (t.rawColumns x.order) (u.rawColumns x.order) := by
  have hlt : x.key t < x.key u ↔ t.rawColumns x.order < u.rawColumns x.order := x.key_lt_iff
  have heq : x.key t = x.key u ↔ t.rawColumns x.order = u.rawColumns x.order := by
    constructor
    · intro h
      rw [(x.key_inj_of_inRange ht hu).mp h]
    · intro h
      rw [x.key_eq, x.key_eq, h]
  simp only [compareOfLessAndEq, hlt, heq]

end TripleIndex

open NodeId in
/-- An id that is told by its bits is written wherever its eight bytes fit, changes no other byte
and is read back. Bits stand for an id exactly if they are those of a number below `2 ^ 63` or of a
mark, and then they are the bits of that id. The keys of two triples of such ids are what their ids
leave in a buffer; compared byte by byte they stand to each other as the raw ids do, and only equal
triples have equal keys. -/
theorem ids_and_keys_on_the_wire :
    (∀ id : NodeId, id.InRange → ∀ buf offset, id.WritesInPlace buf offset) ∧
      (∀ raw : UInt64, (∃ id, ofRaw raw = .ok id) ↔
        raw.toNat < 2 ^ 63 ∨ raw = -8 ∨ raw = -9) ∧
      (∀ raw id, ofRaw raw = .ok id → id.toRaw = raw) ∧
      ∀ (x : TripleIndex) (t u : IdTriple), t.InRange → u.InRange →
        (∀ buf : Array UInt8, buf.size = 24 →
          writeAll (x.order.permute t).toList buf 0 = .ok (x.key t).toArray) ∧
        (x.key t).length = 24 ∧
        compareOfLessAndEq (x.key t) (x.key u) =
          compareOfLessAndEq (t.rawColumns x.order) (u.rawColumns x.order) ∧
        (x.key t = x.key u ↔ t = u) := by
  refine ⟨fun id hid => hid.writesInPlace, fun raw => ?_, fun raw id h => ?_,
    fun x t u ht hu => ⟨fun buf hbuf => x.writeAll_key t hbuf, x.length_key t, x.compare_key ht hu,
      x.key_inj_of_inRange ht hu⟩⟩
  · simp only [ofRaw_eq_ok_iff]
    exact exists_inRange_iff raw
  · exact (ofRaw_eq_ok_iff.mp h).2

/-- A mark at the end of a buffer, and keys of triples with marks and with the greatest id. -/
theorem ids_and_keys_on_the_wire_of_marks :
    let buf : Array UInt8 := .replicate 11 0xAB
    let x := TripleIndex.empty .pos
    let t : IdTriple := ⟨.real 1, .real NodeId.maxValue, .missing⟩
    let u : IdTriple := ⟨.real 1, .any, .real 2⟩
    NodeId.InRange .any ∧ NodeId.WritesInPlace .any buf 3 ∧
      NodeId.write .any buf 3 =
        .ok #[0xAB, 0xAB, 0xAB, 0xFF, 0xFF, 0xFF, 0xFF, 0xFF, 0xFF, 0xFF, 0xF7] ∧
      t.InRange ∧ u.InRange ∧
      compareOfLessAndEq (x.key t) (x.key u) =
        compareOfLessAndEq (t.rawColumns .pos) (u.rawColumns .pos) ∧
      compareOfLessAndEq (t.rawColumns .pos) (u.rawColumns .pos) = .lt := by
  intro buf x t u
  have ht : t.InRange := by decide
  have hu : u.InRange := by decide
  exact ⟨trivial, ids_and_keys_on_the_wire.1 .any trivial buf 3, by decide, ht, hu,
    (ids_and_keys_on_the_wire.2.2.2 x t u ht hu).2.2.1, by decide⟩

end TripleStore
