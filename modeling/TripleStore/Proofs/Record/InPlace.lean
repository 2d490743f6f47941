import TripleStore.Record.InPlace
import TripleStore.Proofs.Record.Slots

/-!
# Changes made in place come to all or nothing

The moves of a write into a slot, of an insertion and of a removal come to the buffer that the call
is said to give, so long as there is memory for the bytes. None of them is outside of the bytes, and
a call that is refused has made none, so the object it leaves is the one that it was made on.
-/

namespace TripleStore

namespace InPlace

variable {ε ε' σ τ α β : Type} {call : InPlace ε σ α} {next : α → InPlace ε σ β} {s s' : σ}

theorem on_bind (call : InPlace ε σ α) (next : α → InPlace ε σ β) (s : σ) :
    (call >>= next).on s =
      match call.on s with
      | (.ok a, s') => (next a).on s'
      | (.error halt, s') => (.error halt, s') := by
  rw [on, on, ExceptT.run_bind, StateT.run_bind, Id.run_bind]
  rcases (call.run.run s).run with ⟨a | halt, s'⟩ <;> rfl

theorem on_bind_of_ok {a : α} (h : call.on s = (.ok a, s')) :
    (call >>= next).on s = (next a).on s' := by
  rw [on_bind, h]

theorem on_bind_of_error {halt : Halt ε} (h : call.on s = (.error halt, s')) :
    (call >>= next).on s = (.error halt, s') := by
  rw [on_bind, h]

@[simp] theorem on_get (s : σ) : (get : InPlace ε σ σ).on s = (.ok s, s) := rfl

@[simp] theorem on_set (s s' : σ) : (set s' : InPlace ε σ PUnit).on s = (.ok ⟨⟩, s') := rfl

@[simp] theorem on_modify (f : σ → σ) (s : σ) :
    (modify f : InPlace ε σ PUnit).on s = (.ok ⟨⟩, f s) := rfl

@[simp] theorem on_require_ok (a : α) (s : σ) :
    (require (.ok a) : InPlace ε σ α).on s = (.ok a, s) := rfl

@[simp] theorem on_require_error (e : ε) (s : σ) :
    (require (.error e) : InPlace ε σ α).on s = (.error (.refused e), s) := rfl

theorem on_onPart (part : σ → τ) (withPart : σ → τ → σ) (why : ε → ε') (call : InPlace ε τ α)
    (s : σ) :
    (call.onPart part withPart why).on s =
      ((call.on (part s)).1.mapError (Halt.map why), withPart s (call.on (part s)).2) := by
  rw [onPart, on_bind_of_ok (on_get s), on_bind_of_ok (on_set _ _)]
  cases (call.on (part s)).1 <;> rfl

end InPlace

open InPlace (on_bind_of_ok on_bind_of_error)

namespace Bytes

variable {ε : Type} {buf : Array UInt8}

theorem on_copyInto {offset count : Nat} {bs : List UInt8} (h : offset + count ≤ buf.size)
    (hbs : bs.length = count) :
    (copyInto offset count bs : InPlace ε _ _).on buf = (.ok (), overwrite buf offset bs) := by
  rw [copyInto, on_bind_of_ok (InPlace.on_get buf), if_pos ⟨h, hbs⟩, InPlace.on_set]

theorem on_copyWithin {start stop dest : Nat} (hle : start ≤ stop) (hstop : stop ≤ buf.size)
    (hdest : dest ≤ buf.size - (stop - start)) :
    (copyWithin start stop dest : InPlace ε _ _).on buf =
      (.ok (), overwrite buf dest (slice buf start (stop - start))) := by
  rw [copyWithin, on_bind_of_ok (InPlace.on_get buf), if_pos ⟨hle, hstop, hdest⟩, InPlace.on_set]

variable (front back gap : List UInt8)

/-- A longer buffer has zeros at its end. -/
theorem on_resize {len : Nat} (h : len ≤ capacity) (hle : front.length ≤ len) :
    (resize len : InPlace ε _ _).on front.toArray =
      (.ok (), (front ++ List.replicate (len - front.length) 0).toArray) := by
  rw [resize, on_bind_of_ok (InPlace.on_get _), if_pos h, InPlace.on_set]
  simp [List.take_of_length_le hle]

/-- The bytes behind some place are moved up to the end of the buffer. What they were moved away
from is left over between. -/
theorem on_copyWithin_up :
    (copyWithin front.length (front ++ back).length (front.length + gap.length) :
        InPlace ε _ _).on (front ++ back ++ gap).toArray =
      (.ok (), (front ++ (back ++ gap).take gap.length ++ back).toArray) := by
  have hcount : (front ++ back).length - front.length = back.length := by simp
  have hdest : (front ++ (back ++ gap).take gap.length).length = front.length + gap.length := by
    simp only [List.length_append, List.length_take]
    omega
  have hrest : ((back ++ gap).drop gap.length).drop back.length = [] := by
    rw [List.drop_drop, List.drop_eq_nil_iff, List.length_append]
    omega
  have hbytes : front ++ back ++ gap =
      front ++ (back ++ gap).take gap.length ++ (back ++ gap).drop gap.length := by
    rw [List.append_assoc, List.append_assoc, List.take_append_drop]
  rw [on_copyWithin (by simp) (by simp) (by simp; omega), hcount, slice_append, hbytes, ← hdest,
    overwrite_append, hrest, List.append_nil]

/-- The bytes at the end of the buffer are moved down to some place. -/
theorem on_copyWithin_down :
    (copyWithin (front ++ gap).length (front ++ gap ++ back).length front.length :
        InPlace ε _ _).on (front ++ gap ++ back).toArray =
      (.ok (), (front ++ back ++ (gap ++ back).drop back.length).toArray) := by
  have hcount : (front ++ gap ++ back).length - (front ++ gap).length = back.length := by
    simp only [List.length_append]
    omega
  have hslice := slice_append (front ++ gap) back []
  rw [List.append_nil] at hslice
  rw [on_copyWithin (by simp) (by simp) (by simp; omega), hcount, hslice, List.append_assoc front,
    overwrite_append]

theorem on_truncate :
    (truncate front.length : InPlace ε _ _).on (front ++ back).toArray =
      (.ok (), front.toArray) := by
  rw [truncate, InPlace.on_modify]
  simp

end Bytes

namespace Shape

variable {s : Shape} {r : Record} {buf : Array UInt8} {slot : Nat}

theorem on_writeInPlace_of_takes (hr : s.Fits r) (hin : s.Inside buf.size slot) :
    (s.writeInPlace r slot).on buf =
      (.ok (), Bytes.overwrite buf (slot * s.recordLength) r.bytes) := by
  have hcheck : s.check r.key r.value = .ok () := admits_iff_fits.mpr hr
  have hkey : r.key.length = s.keyLength := hr.1
  have hle : slot * s.recordLength + (s.keyLength + s.valueLength) ≤ buf.size := hin.le
  have hfirst : slot * s.recordLength + s.keyLength ≤ buf.size := by omega
  rw [writeInPlace, hcheck, on_bind_of_ok (InPlace.on_require_ok () buf),
    on_bind_of_ok (InPlace.on_get buf), slotStart_of_inside hin,
    on_bind_of_ok (InPlace.on_require_ok _ buf), on_bind_of_ok (Bytes.on_copyInto hfirst hkey)]
  rcases (admits_iff_fits.mpr hr).value_eq with ⟨-, v, hv, hlength⟩ | ⟨-, hv⟩
  · have hboth : slot * s.recordLength + (r.key ++ v).length ≤ buf.size := by
      rwa [List.length_append, hkey, hlength]
    have hsecond : slot * s.recordLength + s.keyLength + s.valueLength ≤
        (Bytes.overwrite buf (slot * s.recordLength) r.key).size := by
      rw [Bytes.size_overwrite (hkey.symm ▸ hfirst), Nat.add_assoc]
      exact hle
    have htwo := Bytes.overwrite_overwrite hboth
    rw [hkey] at htwo
    simp only [hv, Record.bytes, Option.getD_some]
    rw [Bytes.on_copyInto hsecond hlength, htwo]
  · simp only [hv, Record.bytes, Option.getD_none, List.append_nil]
    rfl

/-- Writing a record byte run by byte run comes to writing it at once, and a write that is refused
leaves the buffer as it was. -/
theorem on_writeInPlace (s : Shape) (r : Record) (slot : Nat) (buf : Array UInt8) :
    (s.writeInPlace r slot).on buf =
      InPlace.allOrNothing buf ((s.write r buf slot).map fun buf' => ((), buf')) := by
  rcases s.check_eq_ok_or_error r with ⟨hr, hcheck⟩ | ⟨-, e, hcheck, -⟩
  · by_cases hin : s.Inside buf.size slot
    · rw [on_writeInPlace_of_takes hr hin, write_of_takes hr hin]
      rfl
    · obtain ⟨offset, hstart⟩ := slotStart_of_not_inside hin
      rw [writeInPlace, write, hcheck, hstart, on_bind_of_ok (InPlace.on_require_ok () buf),
        on_bind_of_ok (InPlace.on_get buf), hstart,
        on_bind_of_error (InPlace.on_require_error _ buf)]
      rfl
  · rw [writeInPlace, write, hcheck, on_bind_of_error (InPlace.on_require_error e buf)]
    rfl

/-- Room is made by zeros at the end, over which the slots behind are moved; the record is then
written over what they leave. -/
theorem on_openSlot {front back : List UInt8} {len : Nat} (hr : s.Fits r)
    (hfront : front.length = slot * s.recordLength)
    (hlen : (front ++ back).length = len * s.recordLength)
    (hfits : (len + 1) * s.recordLength ≤ Bytes.capacity) :
    (s.openSlot r len slot).on (front ++ back).toArray =
      (.ok (), (front ++ r.bytes ++ back).toArray) := by
  have hmore : (len + 1) * s.recordLength = (front ++ back).length + s.recordLength := by
    rw [Nat.succ_mul, hlen]
  have hgrown := Bytes.on_resize (ε := RecordError) (front ++ back) hfits (by omega)
  rw [hmore, Nat.add_sub_cancel_left, ← hmore] at hgrown
  generalize hz : List.replicate s.recordLength (0 : UInt8) = zeros at hgrown
  have hzeros : zeros.length = s.recordLength := hz ▸ List.length_replicate
  have hmoved := Bytes.on_copyWithin_up (ε := RecordError) front back zeros
  rw [hzeros, hlen, hfront, ← Nat.succ_mul] at hmoved
  generalize hg : (back ++ zeros).take s.recordLength = gap at hmoved
  have hgap : gap.length = s.recordLength := by
    rw [← hg, List.length_take, List.length_append, hzeros]
    omega
  have hin : s.Inside (front ++ gap ++ back).toArray.size slot := by
    have hsize : (front ++ gap ++ back).toArray.size = (len + 1) * s.recordLength := by
      simp only [List.size_toArray, List.length_append] at hmore ⊢
      omega
    have hmemory : (len + 1) * s.recordLength < Bytes.addressSpace :=
      Nat.lt_of_le_of_lt hfits (by decide)
    rw [hsize, inside_iff_of_lt hmemory, hmore, Nat.succ_mul, ← hfront, List.length_append]
    omega
  have hpatch := Bytes.overwrite_append front (gap ++ back) r.bytes
  rw [hr.length_bytes, List.drop_left' hgap, ← List.append_assoc, hfront] at hpatch
  rw [openSlot, on_bind_of_ok hgrown, on_bind_of_ok hmoved, on_writeInPlace_of_takes hr hin, hpatch]

end Shape

namespace Buffer

variable {b : Buffer} {rs front back : List Record} {r : Record}

theorem on_onBytes {α : Type} (call : InPlace RecordError (Array UInt8) α) (b : Buffer) :
    (onBytes call).on b = ((call.on b.bytes).1, { b with bytes := (call.on b.bytes).2 }) := by
  rw [onBytes, InPlace.on_onPart]
  rcases (call.on b.bytes).1 with (e | -) | a <;> rfl

theorem on_onBytes_of_ok {α : Type} {call : InPlace RecordError (Array UInt8) α} {a : α}
    {bytes : Array UInt8} (h : call.on b.bytes = (.ok a, bytes)) :
    (onBytes call).on b = (.ok a, { b with bytes }) := by
  rw [on_onBytes, h]

theorem Holds.bytes_eq (h : b.Holds (front ++ back)) :
    b.bytes = (front.flatMap Record.bytes ++ back.flatMap Record.bytes).toArray := by
  rw [← List.flatMap_append, ← h.bytes]

theorem Holds.length_parts (h : b.Holds (front ++ back)) :
    (front.flatMap Record.bytes ++ back.flatMap Record.bytes).length =
      b.len * b.shape.recordLength := by
  rw [← h.size_eq, h.bytes_eq, List.size_toArray]

theorem Holds.on_insertInPlace_of_new (h : b.Holds (front ++ back)) (hr : b.shape.Fits r)
    (hfind : b.find r.key = .absent front.length)
    (hfits : (b.len + 1) * b.shape.recordLength ≤ Bytes.capacity) :
    (insertInPlace r).on b = (.ok (b.put r).1, (b.put r).2) := by
  have hopened := Shape.on_openSlot hr h.length_front h.length_parts hfits
  rw [← h.bytes_eq] at hopened
  have hbytes : (b.put r).2.bytes =
      (front.flatMap Record.bytes ++ r.bytes ++ back.flatMap Record.bytes).toArray := by
    apply Array.toList_inj.mp
    simp only [Buffer.put, hfind, Array.toList_append, h.toList_extract_front,
      h.toList_extract_back]
  have hcreate : b.shape.create r.key r.value = .ok r := by
    rw [Shape.create, Shape.admits_iff_fits.mpr hr]
    rfl
  rw [insertInPlace, on_bind_of_ok (InPlace.on_get b)]
  simp only [hfind]
  rw [hcreate, on_bind_of_ok (InPlace.on_require_ok r b), on_bind_of_ok (on_onBytes_of_ok hopened),
    on_bind_of_ok (InPlace.on_modify _ _), ← hbytes]
  simp only [Buffer.put, hfind]
  rfl

theorem Holds.on_insertInPlace_of_old {r₀ : Record} (h : b.Holds (front ++ r₀ :: back))
    (hr : b.shape.Fits r) (hfind : b.find r.key = .found front.length)
    (hfits : b.bytes.size ≤ Bytes.capacity) :
    (insertInPlace r).on b = (.ok (b.put r).1, (b.put r).2) := by
  have hin : b.shape.Inside b.bytes.size front.length := by
    have hmemory : b.bytes.size < Bytes.addressSpace := Nat.lt_of_le_of_lt hfits (by decide)
    rw [Shape.inside_iff_of_lt hmemory, h.size_eq, h.len]
    exact Nat.mul_le_mul_right _ (by simp)
  have hwritten := on_onBytes_of_ok (Shape.on_writeInPlace_of_takes hr hin)
  rw [insertInPlace, on_bind_of_ok (InPlace.on_get b)]
  simp only [hfind, Buffer.put]
  rw [on_bind_of_ok hwritten]
  rfl

/-- A record of another shape is refused before anything is changed. -/
theorem on_insertInPlace_of_not_fits (hr : ¬ b.shape.Fits r) :
    (insertInPlace r).on b = InPlace.allOrNothing b (b.insert r) := by
  rcases b.shape.check_eq_ok_or_error r with ⟨hfits, -⟩ | ⟨-, e, hcheck, -⟩
  · exact absurd hfits hr
  · rw [insertInPlace, on_bind_of_ok (InPlace.on_get b), Buffer.insert, hcheck]
    cases b.find r.key with
    | found slot =>
      have hrefused : (onBytes (b.shape.writeInPlace r slot)).on b = (.error (.refused e), b) := by
        rw [on_onBytes, Shape.on_writeInPlace, Shape.write, hcheck]
        rfl
      exact on_bind_of_error hrefused
    | absent slot =>
      rw [Shape.create, hcheck]
      rfl

/-- Putting in a record move by move comes to putting it in at once. -/
theorem Holds.on_insertInPlace (h : b.Holds rs)
    (hfits : (b.len + 1) * b.shape.recordLength ≤ Bytes.capacity) (r : Record) :
    (insertInPlace r).on b = InPlace.allOrNothing b (b.insert r) := by
  by_cases hr : b.shape.Fits r
  · rw [insert_of_fits hr]
    rcases h.find_split r.key with ⟨r₀, -, hfind, hrs⟩ | ⟨-, hfind, hrs⟩
    · refine (hrs ▸ h).on_insertInPlace_of_old hr hfind (Nat.le_trans ?_ hfits)
      rw [h.size_eq]
      exact Nat.mul_le_mul_right _ (Nat.le_succ _)
    · exact (hrs ▸ h).on_insertInPlace_of_new hr hfind hfits
  · exact on_insertInPlace_of_not_fits hr

theorem Holds.on_removeInPlace_of_old {key : List UInt8} (h : b.Holds (front ++ r :: back))
    (hfind : b.find key = .found front.length) (hfits : b.bytes.size ≤ Bytes.capacity) :
    (removeInPlace key).on b = (.ok (b.erase key).1, (b.erase key).2) := by
  have hnext : b.Holds ((front ++ [r]) ++ back) := by rwa [List.append_assoc]
  have hslot : front.length < b.len := by simp [h.len]
  have hread : b.shape.read b.bytes front.length = .ok (b.record front.length) := by
    rw [Shape.read, h.slotStart_eq (Nat.lt_of_le_of_lt hfits (by decide)) hslot]
    rfl
  have hfront := h.length_front
  have hpart := hnext.length_front
  have hall := hnext.length_parts
  have hbytes := hnext.bytes_eq
  have herase : (b.erase key).2.bytes =
      (front.flatMap Record.bytes ++ back.flatMap Record.bytes).toArray := by
    apply Array.toList_inj.mp
    have hlast : front.length + 1 = (front ++ [r]).length := by simp
    simp only [Buffer.erase, hfind, Array.toList_append, h.toList_extract_front, hlast,
      hnext.toList_extract_back]
  rw [List.flatMap_append, List.flatMap_singleton] at hpart hall hbytes
  have hr : r.bytes.length = b.shape.recordLength := (h.admits r (by simp)).length_bytes
  generalize front.flatMap Record.bytes = F at *
  generalize back.flatMap Record.bytes = B at *
  have hmoved := Bytes.on_copyWithin_down (ε := RecordError) F B r.bytes
  rw [hpart, hall, hfront, List.length_append, List.length_singleton, ← hbytes] at hmoved
  have hcut := Bytes.on_truncate (ε := RecordError) (F ++ B) ((r.bytes ++ B).drop B.length)
  have hrest : (F ++ B).length = (b.len - 1) * b.shape.recordLength := by
    rw [Nat.sub_mul, ← hall]
    simp only [List.length_append, hr]
    omega
  rw [hrest] at hcut
  rw [removeInPlace, on_bind_of_ok (InPlace.on_get b)]
  simp only [hfind]
  rw [hread, on_bind_of_ok (InPlace.on_require_ok _ b), on_bind_of_ok (on_onBytes_of_ok hmoved),
    on_bind_of_ok (InPlace.on_modify _ _), on_bind_of_ok (on_onBytes_of_ok hcut), ← herase]
  simp only [Buffer.erase, hfind]
  rfl

/-- Taking out a record move by move comes to taking it out at once, and is never refused. -/
theorem Holds.on_removeInPlace (h : b.Holds rs) (hfits : b.bytes.size ≤ Bytes.capacity)
    (key : List UInt8) :
    (removeInPlace key).on b = (.ok (b.erase key).1, (b.erase key).2) := by
  rcases h.find_split key with ⟨r, -, hfind, hrs⟩ | ⟨-, hfind, -⟩
  · exact (hrs ▸ h).on_removeInPlace_of_old hfind hfits
  · rw [removeInPlace, on_bind_of_ok (InPlace.on_get b)]
    simp only [hfind, Buffer.erase]
    rfl

/-! ### A run of calls -/

def Command.inPlace : Command → InPlace RecordError Buffer Unit
  | .insert r => do
    let _ ← insertInPlace r
    return ()
  | .remove key => do
    let _ ← removeInPlace key
    return ()
  | .clear => modify Buffer.clear

/-- The buffer of a shape that a run of calls leaves, whatever comes of each. -/
def runInPlace (s : Shape) (commands : List Command) : Buffer :=
  commands.foldl (fun b c => (c.inPlace.on b).2) (empty s)

theorem Holds.on_inPlace (h : b.Holds rs)
    (hfits : (b.len + 1) * b.shape.recordLength ≤ Bytes.capacity) (c : Command) :
    (c.inPlace.on b).2 = b.perform c := by
  cases c with
  | insert r =>
    rw [Command.inPlace, InPlace.on_bind, h.on_insertInPlace hfits r, Buffer.perform]
    cases b.insert r <;> rfl
  | remove key =>
    have hsize : b.bytes.size ≤ Bytes.capacity :=
      Nat.le_trans (h.size_eq ▸ Nat.mul_le_mul_right _ (Nat.le_succ _)) hfits
    rw [Command.inPlace, on_bind_of_ok (h.on_removeInPlace hsize key)]
    rfl
  | clear => rfl

theorem len_perform_le (b : Buffer) (c : Command) : (b.perform c).len ≤ b.len + 1 := by
  cases c with
  | insert r =>
    by_cases hr : b.shape.Fits r
    · rw [perform, insert_of_fits hr]
      simp only [Except.toOption, Option.map_some, Option.getD_some, Buffer.put]
      cases b.find r.key
      · exact Nat.le_succ _
      · exact Nat.le_refl _
    · rw [perform_insert_of_not_fits hr]
      exact Nat.le_succ _
  | remove key =>
    simp only [perform, Buffer.erase]
    cases b.find key
    · exact Nat.le_trans (Nat.sub_le _ _) (Nat.le_succ _)
    · exact Nat.le_succ _
  | clear => exact Nat.zero_le _

theorem run_concat (s : Shape) (commands : List Command) (c : Command) :
    run s (commands ++ [c]) = (run s commands).perform c :=
  List.foldl_concat ..

theorem len_run_le (s : Shape) (commands : List Command) :
    (run s commands).len ≤ commands.length := by
  induction commands using List.reverseRecOn with
  | nil => exact Nat.le_refl _
  | append_singleton commands c ih =>
    rw [run_concat, List.length_append, List.length_singleton]
    exact Nat.le_trans (len_perform_le _ c) (Nat.succ_le_succ ih)

/-- So long as there is memory for a record a call, a run of calls made move by move leaves the
buffer that the run is said to lead to. -/
theorem runInPlace_eq_run (s : Shape) (commands : List Command)
    (hfits : commands.length * s.recordLength ≤ Bytes.capacity) :
    runInPlace s commands = run s commands := by
  induction commands using List.reverseRecOn with
  | nil => rfl
  | append_singleton commands c ih =>
    obtain ⟨hshape, rs, h, -⟩ := holds_run s commands
    rw [List.length_append, List.length_singleton] at hfits
    have hroom : ((run s commands).len + 1) * (run s commands).shape.recordLength ≤
        Bytes.capacity := by
      rw [hshape]
      exact Nat.le_trans (Nat.mul_le_mul_right _ (Nat.succ_le_succ (len_run_le s commands))) hfits
    have hbefore := ih (Nat.le_trans (Nat.mul_le_mul_right _ (Nat.le_succ _)) hfits)
    rw [runInPlace, List.foldl_concat, ← runInPlace, hbefore, h.on_inPlace hroom, run_concat]

end Buffer

end TripleStore
