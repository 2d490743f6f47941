import TripleStore.Record.Bytes

/-!
# Patches of a byte buffer

What stands at each place of a buffer after some of its bytes were replaced, and at each place of a
slice of it. A slice reads back what a patch wrote, and writing back what a slice read changes
nothing.
-/

namespace TripleStore.Bytes

variable {buf : Array UInt8} {offset count : Nat} {patch : List UInt8}

theorem size_overwrite (h : offset + patch.length ≤ buf.size) :
    (overwrite buf offset patch).size = buf.size := by
  simp only [overwrite, Array.size_append, Array.size_extract, List.size_toArray]
  omega

theorem getElem?_overwrite (h : offset + patch.length ≤ buf.size) (i : Nat) :
    (overwrite buf offset patch)[i]? =
      if offset ≤ i ∧ i < offset + patch.length then patch[i - offset]? else buf[i]? := by
  have hfront : (buf.extract 0 offset).size = offset := by
    rw [Array.size_extract]
    omega
  have hpatched : (buf.extract 0 offset ++ patch.toArray).size = offset + patch.length := by
    rw [Array.size_append, hfront, List.size_toArray]
  rw [overwrite]
  by_cases hbehind : offset + patch.length ≤ i
  · rw [Array.getElem?_append_right (hpatched ▸ hbehind), hpatched, if_neg (by omega),
      Array.getElem?_extract]
    split
    · congr 1
      omega
    · rw [Array.getElem?_eq_none (by omega)]
  · rw [Array.getElem?_append_left (by omega)]
    by_cases hin : offset ≤ i
    · rw [Array.getElem?_append_right (by omega), hfront, if_pos (by omega), List.getElem?_toArray]
    · rw [Array.getElem?_append_left (by omega), if_neg (by omega), Array.getElem?_extract,
        if_pos (by omega), Nat.zero_add]

/-- Two patches one behind the other are one. -/
theorem overwrite_overwrite {offset : Nat} {a b : List UInt8}
    (h : offset + (a ++ b).length ≤ buf.size) :
    overwrite (overwrite buf offset a) (offset + a.length) b = overwrite buf offset (a ++ b) := by
  have hlength : (a ++ b).length = a.length + b.length := List.length_append
  have ha : offset + a.length ≤ buf.size := by omega
  have hb : offset + a.length + b.length ≤ (overwrite buf offset a).size := by
    rw [size_overwrite ha]
    omega
  apply Array.ext_getElem?
  intro i
  rw [getElem?_overwrite hb, getElem?_overwrite ha, getElem?_overwrite h, hlength,
    List.getElem?_append]
  by_cases hin : offset ≤ i
  · by_cases hfirst : i < offset + a.length
    · rw [if_neg (by omega), if_pos (by omega), if_pos (by omega), if_pos (by omega)]
    · by_cases hsecond : i < offset + a.length + b.length
      · rw [if_pos (by omega), if_pos (by omega), if_neg (by omega), Nat.sub_sub]
      · rw [if_neg (by omega), if_neg (by omega), if_neg (by omega)]
  · rw [if_neg (by omega), if_neg (by omega), if_neg (by omega)]

theorem length_slice (h : offset + count ≤ buf.size) : (slice buf offset count).length = count := by
  rw [slice, Array.length_toList, Array.size_extract]
  omega

theorem getElem?_slice (buf : Array UInt8) (offset count j : Nat) :
    (slice buf offset count)[j]? = if j < count then buf[offset + j]? else none := by
  rw [slice, Array.getElem?_toList, Array.getElem?_extract]
  by_cases hj : j < count
  · rw [if_pos hj]
    split
    · rfl
    · rw [Array.getElem?_eq_none (by omega)]
  · rw [if_neg hj, if_neg (by omega)]

theorem slice_congr {buf' : Array UInt8}
    (h : ∀ i, offset ≤ i → i < offset + count → buf'[i]? = buf[i]?) :
    slice buf' offset count = slice buf offset count := by
  apply List.ext_getElem?
  intro j
  rw [getElem?_slice, getElem?_slice]
  split
  · exact h _ (by omega) (by omega)
  · rfl

theorem slice_overwrite (h : offset + patch.length ≤ buf.size) :
    slice (overwrite buf offset patch) offset patch.length = patch := by
  apply List.ext_getElem?
  intro j
  rw [getElem?_slice, getElem?_overwrite h]
  by_cases hj : j < patch.length
  · rw [if_pos hj, if_pos (by omega), Nat.add_sub_cancel_left]
  · rw [if_neg hj, List.getElem?_eq_none (by omega)]

theorem overwrite_slice (h : offset + count ≤ buf.size) :
    overwrite buf offset (slice buf offset count) = buf := by
  have hlength := length_slice h
  apply Array.ext_getElem?
  intro i
  rw [getElem?_overwrite (by omega), hlength, getElem?_slice]
  by_cases hi : offset ≤ i ∧ i < offset + count
  · rw [if_pos hi, if_pos (by omega), Nat.add_sub_cancel' hi.1]
  · rw [if_neg hi]

theorem slice_add {m : Nat} (h : offset + m ≤ buf.size) (n : Nat) :
    slice buf offset (m + n) = slice buf offset m ++ slice buf (offset + m) n := by
  have hlength := length_slice h
  apply List.ext_getElem?
  intro j
  rw [getElem?_slice]
  by_cases hj : j < m
  · rw [List.getElem?_append_left (by omega), getElem?_slice, if_pos hj, if_pos (by omega)]
  · rw [List.getElem?_append_right (by omega), hlength, getElem?_slice]
    have hplace : offset + m + (j - m) = offset + j := by omega
    by_cases hn : j < m + n
    · rw [if_pos hn, if_pos (by omega), hplace]
    · rw [if_neg hn, if_neg (by omega)]

theorem slice_append (front bs rest : List UInt8) :
    slice (front ++ bs ++ rest).toArray front.length bs.length = bs := by
  simp [slice, List.extract_eq_take_drop]

/-- A patch takes the place of the bytes that it is laid over. -/
theorem overwrite_append (front rest patch : List UInt8) :
    overwrite (front ++ rest).toArray front.length patch =
      (front ++ patch ++ rest.drop patch.length).toArray := by
  have hfront : (front ++ rest).toArray.extract 0 front.length = front.toArray := by
    rw [List.extract_toArray, List.extract_eq_take_drop, List.drop_zero, Nat.sub_zero,
      List.take_left]
  have hback : (front ++ rest).toArray.extract (front.length + patch.length)
      (front ++ rest).toArray.size = (rest.drop patch.length).toArray := by
    rw [List.extract_toArray, List.extract_eq_take_drop, ← List.drop_drop, List.drop_left]
    rw [List.take_of_length_le (by simp; omega)]
  rw [overwrite, hfront, hback, List.append_toArray, List.append_toArray]

end TripleStore.Bytes
