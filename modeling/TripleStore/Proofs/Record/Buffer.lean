import Mathlib.Data.List.Basic
import TripleStore.Record.Buffer

/-!
# A buffer is a sorted map

`Buffer.Holds` relates the bytes of a buffer to the records in it, in ascending order of their keys.
Halving finds the place that splits them at a key, so that putting in and taking out records changes
nothing on either side of it. The records determine the buffer byte for byte.
-/

namespace TripleStore

/-- Halving finds the border between the places that are below and those that are not. -/
theorem partitionPoint_border (below : Nat → Bool) (lo hi : Nat) (hle : lo ≤ hi)
    (hmono : ∀ i j, lo ≤ i → i ≤ j → j < hi → below j = true → below i = true) :
    lo ≤ partitionPoint below lo hi ∧ partitionPoint below lo hi ≤ hi ∧
      (∀ i, lo ≤ i → i < partitionPoint below lo hi → below i = true) ∧
      (∀ i, partitionPoint below lo hi ≤ i → i < hi → below i = false) := by
  fun_induction partitionPoint below lo hi with
  | case1 lo hi hlt mid hmid ih =>
    have hm : lo ≤ mid ∧ mid < hi := by omega
    obtain ⟨hl, hh, hbelow, habove⟩ := ih (by omega)
      (fun i j hi' hij hj hb => hmono i j (by omega) hij hj hb)
    refine ⟨by omega, hh, fun i hi' hip => ?_, habove⟩
    by_cases hc : i ≤ mid
    · exact hmono i mid hi' hc hm.2 hmid
    · exact hbelow i (by omega) hip
  | case2 lo hi hlt mid hmid ih =>
    have hm : lo ≤ mid ∧ mid < hi := by omega
    obtain ⟨hl, hh, hbelow, habove⟩ := ih hm.1
      (fun i j hi' hij hj hb => hmono i j hi' hij (by omega) hb)
    refine ⟨hl, by omega, hbelow, fun i hpi hi' => ?_⟩
    by_cases hc : i < mid
    · exact habove i hpi hc
    · by_contra hb
      exact hmid (hmono mid i hm.1 (by omega) hi' (by simpa using hb))
  | case3 lo hi hlt => exact ⟨Nat.le_refl _, hle, fun i _ _ => by omega, fun i _ _ => by omega⟩

section Border

variable {α : Type} {p : α → Bool} {xs : List α} {n : Nat}

/-- A border tells the elements of a list with a property from those without it. -/
theorem take_eq_filter_of_border (htake : ∀ a ∈ xs.take n, p a = true)
    (hdrop : ∀ a ∈ xs.drop n, p a = false) : xs.take n = xs.filter p := by
  conv_rhs => rw [← List.take_append_drop n xs, List.filter_append]
  rw [List.filter_eq_self.mpr htake, List.filter_eq_nil_iff.mpr (by simpa using hdrop),
    List.append_nil]

theorem drop_eq_filter_of_border (htake : ∀ a ∈ xs.take n, p a = true)
    (hdrop : ∀ a ∈ xs.drop n, p a = false) : xs.drop n = xs.filter fun a => !p a := by
  conv_rhs => rw [← List.take_append_drop n xs, List.filter_append]
  rw [List.filter_eq_nil_iff.mpr (by simpa using htake), List.nil_append,
    List.filter_eq_self.mpr (by simpa using hdrop)]

/-- The element that a list is split at stands behind the first part. -/
theorem getElem_of_split {front back : List α} {a : α} (h : xs = front ++ a :: back) :
    ∃ hlt : front.length < xs.length, xs[front.length] = a := by
  subst h
  exact ⟨by simp, by simp⟩

theorem drop_of_split {front back : List α} (h : xs = front ++ back) :
    front.length ≤ xs.length ∧ xs.drop front.length = back := by
  subst h
  exact ⟨by simp, List.drop_left⟩

end Border

namespace Shape

def Admits (s : Shape) (r : Record) : Prop := s.check r.key r.value = .ok ()

theorem Admits.length_key {s : Shape} {r : Record} (h : s.Admits r) :
    r.key.length = s.keyLength := by
  by_contra hne
  simp [Admits, check, hne] at h

theorem Admits.value_eq {s : Shape} {r : Record} (h : s.Admits r) :
    (s.hasValue = true ∧ ∃ v, r.value = some v ∧ v.length = s.valueLength) ∨
      (s.hasValue = false ∧ r.value = none) := by
  have hk := h.length_key
  simp only [Admits, check, hk, ne_eq, not_true_eq_false, ↓reduceIte] at h
  cases hs : s.hasValue <;> cases hv : r.value with
  | none => simp_all
  | some v => simp_all

theorem Admits.length_bytes {s : Shape} {r : Record} (h : s.Admits r) :
    r.bytes.length = s.recordLength := by
  rcases h.value_eq with ⟨-, v, hv, hl⟩ | ⟨hs, hv⟩
  · simp [Record.bytes, recordLength, h.length_key, hv, hl]
  · have h0 : s.valueLength = 0 := by simpa [hasValue] using hs
    simp [Record.bytes, recordLength, h.length_key, hv, h0]

end Shape

/-- The records of one shape lie one behind the other in a run of bytes. -/
theorem length_flatMap_bytes {s : Shape} {rs : List Record} (h : ∀ r ∈ rs, s.Admits r) :
    (rs.flatMap Record.bytes).length = rs.length * s.recordLength := by
  induction rs with
  | nil => simp
  | cons r rs ih =>
    rw [List.flatMap_cons, List.length_append, (h r List.mem_cons_self).length_bytes,
      ih fun r' hr' => h r' (List.mem_cons_of_mem _ hr'), List.length_cons, Nat.succ_mul,
      Nat.add_comm]

namespace Buffer

/-- The buffer holds these records, in this order. -/
structure Holds (b : Buffer) (rs : List Record) : Prop where
  bytes : b.bytes.toList = rs.flatMap Record.bytes
  len : b.len = rs.length
  admits : ∀ r ∈ rs, b.shape.Admits r
  ascending : rs.Pairwise fun r r' => r.key < r'.key

variable {b : Buffer} {rs : List Record}

theorem holds_empty (s : Shape) : (empty s).Holds [] := by
  constructor <;> simp [empty]

theorem Holds.size_eq (h : b.Holds rs) : b.bytes.size = b.len * b.shape.recordLength := by
  rw [← Array.length_toList, h.bytes, length_flatMap_bytes h.admits, h.len]

/-- The records determine the buffer. -/
theorem Holds.unique {b' : Buffer} (h : b.Holds rs) (h' : b'.Holds rs) (hs : b.shape = b'.shape) :
    b = b' := by
  have hb : b.bytes = b'.bytes := Array.toList_inj.mp (h.bytes.trans h'.bytes.symm)
  have hl : b.len = b'.len := h.len.trans h'.len.symm
  cases b
  cases b'
  simp_all

section Parts

variable {front back : List Record}

theorem Holds.length_front (h : b.Holds (front ++ back)) :
    (front.flatMap Record.bytes).length = front.length * b.shape.recordLength :=
  length_flatMap_bytes fun r hr => h.admits r (List.mem_append_left _ hr)

theorem Holds.toList_extract_front (h : b.Holds (front ++ back)) :
    (b.bytes.extract 0 (front.length * b.shape.recordLength)).toList =
      front.flatMap Record.bytes := by
  rw [Array.toList_extract, h.bytes, List.flatMap_append, ← h.length_front]
  simp [List.extract_eq_take_drop]

theorem Holds.toList_extract_back (h : b.Holds (front ++ back)) :
    (b.bytes.extract (front.length * b.shape.recordLength) b.bytes.size).toList =
      back.flatMap Record.bytes := by
  rw [Array.toList_extract, ← Array.length_toList, h.bytes, List.flatMap_append, ← h.length_front,
    List.extract_eq_take_drop, List.drop_left]
  exact List.take_of_length_le (by rw [List.length_append]; omega)

end Parts

theorem Holds.slotKey_eq (h : b.Holds rs) {i : Nat} (hi : i < rs.length) :
    b.slotKey i = rs[i].key := by
  have hsplit : rs.take i ++ rs.drop i = rs := List.take_append_drop i rs
  have hl : (rs.take i).length = i := by simp; omega
  have hfront := (hsplit.symm ▸ h : b.Holds (rs.take i ++ rs.drop i)).length_front
  rw [hl] at hfront
  have hk := (h.admits _ (List.getElem_mem hi)).length_key
  rw [slotKey, Bytes.slice, Array.toList_extract, h.bytes]
  conv_lhs => rw [← hsplit]
  rw [List.flatMap_append, ← hfront, List.drop_eq_getElem_cons hi, List.flatMap_cons, ← hk,
    Record.bytes, List.extract_eq_take_drop]
  simp [List.append_assoc]

theorem Holds.key_lt (h : b.Holds rs) {i j : Nat} (hij : i < j) (hj : j < rs.length) :
    rs[i].key < rs[j].key :=
  List.pairwise_iff_getElem.mp h.ascending i j (Nat.lt_trans hij hj) hj hij

def below (q : List UInt8) (rs : List Record) : List Record := rs.filter fun r => r.key < q

def above (q : List UInt8) (rs : List Record) : List Record := rs.filter fun r => q < r.key

/-- The lower bound of some bytes is the number of keys less than them, which stand in front. -/
theorem Holds.lowerBound_eq (h : b.Holds rs) (q : List UInt8) :
    b.lowerBound q = (below q rs).length ∧
      rs = below q rs ++ rs.filter (fun r => !decide (r.key < q)) := by
  have hmono : ∀ i j, 0 ≤ i → i ≤ j → j < b.len → decide (b.slotKey j < q) = true →
      decide (b.slotKey i < q) = true := by
    intro i j _ hij hj hq
    rw [h.len] at hj
    simp only [decide_eq_true_eq] at hq ⊢
    rw [h.slotKey_eq hj] at hq
    rw [h.slotKey_eq (Nat.lt_of_le_of_lt hij hj)]
    rcases Nat.lt_or_eq_of_le hij with hlt | rfl
    · exact List.lt_trans (h.key_lt hlt hj) hq
    · exact hq
  obtain ⟨-, hle, hbelow, habove⟩ : _ ∧ b.lowerBound q ≤ b.len ∧
      (∀ i, 0 ≤ i → i < b.lowerBound q → decide (b.slotKey i < q) = true) ∧
      ∀ i, b.lowerBound q ≤ i → i < b.len → decide (b.slotKey i < q) = false :=
    partitionPoint_border _ 0 b.len (Nat.zero_le _) hmono
  rw [h.len] at hle habove
  have htake : ∀ r ∈ rs.take (b.lowerBound q), decide (r.key < q) = true := by
    intro r hr
    obtain ⟨i, hi, rfl⟩ := List.mem_iff_getElem.mp hr
    rw [List.length_take] at hi
    have hlen : i < rs.length := by omega
    rw [List.getElem_take, ← h.slotKey_eq hlen]
    exact hbelow i (Nat.zero_le _) (by omega)
  have hdrop : ∀ r ∈ rs.drop (b.lowerBound q), decide (r.key < q) = false := by
    intro r hr
    obtain ⟨i, hi, rfl⟩ := List.mem_iff_getElem.mp hr
    rw [List.length_drop] at hi
    have hlen : b.lowerBound q + i < rs.length := by omega
    rw [List.getElem_drop, ← h.slotKey_eq hlen]
    exact habove _ (Nat.le_add_right _ _) hlen
  have hfront : rs.take (b.lowerBound q) = below q rs := take_eq_filter_of_border htake hdrop
  constructor
  · rw [← hfront, List.length_take, Nat.min_eq_left hle]
  · rw [← hfront, ← drop_eq_filter_of_border htake hdrop, List.take_append_drop]

theorem Holds.lowerBound_le (h : b.Holds rs) (q : List UInt8) : b.lowerBound q ≤ rs.length := by
  rw [(h.lowerBound_eq q).1]
  exact List.length_filter_le _ _

/-- From the lower bound on stand the keys that are not less. -/
theorem Holds.drop_lowerBound (h : b.Holds rs) (q : List UInt8) :
    rs.drop (b.lowerBound q) = rs.filter fun r => !decide (r.key < q) := by
  obtain ⟨hlow, hsplit⟩ := h.lowerBound_eq q
  rw [hlow, (drop_of_split hsplit).2]

/-- A key splits ascending records into those before it, the one that has it, if there is one, and
those behind it. -/
theorem split_at_key (key : List UInt8) {rs : List Record}
    (h : rs.Pairwise fun r r' => r.key < r'.key) :
    (∃ r, r.key = key ∧ rs = below key rs ++ r :: above key rs) ∨
      (∀ r ∈ rs, r.key ≠ key) ∧ rs = below key rs ++ above key rs := by
  induction rs with
  | nil => exact .inr ⟨by simp, by simp [below, above]⟩
  | cons r rs ih =>
    have hhead : ∀ r' ∈ rs, r.key < r'.key := fun r' => List.rel_of_pairwise_cons h
    have hbehind (hle : ¬ r.key < key) : below key rs = [] ∧ above key rs = rs := by
      have hlt : ∀ r' ∈ rs, key < r'.key := fun r' hr' => by
        have := hhead r' hr'
        grind
      exact ⟨List.filter_eq_nil_iff.mpr fun r' hr' => by simpa using List.lt_asymm (hlt r' hr'),
        List.filter_eq_self.mpr fun r' hr' => decide_eq_true (hlt r' hr')⟩
    by_cases hlt : r.key < key
    · have hb : below key (r :: rs) = r :: below key rs := List.filter_cons_of_pos (by simpa)
      have ha : above key (r :: rs) = above key rs :=
        List.filter_cons_of_neg (by simpa using List.lt_asymm hlt)
      rw [hb, ha]
      rcases ih h.of_cons with ⟨r', hk, hrs⟩ | ⟨hne, hrs⟩
      · exact .inl ⟨r', hk, congrArg (r :: ·) hrs⟩
      · refine .inr ⟨?_, congrArg (r :: ·) hrs⟩
        simp only [List.forall_mem_cons]
        exact ⟨fun he => Std.lt_irrefl (he ▸ hlt), hne⟩
    · obtain ⟨hb0, ha0⟩ := hbehind hlt
      have hb : below key (r :: rs) = [] := by
        rw [below, List.filter_cons_of_neg (by simpa), ← below, hb0]
      by_cases he : r.key = key
      · have ha : above key (r :: rs) = rs := by
          rw [above, List.filter_cons_of_neg (by simp [he]), ← above, ha0]
        exact .inl ⟨r, he, by rw [hb, ha, List.nil_append]⟩
      · have hgt : key < r.key := by grind
        have ha : above key (r :: rs) = r :: rs := by
          rw [above, List.filter_cons_of_pos (by simpa), ← above, ha0]
        refine .inr ⟨?_, by rw [hb, ha, List.nil_append]⟩
        simp only [List.forall_mem_cons]
        exact ⟨he, fun r' hr' hk => List.lt_asymm hgt (hk ▸ hhead r' hr')⟩

/-- Halving tells whether a key is there, and where it splits the records. -/
theorem Holds.find_split (h : b.Holds rs) (key : List UInt8) :
    (∃ r, r.key = key ∧ b.find key = .found (below key rs).length ∧
        rs = below key rs ++ r :: above key rs) ∨
      (∀ r ∈ rs, r.key ≠ key) ∧ b.find key = .absent (below key rs).length ∧
        rs = below key rs ++ above key rs := by
  have hlow := (h.lowerBound_eq key).1
  rcases split_at_key key h.ascending with ⟨r, hk, hrs⟩ | ⟨hne, hrs⟩
  · refine .inl ⟨r, hk, ?_, hrs⟩
    obtain ⟨hlen, hget⟩ := getElem_of_split hrs
    simp only [find, hlow, h.len]
    rw [if_pos ⟨hlen, by rw [h.slotKey_eq hlen, hget, hk]⟩]
  · refine .inr ⟨hne, ?_, hrs⟩
    simp only [find, hlow, h.len]
    rw [if_neg]
    rintro ⟨hlen, hk⟩
    rw [h.slotKey_eq hlen] at hk
    exact hne _ (List.getElem_mem hlen) hk

theorem pairwise_split {key : List UInt8} {r : Record} (hk : r.key = key)
    (h : rs.Pairwise fun r r' => r.key < r'.key) :
    (below key rs ++ r :: above key rs).Pairwise fun r r' => r.key < r'.key := by
  have hb : ∀ r' ∈ below key rs, r'.key < key := fun r' hr' =>
    of_decide_eq_true (List.mem_filter.mp hr').2
  have ha : ∀ r' ∈ above key rs, key < r'.key := fun r' hr' =>
    of_decide_eq_true (List.mem_filter.mp hr').2
  rw [List.pairwise_append, List.pairwise_cons]
  refine ⟨h.filter _, ⟨fun r' hr' => hk ▸ ha r' hr', h.filter _⟩, ?_⟩
  intro r₁ h₁ r₂ h₂
  rcases List.mem_cons.mp h₂ with rfl | h₂
  · exact hk ▸ hb r₁ h₁
  · exact List.lt_trans (hb r₁ h₁) (ha r₂ h₂)

theorem pairwise_without (key : List UInt8) (h : rs.Pairwise fun r r' => r.key < r'.key) :
    (below key rs ++ above key rs).Pairwise fun r r' => r.key < r'.key :=
  (pairwise_split (r := ⟨key, none⟩) rfl h).sublist
    (List.Sublist.append (List.Sublist.refl _) (List.sublist_cons_self _ _))

@[simp] theorem shape_put (b : Buffer) (r : Record) : (b.put r).2.shape = b.shape := by
  unfold Buffer.put
  cases b.find r.key <;> rfl

@[simp] theorem shape_erase (b : Buffer) (key : List UInt8) :
    (b.erase key).2.shape = b.shape := by
  unfold Buffer.erase
  cases b.find key <;> rfl

/-- Putting in a record splits the others at its key and tells whether the key is new. -/
theorem Holds.put (h : b.Holds rs) {r : Record} (hr : b.shape.Admits r) :
    (b.put r).2.Holds (below r.key rs ++ r :: above r.key rs) ∧
      ((b.put r).1 = true ↔ ∀ r' ∈ rs, r'.key ≠ r.key) := by
  have hmem : ∀ r' ∈ below r.key rs ++ r :: above r.key rs, b.shape.Admits r' := by
    intro r' hr'
    rcases List.mem_append.mp hr' with hb | hb
    · exact h.admits r' (List.mem_filter.mp hb).1
    · rcases List.mem_cons.mp hb with rfl | ha
      · exact hr
      · exact h.admits r' (List.mem_filter.mp ha).1
  rcases h.find_split r.key with ⟨r₀, hk, hfind, hrs⟩ | ⟨hne, hfind, hrs⟩
  · have hold : b.Holds (below r.key rs ++ ([r₀] ++ above r.key rs)) := hrs ▸ h
    have hnext : b.Holds ((below r.key rs ++ [r₀]) ++ above r.key rs) := by
      rwa [List.append_assoc]
    have hend : (below r.key rs).length * b.shape.recordLength + r.bytes.length =
        (below r.key rs ++ [r₀]).length * b.shape.recordLength := by
      rw [hr.length_bytes, List.length_append, List.length_singleton, Nat.succ_mul]
    have hr₀ : r₀ ∈ rs := hrs ▸ List.mem_append_right _ List.mem_cons_self
    simp only [Buffer.put, hfind, Bytes.overwrite]
    refine ⟨⟨?_, ?_, hmem, pairwise_split rfl h.ascending⟩, ?_⟩
    · rw [hend]
      simp only [Array.toList_append, hold.toList_extract_front, hnext.toList_extract_back]
      simp
    · rw [h.len]
      conv_lhs => rw [hrs]
      simp
    · simp only [Bool.false_eq_true, false_iff]
      exact fun hne => hne r₀ hr₀ hk
  · have hold : b.Holds (below r.key rs ++ above r.key rs) := hrs ▸ h
    simp only [Buffer.put, hfind]
    refine ⟨⟨?_, ?_, hmem, pairwise_split rfl h.ascending⟩, ?_⟩
    · simp only [Array.toList_append, hold.toList_extract_front, hold.toList_extract_back]
      simp
    · rw [h.len]
      conv_lhs => rw [hrs]
      simp only [List.length_append, List.length_cons]
      omega
    · simpa using hne

/-- Taking out a key leaves the records on both sides of it and tells whether it was there. -/
theorem Holds.erase (h : b.Holds rs) (key : List UInt8) :
    (b.erase key).2.Holds (below key rs ++ above key rs) ∧
      ((b.erase key).1.isSome = true ↔ ∃ r ∈ rs, r.key = key) := by
  rcases h.find_split key with ⟨r, hk, hfind, hrs⟩ | ⟨hne, hfind, hrs⟩
  · have hold : b.Holds (below key rs ++ (r :: above key rs)) := hrs ▸ h
    have hnext : b.Holds ((below key rs ++ [r]) ++ above key rs) := by
      rwa [List.append_assoc]
    have hnextLength : (below key rs).length + 1 = (below key rs ++ [r]).length := by simp
    have hr : r ∈ rs := hrs ▸ List.mem_append_right _ List.mem_cons_self
    simp only [Buffer.erase, hfind]
    refine ⟨⟨?_, ?_, ?_, pairwise_without key h.ascending⟩, ?_⟩
    · rw [hnextLength]
      simp only [Array.toList_append, hold.toList_extract_front, hnext.toList_extract_back]
      simp
    · rw [h.len]
      conv_lhs => rw [hrs]
      simp
    · intro r' hr'
      rcases List.mem_append.mp hr' with hb | ha
      · exact h.admits r' (List.mem_filter.mp hb).1
      · exact h.admits r' (List.mem_filter.mp ha).1
    · simp only [Option.isSome_some, true_iff]
      exact ⟨r, hr, hk⟩
  · simp only [Buffer.erase, hfind]
    refine ⟨hrs ▸ h, ?_⟩
    simp only [Option.isSome_none, Bool.false_eq_true, false_iff]
    rintro ⟨r, hr, hk⟩
    exact hne r hr hk

theorem Holds.contains_iff (h : b.Holds rs) (key : List UInt8) :
    b.contains key = true ↔ ∃ r ∈ rs, r.key = key := by
  rcases h.find_split key with ⟨r, hk, hfind, hrs⟩ | ⟨hne, hfind, -⟩
  · have hr : r ∈ rs := hrs ▸ List.mem_append_right _ List.mem_cons_self
    simp only [contains, hfind, true_iff]
    exact ⟨r, hr, hk⟩
  · simp only [contains, hfind, Bool.false_eq_true, false_iff]
    rintro ⟨r, hr, hk⟩
    exact hne r hr hk

section Prefix

variable {start : List UInt8}

theorem not_lt_of_prefix {key : List UInt8} (h : start <+: key) : ¬ key < start := by
  obtain ⟨rest, rfl⟩ := h
  induction start with
  | nil => simp
  | cons x start ih => simpa [List.cons_lt_cons_iff, Std.lt_irrefl] using ih

/-- What lies between some bytes and a key that starts with them starts with them. -/
theorem prefix_of_between {key next : List UInt8} (hstart : ¬ key < start) (hlt : key < next)
    (h : start <+: next) : start <+: key := by
  induction start generalizing key next with
  | nil => exact List.nil_prefix
  | cons x start ih =>
    obtain ⟨rest, rfl⟩ := h
    cases key with
    | nil => simp at hstart
    | cons y key =>
      simp only [List.cons_append, List.cons_lt_cons_iff, not_or, not_and] at hstart hlt
      rcases hlt with hlt | ⟨rfl, hlt⟩
      · exact absurd hlt hstart.1
      · have hrest := ih (hstart.2 rfl) hlt (List.prefix_append _ _)
        exact (List.prefix_cons_inj y).mpr hrest

/-- Keys that start with some bytes stand in a row, and in front of those behind them. -/
theorem takeWhile_prefix {keys : List (List UInt8)} (h : keys.Pairwise (· < ·))
    (hge : ∀ key ∈ keys, ¬ key < start) :
    keys.takeWhile start.isPrefixOf = keys.filter start.isPrefixOf := by
  induction keys with
  | nil => rfl
  | cons key keys ih =>
    have hrest := ih h.of_cons fun k hk => hge k (List.mem_cons_of_mem _ hk)
    by_cases hp : start.isPrefixOf key = true
    · rw [List.takeWhile_cons_of_pos hp, List.filter_cons_of_pos hp, hrest]
    · rw [List.takeWhile_cons_of_neg hp, List.filter_cons_of_neg hp]
      refine (List.filter_eq_nil_iff.mpr fun k hk hkp => hp ?_).symm
      rw [List.isPrefixOf_iff_prefix] at hkp ⊢
      exact prefix_of_between (hge key List.mem_cons_self) (List.rel_of_pairwise_cons h hk) hkp

end Prefix

theorem Holds.scanFrom_eq (h : b.Holds rs) (start : List UInt8) (count slot : Nat)
    (hle : slot + count = rs.length) :
    b.scanFrom start count slot = ((rs.drop slot).map Record.key).takeWhile start.isPrefixOf := by
  induction count generalizing slot with
  | zero => simp [scanFrom, List.drop_eq_nil_of_le (by omega : rs.length ≤ slot)]
  | succ count ih =>
    have hlt : slot < rs.length := by omega
    rw [scanFrom, h.slotKey_eq hlt, ih (slot + 1) (by omega), List.drop_eq_getElem_cons hlt,
      List.map_cons, List.takeWhile_cons]

/-- A scan from a slot at or behind the lower bound of some bytes finds every key from there on
that starts with them. -/
theorem Holds.scanFrom_eq_filter (h : b.Holds rs) (start : List UInt8) {slot : Nat}
    (hle : slot ≤ rs.length) (hge : ∀ r ∈ rs.drop slot, ¬ r.key < start) :
    b.scanFrom start (b.len - slot) slot =
      ((rs.drop slot).map Record.key).filter start.isPrefixOf := by
  have hasc : ((rs.drop slot).map Record.key).Pairwise (· < ·) :=
    List.pairwise_map.mpr h.ascending.drop
  rw [h.scanFrom_eq start _ slot (by rw [h.len]; omega), takeWhile_prefix hasc]
  exact List.forall_mem_map.mpr hge

end Buffer

end TripleStore
