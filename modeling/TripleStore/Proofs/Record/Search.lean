import TripleStore.Proofs.Record.SortedMap

/-!
# Searches of a buffer

Both halvings and the scan answer as the keys in ascending order say, whatever bytes are looked for,
be they shorter or longer than a key. Each search is made a second time with reads that fail outside
of the buffer. It comes to the same answer, so none of its reads goes there.
-/

namespace TripleStore

/-- Halving by how the key of each slot visited stands to the one looked for. There is no answer if
one of these slots cannot be read. -/
def halve? (place? : Nat → Option Ordering) (lo hi : Nat) : Option KeyPlace :=
  if lo < hi then
    let mid := lo + (hi - lo) / 2
    match place? mid with
    | none => none
    | some .lt => halve? place? (mid + 1) hi
    | some .gt => halve? place? lo mid
    | some .eq => some (.found mid)
  else some (.absent lo)
termination_by hi - lo

def KeyPlace.slot : KeyPlace → Nat
  | .found slot | .absent slot => slot

section Halving

variable {place? : Nat → Option Ordering}

/-- Without the key itself, halving ends at the border between lesser and greater keys. -/
theorem halve?_of_border (below : Nat → Bool) (lo hi : Nat)
    (h : ∀ i, lo ≤ i → i < hi → place? i = some (if below i then .lt else .gt)) :
    halve? place? lo hi = some (.absent (partitionPoint below lo hi)) := by
  fun_induction partitionPoint below lo hi with
  | case1 lo hi hlt mid hmid ih =>
    have hread : place? mid = some .lt := by rw [h mid (by omega) (by omega), if_pos hmid]
    rw [halve?, if_pos hlt]
    simp only [mid] at hread
    simp only [hread]
    exact ih fun i hi => h i (by omega)
  | case2 lo hi hlt mid hmid ih =>
    have hread : place? mid = some .gt := by rw [h mid (by omega) (by omega), if_neg hmid]
    rw [halve?, if_pos hlt]
    simp only [mid] at hread
    simp only [hread]
    exact ih fun i hi hi' => h i hi (by omega)
  | case3 lo hi hlt => rw [halve?, if_neg hlt]

/-- Halving finds the key if every slot stands to it as its place does. -/
theorem halve?_of_found {k : Nat} (lo hi : Nat) (hlo : lo ≤ k) (hhi : k < hi)
    (h : ∀ i, lo ≤ i → i < hi → place? i = some (compare i k)) :
    halve? place? lo hi = some (.found k) := by
  fun_induction halve? place? lo hi with
  | case1 lo hi hlt mid hread => simp [h mid (by omega) (by omega)] at hread
  | case2 lo hi hlt mid hread ih =>
    rw [h mid (by omega) (by omega), Option.some.injEq, Nat.compare_eq_lt] at hread
    exact ih hread hhi fun i hi => h i (by omega)
  | case3 lo hi hlt mid hread ih =>
    rw [h mid (by omega) (by omega), Option.some.injEq, Nat.compare_eq_gt] at hread
    exact ih hlo hread fun i hi hi' => h i hi (by omega)
  | case4 lo hi hlt mid hread =>
    rw [h mid (by omega) (by omega), Option.some.injEq, Nat.compare_eq_eq] at hread
    rw [hread]
  | case5 lo hi hlt => omega

end Halving

namespace Buffer

/-! ### Reads that stay inside -/

/-- The key in a slot, provided that the slot is in use and its bytes are there. -/
def readKey? (b : Buffer) (slot : Nat) : Option (List UInt8) :=
  if slot < b.len ∧ (slot + 1) * b.shape.recordLength ≤ b.bytes.size then some (b.slotKey slot)
  else none

/-- Finding a key with checked reads. Halving ends at once where the key is met. -/
def checkedFind (b : Buffer) (key : List UInt8) : Option KeyPlace :=
  halve? (fun slot => (b.readKey? slot).map fun k => compareOfLessAndEq k key) 0 b.len

def checkedLowerBound (b : Buffer) (start : List UInt8) : Option Nat :=
  (halve? (fun slot => (b.readKey? slot).map fun k => if k < start then .lt else .gt) 0 b.len).map
    KeyPlace.slot

def checkedScanFrom (b : Buffer) (start : List UInt8) :
    (count slot : Nat) → Option (List (List UInt8))
  | 0, _ => some []
  | count + 1, slot => do
    let key ← b.readKey? slot
    if start.isPrefixOf key then
      let keys ← b.checkedScanFrom start count (slot + 1)
      return key :: keys
    else return []

def checkedScan (b : Buffer) (start : List UInt8) : Option (List (List UInt8)) := do
  let slot ← b.checkedLowerBound start
  b.checkedScanFrom start (b.len - slot) slot

/-- What the searches of a buffer answer for some bytes. -/
structure AnswersFor (b : Buffer) (q : List UInt8) : Prop where
  find_eq_found_iff : ∀ slot, b.find q = .found slot ↔ b.key? slot = some q
  find_eq_absent_iff : ∀ slot,
    b.find q = .absent slot ↔ q ∉ b.keys ∧ slot = b.keys.countP fun key => key < q
  contains : b.contains q = true ↔ q ∈ b.keys
  lowerBound : b.lowerBound q = b.keys.countP fun key => key < q
  mem_scan : ∀ key, key ∈ b.scan q ↔ key ∈ b.keys ∧ q <+: key
  scan_ascending : (b.scan q).Pairwise (· < ·)
  scan_nodup : (b.scan q).Nodup
  /-- No search makes a read outside of the buffer. -/
  find_inside : b.checkedFind q = some (b.find q)
  lowerBound_inside : b.checkedLowerBound q = some (b.lowerBound q)
  scan_inside : b.checkedScan q = some (b.scan q)

variable {b : Buffer} {rs : List Record}

theorem Holds.keys_eq (h : b.Holds rs) : b.keys = rs.map Record.key := by
  apply List.ext_getElem
  · rw [keys, List.length_map, List.length_range, List.length_map, h.len]
  · intro i hi hi'
    have hlt : i < rs.length := by simpa using hi'
    simp only [keys, List.getElem_map, List.getElem_range]
    exact h.slotKey_eq hlt

theorem Holds.readKey?_eq (h : b.Holds rs) {i : Nat} (hi : i < rs.length) :
    b.readKey? i = some rs[i].key := by
  have hlen : i < b.len := h.len ▸ hi
  have hbytes : (i + 1) * b.shape.recordLength ≤ b.bytes.size := by
    rw [h.size_eq]
    exact Nat.mul_le_mul_right _ hlen
  rw [readKey?, if_pos ⟨hlen, hbytes⟩, h.slotKey_eq hi]

/-- Keys stand to each other as their slots do. -/
theorem Holds.compare_key (h : b.Holds rs) {i j : Nat} (hi : i < rs.length) (hj : j < rs.length) :
    compareOfLessAndEq rs[i].key rs[j].key = compare i j := by
  rcases Nat.lt_trichotomy i j with hij | rfl | hij
  · rw [compareOfLessAndEq, if_pos (h.key_lt hij hj), Nat.compare_eq_lt.mpr hij]
  · rw [compareOfLessAndEq, if_neg (Std.lt_irrefl), if_pos rfl, Nat.compare_eq_eq.mpr rfl]
  · have hlt := h.key_lt hij hi
    have hne : rs[i].key ≠ rs[j].key := fun he => Std.lt_irrefl (he ▸ hlt)
    rw [compareOfLessAndEq, if_neg (List.lt_asymm hlt), if_neg hne, Nat.compare_eq_gt.mpr hij]

theorem Holds.length_below (h : b.Holds rs) (q : List UInt8) :
    (below q rs).length = b.keys.countP fun key => key < q := by
  rw [h.keys_eq, List.countP_map, List.countP_eq_length_filter]
  rfl

theorem Holds.checkedFind_eq (h : b.Holds rs) (q : List UInt8) :
    b.checkedFind q = some (b.find q) := by
  rcases h.find_split q with ⟨r, rfl, hfind, hrs⟩ | ⟨hne, hfind, -⟩
  · obtain ⟨hlt, hget⟩ := getElem_of_split hrs
    rw [hfind, checkedFind]
    refine halve?_of_found _ _ (Nat.zero_le _) (h.len ▸ hlt) fun i _ hi => ?_
    rw [h.len] at hi
    rw [h.readKey?_eq hi, Option.map_some, ← h.compare_key hi hlt, hget]
  · have hborder : checkedFind b q = some (.absent (b.lowerBound q)) := by
      refine halve?_of_border _ _ _ fun i _ hi => ?_
      rw [h.len] at hi
      rw [h.readKey?_eq hi, h.slotKey_eq hi, Option.map_some, compareOfLessAndEq,
        if_neg (hne _ (List.getElem_mem hi))]
      simp only [decide_eq_true_eq]
    rw [hborder, hfind, (h.lowerBound_eq q).1]

theorem Holds.checkedLowerBound_eq (h : b.Holds rs) (q : List UInt8) :
    b.checkedLowerBound q = some (b.lowerBound q) := by
  rw [checkedLowerBound, halve?_of_border (fun slot => b.slotKey slot < q)]
  · rfl
  · intro i _ hi
    rw [h.len] at hi
    rw [h.readKey?_eq hi, h.slotKey_eq hi, Option.map_some]
    simp only [decide_eq_true_eq]

theorem Holds.checkedScanFrom_eq (h : b.Holds rs) (start : List UInt8) (count slot : Nat)
    (hle : slot + count ≤ rs.length) :
    b.checkedScanFrom start count slot = some (b.scanFrom start count slot) := by
  induction count generalizing slot with
  | zero => rfl
  | succ count ih =>
    have hlt : slot < rs.length := by omega
    simp only [checkedScanFrom, scanFrom, h.readKey?_eq hlt, h.slotKey_eq hlt,
      ih (slot + 1) (by omega), Option.bind_eq_bind, Option.bind_some, Option.pure_def]
    split <;> rfl

theorem Holds.checkedScan_eq (h : b.Holds rs) (q : List UInt8) :
    b.checkedScan q = some (b.scan q) := by
  have hle := h.lowerBound_le q
  have hlen : b.lowerBound q + (b.len - b.lowerBound q) ≤ rs.length := by
    rw [h.len]
    omega
  rw [checkedScan, h.checkedLowerBound_eq]
  exact h.checkedScanFrom_eq q _ _ hlen

/-! ### What the searches answer -/

/-- A scan finds the keys that start with some bytes: those less than the bytes do not, and the
others stand in a row. -/
theorem Holds.scan_eq (h : b.Holds rs) (q : List UInt8) :
    b.scan q = b.keys.filter q.isPrefixOf := by
  obtain ⟨-, hsplit⟩ := h.lowerBound_eq q
  have hdrop := h.drop_lowerBound q
  have hge : ∀ r ∈ rs.drop (b.lowerBound q), ¬ r.key < q := by
    intro r hr
    rw [hdrop, List.mem_filter] at hr
    simpa using hr.2
  have hnone : ((below q rs).map Record.key).filter q.isPrefixOf = [] := by
    rw [List.filter_eq_nil_iff, List.forall_mem_map]
    intro r hr hprefix
    have hlt : r.key < q := of_decide_eq_true (List.mem_filter.mp hr).2
    exact not_lt_of_prefix (List.isPrefixOf_iff_prefix.mp hprefix) hlt
  rw [scan, h.scanFrom_eq_filter q (h.lowerBound_le q) hge, h.keys_eq]
  conv_rhs => rw [hsplit, List.map_append, List.filter_append, hnone, List.nil_append, ← hdrop]

theorem Holds.keys_ascending (h : b.Holds rs) : b.keys.Pairwise (· < ·) := by
  rw [h.keys_eq]
  exact List.pairwise_map.mpr h.ascending

theorem Holds.mem_keys_iff (h : b.Holds rs) (q : List UInt8) :
    q ∈ b.keys ↔ ∃ r ∈ rs, r.key = q := by
  rw [h.keys_eq, List.mem_map]

theorem Holds.find_eq_found_iff (h : b.Holds rs) (q : List UInt8) (slot : Nat) :
    b.find q = .found slot ↔ b.key? slot = some q := by
  rw [h.key?_eq]
  rcases h.find_split q with ⟨r, rfl, hfind, hrs⟩ | ⟨hne, hfind, -⟩
  · obtain ⟨hlt, hget⟩ := getElem_of_split hrs
    rw [hfind, KeyPlace.found.injEq]
    constructor
    · rintro rfl
      rw [List.getElem?_eq_getElem hlt, hget, Option.map_some]
    · intro hkey
      obtain ⟨r', hr', hk⟩ := Option.map_eq_some_iff.mp hkey
      obtain ⟨hslot, rfl⟩ := List.getElem?_eq_some_iff.mp hr'
      -- the two slots hold one key, so they stand to each other as equals
      have hcompare := h.compare_key hlt hslot
      rw [hget, hk, compareOfLessAndEq, if_neg Std.lt_irrefl, if_pos rfl] at hcompare
      exact Nat.compare_eq_eq.mp hcompare.symm
  · rw [hfind]
    simp only [reduceCtorEq, false_iff]
    intro hkey
    obtain ⟨r, hr, hk⟩ := Option.map_eq_some_iff.mp hkey
    exact hne r (List.mem_of_getElem? hr) hk

theorem Holds.find_eq_absent_iff (h : b.Holds rs) (q : List UInt8) (slot : Nat) :
    b.find q = .absent slot ↔ q ∉ b.keys ∧ slot = b.keys.countP fun key => key < q := by
  rw [h.mem_keys_iff, ← h.length_below]
  rcases h.find_split q with ⟨r, hk, hfind, hrs⟩ | ⟨hne, hfind, -⟩
  · have hr : r ∈ rs := hrs ▸ List.mem_append_right _ List.mem_cons_self
    rw [hfind]
    simp only [reduceCtorEq, false_iff, not_and]
    exact fun hno => absurd ⟨r, hr, hk⟩ hno
  · rw [hfind, KeyPlace.absent.injEq]
    constructor
    · rintro rfl
      exact ⟨fun ⟨r, hr, hk⟩ => hne r hr hk, rfl⟩
    · exact fun hslot => hslot.2.symm

theorem Holds.answersFor (h : b.Holds rs) (q : List UInt8) : b.AnswersFor q where
  find_eq_found_iff := h.find_eq_found_iff q
  find_eq_absent_iff := h.find_eq_absent_iff q
  contains := (h.contains_iff q).trans (h.mem_keys_iff q).symm
  lowerBound := (h.lowerBound_eq q).1.trans (h.length_below q)
  mem_scan key := by rw [h.scan_eq, List.mem_filter, List.isPrefixOf_iff_prefix]
  scan_ascending := by
    rw [h.scan_eq]
    exact h.keys_ascending.filter _
  scan_nodup := by
    rw [h.scan_eq]
    exact (h.keys_ascending.filter _).imp fun hlt => Std.ne_of_lt hlt
  find_inside := h.checkedFind_eq q
  lowerBound_inside := h.checkedLowerBound_eq q
  scan_inside := h.checkedScan_eq q

/-- After every run of calls the keys stand in ascending order, they are those that the calls left,
and each search answers by that order from reads inside the buffer. -/
theorem run_searches_in_key_order (s : Shape) (commands : List Command) :
    let b := run s commands
    b.keys.Pairwise (· < ·) ∧ (∀ key, key ∈ b.keys ↔ (contents s commands key).isSome = true) ∧
      (∀ slot, b.key? slot = b.keys[slot]?) ∧ ∀ q, b.AnswersFor q := by
  intro b
  obtain ⟨-, rs, h, hm⟩ := holds_run s commands
  refine ⟨h.keys_ascending, fun key => ?_, fun slot => ?_, h.answersFor⟩
  · rw [h.mem_keys_iff, hm.isSome_iff]
  · rw [h.key?_eq, h.keys_eq, List.getElem?_map]

end Buffer

end TripleStore
