import Mathlib.Data.List.Perm.Lattice
import TripleStore.Proofs.Index.Key
import TripleStore.Proofs.Record.Buffer

/-!
# An index lists its triples in order

`TripleIndex.Keeps` says which triples an index holds, in the order of its columns, marks among the
ids or not; `TripleIndex.Lists` is the same for triples of real ids. Such a list determines the
index byte for byte. A scan yields what the triples of the list behind the place where it resumes
read back as, so far as that matches.
-/

namespace TripleStore.TripleIndex

def entry (x : TripleIndex) (t : IdTriple) : Record := ⟨x.key t, none⟩

/-- The index holds these triples in this order. -/
structure Keeps (x : TripleIndex) (ts : List IdTriple) : Prop where
  shape : x.records.shape = .indexKey
  held : x.records.Holds (ts.map x.entry)

/-- The index holds these triples, all of real ids, in this order. -/
structure Lists (x : TripleIndex) (ts : List IdTriple) : Prop where
  shape : x.records.shape = .indexKey
  held : x.records.Holds (ts.map x.entry)
  real : ∀ t ∈ ts, t.Real

variable {x : TripleIndex} {ts : List IdTriple}

theorem Lists.keeps (h : x.Lists ts) : x.Keeps ts := ⟨h.shape, h.held⟩

theorem indexKey_admits_entry (t : IdTriple) : Shape.indexKey.Admits (x.entry t) := by
  simp [Shape.Admits, Shape.check, entry, Shape.hasValue, Shape.indexKey, NodeId.size]

theorem keeps_empty (order : IndexOrder) : (empty order).Keeps [] := ⟨rfl, Buffer.holds_empty _⟩

theorem lists_empty (order : IndexOrder) : (empty order).Lists [] :=
  ⟨rfl, Buffer.holds_empty _, by simp⟩

theorem Keeps.clear (h : x.Keeps ts) : x.clear.Keeps [] := ⟨h.shape, Buffer.holds_empty _⟩

theorem Lists.clear (h : x.Lists ts) : x.clear.Lists [] :=
  ⟨h.shape, Buffer.holds_empty _, by simp⟩

theorem Lists.len_eq (h : x.Lists ts) : x.len = ts.length := by
  rw [len, h.held.len, List.length_map]

theorem Keeps.ascending (h : x.Keeps ts) : ts.Pairwise (IdTriple.Before x.order) :=
  (List.pairwise_map.mp h.held.ascending).imp x.key_lt_iff.mp

theorem Lists.ascending (h : x.Lists ts) : ts.Pairwise (IdTriple.Before x.order) :=
  h.keeps.ascending

theorem Lists.nodup (h : x.Lists ts) : ts.Nodup := IdTriple.nodup_of_pairwise_before h.ascending

/-- Two indexes of one order that hold the same triples are the same, byte for byte. -/
theorem Lists.unique {y : TripleIndex} {us : List IdTriple} (h : x.Lists ts) (h' : y.Lists us)
    (ho : x.order = y.order) (hmem : ∀ t, t ∈ ts ↔ t ∈ us) : x = y := by
  have hperm : ts.Perm us := (List.perm_ext_iff_of_nodup h.nodup h'.nodup).mpr hmem
  have heq : ts = us := by
    refine hperm.eq_of_pairwise (fun t u _ _ htu hut => ?_) h.ascending (ho ▸ h'.ascending)
    exact absurd hut (List.lt_asymm htu)
  have hentry : x.entry = y.entry := by
    funext t
    simp only [entry, key, ho]
  have hrecords : x.records = y.records := by
    refine h.held.unique ?_ (h.shape.trans h'.shape.symm)
    rw [heq, hentry]
    exact h'.held
  cases x
  cases y
  simp_all

theorem below_map_entry (t : IdTriple) :
    Buffer.below (x.key t) (ts.map x.entry) =
      (ts.filter fun u => x.key u < x.key t).map x.entry := by
  rw [Buffer.below, List.filter_map]
  rfl

theorem above_map_entry (t : IdTriple) :
    Buffer.above (x.key t) (ts.map x.entry) =
      (ts.filter fun u => x.key t < x.key u).map x.entry := by
  rw [Buffer.above, List.filter_map]
  rfl

@[simp] theorem order_insert (x : TripleIndex) (t : IdTriple) : (x.insert t).2.order = x.order :=
  rfl

@[simp] theorem order_erase (x : TripleIndex) (t : IdTriple) : (x.erase t).2.order = x.order :=
  rfl

@[simp] theorem order_clear (x : TripleIndex) : x.clear.order = x.order := rfl

@[simp] theorem entry_insert (x : TripleIndex) (t : IdTriple) : (x.insert t).2.entry = x.entry :=
  rfl

@[simp] theorem entry_erase (x : TripleIndex) (t : IdTriple) : (x.erase t).2.entry = x.entry :=
  rfl

section

variable {t : IdTriple} (hinj : ∀ u ∈ ts, x.key u = x.key t → u = t)
include hinj

theorem exists_key_iff_of_inj : (∃ r ∈ ts.map x.entry, r.key = x.key t) ↔ t ∈ ts := by
  simp only [List.mem_map, exists_exists_and_eq_and, entry]
  constructor
  · rintro ⟨u, hu, hk⟩
    exact hinj u hu hk ▸ hu
  · exact fun hmem => ⟨t, hmem, rfl⟩

/-- Putting in a triple whose key no other one has tells whether it is new, and leaves it with the
others. -/
theorem Keeps.insert (h : x.Keeps ts) :
    ((x.insert t).1 = true ↔ t ∉ ts) ∧
      ∃ us, (x.insert t).2.Keeps us ∧ ∀ u, u ∈ us ↔ u = t ∨ u ∈ ts := by
  have hadmits : x.records.shape.Admits (x.entry t) := h.shape ▸ indexKey_admits_entry t
  obtain ⟨hheld, hfresh⟩ := h.held.put hadmits
  constructor
  · rw [TripleIndex.insert, ← exists_key_iff_of_inj hinj]
    simpa [entry] using hfresh
  · refine ⟨(ts.filter fun u => x.key u < x.key t) ++ t :: ts.filter fun u => x.key t < x.key u,
      ⟨?_, ?_⟩, fun u => ?_⟩
    · exact (Buffer.shape_put _ _).trans h.shape
    · rw [List.map_append, List.map_cons, entry_insert, ← below_map_entry, ← above_map_entry]
      exact hheld
    · simp only [List.mem_append, List.mem_cons, List.mem_filter, decide_eq_true_eq]
      constructor
      · rintro (hu | hu | hu)
        · exact .inr hu.1
        · exact .inl hu
        · exact .inr hu.1
      · rintro (hu | hu)
        · exact .inr (.inl hu)
        · rcases Std.lt_trichotomy (x.key u) (x.key t) with hlt | he | hgt
          · exact .inl ⟨hu, hlt⟩
          · exact .inr (.inl (hinj u hu he))
          · exact .inr (.inr ⟨hu, hgt⟩)

/-- Taking out a triple whose key no other one has tells whether it was there, and leaves the
others. -/
theorem Keeps.erase (h : x.Keeps ts) :
    ((x.erase t).1 = true ↔ t ∈ ts) ∧
      ∃ us, (x.erase t).2.Keeps us ∧ ∀ u, u ∈ us ↔ u ≠ t ∧ u ∈ ts := by
  obtain ⟨hheld, hfound⟩ := h.held.erase (x.key t)
  constructor
  · rw [TripleIndex.erase, ← exists_key_iff_of_inj hinj]
    exact hfound
  · refine ⟨(ts.filter fun u => x.key u < x.key t) ++ ts.filter fun u => x.key t < x.key u,
      ⟨?_, ?_⟩, fun u => ?_⟩
    · exact (Buffer.shape_erase _ _).trans h.shape
    · rw [List.map_append, entry_erase, ← below_map_entry, ← above_map_entry]
      exact hheld
    · simp only [List.mem_append, List.mem_filter, decide_eq_true_eq]
      constructor
      · rintro (⟨hu, hlt⟩ | ⟨hu, hlt⟩)
        · exact ⟨fun he => List.lt_irrefl _ (he ▸ hlt), hu⟩
        · exact ⟨fun he => List.lt_irrefl _ (he ▸ hlt), hu⟩
      · rintro ⟨hne, hu⟩
        rcases Std.lt_trichotomy (x.key u) (x.key t) with hlt | he | hgt
        · exact .inl ⟨hu, hlt⟩
        · exact absurd (hinj u hu he) hne
        · exact .inr ⟨hu, hgt⟩

end

/-- No other triple of real ids has the key of a listed one. -/
theorem Lists.key_inj (h : x.Lists ts) {t : IdTriple} (ht : t.Real) :
    ∀ u ∈ ts, x.key u = x.key t → u = t :=
  fun u hu => (x.key_inj_of_real (h.real u hu) ht).mp

theorem Lists.exists_key_iff (h : x.Lists ts) {t : IdTriple} (ht : t.Real) :
    (∃ r ∈ ts.map x.entry, r.key = x.key t) ↔ t ∈ ts :=
  exists_key_iff_of_inj (h.key_inj ht)

theorem Lists.insert (h : x.Lists ts) {t : IdTriple} (ht : t.Real) :
    ((x.insert t).1 = true ↔ t ∉ ts) ∧
      ∃ us, (x.insert t).2.Lists us ∧ ∀ u, u ∈ us ↔ u = t ∨ u ∈ ts := by
  obtain ⟨hfresh, us, hus, hmem⟩ := h.keeps.insert (h.key_inj ht)
  refine ⟨hfresh, us, ⟨hus.shape, hus.held, fun u hu => ?_⟩, hmem⟩
  rcases (hmem u).mp hu with rfl | hu
  · exact ht
  · exact h.real u hu

theorem Lists.erase (h : x.Lists ts) {t : IdTriple} (ht : t.Real) :
    ((x.erase t).1 = true ↔ t ∈ ts) ∧
      ∃ us, (x.erase t).2.Lists us ∧ ∀ u, u ∈ us ↔ u ≠ t ∧ u ∈ ts := by
  obtain ⟨hfound, us, hus, hmem⟩ := h.keeps.erase (h.key_inj ht)
  exact ⟨hfound, us, ⟨hus.shape, hus.held, fun u hu => h.real u ((hmem u).mp hu).2⟩, hmem⟩

/-- If every id can be read back, no triple at all is mistaken for another one. -/
theorem Lists.contains_iff_of_inRange (h : x.Lists ts) (hr : ∀ t ∈ ts, t.InRange) (t : IdTriple) :
    x.contains t = true ↔ t ∈ ts := by
  rw [contains, h.held.contains_iff]
  simp only [List.mem_map, exists_exists_and_eq_and, entry]
  constructor
  · rintro ⟨u, hu, hk⟩
    exact (x.key_inj_of_real_of_inRange (h.real u hu) (hr u hu)).mp hk.symm ▸ hu
  · exact fun hmem => ⟨t, hmem, rfl⟩

/-- Of two borders, the one further back fulfils both conditions. -/
theorem drop_max_eq_filter {α : Type} {xs : List α} {p q : α → Bool} {m n : Nat}
    (hp : xs.drop m = xs.filter p) (hq : xs.drop n = xs.filter q) :
    xs.drop (max m n) = xs.filter fun a => p a && q a := by
  rcases Nat.le_total m n with hle | hle
  · have hall : ∀ a ∈ xs.filter q, p a = true := by
      intro a ha
      rw [← hq, ← Nat.add_sub_of_le hle, ← List.drop_drop] at ha
      exact (List.mem_filter.mp (hp ▸ List.mem_of_mem_drop ha)).2
    rw [Nat.max_eq_right hle, hq, ← List.filter_filter, List.filter_eq_self.mpr hall]
  · have hall : ∀ a ∈ xs.filter p, q a = true := by
      intro a ha
      rw [← hp, ← Nat.add_sub_of_le hle, ← List.drop_drop] at ha
      exact (List.mem_filter.mp (hq ▸ List.mem_of_mem_drop ha)).2
    simp only [Bool.and_comm (p _)]
    rw [Nat.max_eq_left hle, hp, ← List.filter_filter, List.filter_eq_self.mpr hall]

/-- A scan resumes behind the triples up to the one given, which need not be there. -/
theorem Keeps.drop_slotAfter (h : x.Keeps ts) (t : IdTriple) :
    x.slotAfter t ≤ (ts.map x.entry).length ∧
      (ts.map x.entry).drop (x.slotAfter t) = Buffer.above (x.key t) (ts.map x.entry) := by
  rcases h.held.find_split (x.key t) with ⟨r, -, hfind, hrs⟩ | ⟨-, hfind, hrs⟩
  · rw [List.append_cons] at hrs
    have hslot : x.slotAfter t = (Buffer.below (x.key t) (ts.map x.entry) ++ [r]).length := by
      simp [slotAfter, hfind]
    rw [hslot]
    exact drop_of_split hrs
  · have hslot : x.slotAfter t = (Buffer.below (x.key t) (ts.map x.entry)).length := by
      simp [slotAfter, hfind]
    rw [hslot]
    exact drop_of_split hrs

/-- A scan reads the keys from the lower bound of the fixed bytes on that lie behind the place where
it resumes, as long as they start with these bytes. -/
theorem Keeps.scanFrom_eq (h : x.Keeps ts) (pattern : IdTriple) (after : Option IdTriple) :
    x.records.scanFrom (x.fixedBytes pattern)
        (x.len - max (x.records.lowerBound (x.fixedBytes pattern))
          ((after.map x.slotAfter).getD 0))
        (max (x.records.lowerBound (x.fixedBytes pattern)) ((after.map x.slotAfter).getD 0)) =
      (ts.filter fun t => (x.fixedBytes pattern).isPrefixOf (x.key t) &&
        (!decide (x.key t < x.fixedBytes pattern) &&
          after.all fun a => decide (x.key a < x.key t))).map x.key := by
  have hdrop := h.held.drop_lowerBound (x.fixedBytes pattern)
  obtain ⟨hle, hresume⟩ : (after.map x.slotAfter).getD 0 ≤ (ts.map x.entry).length ∧
      (ts.map x.entry).drop ((after.map x.slotAfter).getD 0) =
        (ts.map x.entry).filter fun r => after.all fun a => x.key a < r.key := by
    cases after with
    | none => simp
    | some a => simpa [Buffer.above] using h.drop_slotAfter a
  have hslot := drop_max_eq_filter hdrop hresume
  have hlowLe := h.held.lowerBound_le (x.fixedBytes pattern)
  have hge : ∀ r ∈ (ts.map x.entry).drop (max (x.records.lowerBound (x.fixedBytes pattern))
      ((after.map x.slotAfter).getD 0)), ¬ r.key < x.fixedBytes pattern := by
    intro r hmem
    rw [hslot, List.mem_filter, Bool.and_eq_true] at hmem
    simpa using hmem.2.1
  rw [len, h.held.scanFrom_eq_filter _ (Nat.max_le.mpr ⟨hlowLe, hle⟩) hge, hslot,
    List.filter_map, List.filter_filter, List.filter_map, List.map_map]
  rfl

/-- A scan yields what the keys behind the triple it resumes from, if there is one, read back as, so
far as that matches. -/
theorem Keeps.scanAfter_eq_readBack (h : x.Keeps ts) (pattern : IdTriple)
    (after : Option IdTriple) :
    x.scanAfter pattern after =
      ((ts.filter fun t => after.all fun a => x.key a < x.key t).filterMap
        IdTriple.readBack?).filter pattern.isMatch := by
  rw [scanAfter, h.scanFrom_eq, List.filterMap_map, List.filter_filterMap, List.filterMap_filter,
    List.filter_filterMap, List.filterMap_filter]
  apply List.filterMap_congr
  intro t _
  rw [Function.comp_apply, decode_key_eq]
  cases hmatch : t.readBack?.filter pattern.isMatch with
  | none => simp
  | some u =>
    obtain ⟨hback, hm⟩ := Option.filter_eq_some_iff.mp hmatch
    have hkey : x.key u = x.key t := x.key_of_readBack? hback
    -- a match starts with the bytes that the pattern fixes, so it is not cut off with the rest
    have hp : x.fixedBytes pattern <+: x.key t := hkey ▸ x.fixedBytes_prefix_key hm
    have hlt : ¬ x.key t < x.fixedBytes pattern := Buffer.not_lt_of_prefix hp
    rw [List.isPrefixOf_iff_prefix.mpr hp, decide_eq_false hlt, Bool.not_false, Bool.true_and,
      Bool.true_and]

theorem Keeps.scan_eq (h : x.Keeps ts) (pattern : IdTriple) :
    x.scan pattern = (ts.filterMap IdTriple.readBack?).filter pattern.isMatch := by
  rw [scan, h.scanAfter_eq_readBack]
  simp

/-- A scan yields the matches that lie behind the triple it resumes from, if there is one. -/
theorem Keeps.scanAfter_eq (h : x.Keeps ts) (hr : ∀ t ∈ ts, t.InRange) (pattern : IdTriple)
    (after : Option IdTriple) :
    x.scanAfter pattern after =
      ts.filter fun t => after.all (fun a => x.key a < x.key t) && pattern.isMatch t := by
  have hback : ∀ us ⊆ ts, us.filterMap IdTriple.readBack? = us := by
    intro us hus
    refine (List.filterMap_congr fun t ht => ?_).trans List.filterMap_some
    exact (IdTriple.readBack?_eq_self_iff t).mpr (hr t (hus ht))
  rw [h.scanAfter_eq_readBack, hback _ (List.filter_subset_self _), List.filter_filter]
  simp only [Bool.and_comm]

/-- Whether keys read back as their triples or not, a scan yields nothing twice. -/
theorem Lists.nodup_scan (h : x.Lists ts) (pattern : IdTriple) : (x.scan pattern).Nodup := by
  rw [h.keeps.scan_eq]
  exact (IdTriple.nodup_of_pairwise_before (IdTriple.pairwise_readBack? h.ascending)).filter _

end TripleStore.TripleIndex
