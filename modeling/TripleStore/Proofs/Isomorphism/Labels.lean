import Mathlib.Data.List.GetD
import TripleStore.Proofs.Isomorphism.Lists
import TripleStore.Proofs.Isomorphism.Rename

/-!
# Labels and their numbers

The comparison works on numbers in place of labels. A renaming of labels and one of numbers that
follow each other carry the same triples onto the same triples, and the one is a bijection exactly
if the other is. So nothing is lost by the numbering.
-/

namespace TripleStore.Isomorphism

/-- A node with its blank label renamed, and any other term replaced by its value. -/
inductive Reading where
  | any
  | value (key : ValueKey)
  | blank (label : String)
deriving DecidableEq

def readingOf (f : String → String) : Node → Reading
  | .any => .any
  | .term (.blank label) => .blank (f label)
  | .term t => .value (ValueKey.of t)

def blankLabels (ts : List Pattern) : Set String :=
  {l | ∃ t ∈ ts, Node.term (.blank l) ∈ t.toList}

def slots (ts : List Pattern) : List (Triple Slot) := ts.map (Triple.map (slotOf (labels ts)))

def Reading.slot (known : List String) : Reading → Slot
  | .any => .any
  | .value key => .ground key
  | .blank label => .blank (known.idxOf label)

def Slot.reading (known : List String) : Slot → Reading
  | .any => .any
  | .ground key => .value key
  | .blank x => .blank (known.getD x "")

/-- The renaming of numbers follows that of labels. -/
structure Numbers (f : String → String) (π : Nat → Nat) (known other : List String) : Prop where
  mem : ∀ l ∈ known, f l ∈ other
  number : ∀ l ∈ known, π (known.idxOf l) = other.idxOf (f l)

variable {f : String → String} {π : Nat → Nat} {known other : List String} {a b : List Pattern}

section Numbering

theorem getD_idxOf {l : String} (hl : l ∈ known) : known.getD (known.idxOf l) "" = l := by
  have hlt := List.idxOf_lt_length_of_mem hl
  rw [List.getD_eq_getElem _ _ hlt]
  exact List.getElem_idxOf hlt

theorem getD_mem {x : Nat} (hx : x < known.length) : known.getD x "" ∈ known := by
  rw [List.getD_eq_getElem _ _ hx]
  exact List.getElem_mem hx

theorem idxOf_getD (hknown : known.Nodup) {x : Nat} (hx : x < known.length) :
    known.idxOf (known.getD x "") = x := by
  rw [List.getD_eq_getElem _ _ hx]
  exact hknown.idxOf_getElem x hx

theorem map_idxOf (hknown : known.Nodup) :
    known.map known.idxOf = List.range known.length := by
  refine List.ext_getElem (by simp) fun x hx _ => ?_
  rw [List.getElem_map, List.getElem_range]
  exact hknown.idxOf_getElem x _

end Numbering

namespace Numbers

theorem map_range (h : Numbers f π known other) (hknown : known.Nodup) :
    (List.range known.length).map π = (known.map f).map other.idxOf := by
  rw [← map_idxOf hknown, List.map_map, List.map_map]
  exact List.map_congr_left h.number

theorem perm_iff (h : Numbers f π known other) (hknown : known.Nodup) (hother : other.Nodup) :
    ((List.range known.length).map π).Perm (List.range other.length) ↔
      (known.map f).Perm other := by
  rw [h.map_range hknown, ← map_idxOf hother]
  constructor
  · intro hperm
    have hlabels {ls : List String} (hls : ∀ l ∈ ls, l ∈ other) :
        (ls.map other.idxOf).map (fun x => other.getD x "") = ls := by
      rw [List.map_map]
      exact (List.map_congr_left fun l hl => getD_idxOf (hls l hl)).trans (List.map_id' ls)
    have hback := hperm.map fun x => other.getD x ""
    rwa [hlabels fun _ hl => hl, hlabels fun l hl => ?_] at hback
    obtain ⟨k, hk, rfl⟩ := List.mem_map.mp hl
    exact h.mem k hk
  · intro hperm
    exact hperm.map _

theorem exists_of_labels (hmem : ∀ l ∈ known, f l ∈ other) :
    ∃ π, Numbers f π known other := by
  refine ⟨fun x => other.idxOf (f (known.getD x "")), hmem, ?_⟩
  intro l hl
  show other.idxOf (f (known.getD (known.idxOf l) "")) = other.idxOf (f l)
  rw [getD_idxOf hl]

theorem exists_of_numbers (hother : other.Nodup) (hlt : ∀ x < known.length, π x < other.length) :
    ∃ f, Numbers f π known other := by
  have himage {l : String} (hl : l ∈ known) : π (known.idxOf l) < other.length :=
    hlt _ (List.idxOf_lt_length_of_mem hl)
  refine ⟨fun l => other.getD (π (known.idxOf l)) "", ?_, ?_⟩
  · intro l hl
    exact getD_mem (himage hl)
  · intro l hl
    exact (idxOf_getD hother (himage hl)).symm

end Numbers

section Readings

theorem label?_eq_some_iff {n : Node} {l : String} :
    label? n = some l ↔ n = .term (.blank l) := by
  cases n with
  | any => simp [label?]
  | term t => cases t <;> simp [label?]

theorem mem_labels {l : String} : l ∈ labels a ↔ l ∈ blankLabels a := by
  unfold labels blankLabels
  rw [List.mem_eraseDups, List.mem_flatMap]
  simp only [List.mem_filterMap, label?_eq_some_iff, exists_eq_right]
  rfl

theorem blankLabels_eq (ts : List Pattern) : blankLabels ts = {l | l ∈ labels ts} :=
  Set.ext fun _ => mem_labels.symm

theorem nodup_labels (ts : List Pattern) : (labels ts).Nodup := nodup_eraseDups _

theorem slotOf_eq (known : List String) (n : Node) :
    slotOf known n = (readingOf id n).slot known := by
  cases n with
  | any => rfl
  | term t => cases t <;> rfl

theorem rename_slotOf (h : Numbers f π known other) {n : Node}
    (hn : ∀ l, n = .term (.blank l) → l ∈ known) :
    (slotOf known n).rename π = (readingOf f n).slot other := by
  cases n with
  | any => rfl
  | term t =>
    cases t with
    | blank l => exact congrArg Slot.blank (h.number l (hn l rfl))
    | iri text => rfl
    | literal v => rfl

theorem reading_slot {r : Reading} (hr : ∀ l, r = .blank l → l ∈ known) :
    (r.slot known).reading known = r := by
  cases r with
  | any => rfl
  | value key => rfl
  | blank l => exact congrArg Reading.blank (getD_idxOf (hr l rfl))

theorem readingOf_eq_blank {n : Node} {l : String} (h : readingOf f n = .blank l) :
    ∃ k, n = .term (.blank k) ∧ f k = l := by
  cases n with
  | any => cases h
  | term t =>
    cases t with
    | blank k => exact ⟨k, rfl, Reading.blank.inj h⟩
    | iri text => cases h
    | literal v => cases h

/-- Readings whose labels are known can be told from their slots. -/
theorem map_reading_slot (hmem : ∀ l ∈ labels a, f l ∈ known) :
    ((a.map (Triple.map (readingOf f))).map (Triple.map (Reading.slot known))).map
        (Triple.map (Slot.reading known)) = a.map (Triple.map (readingOf f)) := by
  rw [List.map_map, List.map_map]
  apply List.map_congr_left
  intro t ht
  refine map_toList_congr (f := Slot.reading known ∘ Reading.slot known ∘ readingOf f)
    fun n hn => reading_slot fun l hl => ?_
  obtain ⟨k, rfl, rfl⟩ := readingOf_eq_blank hl
  exact hmem k (mem_labels.mpr ⟨t, ht, hn⟩)

/-- The renaming of numbers carries slots onto slots exactly if that of labels carries readings onto
readings. -/
theorem perm_slots_iff (h : Numbers f π (labels a) (labels b)) :
    ((slots a).map (renameTriple π)).Perm (slots b) ↔
      (a.map (Triple.map (readingOf f))).Perm (b.map (Triple.map (readingOf id))) := by
  have hleft : (slots a).map (renameTriple π) =
      (a.map (Triple.map (readingOf f))).map (Triple.map (Reading.slot (labels b))) := by
    rw [slots, List.map_map, List.map_map]
    apply List.map_congr_left
    intro t ht
    refine map_toList_congr (f := Slot.rename π ∘ slotOf (labels a))
      (g := Reading.slot (labels b) ∘ readingOf f) fun n hn => rename_slotOf h fun l hl => ?_
    exact mem_labels.mpr ⟨t, ht, hl ▸ hn⟩
  have hright : slots b =
      (b.map (Triple.map (readingOf id))).map (Triple.map (Reading.slot (labels b))) := by
    rw [slots, List.map_map]
    apply List.map_congr_left
    intro t _
    exact map_toList_congr (g := Reading.slot (labels b) ∘ readingOf id)
      fun n _ => slotOf_eq (labels b) n
  rw [hleft, hright]
  constructor
  · intro hperm
    have hback := hperm.map (Triple.map (Slot.reading (labels b)))
    rwa [map_reading_slot h.mem, map_reading_slot (f := id) fun _ hl => hl] at hback
  · intro hperm
    exact hperm.map _

end Readings

/-- A bijection of the labels that carries the readings over is a bijection of the numbers that
carries the slots over. -/
theorem exists_labels_iff :
    (∃ f, Set.BijOn f (blankLabels a) (blankLabels b) ∧
      (a.map (Triple.map (readingOf f))).Perm (b.map (Triple.map (readingOf id)))) ↔
    ∃ π, ((List.range (labels a).length).map π).Perm (List.range (labels b).length) ∧
      ((slots a).map (renameTriple π)).Perm (slots b) := by
  simp only [blankLabels_eq, bijOn_iff_map_perm (nodup_labels a) (nodup_labels b)]
  constructor
  · rintro ⟨f, hbij, hperm⟩
    obtain ⟨π, hnumbers⟩ : ∃ π, Numbers f π (labels a) (labels b) :=
      Numbers.exists_of_labels fun l hl => hbij.mem_iff.mp (List.mem_map_of_mem hl)
    exact ⟨π, (hnumbers.perm_iff (nodup_labels a) (nodup_labels b)).mpr hbij,
      (perm_slots_iff hnumbers).mpr hperm⟩
  · rintro ⟨π, hbij, hperm⟩
    obtain ⟨f, hnumbers⟩ : ∃ f, Numbers f π (labels a) (labels b) := by
      refine Numbers.exists_of_numbers (nodup_labels b) fun x hx => ?_
      exact List.mem_range.mp (hbij.mem_iff.mp (List.mem_map_of_mem (List.mem_range.mpr hx)))
    exact ⟨f, (hnumbers.perm_iff (nodup_labels a) (nodup_labels b)).mp hbij,
      (perm_slots_iff hnumbers).mp hperm⟩

end TripleStore.Isomorphism
