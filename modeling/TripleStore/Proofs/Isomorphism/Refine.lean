import TripleStore.Isomorphism.Check
import TripleStore.Proofs.Isomorphism.Lists
import TripleStore.Proofs.Isomorphism.Rename

/-!
# Colors survive a renaming

A renaming that carries one side onto another one carries the colors along, round by round, whatever
the digest. So both sides are refined in as many rounds and have the same histograms: comparing
these never tells isomorphic sides apart.
-/

namespace TripleStore.Isomorphism

namespace Side

/-- All nodes and all triples that mention one. -/
def whole (s : Side) : Component := ⟨List.range s.blanks, s.blankTriples⟩

/-- The blank triples mention nodes of the side, and each of them some. -/
structure Sound (s : Side) : Prop where
  bounded : ∀ t ∈ s.blankTriples, ∀ x ∈ blanksOf t, x < s.blanks
  mentioned : ∀ t ∈ s.blankTriples, blanksOf t ≠ []

theorem Sound.closed {s : Side} (hs : s.Sound) : s.whole.Closed where
  nodup := List.nodup_range
  mentioned t ht x hx := List.mem_range.mpr (hs.bounded t ht x hx)

end Side

/-- The renaming carries the colors of the first nodes along. -/
structure KeepsColors (π : Nat → Nat) (n : Nat) (colors otherColors : List Nat) : Prop where
  length : colors.length = n
  otherLength : otherColors.length = n
  color : ∀ x < n, colorOf otherColors (π x) = colorOf colors x

variable {digest : Digest} {π : Nat → Nat} {a b : Side} {colors otherColors : List Nat}

namespace Carries

theorem lt (h : Carries π a.whole b.whole) {x : Nat} (hx : x < a.blanks) : π x < b.blanks :=
  List.mem_range.mp (h.mem (List.mem_range.mpr hx))

theorem inj_of_lt (h : Carries π a.whole b.whole) {x y : Nat} (hx : x < a.blanks)
    (hy : y < a.blanks) (he : π x = π y) : x = y :=
  List.inj_on_of_nodup_map (h.blanks.nodup_iff.mpr List.nodup_range) (List.mem_range.mpr hx)
    (List.mem_range.mpr hy) he

theorem blanks_eq (h : Carries π a.whole b.whole) : a.blanks = b.blanks := by
  have hlength := h.blanks.length_eq
  rwa [List.length_map, Side.whole, Side.whole, List.length_range, List.length_range] at hlength

theorem range_perm (h : Carries π a.whole b.whole) :
    ((List.range a.blanks).map π).Perm (List.range a.blanks) := by
  have hblanks := h.blanks
  rwa [Side.whole, Side.whole, ← h.blanks_eq] at hblanks

end Carries

theorem map_colorOf_range : (List.range colors.length).map (colorOf colors) = colors := by
  refine List.ext_getElem (by simp) fun i hi hi' => ?_
  simp [colorOf, List.getD_eq_getElem?_getD, List.getElem?_eq_getElem hi']

theorem colorOf_round {s : Side} {x : Nat} (hx : x < s.blanks) :
    colorOf (s.round digest colors) x =
      digest.ofNode (colorOf colors x) (s.signatures digest colors x) := by
  rw [colorOf, Side.round, List.getD_eq_getElem?_getD, List.getElem?_map, List.getElem?_range hx]
  rfl

theorem mentions_renameTriple (hπ : ∀ x < a.blanks, ∀ y < a.blanks, π x = π y → x = y)
    {t : Triple Slot} (ht : ∀ y ∈ blanksOf t, y < a.blanks) {x : Nat} (hx : x < a.blanks) :
    mentions (π x) (renameTriple π t) = mentions x t := by
  rw [mentions, mentions, Bool.eq_iff_iff, List.contains_iff_mem, List.contains_iff_mem,
    blanksOf_renameTriple, List.mem_map]
  constructor
  · rintro ⟨y, hy, he⟩
    exact hπ y (ht y hy) x hx he ▸ hy
  · exact fun hmem => ⟨x, hmem, rfl⟩

namespace KeepsColors

variable {n : Nat}

theorem perm (h : KeepsColors π n colors otherColors)
    (hπ : ((List.range n).map π).Perm (List.range n)) : otherColors.Perm colors := by
  have hother := hπ.map (colorOf otherColors)
  have hmap : ((List.range n).map π).map (colorOf otherColors) = colors := by
    rw [List.map_map, ← h.length]
    refine (List.map_congr_left fun x hx => ?_).trans map_colorOf_range
    exact h.color x (h.length ▸ List.mem_range.mp hx)
  rw [hmap, ← h.otherLength, map_colorOf_range] at hother
  exact hother.symm

theorem distinct_eq (h : KeepsColors π n colors otherColors)
    (hπ : ((List.range n).map π).Perm (List.range n)) : distinct otherColors = distinct colors :=
  (eraseDups_perm (h.perm hπ)).length_eq

/-- What a triple looks like from a node is what the renamed triple looks like from the renamed
node. -/
theorem map_markOf (h : KeepsColors π n colors otherColors)
    (hinj : ∀ x < n, ∀ y < n, π x = π y → x = y) {t : Triple Slot}
    (ht : ∀ y ∈ blanksOf t, y < n) {x : Nat} (hx : x < n) :
    (renameTriple π t).map (markOf otherColors (π x)) = t.map (markOf colors x) := by
  refine map_toList_congr (f := markOf otherColors (π x) ∘ Slot.rename π) fun s hs => ?_
  cases s with
  | blank y =>
    have hy : y < n := ht y (mem_blanksOf_iff.mpr hs)
    show (if π y = π x then Mark.self else .other (colorOf otherColors (π y))) =
      if y = x then .self else .other (colorOf colors y)
    rw [h.color y hy]
    refine if_congr ⟨hinj y hy x hx, fun he => he ▸ rfl⟩ rfl rfl
  | any => rfl
  | ground key => rfl

end KeepsColors

theorem signatures_eq (ha : a.Sound) (hcarries : Carries π a.whole b.whole)
    (h : KeepsColors π a.blanks colors otherColors) {x : Nat} (hx : x < a.blanks) :
    b.signatures digest otherColors (π x) = a.signatures digest colors x := by
  have hinj : ∀ x < a.blanks, ∀ y < a.blanks, π x = π y → x = y := fun x hx y hy =>
    hcarries.inj_of_lt hx hy
  have htriples := map_filter_perm hcarries.triples fun t ht =>
    mentions_renameTriple hinj (ha.bounded t ht) hx
  have hsignature : ((a.blankTriples.filter (mentions x)).map (renameTriple π)).map
      (fun t => digest.ofTriple (t.map (markOf otherColors (π x)))) =
      (a.blankTriples.filter (mentions x)).map fun t =>
        digest.ofTriple (t.map (markOf colors x)) := by
    rw [List.map_map]
    refine List.map_congr_left fun t ht => congrArg digest.ofTriple ?_
    exact h.map_markOf hinj (ha.bounded t (List.mem_filter.mp ht).1) hx
  have hperm := htriples.map fun t => digest.ofTriple (t.map (markOf otherColors (π x)))
  rw [Side.whole, hsignature] at hperm
  exact (mergeSort_eq_of_perm_nat hperm).symm

/-- A round keeps colors carried along. -/
theorem KeepsColors.round (ha : a.Sound) (hcarries : Carries π a.whole b.whole)
    (h : KeepsColors π a.blanks colors otherColors) :
    KeepsColors π a.blanks (a.round digest colors) (b.round digest otherColors) where
  length := by simp [Side.round]
  otherLength := by simp [Side.round, hcarries.blanks_eq]
  color x hx := by
    rw [colorOf_round hx, colorOf_round (hcarries.lt hx), h.color x hx,
      signatures_eq ha hcarries h hx]

/-- Refinement takes as many rounds on both sides, and all of them keep colors carried along. -/
theorem forall₂_refineFrom (digest : Digest) (ha : a.Sound)
    (hcarries : Carries π a.whole b.whole) (rounds : Nat)
    (h : KeepsColors π a.blanks colors otherColors) :
    List.Forall₂ (KeepsColors π a.blanks) (a.refineFrom digest rounds colors)
      (b.refineFrom digest rounds otherColors) := by
  have hperm := hcarries.range_perm
  induction rounds generalizing colors otherColors with
  | zero => exact .cons h .nil
  | succ rounds ih =>
    have hnext : KeepsColors π a.blanks (a.round digest colors) (b.round digest otherColors) :=
      h.round ha hcarries
    simp only [Side.refineFrom, hnext.distinct_eq hperm, h.distinct_eq hperm]
    split
    · exact .cons h (.cons hnext .nil)
    · exact .cons h (ih hnext)

theorem keepsColors_start (digest : Digest) (hcarries : Carries π a.whole b.whole) :
    KeepsColors π a.blanks (List.replicate a.blanks digest.start)
      (List.replicate b.blanks digest.start) where
  length := List.length_replicate
  otherLength := hcarries.blanks_eq ▸ List.length_replicate
  color x hx := by
    simp [colorOf, List.getD_eq_getElem?_getD, hx, hcarries.lt hx]

theorem forall₂_refine (digest : Digest) (ha : a.Sound) (h : Carries π a.whole b.whole)
    (rounds : Nat) :
    List.Forall₂ (KeepsColors π a.blanks) (a.refine digest rounds) (b.refine digest rounds) :=
  forall₂_refineFrom digest ha h rounds (keepsColors_start digest h)

/-- Isomorphic sides have the same histograms. -/
theorem sameHistograms_of_forall₂ {history otherHistory : List (List Nat)} {n : Nat}
    (hπ : ((List.range n).map π).Perm (List.range n))
    (h : List.Forall₂ (KeepsColors π n) history otherHistory) :
    sameHistograms n history otherHistory = true := by
  rw [sameHistograms, Bool.and_eq_true, beq_iff_eq, List.all_eq_true]
  refine ⟨h.length_eq, ?_⟩
  rintro ⟨c, d⟩ hcd
  have hkeep : KeepsColors π n c d := (List.forall₂_iff_zip.mp h).2 hcd
  have hall : ((List.range n).map (colorOf c)).Perm ((List.range n).map (colorOf d)) := by
    have hc : (List.range n).map (colorOf c) = c := hkeep.length ▸ map_colorOf_range
    have hd : (List.range n).map (colorOf d) = d := hkeep.otherLength ▸ map_colorOf_range
    rw [hc, hd]
    exact (hkeep.perm hπ).symm
  rw [beq_iff_eq]
  exact mergeSort_eq_of_perm_nat hall

theorem sameHistograms_refine (digest : Digest) (ha : a.Sound) (h : Carries π a.whole b.whole)
    (rounds : Nat) :
    sameHistograms a.blanks (a.refine digest rounds) (b.refine digest rounds) = true :=
  sameHistograms_of_forall₂ h.range_perm (forall₂_refine digest ha h rounds)

theorem refineFrom_ne_nil (s : Side) (digest : Digest) (rounds : Nat) (colors : List Nat) :
    s.refineFrom digest rounds colors ≠ [] := by
  cases rounds with
  | zero => exact List.cons_ne_nil _ _
  | succ rounds =>
    rw [Side.refineFrom]
    split <;> exact List.cons_ne_nil _ _

theorem forall₂_getLast? {α β : Type} {R : α → β → Prop} {xs : List α} {ys : List β}
    (h : List.Forall₂ R xs ys) (hne : xs ≠ []) :
    ∃ x y, xs.getLast? = some x ∧ ys.getLast? = some y ∧ R x y := by
  induction h with
  | nil => exact absurd rfl hne
  | @cons x y xs ys hxy htail ih =>
    cases htail with
    | nil => exact ⟨x, y, rfl, rfl, hxy⟩
    | cons hhead hrest =>
      obtain ⟨x', y', hx', hy', hlast⟩ := ih (List.cons_ne_nil _ _)
      exact ⟨x', y', by rw [List.getLast?_cons_cons, hx'], by rw [List.getLast?_cons_cons, hy'],
        hlast⟩

end TripleStore.Isomorphism
