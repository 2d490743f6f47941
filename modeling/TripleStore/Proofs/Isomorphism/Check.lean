import TripleStore.Proofs.Isomorphism.Labels
import TripleStore.Proofs.Isomorphism.Sides

/-!
# The check decides isomorphism

Two lists of triples pass exactly if some bijection of their blank labels carries the one onto the
other by value, each triple as often. The digest that makes colors may be any functions, also ones
that collide.
-/

namespace TripleStore.Isomorphism

variable {π : Nat → Nat} {a b : List Pattern}

/-- A renaming leaves ground triples alone, so it carries a list over part by part. -/
theorem map_perm_iff_parts {ts us : List (Triple Slot)} :
    (ts.map (renameTriple π)).Perm us ↔
      (ts.filter fun t => (blanksOf t).isEmpty).Perm (us.filter fun t => (blanksOf t).isEmpty) ∧
        ((ts.filter fun t => !(blanksOf t).isEmpty).map (renameTriple π)).Perm
          (us.filter fun t => !(blanksOf t).isEmpty) := by
  have hkind (t : Triple Slot) : (blanksOf (renameTriple π t)).isEmpty = (blanksOf t).isEmpty := by
    rw [blanksOf_renameTriple, List.isEmpty_map]
  have hground : (ts.filter fun t => (blanksOf t).isEmpty).map (renameTriple π) =
      ts.filter fun t => (blanksOf t).isEmpty := by
    refine (List.map_congr_left fun t ht => renameTriple_id fun x hx => ?_).trans (List.map_id' _)
    rw [List.isEmpty_iff.mp (List.mem_filter.mp ht).2] at hx
    cases hx
  constructor
  · intro h
    rw [← hground]
    exact ⟨map_filter_perm h fun t _ => hkind t,
      map_filter_perm h fun t _ => congrArg (!·) (hkind t)⟩
  · rintro ⟨h, h'⟩
    rw [← hground] at h
    have hparts := h.append h'
    rw [← List.map_append] at hparts
    have hts := (List.filter_append_perm (fun t => (blanksOf t).isEmpty) ts).map (renameTriple π)
    exact hts.symm.trans (hparts.trans (List.filter_append_perm _ us))

theorem slotOf_bounded {t : Pattern} (ht : t ∈ a) {x : Nat}
    (hx : x ∈ blanksOf (t.map (slotOf (labels a)))) : x < (labels a).length := by
  have hmem : Slot.blank x ∈ t.toList.map (slotOf (labels a)) := mem_blanksOf_iff.mp hx
  obtain ⟨n, hn, he⟩ := List.mem_map.mp hmem
  rw [slotOf_eq] at he
  cases hr : readingOf id n with
  | any => rw [hr] at he; cases he
  | value key => rw [hr] at he; cases he
  | blank l =>
    rw [hr] at he
    obtain ⟨k, rfl, rfl⟩ := readingOf_eq_blank hr
    rw [← Slot.blank.inj he]
    exact List.idxOf_lt_length_of_mem (mem_labels.mpr ⟨t, ht, hn⟩)

theorem sound_ofPatterns (a : List Pattern) : (Side.ofPatterns a).Sound where
  bounded t ht x hx := by
    obtain ⟨u, hu, rfl⟩ := List.mem_map.mp (List.mem_filter.mp ht).1
    exact slotOf_bounded hu hx
  mentioned t ht := by
    have hblank := (List.mem_filter.mp ht).2
    intro hnil
    rw [hnil] at hblank
    cases hblank

/-- Sides without blank nodes have no blank triples to carry over. -/
theorem carries_of_no_blanks {s s' : Side} (hs : s.Sound) (hs' : s'.Sound) (h : s.blanks = 0)
    (hn : s.blanks = s'.blanks) : Carries id s.whole s'.whole := by
  have hnone {s : Side} (hs : s.Sound) (h : s.blanks = 0) : s.whole = ⟨[], []⟩ := by
    have htriples : s.blankTriples = [] := by
      apply List.eq_nil_iff_forall_not_mem.mpr
      intro t ht
      have hlt := hs.bounded t ht _ (hs.headD_mem ht)
      omega
    unfold Side.whole
    rw [h, htriples, List.range_zero]
  rw [hnone hs h, hnone hs' (hn ▸ h)]
  exact ⟨.refl _, .refl _⟩

/-- The early answers of the check agree with the late one. -/
theorem isIsomorphic_iff_sides {uf : UnionFind} (hu : uf.Lawful) (digest : Digest) :
    isIsomorphic digest uf a b = true ↔
    (Side.ofPatterns a).groundTriples.Perm (Side.ofPatterns b).groundTriples ∧
      ∃ π, Carries π (Side.ofPatterns a).whole (Side.ofPatterns b).whole := by
  have ha := sound_ofPatterns a
  have hb := sound_ofPatterns b
  unfold isIsomorphic
  constructor
  · intro h
    split at h
    next => cases h
    next =>
      dsimp only at h
      split at h
      next => cases h
      next hsame =>
        simp only [ne_eq, Bool.or_eq_true, Bool.not_eq_true', decide_eq_true_eq, not_or,
          Bool.not_eq_false, not_not, List.isPerm_iff] at hsame
        obtain ⟨⟨hground, -⟩, hn⟩ := hsame
        refine ⟨hground, ?_⟩
        rw [Bool.or_eq_true, beq_iff_eq, matchesSides_iff hu digest ha hb hn] at h
        rcases h with h | h
        · exact ⟨id, carries_of_no_blanks ha hb h hn⟩
        · exact h
  · rintro ⟨hground, π, hπ⟩
    have hblanks := hπ.blanks.length_eq
    have htriples := hπ.triples.length_eq
    have hlength : ((slots a).map (renameTriple π)).length = (slots b).length :=
      (map_perm_iff_parts.mpr ⟨hground, hπ.triples⟩).length_eq
    simp only [Side.whole, slots, List.length_map, List.length_range] at hblanks htriples hlength
    rw [if_neg (not_not.mpr hlength)]
    dsimp only
    rw [List.isPerm_iff.mpr hground, htriples, hblanks]
    simp only [Bool.not_true, ne_eq, not_true_eq_false, decide_false, Bool.or_self,
      Bool.false_eq_true, if_false, Bool.or_eq_true]
    exact .inr ((matchesSides_iff hu digest ha hb hblanks).mpr ⟨π, hπ⟩)

/-- The check succeeds exactly if a bijection of the blank labels carries the one list of triples
onto the other by value, each triple as often. -/
theorem isIsomorphic_iff {uf : UnionFind} (hu : uf.Lawful) (digest : Digest) (a b : List Pattern) :
    isIsomorphic digest uf a b = true ↔
      ∃ f : String → String, Set.BijOn f (blankLabels a) (blankLabels b) ∧
        (a.map (Triple.map (readingOf f))).Perm (b.map (Triple.map (readingOf id))) := by
  rw [isIsomorphic_iff_sides hu, exists_labels_iff]
  constructor
  · rintro ⟨hground, π, hπ⟩
    exact ⟨π, hπ.blanks, map_perm_iff_parts.mpr ⟨hground, hπ.triples⟩⟩
  · rintro ⟨π, hnumbers, hslots⟩
    obtain ⟨hground, hblank⟩ := map_perm_iff_parts.mp hslots
    exact ⟨hground, π, hnumbers, hblank⟩

/-- Chains of three nodes, under a digest that gives every node the same color. Two of them end in
literals of one value; in the third the literal is in the middle. -/
theorem isIsomorphic_iff_of_colliding :
    let follows (s o : String) : Pattern :=
      ⟨.term (.blank s), .term (.iri "follows"), .term (.blank o)⟩
    let counts (s lexical datatype : String) : Pattern :=
      ⟨.term (.blank s), .term (.iri "counts"), .term (.literal (.ofDatatype lexical datatype))⟩
    let a := [follows "x" "y", follows "y" "z", counts "z" "1" (Vocabulary.xsd ++ "integer")]
    let b := [counts "x" "01" (Vocabulary.xsd ++ "byte"), follows "z" "x", follows "y" "z"]
    let c := [follows "x" "y", follows "y" "z", counts "y" "1" (Vocabulary.xsd ++ "integer")]
    let colliding : Digest := ⟨0, fun _ => 0, fun _ _ => 0⟩
    UnionFind.relabeling.Lawful ∧ isIsomorphic colliding .relabeling a b = true ∧
      isIsomorphic colliding .relabeling a c = false := by
  intro follows counts a b c colliding
  have hiff := isIsomorphic_iff UnionFind.lawful_relabeling colliding a
  refine ⟨UnionFind.lawful_relabeling, (hiff b).mpr ?_, Bool.eq_false_iff.mpr fun h => ?_⟩
  · let f (l : String) : String := if l = "x" then "y" else if l = "y" then "z" else "x"
    refine ⟨f, ?_, by decide +kernel⟩
    rw [blankLabels_eq, blankLabels_eq, bijOn_iff_map_perm (nodup_labels a) (nodup_labels b)]
    decide +kernel
  · obtain ⟨f, -, hperm⟩ := (hiff c).mp h
    have himage {t : Pattern} (ht : t ∈ a) :
        t.map (readingOf f) ∈ c.map (Triple.map (readingOf id)) :=
      hperm.mem_iff.mp (List.mem_map_of_mem ht)
    have hliteral : f "z" = "y" := by
      have ht := himage (t := counts "z" "1" (Vocabulary.xsd ++ "integer")) (by simp [a])
      simpa [c, follows, counts, Triple.map, readingOf] using ht
    have hlast : f "y" = "x" := by
      have ht := himage (t := follows "y" "z") (by simp [a])
      simpa [c, follows, counts, Triple.map, readingOf, hliteral] using ht
    have hfirst := himage (t := follows "x" "y") (by simp [a])
    simp [c, follows, counts, Triple.map, readingOf, hlast] at hfirst

end TripleStore.Isomorphism
