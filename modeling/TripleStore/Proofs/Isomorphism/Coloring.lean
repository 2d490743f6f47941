import TripleStore.Proofs.Isomorphism.Check

/-!
# Colors follow every renaming

Refinement sees the blank nodes of a side only by what their triples say of them. So whatever
numbers the nodes have, and in whatever order the triples are listed, the histories of two sides
that a bijection of nodes carries onto one another agree round by round, for any number of rounds
and any digest. Comparing the histories never tells isomorphic lists of triples apart.
-/

namespace TripleStore.Isomorphism

variable {π : Nat → Nat} {a b : Side}

/-- A side is carried over by a bijection of its nodes that carries its blank triples over. -/
theorem carries_whole_iff : Carries π a.whole b.whole ↔
    Set.BijOn π {x | x < a.blanks} {y | y < b.blanks} ∧
      (a.blankTriples.map (renameTriple π)).Perm b.blankTriples := by
  have hnodes (n : Nat) : {x | x < n} = {x | x ∈ List.range n} := by simp
  rw [hnodes, hnodes, bijOn_iff_map_perm List.nodup_range List.nodup_range]
  exact ⟨fun h => ⟨h.blanks, h.triples⟩, fun h => ⟨h.1, h.2⟩⟩

/-- A bijection of labels that carries one list of triples onto another carries the sides over. -/
theorem exists_carries_of_labels {ts us : List Pattern} {f : String → String}
    (hf : Set.BijOn f (blankLabels ts) (blankLabels us))
    (hperm : (ts.map (Triple.map (readingOf f))).Perm (us.map (Triple.map (readingOf id)))) :
    ∃ π, Carries π (Side.ofPatterns ts).whole (Side.ofPatterns us).whole := by
  obtain ⟨π, hnumbers, hslots⟩ := exists_labels_iff.mp ⟨f, hf, hperm⟩
  exact ⟨π, hnumbers, (map_perm_iff_parts.mp hslots).2⟩

/-- Let a bijection of the nodes of two sides carry the blank triples of the one onto those of the
other, each as often. Then both are refined in as many rounds, and in every round a node has the
color of its image. So lists of triples that a bijection of labels carries onto one another by value
have histories of the same length with the same histograms. All sides made of lists are sound. -/
theorem refine_follows_renaming (digest : Digest) :
    (∀ ts, (Side.ofPatterns ts).Sound) ∧
      (∀ (a b : Side) (π : Nat → Nat), a.Sound →
        Set.BijOn π {x | x < a.blanks} {y | y < b.blanks} →
        (a.blankTriples.map (renameTriple π)).Perm b.blankTriples →
        ∀ rounds, (a.refine digest rounds).length = (b.refine digest rounds).length ∧
          List.Forall₂ (KeepsColors π a.blanks) (a.refine digest rounds)
            (b.refine digest rounds)) ∧
      ∀ (ts us : List Pattern) (f : String → String),
        Set.BijOn f (blankLabels ts) (blankLabels us) →
        (ts.map (Triple.map (readingOf f))).Perm (us.map (Triple.map (readingOf id))) →
        let a := Side.ofPatterns ts
        let b := Side.ofPatterns us
        sameHistograms a.blanks (a.refine digest a.blanks) (b.refine digest b.blanks) = true := by
  refine ⟨sound_ofPatterns, ?_, ?_⟩
  · intro a b π ha hbij htriples rounds
    have hcarries : Carries π a.whole b.whole := carries_whole_iff.mpr ⟨hbij, htriples⟩
    have hrefined := forall₂_refine digest ha hcarries rounds
    exact ⟨hrefined.length_eq, hrefined⟩
  · intro ts us f hf hperm a b
    obtain ⟨π, hcarries⟩ := exists_carries_of_labels hf hperm
    rw [← hcarries.blanks_eq]
    exact sameHistograms_refine digest (sound_ofPatterns ts) hcarries a.blanks

/-- The same three triples with other labels in the reverse order, so that the numbers of the nodes
are reversed too. One triple mentions its node twice. The first round tells the node in the middle
apart, the second one the others by the color that it has. -/
theorem refine_follows_renaming_of_reversed :
    let follows (s o : String) : Pattern :=
      ⟨.term (.blank s), .term (.iri "follows"), .term (.blank o)⟩
    let ts := [follows "x" "y", follows "y" "z", follows "z" "z"]
    let us := [follows "a" "a", follows "b" "a", follows "c" "b"]
    let f (l : String) : String := if l = "x" then "c" else if l = "y" then "b" else "a"
    let π (x : Nat) : Nat := 2 - x
    let a := Side.ofPatterns ts
    let b := Side.ofPatterns us
    let summing : Digest :=
      { start := 0
        ofTriple t := if t.object = .self then 1 else if t.object = .other 3 then 7 else 2
        ofNode color signatures := signatures.foldl (· + ·) (10 * color) }
    (a.Sound ∧ Set.BijOn π {x | x < a.blanks} {y | y < b.blanks} ∧
        (a.blankTriples.map (renameTriple π)).Perm b.blankTriples) ∧
      (a.refine summing 9 = [[0, 0, 0], [2, 3, 2], [27, 33, 22], [272, 333, 222]] ∧
        b.refine summing 9 = [[0, 0, 0], [2, 3, 2], [22, 33, 27], [222, 333, 272]] ∧
        List.Forall₂ (KeepsColors π 3) (a.refine summing 9) (b.refine summing 9)) ∧
      (Set.BijOn f (blankLabels ts) (blankLabels us) ∧
        (ts.map (Triple.map (readingOf f))).Perm (us.map (Triple.map (readingOf id)))) ∧
      sameHistograms 3 (a.refine summing 3) (b.refine summing 3) = true := by
  intro follows ts us f π a b summing
  obtain ⟨hsound, hsides, hlists⟩ := refine_follows_renaming summing
  have hπ : Set.BijOn π {x | x < a.blanks} {y | y < b.blanks} :=
    (carries_whole_iff.mp ⟨by decide +kernel, by decide +kernel⟩).1
  have htriples : (a.blankTriples.map (renameTriple π)).Perm b.blankTriples := by decide +kernel
  have hf : Set.BijOn f (blankLabels ts) (blankLabels us) := by
    rw [blankLabels_eq, blankLabels_eq, bijOn_iff_map_perm (nodup_labels ts) (nodup_labels us)]
    decide +kernel
  have hperm : (ts.map (Triple.map (readingOf f))).Perm (us.map (Triple.map (readingOf id))) := by
    decide +kernel
  -- a sum does not depend on the order, so rounds can be evaluated without sorting
  have hround (s : Side) (colors : List Nat) : s.round summing colors =
      (List.range s.blanks).map fun x => summing.ofNode (colorOf colors x)
        ((s.blankTriples.filter (mentions x)).map fun t =>
          summing.ofTriple (t.map (markOf colors x))) :=
    List.map_congr_left fun x _ =>
      (List.mergeSort_perm _ _).foldl_eq' (fun n _ m _ k => Nat.add_right_comm k n m) _
  have ha : a.refine summing 9 = [[0, 0, 0], [2, 3, 2], [27, 33, 22], [272, 333, 222]] := by
    have hfirst : a.round summing [0, 0, 0] = [2, 3, 2] := by rw [hround]; decide +kernel
    have hsecond : a.round summing [2, 3, 2] = [27, 33, 22] := by rw [hround]; decide +kernel
    have hthird : a.round summing [27, 33, 22] = [272, 333, 222] := by rw [hround]; decide +kernel
    show a.refineFrom summing 9 [0, 0, 0] = _
    simp [Side.refineFrom, hfirst, hsecond, hthird, distinct, List.eraseDups_cons]
  have hb : b.refine summing 9 = [[0, 0, 0], [2, 3, 2], [22, 33, 27], [222, 333, 272]] := by
    have hfirst : b.round summing [0, 0, 0] = [2, 3, 2] := by rw [hround]; decide +kernel
    have hsecond : b.round summing [2, 3, 2] = [22, 33, 27] := by rw [hround]; decide +kernel
    have hthird : b.round summing [22, 33, 27] = [222, 333, 272] := by rw [hround]; decide +kernel
    show b.refineFrom summing 9 [0, 0, 0] = _
    simp [Side.refineFrom, hfirst, hsecond, hthird, distinct, List.eraseDups_cons]
  exact ⟨⟨hsound ts, hπ, htriples⟩, ⟨ha, hb, (hsides a b π (hsound ts) hπ htriples 9).2⟩,
    ⟨hf, hperm⟩, hlists ts us f hf hperm⟩

end TripleStore.Isomorphism
