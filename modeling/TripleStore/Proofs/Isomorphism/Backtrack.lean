import Mathlib.Algebra.Group.Nat.Defs
import TripleStore.Proofs.Isomorphism.Component
import TripleStore.Proofs.Isomorphism.Search

/-!
# Backtracking

The calls of a search are written down, each with the nodes that are left and the assignment it
starts from. The nodes that are left are free whenever a call is made, so each call that fails hands
back the assignment it was given. The search for two components decides whether some bijection
matches them.
-/

namespace TripleStore.Isomorphism

namespace Matcher

/-- The assignments with which trying images for a node goes on, one after the other. -/
def handedOn (m : Matcher) (goOn : Assignment → Bool × Assignment) (b : Nat) :
    List Nat → Assignment → List Assignment
  | [], _ => []
  | candidate :: rest, f =>
    if f.used.contains candidate || colorOf m.colors b != colorOf m.otherColors candidate then
      handedOn m goOn b rest f
    else
      let g := f.assign b candidate
      if m.isConsistent g b then
        let (success, h) := goOn g
        g :: if success then [] else handedOn m goOn b rest (h.release b candidate)
      else handedOn m goOn b rest (g.release b candidate)

/-- The calls of a search, itself the first: the nodes left and the assignment of each. -/
def calls (m : Matcher) : List Nat → Assignment → List (List Nat × Assignment)
  | [], f => [([], f)]
  | b :: rest, f =>
    (b :: rest, f) :: (m.handedOn (m.search rest) b m.candidates f).flatMap (m.calls rest)

variable {m : Matcher} {f : Assignment} {b : Nat}

section Try

variable {goOn : Assignment → Bool × Assignment}

theorem length_handedOn_le (cs : List Nat) (f : Assignment) :
    (m.handedOn goOn b cs f).length ≤ cs.length := by
  induction cs generalizing f with
  | nil => exact Nat.le_refl 0
  | cons c cs ih =>
    rw [handedOn, List.length_cons]
    split
    · exact Nat.le_succ_of_le (ih f)
    · dsimp only
      split
      · rw [List.length_cons]
        split
        · exact Nat.succ_le_succ (Nat.zero_le _)
        · exact Nat.succ_le_succ (ih _)
      · exact Nat.le_succ_of_le (ih _)

/-- If a step that fails changes nothing, each image is tried from the same start. -/
theorem eq_assign_of_mem_handedOn (hb : f.image? b = none)
    (hgoOn : ∀ c, (goOn (f.assign b c)).1 = false → (goOn (f.assign b c)).2 = f.assign b c)
    {cs : List Nat} {g : Assignment} (hg : g ∈ m.handedOn goOn b cs f) :
    ∃ c ∈ cs, g = f.assign b c := by
  induction cs with
  | nil => cases hg
  | cons c cs ih =>
    have hlater (h : g ∈ m.handedOn goOn b cs f) : ∃ c' ∈ c :: cs, g = f.assign b c' := by
      obtain ⟨c', hc', he⟩ := ih h
      exact ⟨c', List.mem_cons_of_mem c hc', he⟩
    rw [handedOn] at hg
    split at hg
    next => exact hlater hg
    next =>
      dsimp only at hg
      split at hg
      next =>
        rcases List.mem_cons.mp hg with rfl | hg
        · exact ⟨c, List.mem_cons_self, rfl⟩
        · split at hg
          next => cases hg
          next hfails =>
            -- what failed is taken back, so that the later images start from `f` again
            rw [hgoOn c (Bool.eq_false_iff.mpr hfails), Assignment.release_assign hb] at hg
            exact hlater hg
      next =>
        rw [Assignment.release_assign hb] at hg
        exact hlater hg

end Try

/-- Every call is for the last nodes of the order, which are free when it is made. -/
theorem calls_spec {order : List Nat} (hnodup : order.Nodup)
    (hfree : ∀ x ∈ order, f.image? x = none) :
    ∀ call ∈ m.calls order f, call.1 <:+ order ∧ ∀ x ∈ call.1, call.2.image? x = none := by
  -- on the nodes left, for all assignments: every call further in starts from another one
  induction order generalizing f with
  | nil =>
    intro call hcall
    rw [calls, List.mem_singleton] at hcall
    rw [hcall]
    exact ⟨List.suffix_refl [], hfree⟩
  | cons b order ih =>
    intro call hcall
    rw [calls, List.mem_cons, List.mem_flatMap] at hcall
    rcases hcall with rfl | ⟨g, hg, hcall⟩
    · exact ⟨List.suffix_refl _, hfree⟩
    · obtain ⟨c, -, rfl⟩ := eq_assign_of_mem_handedOn (hfree b List.mem_cons_self)
        (restores_assign hnodup hfree) hg
      obtain ⟨hsuffix, hcallFree⟩ :=
        ih (List.nodup_cons.mp hnodup).2 (free_assign hnodup hfree) call hcall
      exact ⟨hsuffix.trans (List.suffix_cons b order), hcallFree⟩

/-- A search makes finitely many calls: at most one for each way of giving every node in turn a
candidate or none. -/
theorem length_calls_le (order : List Nat) (f : Assignment) :
    (m.calls order f).length ≤ (m.candidates.length + 1) ^ order.length := by
  induction order generalizing f with
  | nil => exact Nat.le_refl 1
  | cons b order ih =>
    have hhanded : (m.handedOn (m.search order) b m.candidates f).length ≤ m.candidates.length :=
      length_handedOn_le m.candidates f
    have hrest := length_flatMap_le fun g
      (_ : g ∈ m.handedOn (m.search order) b m.candidates f) => ih g
    have hall := Nat.mul_le_mul_right ((m.candidates.length + 1) ^ order.length) hhanded
    have hone : 0 < (m.candidates.length + 1) ^ order.length := Nat.pow_pos (Nat.succ_pos _)
    rw [calls, List.length_cons, List.length_cons, Nat.pow_succ', Nat.succ_mul]
    omega

end Matcher

/-- A bijection of the nodes of two components that keeps colors and carries the triples of the one
onto those of the other, each as often. -/
structure Matching (colors otherColors : List Nat) (a b : Component) (π : Nat → Nat) : Prop where
  bijective : Set.BijOn π {x | x ∈ a.blanks} {y | y ∈ b.blanks}
  color : ∀ x ∈ a.blanks, colorOf otherColors (π x) = colorOf colors x
  triples : (a.triples.map (renameTriple π)).Perm b.triples

variable {colors otherColors : List Nat} {a b : Component} {π : Nat → Nat}

theorem matching_iff (ha : a.Closed) (hb : b.Closed) : Matching colors otherColors a b π ↔
    Carries π a b ∧ ∀ x ∈ a.blanks, colorOf otherColors (π x) = colorOf colors x := by
  have hblanks := bijOn_iff_map_perm (f := π) ha.nodup hb.nodup
  constructor
  · intro h
    exact ⟨⟨hblanks.mp h.bijective, h.triples⟩, h.color⟩
  · rintro ⟨h, hcolor⟩
    exact ⟨hblanks.mpr h.blanks, hcolor, h.triples⟩

/-- Let components of two sides have as many nodes as one another, of any colors. The search that
starts with no node assigned makes finitely many calls. It succeeds exactly if some bijection
matches the components, and then the assignment it leaves is one, of the nodes of the component and
of no others. Each call that fails, for however many nodes, leaves the images and the images given
away as they were before the call. -/
theorem search_decides_matching {uf : UnionFind} (hu : uf.Lawful) {s s' : Side} (hs : s.Sound)
    (hs' : s'.Sound) {a b : Component} (ha : a ∈ s.components uf) (hb : b ∈ s'.components uf)
    (hblanks : b.blanks.length = a.blanks.length) (colors otherColors : List Nat) :
    let m := matcherOf colors otherColors a b
    let start := Assignment.empty s.blanks
    let answer := m.search a.blanks start
    (m.calls a.blanks start).length ≤ (b.blanks.length + 1) ^ a.blanks.length ∧
      (answer.1 = true ↔ ∃ π, Matching colors otherColors a b π) ∧
      (answer.1 = true → (∀ x ∈ a.blanks, answer.2.image? x = some (answer.2.mapping x)) ∧
        (∀ x ∉ a.blanks, answer.2.image? x = none) ∧
        Matching colors otherColors a b answer.2.mapping) ∧
      ∀ order f, (order, f) ∈ m.calls a.blanks start → order <:+ a.blanks ∧
        ((m.search order f).1 = false → (m.search order f).2 = f) := by
  intro m start answer
  have haclosed := hs.closed_of_mem hu ha
  have hbclosed := hs'.closed_of_mem hu hb
  have hfound (h : answer.1 = true) := found_of_search_empty haclosed (hs.blanks_lt hu ha) h
  have hmatching (h : answer.1 = true) : Matching colors otherColors a b answer.2.mapping :=
    (matching_iff haclosed hbclosed).mpr
      ⟨(hfound h).carries haclosed hblanks, (hfound h).color⟩
  refine ⟨Matcher.length_calls_le a.blanks start, ⟨fun h => ⟨_, hmatching h⟩, ?_⟩, ?_, ?_⟩
  · rintro ⟨π, hπ⟩
    exact search_of_alike haclosed hbclosed (hs.blanks_lt hu ha)
      ⟨π, (matching_iff haclosed hbclosed).mp hπ⟩
  · intro h
    refine ⟨(hfound h).image, fun x hx => ?_, hmatching h⟩
    rw [(hfound h).same x hx, Assignment.image?_empty]
  · intro order f hcall
    obtain ⟨hsuffix, hfree⟩ := Matcher.calls_spec haclosed.nodup
      (fun x _ => Assignment.image?_empty x) (order, f) hcall
    exact ⟨hsuffix, Matcher.search_restores (haclosed.nodup.sublist hsuffix.sublist) hfree⟩

/-- Two nodes with two triples from the one to the other and one back. The nodes of the other side
are listed the other way round, so that the first images carry triples onto triples but not as
often. This shows when all nodes are assigned, and the search takes both images back. -/
theorem search_decides_matching_past_miscounted :
    let points (x y : Nat) : Triple Slot := ⟨.blank x, .ground (.integer 1), .blank y⟩
    let s : Side := ⟨[], [points 0 1, points 0 1, points 1 0], 2⟩
    let s' : Side := ⟨[], [points 0 1, points 1 0, points 1 0], 2⟩
    let a : Component := ⟨[0, 1], s.blankTriples⟩
    let b : Component := ⟨[0, 1], s'.blankTriples⟩
    let m := matcherOf [5, 5] [5, 5] a b
    let first : Assignment := ⟨[some 0, none], [0]⟩
    let both : Assignment := ⟨[some 0, some 1], [1, 0]⟩
    let found : Assignment := ⟨[some 1, some 0], [0, 1]⟩
    (s.Sound ∧ s'.Sound ∧ a ∈ s.components .relabeling ∧ b ∈ s'.components .relabeling ∧
        b.blanks.length = a.blanks.length) ∧
      m.isConsistent both 1 = true ∧ m.search [0, 1] (.empty 2) = (true, found) ∧
      Matching [5, 5] [5, 5] a b found.mapping ∧
      ([1], first) ∈ m.calls [0, 1] (.empty 2) ∧ m.search [1] first = (false, first) := by
  intro points s s' a b m first both found
  have hs : s.Sound := ⟨by decide, by decide⟩
  have hs' : s'.Sound := ⟨by decide, by decide⟩
  have ha : a ∈ s.components .relabeling := by decide
  have hb : b ∈ s'.components .relabeling := by decide
  have hsearch : m.search [0, 1] (.empty 2) = (true, found) := by decide
  have hcall : ([1], first) ∈ m.calls [0, 1] (.empty 2) := by decide
  have hfails : (m.search [1] first).1 = false := by decide
  obtain ⟨-, -, hleft, hcalls⟩ :=
    search_decides_matching UnionFind.lawful_relabeling hs hs' ha hb rfl [5, 5] [5, 5]
  obtain ⟨-, -, hmatching⟩ := hleft (congrArg Prod.fst hsearch)
  have hfound : (m.search [0, 1] (.empty 2)).2 = found := congrArg Prod.snd hsearch
  exact ⟨⟨hs, hs', ha, hb, rfl⟩, by decide, hsearch, hfound ▸ hmatching, hcall,
    Prod.ext hfails ((hcalls [1] first hcall).2 hfails)⟩

end TripleStore.Isomorphism
