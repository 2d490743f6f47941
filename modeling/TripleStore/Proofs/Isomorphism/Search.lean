import Mathlib.Data.List.Perm.Subperm
import TripleStore.Proofs.Isomorphism.Lists
import TripleStore.Proofs.Isomorphism.Rename
import TripleStore.Isomorphism.Check

/-!
# The search for a renaming

A search that fails leaves the assignment as it found it, so that the next image is tried from the
same start. A search that succeeds has found a renaming, and it fails only if there is none: what it
gives up at once could not have been completed. So two components match exactly if they are alike.
-/

namespace TripleStore.Isomorphism

namespace Assignment

variable {f : Assignment} {b c x : Nat} {π : Nat → Nat} {t u : Triple Slot}

def mapping (f : Assignment) (x : Nat) : Nat := (f.image? x).getD 0

theorem mapping_eq (h : f.image? x = some c) : f.mapping x = c := by rw [mapping, h]; rfl

@[simp] theorem length_assign (f : Assignment) (b c : Nat) :
    (f.assign b c).image.length = f.image.length := by
  simp [assign]

theorem image?_empty {n : Nat} (x : Nat) : (empty n).image? x = none := by
  rw [image?, empty, List.getElem?_replicate]
  split <;> rfl

@[simp] theorem length_empty (n : Nat) : (empty n).image.length = n := List.length_replicate

theorem image?_assign_self (hb : b < f.image.length) : (f.assign b c).image? b = some c := by
  simp [image?, assign, hb]

theorem image?_assign_of_ne (hx : x ≠ b) : (f.assign b c).image? x = f.image? x := by
  simp [image?, assign, Ne.symm hx]

/-- Taking back what was just given restores the assignment. -/
theorem release_assign (hb : f.image? b = none) : (f.assign b c).release b c = f := by
  have himage : f.image.set b none = f.image := by
    apply List.ext_getElem?
    intro i
    rw [List.getElem?_set]
    split
    next hi =>
      subst hi
      split
      next hlt =>
        rw [image?, List.getElem?_eq_getElem hlt] at hb
        rw [List.getElem?_eq_getElem hlt]
        exact congrArg some hb.symm
      next hge => exact (List.getElem?_eq_none (Nat.le_of_not_lt hge)).symm
    next => rfl
  cases f
  simp only [assign, release, List.set_set, List.erase_cons_head]
  exact congrArg (fun image => Assignment.mk image _) himage

theorem rename?_eq_some_iff {s v : Slot} : f.rename? s = some v ↔
    (∀ x, s = .blank x → ∃ c, f.image? x = some c) ∧
      v = s.rename f.mapping := by
  cases s with
  | blank x =>
    rw [rename?, Option.map_eq_some_iff]
    constructor
    · rintro ⟨c, hc, rfl⟩
      exact ⟨fun y he => ⟨c, Slot.blank.inj he ▸ hc⟩, by rw [Slot.rename, mapping_eq hc]⟩
    · rintro ⟨hall, rfl⟩
      obtain ⟨c, hc⟩ := hall x rfl
      exact ⟨c, hc, by rw [Slot.rename, mapping_eq hc]⟩
  | any => simp [rename?, Slot.rename, eq_comm]
  | ground key => simp [rename?, Slot.rename, eq_comm]

/-- A triple has an image exactly if all its nodes have, and then it is the renamed triple. -/
theorem renameTriple?_eq_some_iff : f.renameTriple? t = some u ↔
    (∀ x ∈ blanksOf t, ∃ c, f.image? x = some c) ∧
      u = renameTriple (f.mapping) t := by
  have hall : f.renameTriple? t = some u ↔ f.rename? t.subject = some u.subject ∧
      f.rename? t.predicate = some u.predicate ∧ f.rename? t.object = some u.object := by
    obtain ⟨s, p, o⟩ := u
    rw [renameTriple?, Triple.map, Triple.allSome?]
    cases f.rename? t.subject <;> cases f.rename? t.predicate <;> cases f.rename? t.object <;>
      simp
  have hblanks : (∀ x ∈ blanksOf t, ∃ c, f.image? x = some c) ↔
      ∀ s ∈ t.toList, ∀ x, s = .blank x → ∃ c, f.image? x = some c := by
    simp only [mem_blanksOf_iff]
    exact ⟨fun h s hs x he => h x (he ▸ hs), fun h x hx => h _ hx x rfl⟩
  obtain ⟨s, p, o⟩ := u
  rw [hall, hblanks]
  simp only [rename?_eq_some_iff, Triple.toList, List.forall_mem_cons, renameTriple, Triple.map,
    Triple.mk.injEq]
  constructor
  · rintro ⟨⟨hs, rfl⟩, ⟨hp, rfl⟩, ⟨ho, rfl⟩⟩
    exact ⟨⟨hs, hp, ho, by simp⟩, rfl, rfl, rfl⟩
  · rintro ⟨⟨hs, hp, ho, -⟩, rfl, rfl, rfl⟩
    exact ⟨⟨hs, rfl⟩, ⟨hp, rfl⟩, ⟨ho, rfl⟩⟩

theorem renameTriple?_of_image (h : ∀ x ∈ blanksOf t, f.image? x = some (π x)) :
    f.renameTriple? t = some (renameTriple π t) := by
  rw [renameTriple?_eq_some_iff]
  exact ⟨fun x hx => ⟨_, h x hx⟩, renameTriple_congr fun x hx => (mapping_eq (h x hx)).symm⟩

end Assignment

namespace Matcher

variable {m : Matcher} {f : Assignment} {b : Nat}

/-- The image may be given to the node, and the search goes on from there with success. -/
structure Leads (m : Matcher) (goOn : Assignment → Bool × Assignment) (f : Assignment)
    (b c : Nat) : Prop where
  unused : c ∉ f.used
  color : colorOf m.otherColors c = colorOf m.colors b
  consistent : m.isConsistent (f.assign b c) b = true
  goesOn : (goOn (f.assign b c)).1 = true

section Try

variable {goOn : Assignment → Bool × Assignment} {c : Nat}

theorem tryImages_of_leads (h : m.Leads goOn f b c) (cs : List Nat) :
    m.tryImages goOn b (c :: cs) f = (true, (goOn (f.assign b c)).2) := by
  have hpass : ¬ (f.used.contains c || colorOf m.colors b != colorOf m.otherColors c) = true := by
    rw [Bool.or_eq_true, not_or, List.contains_iff_mem, bne_iff_ne, not_not]
    exact ⟨h.unused, h.color.symm⟩
  rw [tryImages, if_neg hpass]
  simp only [h.consistent, if_true, h.goesOn]

/-- An image that does not lead on is passed over, and is taken back if it was given. -/
theorem tryImages_of_not_leads (hb : f.image? b = none)
    (hgoOn : (goOn (f.assign b c)).1 = false → (goOn (f.assign b c)).2 = f.assign b c)
    (h : ¬ m.Leads goOn f b c) (cs : List Nat) :
    m.tryImages goOn b (c :: cs) f = m.tryImages goOn b cs f := by
  rw [tryImages]
  split
  · rfl
  next hpass =>
    rw [Bool.or_eq_true, not_or, List.contains_iff_mem, bne_iff_ne, not_not] at hpass
    dsimp only
    by_cases hconsistent : m.isConsistent (f.assign b c) b = true
    · have hfails : (goOn (f.assign b c)).1 = false :=
        Bool.eq_false_iff.mpr fun hgo => h ⟨hpass.1, hpass.2.symm, hconsistent, hgo⟩
      rw [if_pos hconsistent, hfails, if_neg Bool.false_ne_true, hgoOn hfails,
        Assignment.release_assign hb]
    · rw [if_neg hconsistent, if_neg Bool.false_ne_true, Assignment.release_assign hb]

/-- If a step that fails changes nothing, then trying images changes nothing if it fails. If it
succeeds, it leaves what an image that leads on leaves, and it succeeds if there is one. -/
theorem tryImages_spec (hb : f.image? b = none)
    (hgoOn : ∀ c, (goOn (f.assign b c)).1 = false → (goOn (f.assign b c)).2 = f.assign b c)
    (cs : List Nat) :
    ((m.tryImages goOn b cs f).1 = false → (m.tryImages goOn b cs f).2 = f) ∧
      ((m.tryImages goOn b cs f).1 = true → ∃ c ∈ cs, m.Leads goOn f b c ∧
        (m.tryImages goOn b cs f).2 = (goOn (f.assign b c)).2) ∧
      ((∃ c ∈ cs, m.Leads goOn f b c) → (m.tryImages goOn b cs f).1 = true) := by
  induction cs with
  | nil => exact ⟨fun _ => rfl, nofun, by simp⟩
  | cons c cs ih =>
    by_cases hleads : m.Leads goOn f b c
    · rw [tryImages_of_leads hleads]
      exact ⟨nofun, fun _ => ⟨c, List.mem_cons_self, hleads, rfl⟩, fun _ => rfl⟩
    · rw [tryImages_of_not_leads hb (hgoOn c) hleads]
      refine ⟨ih.1, fun h => ?_, fun h => ih.2.2 ?_⟩
      · obtain ⟨d, hd, hleads'⟩ := ih.2.1 h
        exact ⟨d, List.mem_cons_of_mem c hd, hleads'⟩
      · simpa only [List.mem_cons, exists_eq_or_imp, hleads, false_or] using h

end Try

theorem free_assign {order : List Nat} {c : Nat} (hnodup : (b :: order).Nodup)
    (hfree : ∀ x ∈ b :: order, f.image? x = none) :
    ∀ x ∈ order, (f.assign b c).image? x = none := by
  intro x hx
  have hne : x ≠ b := fun he => (List.nodup_cons.mp hnodup).1 (he ▸ hx)
  exact (Assignment.image?_assign_of_ne hne).trans (hfree x (List.mem_cons_of_mem b hx))

/-- A search that fails leaves the assignment as it found it. -/
theorem search_restores {order : List Nat} (hnodup : order.Nodup)
    (hfree : ∀ x ∈ order, f.image? x = none) (h : (m.search order f).1 = false) :
    (m.search order f).2 = f := by
  induction order generalizing f with
  | nil => rfl
  | cons b order ih =>
    refine (tryImages_spec (hfree b List.mem_cons_self) (fun c hfail => ?_) m.candidates).1 h
    exact ih (List.nodup_cons.mp hnodup).2 (free_assign hnodup hfree) hfail

section Step

variable {order : List Nat}

theorem restores_assign (hnodup : (b :: order).Nodup) (hfree : ∀ x ∈ b :: order, f.image? x = none)
    (c : Nat) (h : (m.search order (f.assign b c)).1 = false) :
    (m.search order (f.assign b c)).2 = f.assign b c :=
  search_restores (List.nodup_cons.mp hnodup).2 (free_assign hnodup hfree) h

theorem exists_leads_of_search (hnodup : (b :: order).Nodup)
    (hfree : ∀ x ∈ b :: order, f.image? x = none) (h : (m.search (b :: order) f).1 = true) :
    ∃ c ∈ m.candidates, m.Leads (m.search order) f b c ∧
      (m.search (b :: order) f).2 = (m.search order (f.assign b c)).2 :=
  (tryImages_spec (hfree b List.mem_cons_self) (restores_assign hnodup hfree) m.candidates).2.1 h

theorem search_of_leads (hnodup : (b :: order).Nodup) (hfree : ∀ x ∈ b :: order, f.image? x = none)
    {c : Nat} (hc : c ∈ m.candidates) (h : m.Leads (m.search order) f b c) :
    (m.search (b :: order) f).1 = true :=
  (tryImages_spec (hfree b List.mem_cons_self) (restores_assign hnodup hfree) m.candidates).2.2
    ⟨c, hc, h⟩

end Step

/-- A complete assignment carries the triples over. -/
theorem isComplete_iff (h : ∀ t ∈ m.sources, ∀ x ∈ blanksOf t, f.image? x = some (π x)) :
    m.isComplete f = true ↔ (m.sources.map (renameTriple π)).Perm m.targets := by
  have himages : m.sources.filterMap f.renameTriple? = m.sources.map (renameTriple π) := by
    rw [← List.filterMap_eq_map]
    exact List.filterMap_congr fun t ht => Assignment.renameTriple?_of_image (h t ht)
  rw [isComplete, himages, List.length_map, beq_self_eq_true, Bool.true_and, List.isPerm_iff]

/-- What a search finds: images of their own for the nodes in order, besides those there were. -/
structure Found (m : Matcher) (order : List Nat) (f g : Assignment) : Prop where
  complete : m.isComplete g = true
  same : ∀ x ∉ order, g.image? x = f.image? x
  image : ∀ x ∈ order, g.image? x = some (g.mapping x)
  color : ∀ x ∈ order, colorOf m.otherColors (g.mapping x) = colorOf m.colors x
  candidate : ∀ x ∈ order, g.mapping x ∈ m.candidates
  unused : ∀ x ∈ order, g.mapping x ∉ f.used
  nodup : (order.map g.mapping).Nodup

theorem Found.cons {order : List Nat} {goOn : Assignment → Bool × Assignment} {c : Nat}
    {g : Assignment} (h : m.Found order (f.assign b c) g) (hleads : m.Leads goOn f b c)
    (hc : c ∈ m.candidates) (hb : b ∉ order) (hlt : b < f.image.length) :
    m.Found (b :: order) f g := by
  have hgb : g.image? b = some c := (h.same b hb).trans (Assignment.image?_assign_self hlt)
  have hmapping : g.mapping b = c := Assignment.mapping_eq hgb
  refine ⟨h.complete, fun x hx => ?_, ?_, ?_, ?_, ?_, ?_⟩
  · rw [List.mem_cons, not_or] at hx
    rw [h.same x hx.2, Assignment.image?_assign_of_ne hx.1]
  · rw [List.forall_mem_cons, hmapping]
    exact ⟨hgb, h.image⟩
  · rw [List.forall_mem_cons, hmapping]
    exact ⟨hleads.color, h.color⟩
  · rw [List.forall_mem_cons, hmapping]
    exact ⟨hc, h.candidate⟩
  · rw [List.forall_mem_cons, hmapping]
    exact ⟨hleads.unused, fun x hx hused => h.unused x hx (List.mem_cons_of_mem c hused)⟩
  · rw [List.map_cons, List.nodup_cons, hmapping]
    refine ⟨fun hmem => ?_, h.nodup⟩
    obtain ⟨x, hx, he⟩ := List.mem_map.mp hmem
    exact h.unused x hx (he ▸ List.mem_cons_self)

theorem found_of_search {order : List Nat} (hnodup : order.Nodup)
    (hfree : ∀ x ∈ order, f.image? x = none) (hlt : ∀ x ∈ order, x < f.image.length)
    (h : (m.search order f).1 = true) : m.Found order f (m.search order f).2 := by
  induction order generalizing f with
  | nil => exact ⟨h, fun _ _ => rfl, by simp, by simp, by simp, by simp, List.nodup_nil⟩
  | cons b order ih =>
    obtain ⟨c, hc, hleads, hleft⟩ := exists_leads_of_search hnodup hfree h
    rw [List.forall_mem_cons] at hlt
    have hrest : m.Found order (f.assign b c) (m.search order (f.assign b c)).2 :=
      ih (List.nodup_cons.mp hnodup).2 (free_assign hnodup hfree)
        (fun x hx => (f.length_assign b c).symm ▸ hlt.2 x hx) hleads.goesOn
    rw [hleft]
    exact hrest.cons hleads hc (List.nodup_cons.mp hnodup).1 hlt.1

/-- The assignment follows a renaming and has the given nodes still to do. -/
structure Follows (m : Matcher) (π : Nat → Nat) (order : List Nat) (f : Assignment) : Prop where
  free : ∀ x ∈ order, f.image? x = none
  agrees : ∀ x c, f.image? x = some c → c = π x
  done : ∀ t ∈ m.sources, ∀ x ∈ blanksOf t, x ∉ order → f.image? x = some (π x)
  unused : ∀ x ∈ order, π x ∉ f.used

namespace Follows

variable {order : List Nat}

theorem assign (h : m.Follows π (b :: order) f) (hnodup : ((b :: order).map π).Nodup)
    (hb : b < f.image.length) : m.Follows π order (f.assign b (π b)) := by
  rw [List.map_cons, List.nodup_cons] at hnodup
  have hne {x : Nat} (hx : x ∈ order) : x ≠ b :=
    fun he => hnodup.1 (he ▸ List.mem_map_of_mem hx)
  refine ⟨fun x hx => ?_, fun x c hc => ?_, fun t ht x hx hxs => ?_, fun x hx hused => ?_⟩
  · rw [Assignment.image?_assign_of_ne (hne hx)]
    exact h.free x (List.mem_cons_of_mem b hx)
  · by_cases hx : x = b
    · subst hx
      rw [Assignment.image?_assign_self hb] at hc
      exact (Option.some.inj hc).symm
    · rw [Assignment.image?_assign_of_ne hx] at hc
      exact h.agrees x c hc
  · by_cases hxb : x = b
    · subst hxb
      exact Assignment.image?_assign_self hb
    · rw [Assignment.image?_assign_of_ne hxb]
      exact h.done t ht x hx (by simp [hxb, hxs])
  · rcases List.mem_cons.mp hused with he | hused
    · exact hnodup.1 (he ▸ List.mem_map_of_mem hx)
    · exact h.unused x (List.mem_cons_of_mem b hx) hused

/-- An assignment that follows a renaming of the triples is never given up. -/
theorem isConsistent (h : m.Follows π order f)
    (htriples : (m.sources.map (renameTriple π)).Perm m.targets) (b : Nat) :
    m.isConsistent f b = true := by
  rw [Matcher.isConsistent, List.all_eq_true]
  intro t ht
  split
  next image himage =>
    obtain ⟨hall, rfl⟩ := Assignment.renameTriple?_eq_some_iff.mp himage
    have hrenamed : renameTriple (f.mapping) t = renameTriple π t := by
      apply renameTriple_congr
      intro x hx
      obtain ⟨c, hc⟩ := hall x hx
      rw [Assignment.mapping_eq hc]
      exact h.agrees x c hc
    rw [hrenamed, List.contains_iff_mem, ← htriples.mem_iff]
    exact List.mem_map_of_mem (List.mem_filter.mp ht).1
  next => rfl

end Follows

/-- If a renaming carries the triples over, no search that follows it so far fails. -/
theorem search_of_renaming {order : List Nat}
    (htriples : (m.sources.map (renameTriple π)).Perm m.targets)
    (hnodup : (order.map π).Nodup) (hlt : ∀ x ∈ order, x < f.image.length)
    (himages : ∀ x ∈ order, π x ∈ m.candidates)
    (hcolors : ∀ x ∈ order, colorOf m.otherColors (π x) = colorOf m.colors x)
    (h : m.Follows π order f) : (m.search order f).1 = true := by
  induction order generalizing f with
  | nil => exact (isComplete_iff fun t ht x hx => h.done t ht x hx List.not_mem_nil).mpr htriples
  | cons b order ih =>
    have hunused := h.unused b List.mem_cons_self
    have hfree := h.free
    rw [List.forall_mem_cons] at hlt himages hcolors
    have hnext : m.Follows π order (f.assign b (π b)) := h.assign hnodup hlt.1
    refine search_of_leads (List.Nodup.of_map π hnodup) hfree himages.1 ⟨hunused, hcolors.1,
      hnext.isConsistent htriples b, ?_⟩
    exact ih (List.nodup_cons.mp hnodup).2 (fun x hx => (f.length_assign b _).symm ▸ hlt.2 x hx)
      himages.2 hcolors.2 hnext

end Matcher

variable {n : Nat} {colors otherColors : List Nat} {a b : Component}

theorem Alike.histogram_eq (h : Alike colors otherColors a b) :
    histogram otherColors b.blanks = histogram colors a.blanks := by
  obtain ⟨π, hπ, hcolor⟩ := h
  have hsame : (a.blanks.map π).map (colorOf otherColors) = a.blanks.map (colorOf colors) := by
    rw [List.map_map]
    exact List.map_congr_left hcolor
  apply mergeSort_eq_of_perm_nat
  rw [← hsame]
  exact (hπ.blanks.map _).symm

theorem found_of_search_empty (ha : a.Closed) (hlt : ∀ x ∈ a.blanks, x < n)
    (h : ((matcherOf colors otherColors a b).search a.blanks (.empty n)).1 = true) :
    (matcherOf colors otherColors a b).Found a.blanks (.empty n)
      ((matcherOf colors otherColors a b).search a.blanks (.empty n)).2 :=
  Matcher.found_of_search ha.nodup (fun x _ => Assignment.image?_empty x)
    (fun x hx => (Assignment.length_empty n).symm ▸ hlt x hx) h

/-- What is found for components with as many nodes carries the one onto the other. -/
theorem Matcher.Found.carries {f g : Assignment} (ha : a.Closed)
    (hlength : b.blanks.length = a.blanks.length)
    (h : (matcherOf colors otherColors a b).Found a.blanks f g) : Carries g.mapping a b where
  blanks := by
    have hsub : a.blanks.map g.mapping ⊆ b.blanks := by
      intro c hc
      obtain ⟨x, hx, rfl⟩ := List.mem_map.mp hc
      exact h.candidate x hx
    refine (List.Nodup.subperm h.nodup hsub).perm_of_length_le ?_
    rw [List.length_map, hlength]
  triples :=
    (Matcher.isComplete_iff fun t ht x hx => h.image x (ha.mentioned t ht x hx)).mp h.complete

theorem alike_of_search (ha : a.Closed) (hlt : ∀ x ∈ a.blanks, x < n)
    (hlength : b.blanks.length = a.blanks.length)
    (h : ((matcherOf colors otherColors a b).search a.blanks (.empty n)).1 = true) :
    Alike colors otherColors a b :=
  have hfound := found_of_search_empty ha hlt h
  ⟨_, hfound.carries ha hlength, hfound.color⟩

theorem search_of_alike (ha : a.Closed) (hb : b.Closed) (hlt : ∀ x ∈ a.blanks, x < n)
    (h : Alike colors otherColors a b) :
    ((matcherOf colors otherColors a b).search a.blanks (.empty n)).1 = true := by
  obtain ⟨π, hπ, hcolor⟩ := h
  have hbound : ∀ x ∈ a.blanks, x < (Assignment.empty n).image.length :=
    fun x hx => (Assignment.length_empty n).symm ▸ hlt x hx
  refine Matcher.search_of_renaming hπ.triples (hπ.blanks.nodup_iff.mpr hb.nodup) hbound
    (fun x hx => hπ.mem hx) hcolor ⟨?_, ?_, ?_, ?_⟩
  · intro x _
    exact Assignment.image?_empty x
  · intro x c hc
    rw [Assignment.image?_empty] at hc
    cases hc
  · intro t ht x hx hnot
    exact absurd (ha.mentioned t ht x hx) hnot
  · intro x _
    exact List.not_mem_nil

/-- Two components match exactly if some renaming carries the one onto the other and keeps
colors. -/
theorem matchesComponent_iff (ha : a.Closed) (hb : b.Closed) (hlt : ∀ x ∈ a.blanks, x < n) :
    matchesComponent n colors otherColors a b = true ↔ Alike colors otherColors a b := by
  simp only [matchesComponent, Bool.and_eq_true, beq_iff_eq]
  constructor
  · rintro ⟨⟨⟨hlength, -⟩, -⟩, hsearch⟩
    exact alike_of_search ha hlt hlength hsearch
  · rintro ⟨π, hπ, hcolor⟩
    have halike : Alike colors otherColors a b := ⟨π, hπ, hcolor⟩
    have hblanks := hπ.blanks.length_eq
    have htriples := hπ.triples.length_eq
    rw [List.length_map] at hblanks htriples
    exact ⟨⟨⟨hblanks.symm, htriples.symm⟩, halike.histogram_eq⟩,
      search_of_alike ha hb hlt halike⟩

end TripleStore.Isomorphism
