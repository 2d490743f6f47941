import TripleStore.Proofs.Isomorphism.Component
import TripleStore.Proofs.Isomorphism.Greedy
import TripleStore.Proofs.Isomorphism.Search

/-!
# Sides match exactly if a renaming carries the one onto the other

Renamings of components that have no node in common glue to one renaming of them all. As every
component is matched and both sides have as many nodes, no component of the other side is left.
-/

namespace TripleStore.Isomorphism

def gather (cs : List Component) : Component where
  blanks := cs.flatMap Component.blanks
  triples := cs.flatMap Component.triples

section Gather

variable {as bs cs : List Component}

theorem gather_cons (a : Component) (as : List Component) : gather (a :: as) =
    ⟨a.blanks ++ (gather as).blanks, a.triples ++ (gather as).triples⟩ := by
  rw [gather, List.flatMap_cons, List.flatMap_cons]
  rfl

theorem mem_gather {x : Nat} : x ∈ (gather cs).blanks ↔ ∃ c ∈ cs, x ∈ c.blanks :=
  List.mem_flatMap

theorem closed_gather (hclosed : ∀ c ∈ cs, c.Closed)
    (hdisjoint : cs.Pairwise fun c d => ∀ x ∈ c.blanks, x ∉ d.blanks) : (gather cs).Closed where
  nodup := by
    refine List.nodup_flatMap.mpr ⟨fun c hc => (hclosed c hc).nodup, hdisjoint.imp ?_⟩
    exact fun h x hx hx' => h x hx hx'
  mentioned t ht x hx := by
    obtain ⟨c, hc, htc⟩ := List.mem_flatMap.mp ht
    exact mem_gather.mpr ⟨c, hc, (hclosed c hc).mentioned t htc x hx⟩

/-- Renamings of disjoint components glue to one renaming of all of them. -/
theorem exists_carries_gather (hclosed : ∀ a ∈ as, a.Closed)
    (hdisjoint : as.Pairwise fun c d => ∀ x ∈ c.blanks, x ∉ d.blanks)
    (h : List.Forall₂ (fun a b => ∃ π, Carries π a b) as bs) :
    ∃ π, Carries π (gather as) (gather bs) := by
  induction h with
  | nil => exact ⟨id, .refl _, .refl _⟩
  | @cons a b as bs hab htail ih =>
    rw [List.forall_mem_cons] at hclosed
    rw [List.pairwise_cons] at hdisjoint
    obtain ⟨π, hπ⟩ := hab
    obtain ⟨σ, hσ⟩ := ih hclosed.2 hdisjoint.2
    let glued (x : Nat) : Nat := if x ∈ a.blanks then π x else σ x
    have hhead : Carries glued a b := hπ.congr hclosed.1 fun x hx => (if_pos hx).symm
    have hrest : Carries glued (gather as) (gather bs) := by
      refine hσ.congr (closed_gather hclosed.2 hdisjoint.2) fun x hx => (if_neg fun hxa => ?_).symm
      obtain ⟨c, hc, hxc⟩ := mem_gather.mp hx
      exact hdisjoint.1 c hc x hxa hxc
    refine ⟨glued, ?_, ?_⟩
    · rw [gather_cons, gather_cons, List.map_append]
      exact hhead.blanks.append hrest.blanks
    · rw [gather_cons, gather_cons, List.map_append]
      exact hhead.triples.append hrest.triples

theorem Carries.of_perm {π : Nat → Nat} {a b a' b' : Component} (h : Carries π a b)
    (hblanks : a.blanks.Perm a'.blanks) (htriples : a.triples.Perm a'.triples)
    (hblanks' : b.blanks.Perm b'.blanks) (htriples' : b.triples.Perm b'.triples) :
    Carries π a' b' where
  blanks := ((hblanks.map π).symm.trans h.blanks).trans hblanks'
  triples := ((htriples.map _).symm.trans h.triples).trans htriples'

end Gather

variable {a b : Side} {colors otherColors : List Nat} {uf : UnionFind} (hu : uf.Lawful)

include hu

/-- If the matched components have as many nodes as the side, no component is left. -/
theorem rest_eq_nil {π : Nat → Nat} (ha : a.Sound) (hb : b.Sound) (hn : a.blanks = b.blanks)
    {bs rest : List Component} (hperm : (b.components uf).Perm (bs ++ rest))
    (hπ : Carries π (gather (a.components uf)) (gather bs)) : rest = [] := by
  have hleft : (gather (a.components uf)).blanks.length = a.blanks :=
    (ha.components_perm hu).1.length_eq.trans List.length_range
  have hright : (gather bs).blanks.length + (gather rest).blanks.length = b.blanks := by
    have hall := ((hb.components_perm hu).1.symm.trans (hperm.flatMap_right _)).length_eq
    rw [List.length_range, List.flatMap_append, List.length_append] at hall
    exact hall.symm
  have hcount := hπ.blanks.length_eq
  rw [List.length_map] at hcount
  have hnone : (gather rest).blanks = [] := List.eq_nil_of_length_eq_zero (by omega)
  apply List.eq_nil_iff_forall_not_mem.mpr
  intro c hc
  exact hb.blanks_ne_nil hu (hperm.mem_iff.mpr (List.mem_append_right bs hc))
    (List.flatMap_eq_nil_iff.mp hnone c hc)

/-- Components matched one by one make up a renaming of the sides. -/
theorem exists_carries_of_matchAll (ha : a.Sound) (hb : b.Sound) (hn : a.blanks = b.blanks)
    (h : matchAll (matchesComponent a.blanks colors otherColors) (a.components uf)
      (b.components uf) = true) :
    ∃ π, Carries π a.whole b.whole := by
  obtain ⟨bs, rest, hperm, hmatched⟩ := exists_partners h
  have hcarries : List.Forall₂ (fun c d => ∃ π, Carries π c d) (a.components uf) bs := by
    rw [List.forall₂_iff_zip] at hmatched ⊢
    refine ⟨hmatched.1, fun {c d} hcd => ?_⟩
    obtain ⟨hc, hd⟩ := List.of_mem_zip hcd
    have hd' : d ∈ b.components uf := hperm.mem_iff.mpr (List.mem_append_left rest hd)
    obtain ⟨π, hπ, -⟩ := (matchesComponent_iff (ha.closed_of_mem hu hc) (hb.closed_of_mem hu hd')
      (ha.blanks_lt hu hc)).mp (hmatched.2 hcd)
    exact ⟨π, hπ⟩
  obtain ⟨π, hπ⟩ := exists_carries_gather (fun c hc => ha.closed_of_mem hu hc)
    (a.disjoint_components uf) hcarries
  rw [rest_eq_nil hu ha hb hn hperm hπ, List.append_nil] at hperm
  exact ⟨π, hπ.of_perm (ha.components_perm hu).1 (ha.components_perm hu).2
    ((hperm.flatMap_right _).symm.trans (hb.components_perm hu).1)
    ((hperm.flatMap_right _).symm.trans (hb.components_perm hu).2)⟩

/-- A renaming of the sides that keeps colors gives every component a partner, so that all are
matched. -/
theorem matchAll_of_carries (ha : a.Sound) (hb : b.Sound) {π : Nat → Nat}
    (hcarries : Carries π a.whole b.whole) (hcolors : KeepsColors π a.blanks colors otherColors) :
    matchAll (matchesComponent a.blanks colors otherColors) (a.components uf)
      (b.components uf) = true := by
  have hiff : ∀ c ∈ a.components uf, ∀ d ∈ b.components uf,
      (matchesComponent a.blanks colors otherColors c d = true ↔ Alike colors otherColors c d) :=
    fun c hc d hd =>
      matchesComponent_iff (ha.closed_of_mem hu hc) (hb.closed_of_mem hu hd) (ha.blanks_lt hu hc)
  obtain ⟨cs, himages, hperm⟩ := exists_images_of_carries hu ha hb hcarries
  have hpartners : List.Forall₂ (fun c d =>
      matchesComponent a.blanks colors otherColors c d = true) (a.components uf) cs := by
    rw [List.forall₂_iff_zip] at himages ⊢
    refine ⟨himages.1, fun {c d} hcd => ?_⟩
    obtain ⟨hc, hd⟩ := List.of_mem_zip hcd
    refine (hiff c hc d (hperm.mem_iff.mp hd)).mpr ⟨π, himages.2 hcd, fun x hx => ?_⟩
    exact hcolors.color x (ha.blanks_lt hu hc x hx)
  refine matchAll_of_partners ?_ hpartners hperm
  intro c hc c' hc' d hd d' hd' hfits hcommon hother
  rw [hiff c' hc' d hd] at hfits
  rw [hiff c hc d hd] at hcommon
  rw [hiff c hc d' hd'] at hother
  exact (hiff c' hc' d' hd').mpr
    (hfits.swap (ha.closed_of_mem hu hc) (hb.closed_of_mem hu hd) hcommon hother)

theorem matchesSides_iff (digest : Digest) (ha : a.Sound) (hb : b.Sound)
    (hn : a.blanks = b.blanks) :
    matchesSides digest uf a b = true ↔ ∃ π, Carries π a.whole b.whole := by
  rw [matchesSides, Bool.and_eq_true]
  constructor
  · rintro ⟨-, hmatched⟩
    exact exists_carries_of_matchAll hu ha hb hn hmatched
  · rintro ⟨π, hcarries⟩
    have hrefined := forall₂_refine digest ha hcarries a.blanks
    rw [← hn]
    obtain ⟨colors, otherColors, hcolors, hother, hkeep⟩ :=
      forall₂_getLast? hrefined (refineFrom_ne_nil a digest _ _)
    rw [hcolors, hother]
    exact ⟨sameHistograms_refine digest ha hcarries a.blanks,
      matchAll_of_carries hu ha hb hcarries hkeep⟩

end TripleStore.Isomorphism
