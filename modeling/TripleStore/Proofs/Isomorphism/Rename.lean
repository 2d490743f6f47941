import Mathlib.Data.List.Perm.Lattice
import Mathlib.Data.Set.Function
import TripleStore.Isomorphism.Component
import TripleStore.Isomorphism.Refine

/-!
# Renaming blank nodes

A renaming carries one component onto another one if it takes nodes to nodes and triples to triples,
each as often. Such renamings compose and can be turned round, also those that keep colors. A whole
side is a component in this sense.
-/

namespace TripleStore.Isomorphism

def Slot.rename (π : Nat → Nat) : Slot → Slot
  | .blank b => .blank (π b)
  | .any => .any
  | .ground key => .ground key

def renameTriple (π : Nat → Nat) (t : Triple Slot) : Triple Slot := t.map (Slot.rename π)

/-- The nodes are listed once, and the triples mention no others. -/
structure Component.Closed (c : Component) : Prop where
  nodup : c.blanks.Nodup
  mentioned : ∀ t ∈ c.triples, ∀ x ∈ blanksOf t, x ∈ c.blanks

/-- The renaming carries the one component onto the other. -/
structure Carries (π : Nat → Nat) (a b : Component) : Prop where
  blanks : (a.blanks.map π).Perm b.blanks
  triples : (a.triples.map (renameTriple π)).Perm b.triples

/-- Some renaming carries the one component onto the other and keeps colors. -/
def Alike (colors otherColors : List Nat) (a b : Component) : Prop :=
  ∃ π, Carries π a b ∧ ∀ x ∈ a.blanks, colorOf otherColors (π x) = colorOf colors x

variable {π σ : Nat → Nat} {t : Triple Slot} {a b c : Component}

theorem blanksOf_renameTriple (π : Nat → Nat) (t : Triple Slot) :
    blanksOf (renameTriple π t) = (blanksOf t).map π := by
  have hslot (s : Slot) : (s.rename π).blank? = s.blank?.map π := by cases s <;> rfl
  simp only [blanksOf, renameTriple, Triple.map, Triple.toList, List.filterMap_cons, hslot,
    List.filterMap_nil]
  cases t.subject.blank? <;> cases t.predicate.blank? <;> cases t.object.blank? <;> rfl

theorem mem_blanksOf_iff {x : Nat} : x ∈ blanksOf t ↔ Slot.blank x ∈ t.toList := by
  have hslot (s : Slot) : s.blank? = some x ↔ s = .blank x := by
    cases s <;> simp [Slot.blank?]
  simp [blanksOf, List.mem_filterMap, hslot]

theorem map_toList_congr {α β : Type} {t : Triple α} {f g : α → β}
    (h : ∀ s ∈ t.toList, f s = g s) : t.map f = t.map g := by
  simp only [Triple.toList, List.forall_mem_cons] at h
  simp only [Triple.map, h.1, h.2.1, h.2.2.1]

theorem renameTriple_congr (h : ∀ x ∈ blanksOf t, π x = σ x) :
    renameTriple π t = renameTriple σ t := by
  apply map_toList_congr
  intro s hs
  cases s with
  | blank x => exact congrArg Slot.blank (h x (mem_blanksOf_iff.mpr hs))
  | any => rfl
  | ground key => rfl

theorem renameTriple_comp (π σ : Nat → Nat) (t : Triple Slot) :
    renameTriple σ (renameTriple π t) = renameTriple (σ ∘ π) t := by
  have hslot (s : Slot) : (s.rename π).rename σ = s.rename (σ ∘ π) := by cases s <;> rfl
  simp only [renameTriple, Triple.map, hslot]

theorem renameTriple_id (h : ∀ x ∈ blanksOf t, π x = x) : renameTriple π t = t := by
  have hid : renameTriple id t = t := by
    have hslot (s : Slot) : s.rename id = s := by cases s <;> rfl
    simp only [renameTriple, Triple.map, hslot]
  rw [renameTriple_congr h, ← hid]
  exact congrArg _ hid

namespace Carries

theorem mem (h : Carries π a b) {x : Nat} (hx : x ∈ a.blanks) : π x ∈ b.blanks :=
  h.blanks.mem_iff.mp (List.mem_map_of_mem hx)

theorem inj (h : Carries π a b) (hb : b.Closed) {x y : Nat} (hx : x ∈ a.blanks)
    (hy : y ∈ a.blanks) (he : π x = π y) : x = y :=
  List.inj_on_of_nodup_map (h.blanks.nodup_iff.mpr hb.nodup) hx hy he

theorem congr (h : Carries π a b) (ha : a.Closed) (he : ∀ x ∈ a.blanks, π x = σ x) :
    Carries σ a b where
  blanks := by
    rw [← List.map_congr_left he]
    exact h.blanks
  triples := by
    have hmap : a.triples.map (renameTriple π) = a.triples.map (renameTriple σ) :=
      List.map_congr_left fun t ht => renameTriple_congr fun x hx => he x (ha.mentioned t ht x hx)
    rw [← hmap]
    exact h.triples

theorem trans (h : Carries π a b) (h' : Carries σ b c) : Carries (σ ∘ π) a c where
  blanks := by
    rw [← List.map_map]
    exact (h.blanks.map σ).trans h'.blanks
  triples := by
    have hcomp : renameTriple (σ ∘ π) = renameTriple σ ∘ renameTriple π :=
      funext fun t => (renameTriple_comp π σ t).symm
    rw [hcomp, ← List.map_map]
    exact (h.triples.map _).trans h'.triples

/-- A renaming can be turned round. -/
theorem symm (h : Carries π a b) (ha : a.Closed) (hb : b.Closed) :
    ∃ σ, Carries σ b a ∧ ∀ x ∈ a.blanks, σ (π x) = x := by
  obtain ⟨σ, hleft⟩ : ∃ σ : Nat → Nat, ∀ x ∈ a.blanks, σ (π x) = x := by
    have hinj : Set.InjOn π {x | x ∈ a.blanks} := fun x hx y hy => h.inj hb hx hy
    exact ⟨Function.invFunOn π {x | x ∈ a.blanks}, fun x hx => hinj.leftInvOn_invFunOn hx⟩
  have hblanks : a.blanks.map (σ ∘ π) = a.blanks :=
    (List.map_congr_left hleft).trans (List.map_id' _)
  have htriple : ∀ t ∈ a.triples, renameTriple σ (renameTriple π t) = t := by
    intro t ht
    rw [renameTriple_comp]
    exact renameTriple_id fun x hx => hleft x (ha.mentioned t ht x hx)
  have htriples : a.triples.map (renameTriple σ ∘ renameTriple π) = a.triples :=
    (List.map_congr_left htriple).trans (List.map_id' _)
  refine ⟨σ, ⟨?_, ?_⟩, hleft⟩
  · have hback := h.blanks.symm.map σ
    rwa [List.map_map, hblanks] at hback
  · have hback := h.triples.symm.map (renameTriple σ)
    rwa [List.map_map, htriples] at hback

end Carries

namespace Alike

variable {colors otherColors thirdColors : List Nat}

theorem trans (h : Alike colors otherColors a b) (h' : Alike otherColors thirdColors b c) :
    Alike colors thirdColors a c := by
  obtain ⟨π, hπ, hkeep⟩ := h
  obtain ⟨σ, hσ, hkeep'⟩ := h'
  exact ⟨σ ∘ π, hπ.trans hσ, fun x hx => (hkeep' (π x) (hπ.mem hx)).trans (hkeep x hx)⟩

theorem symm (h : Alike colors otherColors a b) (ha : a.Closed) (hb : b.Closed) :
    Alike otherColors colors b a := by
  obtain ⟨π, hπ, hkeep⟩ := h
  obtain ⟨σ, hσ, hleft⟩ := hπ.symm ha hb
  refine ⟨σ, hσ, fun y hy => ?_⟩
  obtain ⟨x, hx, rfl⟩ := List.mem_map.mp (hπ.blanks.mem_iff.mpr hy)
  rw [hleft x hx, hkeep x hx]

/-- Components that are alike a common one are alike the same others. -/
theorem swap {a' b' : Component} (ha : a.Closed) (hb : b.Closed)
    (h' : Alike colors otherColors a' b) (h : Alike colors otherColors a b)
    (hswap : Alike colors otherColors a b') : Alike colors otherColors a' b' :=
  (h'.trans (h.symm ha hb)).trans hswap

end Alike

end TripleStore.Isomorphism
