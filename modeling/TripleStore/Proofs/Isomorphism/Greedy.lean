import Mathlib.Data.List.Forall2
import Mathlib.Data.List.Perm.Basic
import TripleStore.Isomorphism.Check

/-!
# Greedy matching of components

`matchAll` gives each component the first free one that fits and never takes a choice back. No
choice is ever wrong if components that fit a common one fit the same others: what a choice takes
away from a later component, it can be given what the choice left.
-/

namespace TripleStore.Isomorphism

theorem takeFirst?_eq_some {α : Type} {p : α → Bool} {xs ys : List α}
    (h : takeFirst? p xs = some ys) : ∃ x, p x = true ∧ xs.Perm (x :: ys) := by
  induction xs generalizing ys with
  | nil => cases h
  | cons x xs ih =>
    rw [takeFirst?] at h
    split at h
    next hx =>
      cases h
      exact ⟨x, hx, .refl _⟩
    next =>
      obtain ⟨zs, hzs, rfl⟩ := Option.map_eq_some_iff.mp h
      obtain ⟨y, hy, hperm⟩ := ih hzs
      exact ⟨y, hy, (hperm.cons x).trans (.swap y x zs)⟩

theorem exists_takeFirst? {α : Type} {p : α → Bool} {xs : List α} {x : α} (hx : x ∈ xs)
    (hp : p x = true) : ∃ ys, takeFirst? p xs = some ys := by
  induction xs with
  | nil => cases hx
  | cons y xs ih =>
    rw [takeFirst?]
    split
    · exact ⟨xs, rfl⟩
    next hy =>
      rcases List.mem_cons.mp hx with rfl | hx
      · exact absurd hp hy
      · obtain ⟨ys, hys⟩ := ih hx
        exact ⟨y :: ys, by rw [hys]; rfl⟩

/-- A partner can be given up for another one that its owner fits too. -/
theorem forall₂_replace {α β : Type} [DecidableEq β] {R : α → β → Prop} {as : List α}
    {bs : List β} {b b' : β} (h : List.Forall₂ R as bs) (hb : b ∈ bs)
    (hswap : ∀ a ∈ as, R a b → R a b') :
    ∃ bs', List.Forall₂ R as bs' ∧ bs'.Perm (b' :: bs.erase b) := by
  induction h with
  | nil => cases hb
  | @cons a c as bs hac htail ih =>
    rw [List.forall_mem_cons] at hswap
    by_cases hcb : c = b
    · subst hcb
      refine ⟨b' :: bs, .cons (hswap.1 hac) htail, ?_⟩
      rw [List.erase_cons_head]
    · have hmem : b ∈ bs := (List.mem_cons.mp hb).resolve_left fun he => hcb he.symm
      obtain ⟨bs', hbs', hperm⟩ := ih hmem hswap.2
      refine ⟨c :: bs', .cons hac hbs', ?_⟩
      have htail : (c :: bs).erase b = c :: bs.erase b :=
        List.erase_cons_tail (by simpa using hcb)
      rw [htail]
      exact (hperm.cons c).trans (.swap b' c _)

variable {fits : Component → Component → Bool}

/-- If all components are matched, they have partners of their own. -/
theorem exists_partners {as free : List Component} (h : matchAll fits as free = true) :
    ∃ bs rest, free.Perm (bs ++ rest) ∧ List.Forall₂ (fun a b => fits a b = true) as bs := by
  induction as generalizing free with
  | nil => exact ⟨[], free, .refl _, .nil⟩
  | cons a as ih =>
    rw [matchAll] at h
    split at h
    next free' htake =>
      obtain ⟨b, hb, hperm⟩ := takeFirst?_eq_some htake
      obtain ⟨bs, rest, hrest, hmatched⟩ := ih h
      exact ⟨b :: bs, rest, hperm.trans (hrest.cons b), .cons hb hmatched⟩
    next => cases h

/-- If all components have partners of their own, they are matched, with these or with others. -/
theorem matchAll_of_partners {as bs free : List Component}
    (hswap : ∀ a ∈ as, ∀ a' ∈ as, ∀ b ∈ free, ∀ b' ∈ free,
      fits a' b = true → fits a b = true → fits a b' = true → fits a' b' = true)
    (h : List.Forall₂ (fun a b => fits a b = true) as bs) (hperm : bs.Perm free) :
    matchAll fits as free = true := by
  induction as generalizing bs free with
  | nil => rfl
  | cons a as ih =>
    obtain ⟨b, bs, hab, htail, rfl⟩ := List.forall₂_cons_left_iff.mp h
    have hb : b ∈ free := hperm.mem_iff.mp List.mem_cons_self
    obtain ⟨free', htake⟩ := exists_takeFirst? hb hab
    obtain ⟨c, hac, hfree⟩ := takeFirst?_eq_some htake
    have hc : c ∈ free := hfree.mem_iff.mpr List.mem_cons_self
    have hsub : ∀ d ∈ free', d ∈ free := fun d hd => hfree.mem_iff.mpr (List.mem_cons_of_mem c hd)
    have hswap' : ∀ a ∈ as, ∀ a' ∈ as, ∀ b ∈ free', ∀ b' ∈ free',
        fits a' b = true → fits a b = true → fits a b' = true → fits a' b' = true :=
      fun a ha a' ha' b hb b' hb' => hswap a (List.mem_cons_of_mem _ ha) a'
        (List.mem_cons_of_mem _ ha') b (hsub b hb) b' (hsub b' hb')
    have hleft : (b :: bs).Perm (c :: free') := hperm.trans hfree
    rw [matchAll, htake]
    by_cases hcb : c = b
    · subst hcb
      exact ih hswap' htail hleft.cons_inv
    · have hmem : c ∈ bs :=
        (List.mem_cons.mp (hleft.mem_iff.mpr List.mem_cons_self)).resolve_left hcb
      -- the choice took the partner of a later component, which gets the one that was left
      have hgive : ∀ a' ∈ as, fits a' c = true → fits a' b = true := fun a' ha' hfit =>
        hswap a List.mem_cons_self a' (List.mem_cons_of_mem _ ha') c hc b hb hfit hac hab
      obtain ⟨bs', hbs', hperm'⟩ := forall₂_replace htail hmem hgive
      have hpartners : (c :: b :: bs.erase c).Perm (c :: free') :=
        (List.Perm.swap b c _).trans (((List.perm_cons_erase hmem).symm.cons b).trans hleft)
      exact ih hswap' hbs' (hperm'.trans hpartners.cons_inv)

end TripleStore.Isomorphism
