import Mathlib.Data.List.Nodup
import Mathlib.Data.List.Perm.Lattice
import Mathlib.Data.Set.Function

/-!
# Lists up to order

What sorting and the removal of repetitions make of a list does not depend on its order, a list
falls into the parts that a key tells apart, and a bijection of the members of two lists carries the
one list onto the other.
-/

namespace TripleStore.Isomorphism

variable {α β κ : Type}

theorem nodup_eraseDups [BEq α] [LawfulBEq α] (xs : List α) : xs.eraseDups.Nodup := by
  cases xs with
  | nil => exact List.nodup_nil
  | cons x xs =>
    rw [List.eraseDups_cons, List.nodup_cons, List.mem_eraseDups]
    exact ⟨by simp, nodup_eraseDups _⟩
termination_by xs.length
decreasing_by
  rw [List.length_cons]
  exact Nat.lt_succ_of_le (List.length_filter_le _ xs)

theorem eraseDups_perm [BEq α] [LawfulBEq α] {xs ys : List α} (h : xs.Perm ys) :
    xs.eraseDups.Perm ys.eraseDups := by
  rw [List.perm_ext_iff_of_nodup (nodup_eraseDups xs) (nodup_eraseDups ys)]
  intro x
  rw [List.mem_eraseDups, List.mem_eraseDups, h.mem_iff]

theorem mergeSort_eq_of_perm_nat {xs ys : List Nat} (h : xs.Perm ys) :
    xs.mergeSort = ys.mergeSort := by
  have hsorted (zs : List Nat) : zs.mergeSort.Pairwise fun m n => decide (m ≤ n) = true := by
    refine List.pairwise_mergeSort (fun k m n => ?_) (fun m n => ?_) zs
    · simp only [decide_eq_true_eq]
      exact Nat.le_trans
    · simpa using Nat.le_total m n
  have hperm : xs.mergeSort.Perm ys.mergeSort :=
    (List.mergeSort_perm xs _).trans (h.trans (List.mergeSort_perm ys _).symm)
  refine hperm.eq_of_pairwise (fun m n _ _ hmn hnm => ?_) (hsorted xs) (hsorted ys)
  exact Nat.le_antisymm (of_decide_eq_true hmn) (of_decide_eq_true hnm)

/-- What a map carries over, it carries over part by part, if it respects the parts. -/
theorem map_filter_perm {f : α → β} {p : α → Bool} {q : β → Bool} {xs : List α} {ys : List β}
    (h : (xs.map f).Perm ys) (hpq : ∀ x ∈ xs, q (f x) = p x) :
    ((xs.filter p).map f).Perm (ys.filter q) := by
  have hfilter := h.filter q
  have hsame : xs.filter (q ∘ f) = xs.filter p := List.filter_congr hpq
  rwa [List.filter_map, hsame] at hfilter

/-- The parts of a list by a key make up the list. -/
theorem flatMap_filter_perm [DecidableEq κ] (key : α → κ) {keys : List κ} {xs : List α}
    (hkeys : keys.Nodup) (hxs : ∀ x ∈ xs, key x ∈ keys) :
    (keys.flatMap fun k => xs.filter fun x => key x = k).Perm xs := by
  induction keys generalizing xs with
  | nil =>
    have hnil : xs = [] := List.eq_nil_iff_forall_not_mem.mpr fun x hx => by simpa using hxs x hx
    rw [hnil]
    exact .refl _
  | cons k keys ih =>
    obtain ⟨hk, hkeys⟩ := List.nodup_cons.mp hkeys
    have hrest : keys.flatMap (fun k' => xs.filter fun x => key x = k') =
        keys.flatMap fun k' => (xs.filter fun x => !decide (key x = k)).filter
          fun x => key x = k' := by
      apply List.flatMap_congr
      intro k' hk'
      rw [List.filter_filter]
      apply List.filter_congr
      intro x _
      by_cases hx : key x = k'
      · have hne : key x ≠ k := fun he => hk (he ▸ hx ▸ hk')
        simp [hx, hx ▸ hne]
      · simp [hx]
    rw [List.flatMap_cons, hrest]
    refine .trans (.append_left _ (ih hkeys fun x hx => ?_)) (List.filter_append_perm _ xs)
    obtain ⟨hmem, hne⟩ := List.mem_filter.mp hx
    exact (List.mem_cons.mp (hxs x hmem)).resolve_left (by simpa using hne)

theorem length_flatMap_le {f : α → List β} {xs : List α} {n : Nat}
    (h : ∀ x ∈ xs, (f x).length ≤ n) : (xs.flatMap f).length ≤ xs.length * n := by
  induction xs with
  | nil => exact Nat.zero_le _
  | cons x xs ih =>
    rw [List.forall_mem_cons] at h
    have hrest := ih h.2
    rw [List.flatMap_cons, List.length_append, List.length_cons, Nat.succ_mul]
    omega

/-- A function is a bijection of two sets that are listed once each exactly if it carries the one
list onto the other. -/
theorem bijOn_iff_map_perm {f : α → β} {xs : List α} {ys : List β} (hxs : xs.Nodup)
    (hys : ys.Nodup) : Set.BijOn f {x | x ∈ xs} {y | y ∈ ys} ↔ (xs.map f).Perm ys := by
  constructor
  · rintro ⟨hmaps, hinj, hsurj⟩
    refine (List.perm_ext_iff_of_nodup (hxs.map_on hinj) hys).mpr fun y => ?_
    rw [List.mem_map]
    constructor
    · rintro ⟨x, hx, rfl⟩
      exact hmaps hx
    · intro hy
      obtain ⟨x, hx, he⟩ := hsurj hy
      exact ⟨x, hx, he⟩
  · intro h
    refine ⟨fun x hx => ?_, fun x hx x' hx' he => ?_, fun y hy => ?_⟩
    · exact h.mem_iff.mp (List.mem_map_of_mem hx)
    · exact List.inj_on_of_nodup_map (h.nodup_iff.mpr hys) hx hx' he
    · exact List.mem_map.mp (h.mem_iff.mpr hy)

end TripleStore.Isomorphism
