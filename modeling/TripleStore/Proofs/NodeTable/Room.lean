import Mathlib.Data.Finset.Card
import TripleStore.Proofs.NodeTable

/-!
# Tables with room

As long as a memory table is asked for ids of no more terms than there are real ids, it has one for
each of them, and only a wildcard has none.
-/

namespace TripleStore

def Pattern.terms (p : Pattern) : List Term := p.toList.filterMap Node.term?

namespace MemoryTable

/-- The table has terms of these names only, of which there are no more than ids. -/
structure Within (names : Finset Term) (m : MemoryTable) : Prop where
  subset : ∀ t ∈ m.terms, t ∈ names
  card_le : names.card ≤ NodeId.maxValue.toNat + 1

variable {names : Finset Term} {m m' : MemoryTable} {t : Term} {p : Pattern}

theorem within_empty (hcard : names.card ≤ NodeId.maxValue.toNat + 1) : empty.Within names :=
  ⟨fun _ ht => absurd ht List.not_mem_nil, hcard⟩

namespace Within

/-- A name that the table does not have yet leaves an id for it. -/
theorem length_le (h : m.Within names) (ht : t ∈ names) (hnew : t ∉ m.terms) :
    m.terms.length ≤ NodeId.maxValue.toNat := by
  have hnodup : (t :: m.terms).Nodup := List.nodup_cons.mpr ⟨hnew, m.nodup_terms⟩
  have hsubset : (t :: m.terms).toFinset ⊆ names := fun u hu => by
    rcases List.mem_cons.mp (List.mem_toFinset.mp hu) with rfl | hu
    · exact ht
    · exact h.subset u hu
  have hcard := (Finset.card_le_card hsubset).trans h.card_le
  rw [List.toFinset_card_of_nodup hnodup, List.length_cons] at hcard
  exact Nat.le_of_succ_le_succ hcard

theorem encode (h : m.Within names) (ht : t ∈ names) :
    ∃ id m', NodeTable.encode m (.term t) = (.ok id, m') ∧ m'.Within names := by
  show ∃ id m', m.lookupOrCreate t = (.ok id, m') ∧ m'.Within names
  by_cases hin : t ∈ m.terms
  · exact ⟨_, m, lookupOrCreate_of_mem hin, h⟩
  · obtain ⟨m', hcreate, hterms⟩ := lookupOrCreate_of_notMem hin (h.length_le ht hin)
    refine ⟨_, m', hcreate, ?_, h.card_le⟩
    rw [hterms, List.forall_mem_append, List.forall_mem_singleton]
    exact ⟨h.subset, ht⟩

/-- Encoding a triple fails for a pattern with a wildcard only. -/
theorem encodeTriple (h : m.Within names) (hp : ∀ t ∈ p.terms, t ∈ names) :
    (NodeTable.encodeTriple m p).2.Within names ∧
      if p.isConcrete then ∃ ids, (NodeTable.encodeTriple m p).1 = .ok ids
      else (NodeTable.encodeTriple m p).1 = .error (.invalidTerm .wildcard) := by
  obtain ⟨subject, predicate, object⟩ := p
  have hnode {t : Term} (hin : .term t ∈ [subject, predicate, object]) : t ∈ names :=
    hp t (List.mem_filterMap.mpr ⟨.term t, hin, rfl⟩)
  rw [NodeTable.encodeTriple]
  cases subject with
  | any => exact ⟨h, rfl⟩
  | term s =>
    obtain ⟨i, m₁, hs, h₁⟩ := h.encode (hnode (t := s) (by simp))
    rw [hs]
    cases predicate with
    | any => exact ⟨h₁, rfl⟩
    | term q =>
      obtain ⟨j, m₂, hq, h₂⟩ := h₁.encode (hnode (t := q) (by simp))
      simp only [hq]
      cases object with
      | any => exact ⟨h₂, rfl⟩
      | term o =>
        obtain ⟨k, m₃, ho, h₃⟩ := h₂.encode (hnode (t := o) (by simp))
        simp only [ho]
        exact ⟨h₃, _, rfl⟩

end Within

/-- The second table is the first one after some terms have been given ids. -/
inductive Learns (given : Set Term) (m : MemoryTable) : MemoryTable → Prop where
  | refl : Learns given m m
  | learn {t : Term} {m' : MemoryTable} : Learns given m m' → t ∈ given →
      Learns given m (m'.lookupOrCreate t).2

namespace Learns

variable {given : Set Term}

theorem prefix_terms (h : m.Learns given m') : m.terms <+: m'.terms := by
  induction h with
  | refl => exact List.prefix_rfl
  | learn _ _ ih => exact ih.trans (prefix_lookupOrCreate _ _)

theorem within (h : m.Learns given m') (hgiven : given ⊆ ↑names) (hm : m.Within names) :
    m'.Within names := by
  induction h with
  | refl => exact hm
  | @learn t m' _ ht ih =>
    obtain ⟨id, m'', hcreate, hroom⟩ := ih.encode (hgiven ht)
    rwa [show m'.lookupOrCreate t = (.ok id, m'') from hcreate]

end Learns

end MemoryTable

end TripleStore
