import Mathlib.Data.List.Induction
import TripleStore.Proofs.NodeTable
import TripleStore.Session.Act

/-!
# Ids in order of first sight

A memory table is watched from outside, by the ids that it answers with while it is asked anything
in any order. They are 0, 1, 2, ... in the order in which the terms were first seen, a term keeps
its id for good, and lookups by term, by id and by value agree with what was answered.
-/

namespace TripleStore

open Session (TableQuery)

namespace MemoryTable

def asked (m : MemoryTable) (queries : List TableQuery) : MemoryTable :=
  queries.foldl (fun m q => (q.ask m).2) m

/-- The term that a query wants to have an id. -/
def wanted? : TableQuery → Option Term
  | .create t | .encode (.term t) => some t
  | _ => none

/-- The term that a query wants to have an id, and the id that it is answered with. -/
def given? (m : MemoryTable) (q : TableQuery) : Option (Term × NodeId) :=
  (wanted? q).bind fun t =>
    match (q.ask m).1 with
    | .value (.id id) => some (t, id)
    | _ => none

/-- The terms and the ids that they were given, in the order of the answers. -/
def given (m : MemoryTable) : List TableQuery → List (Term × NodeId)
  | [] => []
  | q :: rest => (m.given? q).toList ++ (q.ask m).2.given rest

/-- What the table tells about terms and ids is what was given before. -/
structure InternsInOrder (m : MemoryTable) (given : List (Term × NodeId)) : Prop where
  /-- The ids are numbered from zero up, one for each term. -/
  dense : (given.map (·.2)).eraseDups.map (fun id => id.value?.map UInt64.toNat) =
    (List.range (given.map (·.1)).eraseDups.length).map some
  identical : ∀ x ∈ given, ∀ y ∈ given, x.2 = y.2 ↔ x.1 = y.1
  /-- Whatever is asked later, the term has its id and the id its term. -/
  lasting : ∀ x ∈ given, ∀ later : List TableQuery,
    (m.asked later).lookupOrCreate x.1 = (.ok x.2, m.asked later) ∧
      (m.asked later).lookup x.1 = x.2 ∧ (m.asked later).resolve x.2 = some x.1
  lookup_isReal_iff : ∀ t, (m.lookup t).isReal = true ↔ ∃ id, (t, id) ∈ given
  resolve_eq_none : ∀ id, (∀ t, (t, id) ∉ given) → m.resolve id = none
  resolve_mark : m.resolve .any = none ∧ m.resolve .missing = none
  ascending : ∀ t, (m.equivalents t).Pairwise fun id id' => id.toRaw < id'.toRaw
  mem_equivalents_iff : ∀ t id, id ∈ m.equivalents t ↔
    ∃ u, (u, id) ∈ given ∧ ValueKey.of u = ValueKey.of t
  lookup_mem_equivalents : ∀ x ∈ given, m.lookup x.1 ∈ m.equivalents x.1
  /-- A term is refused only if every id has been given to another one. -/
  answers : ∀ t, (∃ id, (m.lookupOrCreate t).1 = .ok id) ∨
    ((given.map (·.1)).eraseDups.length = NodeId.maxValue.toNat + 1 ∧ ∀ id, (t, id) ∉ given)

variable {m : MemoryTable} {handed : List (Term × NodeId)}

/-- A query wants a term to have an id, or leaves the table alone. -/
theorem ask_cases (m : MemoryTable) (q : TableQuery) :
    (wanted? q = none ∧ (q.ask m).2 = m) ∨
      ∃ t, wanted? q = some t ∧ q.ask m =
        (Session.Answer.ofExcept .id (m.lookupOrCreate t).1, (m.lookupOrCreate t).2) := by
  cases q with
  | create t => exact .inr ⟨t, rfl, rfl⟩
  | encode node =>
    cases node with
    | any => exact .inl ⟨rfl, rfl⟩
    | term t => exact .inr ⟨t, rfl, rfl⟩
  | lookup t => exact .inl ⟨rfl, rfl⟩
  | equivalents t => exact .inl ⟨rfl, rfl⟩
  | resolve id => exact .inl ⟨rfl, rfl⟩
  | decode id => exact .inl ⟨rfl, rfl⟩
  | size => exact .inl ⟨rfl, rfl⟩

/-- What holds of the table at any time: its terms are those given an id, in order of first sight,
and each id is the place of its term. -/
structure Told (m : MemoryTable) (given : List (Term × NodeId)) : Prop where
  terms : m.terms = (given.map (·.1)).eraseDups
  ids : ∀ x ∈ given, x.2 = m.lookup x.1

theorem Told.mem_terms_iff (h : m.Told handed) (t : Term) :
    t ∈ m.terms ↔ ∃ id, (t, id) ∈ handed := by
  rw [h.terms, List.mem_eraseDups, List.mem_map]
  constructor
  · rintro ⟨⟨t, id⟩, hx, rfl⟩
    exact ⟨id, hx⟩
  · rintro ⟨id, hx⟩
    exact ⟨_, hx, rfl⟩

theorem Told.mem_iff (h : m.Told handed) (t : Term) (id : NodeId) :
    (t, id) ∈ handed ↔ t ∈ m.terms ∧ id = m.lookup t := by
  rw [h.mem_terms_iff]
  constructor
  · exact fun hx => ⟨⟨id, hx⟩, h.ids _ hx⟩
  · rintro ⟨⟨id', hx⟩, rfl⟩
    obtain rfl : id' = m.lookup t := h.ids _ hx
    exact hx

/-- A term that is asked for the first time is the last one seen. -/
theorem eraseDups_concat {α : Type} [DecidableEq α] (xs : List α) (a : α) :
    (xs ++ [a]).eraseDups = if a ∈ xs then xs.eraseDups else xs.eraseDups ++ [a] := by
  rw [List.eraseDups_append]
  split
  next h => simp [List.removeAll, h]
  next h => simp [List.removeAll, h, List.eraseDups_cons]

theorem Told.create (h : m.Told handed) (t : Term) :
    (m.lookupOrCreate t).2.Told
      (handed ++ ((m.lookupOrCreate t).1.toOption.map fun id => (t, id)).toList) := by
  obtain ⟨hmem, hcreate⟩ | ⟨hmem, m', hcreate, hterms⟩ | ⟨-, -, hcreate⟩ := m.lookupOrCreate_cases t
  · rw [hcreate]
    obtain ⟨id, hid⟩ := (h.mem_terms_iff t).mp hmem
    refine ⟨?_, ?_⟩
    · have hin : t ∈ handed.map (·.1) := List.mem_map.mpr ⟨_, hid, rfl⟩
      rw [h.terms]
      show _ = ((handed ++ [(t, m.lookup t)]).map (·.1)).eraseDups
      rw [List.map_append, List.map_singleton, eraseDups_concat, if_pos hin]
    · refine List.forall_mem_append.mpr ⟨h.ids, fun x hx => ?_⟩
      obtain rfl := List.mem_singleton.mp hx
      rfl
  · rw [hcreate]
    have hnew : m'.terms[m.terms.length]? = some t := by simp [hterms]
    refine ⟨?_, ?_⟩
    · have hout : t ∉ handed.map (·.1) := by
        rwa [h.terms, List.mem_eraseDups] at hmem
      show m'.terms = ((handed ++ [(t, idOfPlace m.terms.length)]).map (·.1)).eraseDups
      rw [hterms, h.terms, List.map_append, List.map_singleton, eraseDups_concat, if_neg hout]
    · refine List.forall_mem_append.mpr ⟨fun x hx => ?_, fun x hx => ?_⟩
      · have hle : m.terms <+: m'.terms := ⟨[t], hterms.symm⟩
        rw [lookup_of_grown hle ((h.mem_terms_iff x.1).mpr ⟨x.2, hx⟩)]
        exact h.ids x hx
      · obtain rfl := List.mem_singleton.mp hx
        exact (lookup_eq hnew).symm
  · rw [hcreate]
    simpa [Except.toOption] using h

theorem Told.ask (h : m.Told handed) (q : TableQuery) :
    (q.ask m).2.Told (handed ++ (m.given? q).toList) := by
  obtain ⟨hwanted, hnodes⟩ | ⟨t, hwanted, hasked⟩ := m.ask_cases q
  · rw [given?, hwanted, hnodes]
    simpa using h
  · have hgiven : m.given? q = (m.lookupOrCreate t).1.toOption.map fun id => (t, id) := by
      rw [given?, hwanted, hasked]
      cases (m.lookupOrCreate t).1 <;> rfl
    rw [hgiven, hasked]
    exact h.create t

theorem Told.asked (h : m.Told handed) (queries : List TableQuery) :
    (m.asked queries).Told (handed ++ m.given queries) := by
  induction queries generalizing m handed with
  | nil =>
    show m.Told (handed ++ [])
    rwa [List.append_nil]
  | cons q rest ih =>
    have hrest := ih (h.ask q)
    rwa [List.append_assoc] at hrest

theorem told_empty : empty.Told [] := ⟨rfl, by simp⟩

theorem eraseDups_map {α β : Type} [DecidableEq α] [DecidableEq β] {f : α → β} {xs : List α}
    (hf : ∀ a ∈ xs, ∀ b ∈ xs, f a = f b → a = b) :
    (xs.map f).eraseDups = xs.eraseDups.map f := by
  induction xs using List.reverseRecOn with
  | nil => rfl
  | append_singleton xs a ih =>
    have ih := ih fun b hb c hc => hf b (List.mem_append_left _ hb) c (List.mem_append_left _ hc)
    have hmem : f a ∈ xs.map f ↔ a ∈ xs := by
      rw [List.mem_map]
      constructor
      · rintro ⟨b, hb, he⟩
        exact hf b (List.mem_append_left _ hb) a (by simp) he ▸ hb
      · exact fun ha => ⟨a, ha, rfl⟩
    rw [List.map_append, List.map_singleton, eraseDups_concat, eraseDups_concat, ih]
    by_cases ha : a ∈ xs
    · rw [if_pos ha, if_pos (hmem.mpr ha)]
    · rw [if_neg ha, if_neg (mt hmem.mp ha), List.map_append, List.map_singleton]

/-- The number of a term's id is its place. -/
theorem map_value?_lookup (m : MemoryTable) :
    (m.terms.map m.lookup).map (fun id => id.value?.map UInt64.toNat) =
      (List.range m.terms.length).map some := by
  refine List.ext_getElem (by simp) fun n hn hn' => ?_
  rw [List.length_map, List.length_map] at hn
  have hvalue : (idOfPlace n).value?.map UInt64.toNat = some n := congrArg some (toNat_toUInt64 hn)
  rw [List.getElem_map, List.getElem_map, List.getElem_map, List.getElem_range,
    lookup_eq (List.getElem?_eq_getElem hn), hvalue]

theorem lookup_inj {t u : Term} (ht : t ∈ m.terms) (hu : u ∈ m.terms)
    (h : m.lookup t = m.lookup u) : t = u := by
  have hresolve := (lookup_covers ht).2
  rw [h, (lookup_covers hu).2] at hresolve
  exact (Option.some.inj hresolve).symm

/-- A memory table numbers the terms in order of first sight, and all that it tells about terms, ids
and values is told by the ids that it has given. -/
theorem interns_in_order (queries : List TableQuery) :
    (empty.asked queries).InternsInOrder (empty.given queries) := by
  have h : (empty.asked queries).Told (empty.given queries) := told_empty.asked queries
  have hmem {x : Term × NodeId} (hx : x ∈ empty.given queries) :
      x.1 ∈ (empty.asked queries).terms := (h.mem_terms_iff x.1).mpr ⟨x.2, hx⟩
  refine ⟨?_, fun x hx y hy => ?_, fun x hx later => ?_, fun t => ?_, fun id hid => ?_, ⟨rfl, rfl⟩,
    fun t => (empty.asked queries).sound.ascending _, fun t id => ?_, fun x hx => ?_, fun t => ?_⟩
  · have hids : (empty.given queries).map (·.2) =
        ((empty.given queries).map (·.1)).map (empty.asked queries).lookup := by
      rw [List.map_map]
      exact List.map_congr_left h.ids
    rw [hids, eraseDups_map, ← h.terms, map_value?_lookup]
    intro t ht u hu
    rw [← List.mem_eraseDups, ← h.terms] at ht hu
    exact lookup_inj ht hu
  · rw [h.ids x hx, h.ids y hy]
    exact ⟨lookup_inj (hmem hx) (hmem hy), congrArg _⟩
  · have hlater : ((empty.asked queries).asked later).Told
        (empty.given queries ++ (empty.asked queries).given later) := h.asked later
    obtain ⟨hin, hid⟩ := (hlater.mem_iff x.1 x.2).mp (List.mem_append_left _ hx)
    rw [hid]
    exact ⟨lookupOrCreate_of_mem hin, rfl, (lookup_covers hin).2⟩
  · rw [lookup_isReal_iff, h.mem_terms_iff]
  · cases hresolve : (empty.asked queries).resolve id with
    | none => rfl
    | some t => exact absurd ((h.mem_iff t id).mpr (resolve_eq_some_iff.mp hresolve)) (hid t)
  · rw [(equivalents_spec _ t).2]
    constructor
    · rintro ⟨-, u, hresolve, hkey⟩
      exact ⟨u, (h.mem_iff u id).mpr (resolve_eq_some_iff.mp hresolve), hkey.symm⟩
    · rintro ⟨u, hu, hkey⟩
      have hresolve := resolve_eq_some_iff.mpr ((h.mem_iff u id).mp hu)
      exact ⟨(covers_of_resolve hresolve).1, u, hresolve, hkey.symm⟩
  · obtain ⟨hcovers, hresolve⟩ := lookup_covers (hmem hx)
    exact ((equivalents_spec _ x.1).2 _).mpr ⟨hcovers, x.1, hresolve, rfl⟩
  · obtain ⟨-, hcreate⟩ | ⟨-, m', hcreate, -⟩ | ⟨hout, hfull, -⟩ :=
      (empty.asked queries).lookupOrCreate_cases t
    · exact .inl ⟨_, congrArg Prod.fst hcreate⟩
    · exact .inl ⟨_, congrArg Prod.fst hcreate⟩
    · rw [← h.terms]
      exact .inr ⟨hfull, fun id hid => hout (hmem hid)⟩

end MemoryTable

end TripleStore
