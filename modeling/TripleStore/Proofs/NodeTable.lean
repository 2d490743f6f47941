import Mathlib.Data.List.Nodup
import TripleStore.NodeTable
import TripleStore.Proofs.Index.Key

/-!
# Memory tables

A memory table holds each term once, and no more terms than there are real ids. So the ids that it
gave, which it covers, tell the terms apart, and each of them resolves. All of this follows from the
three tables being in step.
-/

namespace TripleStore

theorem NodeTable.decodeTriple_eq_ok_iff {τ : Type} [NodeTable τ] {nodes : τ} {t : IdTriple}
    {st : Statement} : NodeTable.decodeTriple nodes t = .ok st ↔
      NodeTable.resolve nodes t.subject = some st.subject ∧
        NodeTable.resolve nodes t.predicate = some st.predicate ∧
        NodeTable.resolve nodes t.object = some st.object := by
  have hdecode (id : NodeId) : NodeTable.decode nodes id =
      ((NodeTable.resolve nodes id).map Except.ok).getD (.error (.notFound id)) := by
    rw [decode]
    cases NodeTable.resolve nodes id <;> rfl
  obtain ⟨s, p, o⟩ := st
  simp only [decodeTriple, hdecode]
  cases NodeTable.resolve nodes t.subject <;> cases NodeTable.resolve nodes t.predicate <;>
    cases NodeTable.resolve nodes t.object <;>
    simp [bind, Except.bind, pure, Except.pure]

/-- What asking for ids keeps, encoding a triple keeps. -/
theorem NodeTable.encodeTriple_keeps {τ : Type} [NodeTable τ] {P : τ → Prop}
    (hP : ∀ nodes t, P nodes → P (NodeTable.lookupOrCreate nodes t).2) (p : Pattern) {nodes : τ}
    (h : P nodes) : P (NodeTable.encodeTriple nodes p).2 := by
  have hencode (node : Node) {nodes nodes' : τ} {result : Except Error NodeId} (h : P nodes)
      (he : NodeTable.encode nodes node = (result, nodes')) : P nodes' := by
    cases node with
    | any =>
      cases he
      exact h
    | term t =>
      have hstep := hP nodes t h
      rwa [show NodeTable.lookupOrCreate nodes t = (result, nodes') from he] at hstep
  rw [encodeTriple]
  split
  next hs => exact hencode _ h hs
  next hs =>
    have h := hencode _ h hs
    split
    next hp => exact hencode _ h hp
    next hp =>
      have h := hencode _ h hp
      split
      next ho => exact hencode _ h ho
      next ho => exact hencode _ h ho

namespace MemoryTable

/-- The id of a place. -/
def idOfPlace (n : Nat) : NodeId := .real n.toUInt64

/-- The id is that of a place in use. -/
def Covers (m : MemoryTable) (id : NodeId) : Prop := ∃ n < m.terms.length, id = idOfPlace n

/-- The table gave every id of the triple. -/
def CoversAll (m : MemoryTable) (t : IdTriple) : Prop := ∀ id ∈ t.toList, m.Covers id

variable {m m' : MemoryTable} {t : Term} {id : NodeId} {n : Nat}

/-! ### Places and ids -/

theorem size_eq (m : MemoryTable) : m.tables.vector.size = m.terms.length := by simp [terms]

theorem size_le (m : MemoryTable) : m.terms.length ≤ NodeId.maxValue.toNat + 1 :=
  m.size_eq ▸ m.sound.size_le

theorem toNat_toUInt64 (hn : n < m.terms.length) : n.toUInt64.toNat = n :=
  Tables.toNat_toUInt64 (Nat.le_trans (Nat.le_of_lt hn) m.size_le)

theorem resolve_real (v : UInt64) : m.resolve (.real v) = m.terms[v.toNat]? := by
  rw [terms, Array.getElem?_toList]
  rfl

theorem resolve_idOfPlace (hn : n < m.terms.length) :
    m.resolve (idOfPlace n) = some m.terms[n] := by
  rw [idOfPlace, resolve_real, toNat_toUInt64 hn, List.getElem?_eq_getElem hn]

theorem covers_of_resolve (h : m.resolve id = some t) : m.Covers id ∧ t ∈ m.terms := by
  cases id with
  | real v =>
    rw [resolve_real] at h
    obtain ⟨hv, -⟩ := List.getElem?_eq_some_iff.mp h
    refine ⟨⟨v.toNat, hv, ?_⟩, List.mem_of_getElem? h⟩
    rw [idOfPlace, Nat.toUInt64_eq, UInt64.ofNat_toNat]
  | missing => cases h
  | any => cases h

theorem idOfPlace_inj {n' : Nat} (hn : n < m.terms.length) (hn' : n' < m.terms.length)
    (h : idOfPlace n = idOfPlace n') : n = n' := by
  have hvalue := congrArg UInt64.toNat (NodeId.real.inj h)
  rwa [toNat_toUInt64 hn, toNat_toUInt64 hn'] at hvalue

/-- A term resolves from one id only. -/
theorem resolve_inj {id' : NodeId} (h : m.resolve id = some t) (h' : m.resolve id' = some t) :
    id = id' := by
  have hid := (m.sound.lookup_eq_some_iff t id).mpr h
  have hid' := (m.sound.lookup_eq_some_iff t id').mpr h'
  exact Option.some.inj (hid.symm.trans hid')

theorem nodup_terms (m : MemoryTable) : m.terms.Nodup := by
  refine List.nodup_iff_injective_get.mpr fun i j hij => Fin.ext ?_
  have hi : m.resolve (idOfPlace i) = some (m.terms.get i) := resolve_idOfPlace i.isLt
  have hj : m.resolve (idOfPlace j) = some (m.terms.get i) := hij ▸ resolve_idOfPlace j.isLt
  exact idOfPlace_inj i.isLt j.isLt (resolve_inj hi hj)

theorem Covers.exists_resolve (h : m.Covers id) : ∃ t, m.resolve id = some t := by
  obtain ⟨n, hn, rfl⟩ := h
  exact ⟨_, resolve_idOfPlace hn⟩

theorem Covers.inRange (h : m.Covers id) : id.isReal = true ∧ id.InRange := by
  obtain ⟨n, hn, rfl⟩ := h
  refine ⟨rfl, ?_⟩
  show n.toUInt64 ≤ NodeId.maxValue
  rw [UInt64.le_iff_toNat_le, toNat_toUInt64 hn]
  have hle := m.size_le
  omega

theorem CoversAll.inRange {t : IdTriple} (ht : m.CoversAll t) : t.InRange :=
  fun id hid => (ht id hid).inRange.2

theorem covers_mono (hle : m.terms.length ≤ m'.terms.length) (h : m.Covers id) : m'.Covers id := by
  obtain ⟨n, hn, rfl⟩ := h
  exact ⟨n, Nat.lt_of_lt_of_le hn hle, rfl⟩

theorem coversAll_mono (hle : m.terms.length ≤ m'.terms.length) {t : IdTriple}
    (h : m.CoversAll t) : m'.CoversAll t := fun id hid => covers_mono hle (h id hid)

/-! ### Decoding -/

theorem CoversAll.exists_decodeTriple {t : IdTriple} (ht : m.CoversAll t) :
    ∃ st, NodeTable.decodeTriple m t = .ok st := by
  simp only [CoversAll, Triple.toList, List.forall_mem_cons] at ht
  obtain ⟨s, hs⟩ := ht.1.exists_resolve
  obtain ⟨p, hp⟩ := ht.2.1.exists_resolve
  obtain ⟨o, ho⟩ := ht.2.2.1.exists_resolve
  exact ⟨⟨s, p, o⟩, NodeTable.decodeTriple_eq_ok_iff.mpr ⟨hs, hp, ho⟩⟩

theorem coversAll_of_decodeTriple {t : IdTriple} {st : Statement}
    (h : NodeTable.decodeTriple m t = .ok st) : m.CoversAll t := by
  obtain ⟨hs, hp, ho⟩ := NodeTable.decodeTriple_eq_ok_iff.mp h
  simp only [CoversAll, Triple.toList, List.forall_mem_cons]
  exact ⟨(covers_of_resolve hs).1, (covers_of_resolve hp).1, (covers_of_resolve ho).1, by simp⟩

/-- A statement decodes from one triple only. -/
theorem decodeTriple_inj {t u : IdTriple} {st : Statement}
    (h : NodeTable.decodeTriple m t = .ok st) (h' : NodeTable.decodeTriple m u = .ok st) :
    t = u := by
  obtain ⟨hs, hp, ho⟩ := NodeTable.decodeTriple_eq_ok_iff.mp h
  obtain ⟨hs', hp', ho'⟩ := NodeTable.decodeTriple_eq_ok_iff.mp h'
  have hsubject := resolve_inj hs hs'
  have hpredicate := resolve_inj hp hp'
  have hobject := resolve_inj ho ho'
  cases t
  cases u
  rw [Triple.mk.injEq]
  exact ⟨hsubject, hpredicate, hobject⟩

/-- A table that has grown resolves an id as before. -/
theorem resolve_of_grown (hle : m.terms <+: m'.terms) (h : m.resolve id = some t) :
    m'.resolve id = some t := by
  cases id with
  | real v =>
    rw [resolve_real] at h ⊢
    obtain ⟨further, he⟩ := hle
    obtain ⟨hn, -⟩ := List.getElem?_eq_some_iff.mp h
    rw [← he, List.getElem?_append_left hn]
    exact h
  | missing => cases h
  | any => cases h

theorem decodeTriple_of_grown (hle : m.terms <+: m'.terms) {t : IdTriple} {st : Statement}
    (h : NodeTable.decodeTriple m t = .ok st) : NodeTable.decodeTriple m' t = .ok st := by
  rw [NodeTable.decodeTriple_eq_ok_iff] at h ⊢
  exact ⟨resolve_of_grown hle h.1, resolve_of_grown hle h.2.1, resolve_of_grown hle h.2.2⟩

/-! ### Looking up -/

/-- The id of a term is the one that it resolves from, and there is one exactly if the term is in
the table. -/
theorem lookup_spec (m : MemoryTable) (t : Term) :
    (m.lookup t = .missing ∧ ∀ id, m.resolve id ≠ some t) ∨ m.resolve (m.lookup t) = some t := by
  rw [lookup]
  cases hid : m.tables.ids.lookup t with
  | some id => exact .inr ((m.sound.lookup_eq_some_iff t id).mp hid)
  | none =>
    refine .inl ⟨rfl, fun id h => ?_⟩
    rw [(m.sound.lookup_eq_some_iff t id).mpr h] at hid
    cases hid

/-- The ids that resolve are those of the terms. -/
theorem resolve_eq_some_iff : m.resolve id = some t ↔ t ∈ m.terms ∧ id = m.lookup t := by
  obtain ⟨-, hnone⟩ | hlookup := m.lookup_spec t
  · refine iff_of_false (hnone id) fun h => ?_
    obtain ⟨n, hn, rfl⟩ := List.getElem_of_mem h.1
    exact hnone _ (resolve_idOfPlace hn)
  · constructor
    · exact fun h => ⟨(covers_of_resolve h).2, resolve_inj h hlookup⟩
    · rintro ⟨-, rfl⟩
      exact hlookup

/-- A term is looked up as the place where it stands. -/
theorem lookup_eq (h : m.terms[n]? = some t) : m.lookup t = idOfPlace n := by
  obtain ⟨hn, rfl⟩ := List.getElem?_eq_some_iff.mp h
  exact (resolve_eq_some_iff.mp (resolve_idOfPlace hn)).2.symm

theorem lookup_covers (h : t ∈ m.terms) :
    m.Covers (m.lookup t) ∧ m.resolve (m.lookup t) = some t := by
  have hresolve : m.resolve (m.lookup t) = some t := resolve_eq_some_iff.mpr ⟨h, rfl⟩
  exact ⟨(covers_of_resolve hresolve).1, hresolve⟩

theorem lookup_of_grown (hle : m.terms <+: m'.terms) (h : t ∈ m.terms) :
    m'.lookup t = m.lookup t :=
  (resolve_eq_some_iff.mp (resolve_of_grown hle (lookup_covers h).2)).2.symm

theorem lookup_isReal_iff (m : MemoryTable) (t : Term) :
    (m.lookup t).isReal = true ↔ t ∈ m.terms := by
  refine ⟨fun hreal => ?_, fun hterm => (lookup_covers hterm).1.inRange.1⟩
  obtain ⟨hmissing, -⟩ | hresolve := m.lookup_spec t
  · rw [hmissing] at hreal
    cases hreal
  · exact (covers_of_resolve hresolve).2

/-- The ids of the terms that have the value of a term, each once. -/
theorem equivalents_spec (m : MemoryTable) (t : Term) :
    (m.equivalents t).Nodup ∧ ∀ id, id ∈ m.equivalents t ↔
      m.Covers id ∧ ∃ u, m.resolve id = some u ∧ ValueKey.of t = ValueKey.of u := by
  refine ⟨(m.sound.ascending _).imp fun {id id'} h he => ?_, fun id => ?_⟩
  · exact UInt64.lt_irrefl _ (he ▸ h)
  · rw [equivalents, m.sound.mem_under_iff]
    constructor
    · rintro ⟨u, hu, hkey⟩
      exact ⟨(covers_of_resolve hu).1, u, hu, hkey.symm⟩
    · rintro ⟨-, u, hu, hkey⟩
      exact ⟨u, hu, hkey.symm⟩

/-! ### New ids -/

theorem ids_lookup_eq_none_iff : m.tables.ids.lookup t = none ↔ t ∉ m.terms := by
  rw [Option.eq_none_iff_forall_ne_some]
  simp only [ne_eq, m.sound.lookup_eq_some_iff]
  constructor
  · intro h hmem
    exact h _ (lookup_covers hmem).2
  · exact fun h id hid => h (covers_of_resolve hid).2

/-- A term that the table has keeps its id. -/
theorem lookupOrCreate_of_mem (h : t ∈ m.terms) : m.lookupOrCreate t = (.ok (m.lookup t), m) := by
  have hid := (m.sound.lookup_eq_some_iff t _).mpr (lookup_covers h).2
  have hanswer : m.tables.lookupOrCreate t = (.ok (m.lookup t), m.tables) := by
    rw [Tables.lookupOrCreate, hid]
  cases m
  simp only [lookupOrCreate, hanswer]

/-- A new term gets the first id that is free. -/
theorem lookupOrCreate_of_notMem (h : t ∉ m.terms)
    (hroom : m.terms.length ≤ NodeId.maxValue.toNat) :
    ∃ m', m.lookupOrCreate t = (.ok (idOfPlace m.terms.length), m') ∧
      m'.terms = m.terms ++ [t] := by
  rw [← size_eq] at hroom
  have hanswer : m.tables.lookupOrCreate t = (.ok (idOfPlace m.terms.length),
      m.tables.append t (idOfPlace m.terms.length)) := by
    rw [Tables.lookupOrCreate, ids_lookup_eq_none_iff.mpr h, Tables.ofValue_size m.sound.size_le,
      if_pos hroom, ← size_eq]
    rfl
  have hid : (m.lookupOrCreate t).1 = .ok (idOfPlace m.terms.length) := congrArg (·.1) hanswer
  refine ⟨(m.lookupOrCreate t).2, Prod.ext hid rfl, ?_⟩
  show (m.tables.lookupOrCreate t).2.vector.toList = _
  rw [hanswer]
  exact Array.toList_push

/-- A new term gets no id if none is free. -/
theorem lookupOrCreate_of_full (h : t ∉ m.terms)
    (hfull : NodeId.maxValue.toNat < m.terms.length) :
    m.lookupOrCreate t =
      (.error (.shapeMismatch (.idOutOfRange m.terms.length.toUInt64)), m) := by
  rw [← size_eq] at hfull
  have hanswer : m.tables.lookupOrCreate t =
      (.error (.shapeMismatch (.idOutOfRange m.terms.length.toUInt64)), m.tables) := by
    rw [Tables.lookupOrCreate, ids_lookup_eq_none_iff.mpr h, Tables.ofValue_size m.sound.size_le,
      if_neg (Nat.not_le.mpr hfull), ← size_eq]
  cases m
  simp only [lookupOrCreate, hanswer]

/-- The three ways in which a table answers for a term. -/
theorem lookupOrCreate_cases (m : MemoryTable) (t : Term) :
    (t ∈ m.terms ∧ m.lookupOrCreate t = (.ok (m.lookup t), m)) ∨
      (t ∉ m.terms ∧ ∃ m', m.lookupOrCreate t = (.ok (idOfPlace m.terms.length), m') ∧
        m'.terms = m.terms ++ [t]) ∨
      (t ∉ m.terms ∧ m.terms.length = NodeId.maxValue.toNat + 1 ∧ m.lookupOrCreate t =
        (.error (.shapeMismatch (.idOutOfRange m.terms.length.toUInt64)), m)) := by
  by_cases h : t ∈ m.terms
  · exact .inl ⟨h, lookupOrCreate_of_mem h⟩
  · rcases Nat.lt_or_ge NodeId.maxValue.toNat m.terms.length with hfull | hroom
    · exact .inr (.inr ⟨h, Nat.le_antisymm m.size_le hfull, lookupOrCreate_of_full h hfull⟩)
    · exact .inr (.inl ⟨h, lookupOrCreate_of_notMem h hroom⟩)

theorem prefix_lookupOrCreate (m : MemoryTable) (t : Term) :
    m.terms <+: (m.lookupOrCreate t).2.terms := by
  obtain ⟨-, h⟩ | ⟨-, m', h, hterms⟩ | ⟨-, -, h⟩ := m.lookupOrCreate_cases t
  · exact h ▸ List.prefix_rfl
  · rw [h, hterms]
    exact List.prefix_append _ _
  · exact h ▸ List.prefix_rfl

/-- The id that a term was given resolves to it. -/
theorem resolve_lookupOrCreate (h : m.lookupOrCreate t = (.ok id, m')) :
    m'.resolve id = some t := by
  obtain ⟨hmem, hcreate⟩ | ⟨-, m₁, hcreate, hterms⟩ | ⟨-, -, hcreate⟩ := m.lookupOrCreate_cases t
  · rw [hcreate] at h
    cases h
    exact (lookup_covers hmem).2
  · rw [hcreate] at h
    cases h
    rw [resolve_idOfPlace (by simp [hterms])]
    simp [hterms]
  · rw [hcreate] at h
    cases h

theorem prefix_encodeTriple {p : Pattern} {result : Except Error IdTriple}
    (h : NodeTable.encodeTriple m p = (result, m')) : m.terms <+: m'.terms := by
  have hkeeps := NodeTable.encodeTriple_keeps (P := fun nodes => m.terms <+: nodes.terms)
    (fun nodes t h => h.trans (prefix_lookupOrCreate nodes t)) p List.prefix_rfl
  rwa [h] at hkeeps

/-- The ids that a pattern was given decode to the statement that it is. -/
theorem decodeTriple_encodeTriple {p : Pattern} {ids : IdTriple}
    (h : NodeTable.encodeTriple m p = (.ok ids, m')) :
    ∃ st : Statement, p = st.toPattern ∧ NodeTable.decodeTriple m' ids = .ok st := by
  have hencode {node : Node} {m m' : MemoryTable} {id : NodeId}
      (h : NodeTable.encode m node = (.ok id, m')) :
      ∃ t, node = .term t ∧ m'.resolve id = some t ∧ m.terms <+: m'.terms := by
    cases node with
    | any => cases h
    | term t =>
      have h : m.lookupOrCreate t = (.ok id, m') := h
      have hle := prefix_lookupOrCreate m t
      rw [h] at hle
      exact ⟨t, rfl, resolve_lookupOrCreate h, hle⟩
  obtain ⟨subject, predicate, object⟩ := p
  rw [NodeTable.encodeTriple] at h
  split at h
  next => cases h
  next s m₁ hs =>
    split at h
    next => cases h
    next q m₂ hq =>
      split at h
      next => cases h
      next o m₃ ho =>
        cases h
        obtain ⟨s', rfl, hs', -⟩ := hencode hs
        obtain ⟨q', rfl, hq', hle₂⟩ := hencode hq
        obtain ⟨o', rfl, ho', hle₃⟩ := hencode ho
        exact ⟨⟨s', q', o'⟩, rfl, NodeTable.decodeTriple_eq_ok_iff.mpr
          ⟨resolve_of_grown (hle₂.trans hle₃) hs', resolve_of_grown hle₃ hq', ho'⟩⟩

/-- A table covers all ids of a triple that it encodes. -/
theorem encodeTriple_spec {p : Pattern} {result : Except Error IdTriple}
    (h : NodeTable.encodeTriple m p = (result, m')) :
    m.terms.length ≤ m'.terms.length ∧ ∀ t, result = .ok t → m'.CoversAll t := by
  refine ⟨(prefix_encodeTriple h).length_le, ?_⟩
  rintro t rfl
  obtain ⟨st, -, hdecode⟩ := decodeTriple_encodeTriple h
  exact coversAll_of_decodeTriple hdecode

/-- A statement whose ids the table gave is given them again. -/
theorem encodeTriple_of_decodeTriple {t : IdTriple} {st : Statement}
    (h : NodeTable.decodeTriple m t = .ok st) :
    NodeTable.encodeTriple m st.toPattern = (.ok t, m) := by
  have hencode {id : NodeId} {u : Term} (h : m.resolve id = some u) :
      NodeTable.encode m (.term u) = (.ok id, m) := by
    obtain ⟨hmem, rfl⟩ := resolve_eq_some_iff.mp h
    exact lookupOrCreate_of_mem hmem
  obtain ⟨hs, hp, ho⟩ := NodeTable.decodeTriple_eq_ok_iff.mp h
  simp only [NodeTable.encodeTriple, Statement.toPattern, Triple.map, hencode hs, hencode hp,
    hencode ho]

end MemoryTable

end TripleStore
