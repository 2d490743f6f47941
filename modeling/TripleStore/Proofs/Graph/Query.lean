import Mathlib.Data.Set.Card
import TripleStore.Proofs.Graph.Cursor
import TripleStore.Proofs.Graph.Stored

/-!
# Queries of a graph

The statements of a graph are what its stored triples decode to. A lookup covers a pattern by id
patterns that no two of which share a match, so that its matches are exactly the statements that the
pattern admits, each once, whether terms are compared by value or not.
-/

namespace TripleStore

open MemoryTable

/-- The node stands for the term: by value, or as the identical term. -/
def Node.Admits (byValue : Bool) (node : Node) (t : Term) : Prop :=
  match node with
  | .any => True
  | .term u => if byValue then ValueKey.of u = ValueKey.of t else u = t

/-- Each node of the pattern stands for the term in its place. -/
def Pattern.Admits (byValue : Bool) (p : Pattern) (st : Statement) : Prop :=
  p.subject.Admits byValue st.subject ∧ p.predicate.Admits byValue st.predicate ∧
    p.object.Admits byValue st.object

namespace Graph

/-- What the stored triples decode to. -/
def statementSet {τ : Type} [NodeTable τ] (g : Graph) (nodes : τ) : Set Statement :=
  {st | ∃ t, g.indexes.contains t = true ∧ NodeTable.decodeTriple nodes t = .ok st}

theorem mem_statementSet_iff {τ : Type} [NodeTable τ] {g : Graph} {nodes : τ} {st : Statement} :
    st ∈ g.statementSet nodes ↔
      ∃ t, g.indexes.contains t = true ∧ NodeTable.decodeTriple nodes t = .ok st := Iff.rfl

variable {g : Graph} {m : MemoryTable} {S : Finset IdTriple}

/-- A bound node is looked up as the ids of the terms that it stands for, each once. -/
theorem candidates_term_spec (g : Graph) (t : Term) :
    (g.candidates m (.term t)).Nodup ∧ ∀ id, id ∈ g.candidates m (.term t) ↔
      m.Covers id ∧ ∃ u, m.resolve id = some u ∧
        (Node.term t).Admits g.capabilities.handlesLiteralTyping u := by
  rw [candidates]
  split
  next hvalue =>
    simp only [Node.Admits, hvalue, if_true]
    exact m.equivalents_spec t
  next hvalue =>
    simp only [Node.Admits, hvalue]
    have hlookup : NodeTable.lookup m t = m.lookup t := rfl
    rw [hlookup]
    rcases m.lookup_spec t with ⟨hmissing, hnone⟩ | hresolve
    · rw [hmissing]
      refine ⟨List.nodup_nil, fun id => ?_⟩
      simp only [List.not_mem_nil, false_iff]
      rintro ⟨-, u, hu, rfl⟩
      exact hnone id hu
    · have hcovers := (covers_of_resolve hresolve).1
      have hreal := hcovers.inRange.1
      cases hid : m.lookup t with
      | real v =>
        rw [hid] at hcovers hresolve
        refine ⟨List.nodup_singleton _, fun id => ?_⟩
        simp only [List.mem_singleton]
        constructor
        · rintro rfl
          exact ⟨hcovers, t, hresolve, rfl⟩
        · rintro ⟨-, u, hu, rfl⟩
          exact resolve_inj hu hresolve
      | missing =>
        rw [hid] at hreal
        cases hreal
      | any =>
        rw [hid] at hreal
        cases hreal

/-- No bound node is looked up as the wildcard. -/
theorem eq_of_mem_candidates (g : Graph) {t : Term} {c id : NodeId}
    (hc : c ∈ g.candidates m (.term t)) (h : c = .any ∨ c = id) : c = id := by
  refine h.resolve_left ?_
  rintro rfl
  have hreal := (((candidates_term_spec g t).2 .any).mp hc).1.inRange.1
  cases hreal

/-- At most one candidate of a node matches an id. -/
theorem candidates_unique (g : Graph) {node : Node} {c c' id : NodeId}
    (hc : c ∈ g.candidates m node) (hc' : c' ∈ g.candidates m node) (h : c = .any ∨ c = id)
    (h' : c' = .any ∨ c' = id) : c = c' := by
  cases node with
  | any => rw [List.mem_singleton.mp hc, List.mem_singleton.mp hc']
  | term t => rw [eq_of_mem_candidates g hc h, eq_of_mem_candidates g hc' h']

theorem nodup_candidates (g : Graph) (node : Node) :
    (g.candidates m node).Nodup := by
  cases node with
  | any => exact List.nodup_singleton _
  | term t => exact (candidates_term_spec g t).1

theorem exists_candidate (g : Graph) {node : Node} {id : NodeId} {u : Term}
    (hid : m.Covers id) (hu : m.resolve id = some u)
    (h : node.Admits g.capabilities.handlesLiteralTyping u) :
    ∃ c ∈ g.candidates m node, c = .any ∨ c = id := by
  cases node with
  | any => exact ⟨.any, List.mem_singleton.mpr rfl, .inl rfl⟩
  | term t => exact ⟨id, ((candidates_term_spec g t).2 id).mpr ⟨hid, u, hu, h⟩, .inr rfl⟩

/-- What a candidate of a node matches, also when the table has grown, resolves to a term that the
node stands for. -/
theorem admits_of_mem_candidates {m' : MemoryTable} (hle : m.terms <+: m'.terms)
    (g : Graph) {node : Node} {c id : NodeId} {u : Term} (hc : c ∈ g.candidates m node)
    (h : c = .any ∨ c = id) (hu : m'.resolve id = some u) :
    node.Admits g.capabilities.handlesLiteralTyping u := by
  cases node with
  | any => trivial
  | term t =>
    obtain rfl := eq_of_mem_candidates g hc h
    obtain ⟨-, u', hu', hadmits⟩ := ((candidates_term_spec g t).2 c).mp hc
    rwa [Option.some.inj (hu.symm.trans (resolve_of_grown hle hu'))]

theorem mem_patterns_iff (g : Graph) (m : MemoryTable) (p : Pattern) (q : IdTriple) :
    q ∈ g.patterns m p ↔ q.subject ∈ g.candidates m p.subject ∧
      q.predicate ∈ g.candidates m p.predicate ∧ q.object ∈ g.candidates m p.object := by
  simp only [patterns, List.mem_flatMap, List.mem_map]
  constructor
  · rintro ⟨s, hs, p', hp, o, ho, rfl⟩
    exact ⟨hs, hp, ho⟩
  · rintro ⟨hs, hp, ho⟩
    exact ⟨_, hs, _, hp, _, ho, rfl⟩

theorem nodup_patterns (g : Graph) (p : Pattern) : (g.patterns m p).Nodup := by
  have hcandidates (node : Node) : (g.candidates m node).Nodup := nodup_candidates g node
  rw [patterns, List.nodup_flatMap]
  refine ⟨fun s _ => ?_, (hcandidates p.subject).imp fun {s s'} (hne : s ≠ s') => ?_⟩
  · rw [List.nodup_flatMap]
    refine ⟨fun p' _ => ?_, (hcandidates p.predicate).imp fun {p₁ p₂} (hne : p₁ ≠ p₂) => ?_⟩
    · exact (hcandidates p.object).map fun o o' he => congrArg Triple.object he
    · simp only [Function.onFun, List.disjoint_left, List.mem_map]
      rintro q ⟨o, -, rfl⟩ ⟨o', -, he⟩
      exact hne (congrArg Triple.predicate he).symm
  · simp only [Function.onFun, List.disjoint_left, List.mem_flatMap, List.mem_map]
    rintro q ⟨p₁, -, o, -, rfl⟩ ⟨p₂, -, o', -, he⟩
    exact hne (congrArg Triple.subject he).symm

/-- No two id patterns of a lookup share a match. -/
theorem eq_of_matches (g : Graph) {p : Pattern} {q q' t : IdTriple}
    (hq : q ∈ g.patterns m p) (hq' : q' ∈ g.patterns m p) (h : q.Matches t) (h' : q'.Matches t) :
    q = q' := by
  obtain ⟨hs, hp, ho⟩ := (mem_patterns_iff g m p q).mp hq
  obtain ⟨hs', hp', ho'⟩ := (mem_patterns_iff g m p q').mp hq'
  cases q
  cases q'
  rw [Triple.mk.injEq]
  exact ⟨candidates_unique g hs hs' h.1 h'.1, candidates_unique g hp hp' h.2.1 h'.2.1,
    candidates_unique g ho ho' h.2.2 h'.2.2⟩

/-- What an id pattern of a lookup matches, also when the table has grown, is a statement that the
pattern admits. -/
theorem admits_of_matches {m' : MemoryTable} (hle : m.terms <+: m'.terms)
    (g : Graph) {p : Pattern} {q t : IdTriple} {st : Statement} (hq : q ∈ g.patterns m p)
    (h : q.Matches t) (hst : NodeTable.decodeTriple m' t = .ok st) :
    p.Admits g.capabilities.handlesLiteralTyping st := by
  obtain ⟨hs, hp, ho⟩ := (mem_patterns_iff g m p q).mp hq
  obtain ⟨hrs, hrp, hro⟩ := NodeTable.decodeTriple_eq_ok_iff.mp hst
  exact ⟨admits_of_mem_candidates hle g hs h.1 hrs,
    admits_of_mem_candidates hle g hp h.2.1 hrp, admits_of_mem_candidates hle g ho h.2.2 hro⟩

/-- A stored triple matches an id pattern exactly if the pattern admits its statement. -/
theorem exists_matches_iff (g : Graph) (p : Pattern) {t : IdTriple}
    {st : Statement} (ht : m.CoversAll t) (hst : NodeTable.decodeTriple m t = .ok st) :
    (∃ q ∈ g.patterns m p, q.Matches t) ↔ p.Admits g.capabilities.handlesLiteralTyping st := by
  constructor
  · rintro ⟨q, hq, h⟩
    exact admits_of_matches List.prefix_rfl g hq h hst
  simp only [CoversAll, Triple.toList, List.forall_mem_cons] at ht
  obtain ⟨hs, hp, ho, -⟩ := ht
  obtain ⟨hrs, hrp, hro⟩ := NodeTable.decodeTriple_eq_ok_iff.mp hst
  rintro ⟨hsubject, hpredicate, hobject⟩
  obtain ⟨s, hqs, hms⟩ := exists_candidate g hs hrs hsubject
  obtain ⟨p', hqp, hmp⟩ := exists_candidate g hp hrp hpredicate
  obtain ⟨o, hqo, hmo⟩ := exists_candidate g ho hro hobject
  exact ⟨⟨s, p', o⟩, (mem_patterns_iff g m p _).mpr ⟨hqs, hqp, hqo⟩, hms, hmp, hmo⟩

/-- A lookup finds the stored triples whose statements the pattern admits, each once. -/
theorem matching_spec (hS : g.indexes.Represents S)
    (hcovers : ∀ t ∈ S, m.CoversAll t) (p : Pattern) :
    (g.matching m p).Nodup ∧ ∀ t, t ∈ g.matching m p ↔ t ∈ S ∧
      ∃ st, NodeTable.decodeTriple m t = .ok st ∧
        p.Admits g.capabilities.handlesLiteralTyping st := by
  have hr : ∀ t ∈ S, t.InRange := fun t ht => (hcovers t ht).inRange
  have hfind (q t : IdTriple) : t ∈ g.indexes.find q ↔ t ∈ S ∧ q.Matches t := by
    rw [(hS.find_spec hr q).2, IdTriple.isMatch_iff]
  constructor
  · rw [matching, List.nodup_flatMap]
    refine ⟨fun q _ => (hS.nodup_find q).1, ?_⟩
    refine List.Pairwise.imp_of_mem (fun {q q'} hq hq' (hne : q ≠ q') => ?_)
      (nodup_patterns g p)
    simp only [Function.onFun, List.disjoint_left]
    intro t ht ht'
    obtain ⟨-, hmatch⟩ := (hfind q t).mp ht
    obtain ⟨-, hmatch'⟩ := (hfind q' t).mp ht'
    exact hne (eq_of_matches g hq hq' hmatch hmatch')
  · intro t
    rw [matching, List.mem_flatMap]
    simp only [hfind]
    constructor
    · rintro ⟨q, hq, hin, hmatch⟩
      obtain ⟨st, hst⟩ := (hcovers t hin).exists_decodeTriple
      exact ⟨hin, st, hst, (exists_matches_iff g p (hcovers t hin) hst).mp ⟨q, hq, hmatch⟩⟩
    · rintro ⟨hin, st, hst, hadmits⟩
      obtain ⟨q, hq, hmatch⟩ := (exists_matches_iff g p (hcovers t hin) hst).mpr hadmits
      exact ⟨q, hq, hin, hmatch⟩

theorem any_containsMatch (hS : g.indexes.Represents S) (hr : ∀ t ∈ S, t.InRange)
    (p : Pattern) :
    (g.patterns m p).any g.indexes.containsMatch = !(g.matching m p).isEmpty := by
  rw [matching]
  induction g.patterns m p with
  | nil => rfl
  | cons q qs ih =>
    rw [List.any_cons, ih, hS.containsMatch_eq hr, List.flatMap_cons]
    cases g.indexes.find q <;> rfl

/-- Ids that decode are yielded with their statements. -/
theorem exists_found {ts : List IdTriple}
    (h : ∀ t ∈ ts, ∃ st, NodeTable.decodeTriple m t = .ok st) :
    ∃ items : List Found, ts.map (Cursor.yield m) = items.map .ok ∧ items.map Found.ids = ts ∧
      ∀ f ∈ items, NodeTable.decodeTriple m f.ids = .ok f.statement := by
  induction ts with
  | nil => exact ⟨[], rfl, rfl, by simp⟩
  | cons t ts ih =>
    rw [List.forall_mem_cons] at h
    obtain ⟨st, hst⟩ := h.1
    obtain ⟨items, hmap, hids, hdecode⟩ := ih h.2
    refine ⟨⟨t, st⟩ :: items, ?_, by rw [List.map_cons, hids], ?_⟩
    · rw [List.map_cons, List.map_cons, hmap, Cursor.yield, hst]
      rfl
    · rw [List.forall_mem_cons]
      exact ⟨hst, hdecode⟩

/-- Different ids of a table have different statements. -/
theorem nodup_statements {items : List Found} (hids : (items.map Found.ids).Nodup)
    (hitems : ∀ f ∈ items, NodeTable.decodeTriple m f.ids = .ok f.statement) :
    (items.map Found.statement).Nodup := by
  refine List.Nodup.map_on (fun f hf f' hf' he => ?_) (List.Nodup.of_map _ hids)
  have hsame : f.ids = f'.ids := decodeTriple_inj (he ▸ hitems f hf) (hitems f' hf')
  cases f
  cases f'
  exact (Found.mk.injEq ..).mpr ⟨hsame, he⟩

/-- A drained find yields what the lookup finds, decoded, and tells the answer of `contains`. -/
theorem findAll_spec (hS : g.indexes.Represents S)
    (hcovers : ∀ t ∈ S, m.CoversAll t) (p : Pattern) :
    ∃ items : List Found, items.map Found.ids = g.matching m p ∧
      g.findAll m p = (if g.closed then .error .closed else .ok (items.map .ok)) ∧
      (items.map Found.statement).Nodup ∧
      (∀ st, st ∈ items.map Found.statement ↔
        st ∈ g.statementSet m ∧ p.Admits g.capabilities.handlesLiteralTyping st) ∧
      g.contains m p = (if g.closed then .error .closed else .ok (!items.isEmpty)) := by
  have hr : ∀ t ∈ S, t.InRange := fun t ht => (hcovers t ht).inRange
  obtain ⟨hnodup, hmem⟩ := matching_spec hS hcovers p
  have hin : ∀ t ∈ g.matching m p, t ∈ S := fun t ht => ((hmem t).mp ht).1
  obtain ⟨items, hmap, hids, hdecode⟩ := exists_found fun t ht =>
    (hcovers t (hin t ht)).exists_decodeTriple
  have hfound {f : Found} (hf : f ∈ items) : f.ids ∈ g.matching m p :=
    hids ▸ List.mem_map_of_mem hf
  refine ⟨items, hids, ?_, ?_, fun st => ?_, ?_⟩
  · rw [findAll, find]
    split
    · rfl
    next hopen =>
      have hdrained := Cursor.toList_eq hS hr (Bool.eq_false_iff.mpr hopen) m (g.patterns m p)
      rw [Except.map, hdrained, ← hmap]
      rfl
  · exact nodup_statements (hids ▸ hnodup) hdecode
  · simp only [mem_statementSet_iff, hS.contains_iff hr, List.mem_map]
    constructor
    · rintro ⟨f, hf, rfl⟩
      obtain ⟨hstored, st, hst, hadmits⟩ := (hmem f.ids).mp (hfound hf)
      have hsame : f.statement = st := Except.ok.inj ((hdecode f hf).symm.trans hst)
      exact ⟨⟨f.ids, hstored, hdecode f hf⟩, hsame ▸ hadmits⟩
    · rintro ⟨⟨t, hstored, hst⟩, hadmits⟩
      have ht : t ∈ items.map Found.ids := hids ▸ (hmem t).mpr ⟨hstored, st, hst, hadmits⟩
      obtain ⟨f, hf, rfl⟩ := List.mem_map.mp ht
      exact ⟨f, hf, Except.ok.inj ((hdecode f hf).symm.trans hst)⟩
  · have hempty : (g.matching m p).isEmpty = items.isEmpty := by
      rw [← hids, List.isEmpty_map]
    rw [Graph.contains, any_containsMatch hS hr, hempty]

/-- The answers of a graph are told by the statements that its stored triples decode to. A closed
graph refuses them. -/
structure AnswersByStatements (g : Graph) (m : MemoryTable) : Prop where
  decodes : ∀ t, g.indexes.contains t = true → ∃ st, NodeTable.decodeTriple m t = .ok st
  injective : ∀ t u st, g.indexes.contains t = true → g.indexes.contains u = true →
    NodeTable.decodeTriple m t = .ok st → NodeTable.decodeTriple m u = .ok st → t = u
  find : ∀ p : Pattern, ∃ items : List Found,
    g.findAll m p = (if g.closed then .error .closed else .ok (items.map .ok)) ∧
    (items.map Found.statement).Nodup ∧
    (∀ st, st ∈ items.map Found.statement ↔
      st ∈ g.statementSet m ∧ p.Admits g.capabilities.handlesLiteralTyping st) ∧
    g.contains m p = (if g.closed then .error .closed else .ok (!items.isEmpty))
  size : ∃ all : List Found,
    g.findAll m Pattern.any = (if g.closed then .error .closed else .ok (all.map .ok)) ∧
    (g.statementSet m).encard = all.length ∧
    g.size = if g.closed then .error .closed else .ok all.length

theorem answersByStatements_of_represents (hS : g.indexes.Represents S)
    (hcovers : ∀ t ∈ S, m.CoversAll t) : g.AnswersByStatements m := by
  have hr : ∀ t ∈ S, t.InRange := fun t ht => (hcovers t ht).inRange
  have hstored (t : IdTriple) : g.indexes.contains t = true ↔ t ∈ S := hS.contains_iff hr t
  refine ⟨fun t ht => ?_, fun t u st ht hu => ?_, fun p => ?_, ?_⟩
  · exact (hcovers t ((hstored t).mp ht)).exists_decodeTriple
  · exact decodeTriple_inj
  · obtain ⟨items, -, hitems⟩ := findAll_spec hS hcovers p
    exact ⟨items, hitems⟩
  · obtain ⟨all, hids, hfind, hnodup, hmem, -⟩ := findAll_spec hS hcovers Pattern.any
    obtain ⟨hmatching, hmatch⟩ := matching_spec hS hcovers Pattern.any
    have hadmits (st : Statement) :
        Pattern.any.Admits g.capabilities.handlesLiteralTyping st := ⟨trivial, trivial, trivial⟩
    refine ⟨all, hfind, ?_, ?_⟩
    · have hset : g.statementSet m = ↑(all.map Found.statement).toFinset := by
        ext st
        rw [Finset.mem_coe, List.mem_toFinset, hmem, and_iff_left (hadmits st)]
      rw [hset, Set.encard_coe_eq_coe_finsetCard, List.toFinset_card_of_nodup hnodup,
        List.length_map]
    · have hS' : (g.matching m Pattern.any).toFinset = S := by
        ext t
        rw [List.mem_toFinset, hmatch]
        apply and_iff_left_of_imp
        intro ht
        obtain ⟨st, hst⟩ := (hcovers t ht).exists_decodeTriple
        exact ⟨st, hst, hadmits st⟩
      have hcard : g.indexes.size = all.length := by
        rw [hS.size_eq, ← hS', List.toFinset_card_of_nodup hmatching, ← hids, List.length_map]
      rw [Graph.size, hcard]

/-- In a reachable graph over a memory table stored triples and statements are one to one, and a
find yields exactly the statements that its pattern admits, each once. -/
theorem answersByStatements (h : ReachableOver g m) : g.AnswersByStatements m := by
  obtain ⟨⟨S, hS, hcovers⟩, -⟩ := kept_of_reachableOver h
  exact answersByStatements_of_represents hS hcovers

theorem answersByStatements_of_equal_values :
    let statement (lexical : String) : Pattern := ⟨.term (.blank "b"), .term (.iri "p"),
      .term (.literal (.ofDatatype lexical Vocabulary.xsdInteger))⟩
    let first := (create {}).perform ⟨1⟩ MemoryTable.empty (.add (statement "1"))
    let second := first.graph.perform ⟨1⟩ first.nodes (.add (statement "01"))
    ReachableOver second.graph second.nodes ∧ second.graph.AnswersByStatements second.nodes := by
  intro statement first second
  have hfirst : ReachableOver first.graph first.nodes :=
    .performed ⟨1⟩ _ (.created {} [] rfl)
  have hsecond : ReachableOver second.graph second.nodes := .performed ⟨1⟩ _ hfirst
  exact ⟨hsecond, answersByStatements hsecond⟩

end Graph

end TripleStore
