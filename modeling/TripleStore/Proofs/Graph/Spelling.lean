import Mathlib.Combinatorics.Enumerative.DoubleCounting
import TripleStore.Proofs.Graph.Query

/-!
# Triples of ids that spell statements

A graph stores triples of ids, while what is asked of it and what it reports are statements. Over a
memory table the two are one to one: `MemoryTable.Spells` says which statements a set of triples
stands for. Storing or deleting a triple does the same to the statements, and a deletion of all
matches of a pattern deletes the statements that the pattern admits, but for the pinned ones.
-/

namespace TripleStore

open MemoryTable

instance (byValue : Bool) : (node : Node) → (t : Term) → Decidable (node.Admits byValue t)
  | .any, _ => .isTrue trivial
  | .term u, t =>
    inferInstanceAs (Decidable (if byValue then ValueKey.of u = ValueKey.of t else u = t))

instance (byValue : Bool) (p : Pattern) (st : Statement) : Decidable (p.Admits byValue st) :=
  inferInstanceAs (Decidable (_ ∧ _ ∧ _))

/-- The triples decode to the statements, to each of them and to nothing else. -/
structure MemoryTable.Spells (m : MemoryTable) (S : Finset IdTriple) (T : Finset Statement) :
    Prop where
  decodes : ∀ t ∈ S, ∃ st ∈ T, NodeTable.decodeTriple m t = .ok st
  encodes : ∀ st ∈ T, ∃ t ∈ S, NodeTable.decodeTriple m t = .ok st

variable {m m' : MemoryTable} {S : Finset IdTriple} {T P : Finset Statement} {t : IdTriple}
  {st : Statement}

theorem MemoryTable.real_of_decodeTriple (h : NodeTable.decodeTriple m t = .ok st) : t.Real :=
  fun id hid => (coversAll_of_decodeTriple h id hid).inRange.1

namespace MemoryTable.Spells

theorem empty (m : MemoryTable) : m.Spells ∅ ∅ := ⟨by simp, by simp⟩

theorem covers (h : m.Spells S T) (ht : t ∈ S) : m.CoversAll t := by
  obtain ⟨st, -, hst⟩ := h.decodes t ht
  exact coversAll_of_decodeTriple hst

/-- The same triples spell the same statements when the table has grown. -/
theorem grow (hle : m.terms <+: m'.terms) (h : m.Spells S T) : m'.Spells S T := by
  refine ⟨fun t ht => ?_, fun st hst => ?_⟩
  · obtain ⟨st, hst, hdecode⟩ := h.decodes t ht
    exact ⟨st, hst, decodeTriple_of_grown hle hdecode⟩
  · obtain ⟨t, ht, hdecode⟩ := h.encodes st hst
    exact ⟨t, ht, decodeTriple_of_grown hle hdecode⟩

theorem mem_iff (h : m.Spells S T) (ht : NodeTable.decodeTriple m t = .ok st) :
    t ∈ S ↔ st ∈ T := by
  constructor
  · intro hin
    obtain ⟨st', hst', hdecode⟩ := h.decodes t hin
    rwa [Except.ok.inj (ht.symm.trans hdecode)]
  · intro hin
    obtain ⟨t', ht', hdecode⟩ := h.encodes st hin
    rwa [decodeTriple_inj ht hdecode]

theorem insert (h : m.Spells S T) (ht : NodeTable.decodeTriple m t = .ok st) :
    m.Spells (Insert.insert t S) (Insert.insert st T) := by
  refine ⟨?_, ?_⟩
  · rw [Finset.forall_mem_insert]
    refine ⟨⟨st, Finset.mem_insert_self st T, ht⟩, fun u hu => ?_⟩
    obtain ⟨su, hsu, hdecode⟩ := h.decodes u hu
    exact ⟨su, Finset.mem_insert_of_mem hsu, hdecode⟩
  · rw [Finset.forall_mem_insert]
    refine ⟨⟨t, Finset.mem_insert_self t S, ht⟩, fun su hsu => ?_⟩
    obtain ⟨u, hu, hdecode⟩ := h.encodes su hsu
    exact ⟨u, Finset.mem_insert_of_mem hu, hdecode⟩

theorem erase (h : m.Spells S T) (ht : NodeTable.decodeTriple m t = .ok st) :
    m.Spells (S.erase t) (T.erase st) := by
  refine ⟨fun u hu => ?_, fun su hsu => ?_⟩
  · obtain ⟨hne, hu⟩ := Finset.mem_erase.mp hu
    obtain ⟨su, hsu, hdecode⟩ := h.decodes u hu
    refine ⟨su, Finset.mem_erase.mpr ⟨?_, hsu⟩, hdecode⟩
    rintro rfl
    exact hne (decodeTriple_inj hdecode ht)
  · obtain ⟨hne, hsu⟩ := Finset.mem_erase.mp hsu
    obtain ⟨u, hu, hdecode⟩ := h.encodes su hsu
    refine ⟨u, Finset.mem_erase.mpr ⟨?_, hu⟩, hdecode⟩
    rintro rfl
    exact hne (Except.ok.inj (hdecode.symm.trans ht))

theorem card_eq (h : m.Spells S T) : S.card = T.card := by
  let decodes (t : IdTriple) (st : Statement) : Prop := NodeTable.decodeTriple m t = .ok st
  have hfunction : ∀ t ∈ S, ({st ∈ T | decodes t st} : Set Statement).Subsingleton :=
    fun t _ st hst st' hst' => Except.ok.inj (hst.2.symm.trans hst'.2)
  have hinjective : ∀ st ∈ T, ({t ∈ S | decodes t st} : Set IdTriple).Subsingleton :=
    fun st _ t ht t' ht' => decodeTriple_inj ht.2 ht'.2
  exact Nat.le_antisymm (Finset.card_le_card_of_forall_subsingleton decodes h.decodes hinjective)
    (Finset.card_le_card_of_forall_subsingleton' decodes h.encodes hfunction)

end MemoryTable.Spells

/-- All indexes hold the same triples, which spell the statements. -/
def IndexSet.Spells (s : IndexSet) (m : MemoryTable) (T : Finset Statement) : Prop :=
  ∃ S, s.Represents S ∧ m.Spells S T

namespace IndexSet.Spells

variable {s : IndexSet}

theorem inStep (h : s.Spells m T) : s.InStep := by
  obtain ⟨S, hS, -⟩ := h
  exact ⟨S, hS⟩

theorem grow (hle : m.terms <+: m'.terms) (h : s.Spells m T) : s.Spells m' T := by
  obtain ⟨S, hS, hspells⟩ := h
  exact ⟨S, hS, hspells.grow hle⟩

theorem insert (h : s.Spells m T) (ht : NodeTable.decodeTriple m t = .ok st) :
    ∃ fresh s', s.insert t = .ok (fresh, s') ∧ s'.Spells m (Insert.insert st T) := by
  obtain ⟨S, hS, hspells⟩ := h
  have hinsert := insert_of_real (real_of_decodeTriple ht) s
  exact ⟨_, _, hinsert, _, (hS.of_insert hinsert).2.1, hspells.insert ht⟩

theorem remove (h : s.Spells m T) (ht : NodeTable.decodeTriple m t = .ok st) :
    ∃ s', s.remove t = .ok (decide (st ∈ T), s') ∧ s'.Spells m (T.erase st) := by
  obtain ⟨S, hS, hspells⟩ := h
  have hremove := remove_of_real (real_of_decodeTriple ht) s
  obtain ⟨hfound, hdrop, -⟩ := hS.of_remove hremove
  have hanswer : (s.drop t).1 = decide (st ∈ T) := by
    rw [hspells.mem_iff ht] at hfound
    exact Bool.eq_iff_iff.mpr (hfound.trans decide_eq_true_iff.symm)
  exact ⟨_, hanswer ▸ hremove, _, hdrop, hspells.erase ht⟩

theorem size_eq (h : s.Spells m T) : s.size = T.card := by
  obtain ⟨S, hS, hspells⟩ := h
  rw [hS.size_eq, hspells.card_eq]

end IndexSet.Spells

/-- Triples whose ids the table gave spell some statements. -/
theorem MemoryTable.exists_spells {S : Finset IdTriple} (hS : ∀ t ∈ S, m.CoversAll t) :
    ∃ T, m.Spells S T := by
  induction S using Finset.induction_on with
  | empty => exact ⟨∅, .empty m⟩
  | insert t S _ ih =>
    rw [Finset.forall_mem_insert] at hS
    obtain ⟨T, hT⟩ := ih hS.2
    obtain ⟨st, hst⟩ := hS.1.exists_decodeTriple
    exact ⟨_, hT.insert hst⟩

theorem IndexSet.StoredOver.exists_spells {s : IndexSet} (hs : s.StoredOver m) :
    ∃ T, s.Spells m T := by
  obtain ⟨S, hS, hcovers⟩ := hs
  obtain ⟨T, hT⟩ := MemoryTable.exists_spells hcovers
  exact ⟨T, S, hS, hT⟩

namespace Graph

variable {g : Graph}

theorem statementSet_eq (h : g.indexes.Spells m T) : g.statementSet m = ↑T := by
  obtain ⟨S, hS, hspells⟩ := h
  have hr : ∀ t ∈ S, t.InRange := fun t ht => (hspells.covers ht).inRange
  ext st
  rw [mem_statementSet_iff, Finset.mem_coe]
  constructor
  · rintro ⟨t, ht, hst⟩
    exact (hspells.mem_iff hst).mp ((hS.contains_iff hr t).mp ht)
  · intro hst
    obtain ⟨t, ht, hdecode⟩ := hspells.encodes st hst
    exact ⟨t, (hS.contains_iff hr t).mpr ht, hdecode⟩

/-- The matches of a pattern are the stored statements that it admits, each once. -/
theorem exists_matches (h : g.indexes.Spells m T) (p : Pattern) :
    ∃ items : List Found, items.map Found.ids = g.matching m p ∧ (items.map Found.ids).Nodup ∧
      (∀ f ∈ items, NodeTable.decodeTriple m f.ids = .ok f.statement) ∧
      (items.map Found.statement).Nodup ∧ (items.map Found.statement).toFinset =
        T.filter (p.Admits g.capabilities.handlesLiteralTyping) := by
  obtain ⟨S, hS, hspells⟩ := h
  obtain ⟨hnodup, hmem⟩ := matching_spec hS (fun t ht => hspells.covers ht) p
  have hfound : ∀ t ∈ g.matching m p, ∃ st, NodeTable.decodeTriple m t = .ok st := fun t ht => by
    obtain ⟨-, st, hst, -⟩ := (hmem t).mp ht
    exact ⟨st, hst⟩
  obtain ⟨items, -, hids, hdecode⟩ := exists_found hfound
  rw [← hids] at hnodup
  refine ⟨items, hids, hnodup, hdecode, nodup_statements hnodup hdecode, ?_⟩
  ext st
  simp only [List.mem_toFinset, List.mem_map, Finset.mem_filter]
  constructor
  · rintro ⟨f, hf, rfl⟩
    obtain ⟨hin, st, hst, hadmits⟩ := (hmem f.ids).mp (hids ▸ List.mem_map_of_mem hf)
    obtain rfl := Except.ok.inj (hst.symm.trans (hdecode f hf))
    exact ⟨(hspells.mem_iff hst).mp hin, hadmits⟩
  · rintro ⟨hin, hadmits⟩
    obtain ⟨t, ht, hst⟩ := hspells.encodes st hin
    have hmatch : t ∈ items.map Found.ids := hids ▸ (hmem t).mpr ⟨ht, st, hst, hadmits⟩
    obtain ⟨f, hf, rfl⟩ := List.mem_map.mp hmatch
    exact ⟨f, hf, Except.ok.inj ((hdecode f hf).symm.trans hst)⟩

end Graph

namespace Draft

/-- The statements of the matches that are not pinned. -/
def loose (pinned : List IdTriple) (items : List Found) : List Statement :=
  (items.filter fun f => !pinned.contains f.ids).map Found.statement

variable {pinned : List IdTriple} {d : Draft MemoryTable} {f : Found} {items : List Found}

theorem loose_cons_of_pinned (h : pinned.contains f.ids = true) :
    loose pinned (f :: items) = loose pinned items := by
  rw [loose, List.filter_cons_of_neg (by simp only [h]; decide), loose]

theorem loose_cons (h : pinned.contains f.ids = false) :
    loose pinned (f :: items) = f.statement :: loose pinned items := by
  rw [loose, List.filter_cons_of_pos (by simp only [h]; decide), loose, List.map_cons]

/-- Deleting stored triples succeeds. It deletes those that are not pinned, and reports each. -/
theorem deleteAll_spec (pinned : List IdTriple) (h : d.indexes.Spells d.nodes T)
    (hids : (items.map Found.ids).Nodup)
    (hdecode : ∀ f ∈ items, NodeTable.decodeTriple d.nodes f.ids = .ok f.statement)
    (hstored : ∀ f ∈ items, f.statement ∈ T) :
    ∃ d', deleteAll pinned (items.map Found.ids) d = (.ok (), d') ∧ d'.nodes = d.nodes ∧
      d'.events = d.events ++ (loose pinned items).map .deleteTriple ∧
      d'.indexes.Spells d.nodes (T \ (loose pinned items).toFinset) := by
  induction items generalizing d T with
  | nil => exact ⟨d, rfl, rfl, by simp [loose], by simpa [loose] using h⟩
  | cons f items ih =>
    rw [List.forall_mem_cons] at hdecode hstored
    rw [List.map_cons, List.nodup_cons] at hids
    rw [List.map_cons, deleteAll, hdecode.1]
    cases hpinned : pinned.contains f.ids with
    | true =>
      rw [loose_cons_of_pinned hpinned]
      exact ih h hids.2 hdecode.2 hstored.2
    | false =>
      obtain ⟨indexes, hremove, hspells⟩ := h.remove hdecode.1
      rw [decide_eq_true hstored.1] at hremove
      have hrest : ∀ f' ∈ items, f'.statement ∈ T.erase f.statement := fun f' hf' => by
        have hdecode' := hdecode.2 f' hf'
        refine Finset.mem_erase.mpr ⟨fun he => hids.1 (List.mem_map.mpr ⟨f', hf', ?_⟩),
          hstored.2 f' hf'⟩
        exact decodeTriple_inj hdecode' (he ▸ hdecode.1)
      obtain ⟨d', hdelete, hnodes, hevents, hrestSpells⟩ := ih
        (d := report { d with indexes, changes := d.changes ++ [.removed f.ids] }
          (.deleteTriple f.statement)) hspells hids.2 hdecode.2 hrest
      rw [loose_cons hpinned]
      refine ⟨d', ?_, hnodes, ?_, ?_⟩
      · simp only [hremove]
        exact hdelete
      · rw [hevents, List.map_cons, report, List.append_assoc, List.singleton_append]
      · rwa [List.toFinset_cons, Finset.sdiff_insert, ← Finset.erase_sdiff_comm]

/-- Deleting all matches of a pattern succeeds. It deletes the statements that the pattern admits,
but for the pinned ones, and reports each once. -/
theorem deleteMatching_spec {g : Graph} (h : g.indexes.Spells d.nodes T)
    (hpinned : d.nodes.Spells g.pinned.toFinset P) (hd : d.indexes = g.indexes) (p : Pattern) :
    ∃ (d' : Draft MemoryTable) (gone : List Statement),
      deleteAll g.pinned (g.matching d.nodes p) d = (.ok (), d') ∧ gone.Nodup ∧
      gone.toFinset = (T \ P).filter (p.Admits g.capabilities.handlesLiteralTyping) ∧
      d'.nodes = d.nodes ∧ d'.events = d.events ++ gone.map .deleteTriple ∧
      d'.indexes.Spells d.nodes (T \ gone.toFinset) := by
  obtain ⟨items, hids, hnodup, hdecode, hdistinct, hmatches⟩ := Graph.exists_matches h p
  have hmem (st : Statement) : st ∈ items.map Found.statement ↔
      st ∈ T ∧ p.Admits g.capabilities.handlesLiteralTyping st := by
    rw [← List.mem_toFinset, hmatches, Finset.mem_filter]
  obtain ⟨d', hdelete, hnodes, hevents, hspells⟩ := deleteAll_spec g.pinned
    (hd ▸ h : d.indexes.Spells d.nodes T) hnodup hdecode
    fun f hf => ((hmem _).mp (List.mem_map_of_mem hf)).1
  refine ⟨d', loose g.pinned items, hids ▸ hdelete, ?_, ?_, hnodes, hevents, hspells⟩
  · exact hdistinct.sublist (List.filter_sublist.map _)
  · have hloose {f : Found} (hf : f ∈ items) :
        g.pinned.contains f.ids = false ↔ f.statement ∉ P := by
      rw [← hpinned.mem_iff (hdecode f hf), List.mem_toFinset, ← List.contains_iff_mem,
        Bool.not_eq_true]
    ext st
    simp only [loose, List.mem_toFinset, List.mem_map, List.mem_filter, Bool.not_eq_true',
      Finset.mem_filter, Finset.mem_sdiff]
    constructor
    · rintro ⟨f, ⟨hf, hout⟩, rfl⟩
      obtain ⟨hin, hadmits⟩ := (hmem _).mp (List.mem_map_of_mem hf)
      exact ⟨⟨hin, (hloose hf).mp hout⟩, hadmits⟩
    · rintro ⟨⟨hin, hout⟩, hadmits⟩
      obtain ⟨f, hf, rfl⟩ := List.mem_map.mp ((hmem st).mpr ⟨hin, hadmits⟩)
      exact ⟨f, ⟨hf, (hloose hf).mpr hout⟩, rfl⟩

end Draft

end TripleStore
