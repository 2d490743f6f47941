import Mathlib.Data.List.Forall2
import TripleStore.Index.Sorted
import TripleStore.Proofs.Record.Bytes

/-!
# Keys of an index

The key of a triple is told apart from all others as long as its ids are real. What it reads back
as hangs on the bits of the ids alone, and is the triple exactly if every id is told by its bits.
Keys sort like the raw ids in the columns of the index.
-/

namespace TripleStore

theorem Triple.ext_toList {α : Type} {t u : Triple α} (h : t.toList = u.toList) : t = u := by
  cases t
  cases u
  simpa [toList] using h

theorem Triple.allSome?_eq_some_iff {α : Type} {t : Triple (Option α)} {u : Triple α} :
    t.allSome? = some u ↔
      t.subject = some u.subject ∧ t.predicate = some u.predicate ∧ t.object = some u.object := by
  cases u
  simp [allSome?, Option.bind_eq_some_iff]

namespace IdTriple

def Real (t : IdTriple) : Prop := ∀ id ∈ t.toList, id.isReal = true

/-- Every id of the triple is told by its bits. -/
def InRange (t : IdTriple) : Prop := ∀ id ∈ t.toList, id.InRange

instance (t : IdTriple) : Decidable t.Real :=
  inferInstanceAs (Decidable (∀ id ∈ t.toList, id.isReal = true))

instance (t : IdTriple) : Decidable t.InRange :=
  inferInstanceAs (Decidable (∀ id ∈ t.toList, id.InRange))

theorem mark?_eq_none_iff (t : IdTriple) : t.mark? = none ↔ t.Real := by
  simp [mark?, Real, List.find?_eq_none]

theorem mem_toList_permute {order : IndexOrder} {t : IdTriple} {id : NodeId} :
    id ∈ (order.permute t).toList ↔ id ∈ t.toList := by
  cases order <;> simp only [IndexOrder.permute, Triple.toList] <;> grind

def rawColumns (order : IndexOrder) (t : IdTriple) : List UInt64 :=
  (order.permute t).toList.map NodeId.toRaw

/-- The triple comes before the other one in an order. -/
def Before (order : IndexOrder) (t u : IdTriple) : Prop := t.rawColumns order < u.rawColumns order

instance (order : IndexOrder) (t u : IdTriple) : Decidable (Before order t u) :=
  inferInstanceAs (Decidable (t.rawColumns order < u.rawColumns order))

theorem nodup_of_pairwise_before {order : IndexOrder} {ts : List IdTriple}
    (h : ts.Pairwise (Before order)) : ts.Nodup :=
  h.imp fun {t u} (hlt : Before order t u) (he : t = u) => List.lt_irrefl _ (he ▸ hlt)

/-- The triple that the bits of the ids stand for, if each of them stands for an id. -/
def readBack? (t : IdTriple) : Option IdTriple := (t.map NodeId.readBack?).allSome?

theorem readBack?_eq_self_iff (t : IdTriple) : t.readBack? = some t ↔ t.InRange := by
  rw [readBack?, Triple.allSome?_eq_some_iff]
  simp [Triple.map, Triple.toList, InRange, NodeId.readBack?_eq_self_iff]

/-- Triples of real ids are told apart by their bits, so one reads back as itself or not as one. -/
theorem eq_of_readBack?_of_real {t u : IdTriple} (h : t.readBack? = some u) (ht : t.Real)
    (hu : u.Real) : u = t := by
  obtain ⟨hs, hp, ho⟩ := Triple.allSome?_eq_some_iff.mp h
  simp only [Real, Triple.toList, List.forall_mem_cons] at ht hu
  have hid {id id' : NodeId} (hback : id.readBack? = some id') (hid : id.isReal)
      (hid' : id'.isReal) : id' = id :=
    NodeId.toRaw_injective_of_isReal hid' hid (NodeId.toRaw_of_readBack? hback)
  apply Triple.ext_toList
  simp only [Triple.toList, hid hs ht.1 hu.1, hid hp ht.2.1 hu.2.1, hid ho ht.2.2.1 hu.2.2.1]

theorem rawColumns_of_readBack? {t u : IdTriple} (h : t.readBack? = some u) (order : IndexOrder) :
    u.rawColumns order = t.rawColumns order := by
  obtain ⟨hs, hp, ho⟩ := Triple.allSome?_eq_some_iff.mp h
  have hraw {id id' : NodeId} (hback : id.readBack? = some id') : id'.toRaw = id.toRaw :=
    NodeId.toRaw_of_readBack? hback
  cases order <;>
    simp only [rawColumns, IndexOrder.permute, Triple.toList, List.map_cons, hraw hs, hraw hp,
      hraw ho]

/-- What ascending triples read back as ascends too, and so nothing twice. -/
theorem pairwise_readBack? {order : IndexOrder} {ts : List IdTriple}
    (h : ts.Pairwise (Before order)) : (ts.filterMap readBack?).Pairwise (Before order) := by
  refine h.filterMap _ fun t t' hlt u hu u' hu' => ?_
  rw [Before, rawColumns_of_readBack? hu, rawColumns_of_readBack? hu']
  exact hlt

def Matches (pattern t : IdTriple) : Prop :=
  (pattern.subject = .any ∨ pattern.subject = t.subject) ∧
    (pattern.predicate = .any ∨ pattern.predicate = t.predicate) ∧
    (pattern.object = .any ∨ pattern.object = t.object)

instance (pattern t : IdTriple) : Decidable (Matches pattern t) :=
  inferInstanceAs (Decidable (_ ∧ _ ∧ _))

theorem admits_iff (pattern id : NodeId) :
    admits pattern id = true ↔ pattern = .any ∨ pattern = id := by
  cases pattern <;> simp [admits, NodeId.isAny]

theorem isMatch_iff (pattern t : IdTriple) : isMatch pattern t = true ↔ Matches pattern t := by
  simp only [isMatch, Matches, Bool.and_eq_true, admits_iff, and_assoc]

/-- A match agrees with the pattern column by column, whatever the order. -/
theorem forall₂_permute_of_isMatch {pattern t : IdTriple} (h : isMatch pattern t = true)
    (order : IndexOrder) :
    List.Forall₂ (fun p id => p = NodeId.any ∨ p = id) (order.permute pattern).toList
      (order.permute t).toList := by
  obtain ⟨hs, hp, ho⟩ := (isMatch_iff pattern t).mp h
  cases order <;> simp [IndexOrder.permute, Triple.toList, hs, hp, ho]

end IdTriple

namespace TripleIndex

theorem length_columnBytes (ids : List NodeId) :
    (columnBytes ids).length = ids.length * NodeId.size := by
  induction ids with
  | nil => rfl
  | cons id ids ih =>
    rw [columnBytes, List.flatMap_cons, ← columnBytes, List.length_append, ih,
      NodeId.length_toBytes, List.length_cons, Nat.succ_mul, Nat.add_comm]

theorem columnBytes_cons (id : NodeId) (ids : List NodeId) :
    columnBytes (id :: ids) = id.toBytes ++ columnBytes ids := rfl

/-- Bytes of ids sort like their raw ids. -/
theorem columnBytes_lt_iff {ids others : List NodeId} (h : ids.length = others.length) :
    columnBytes ids < columnBytes others ↔
      ids.map NodeId.toRaw < others.map NodeId.toRaw := by
  induction ids generalizing others with
  | nil =>
    obtain rfl := List.eq_nil_of_length_eq_zero h.symm
    simp [columnBytes]
  | cons a ids ih =>
    cases others with
    | nil => simp at h
    | cons b others =>
      have hl : (NodeId.toBytes a).length = (NodeId.toBytes b).length := by simp
      rw [columnBytes_cons, columnBytes_cons, Bytes.append_lt_append_iff hl,
        ih (by simpa using h), NodeId.toBytes_lt_iff, NodeId.toBytes_eq_iff, List.map_cons,
        List.map_cons, List.cons_lt_cons_iff]

/-- Ids that are told by their bits are told by their bytes. -/
theorem columnBytes_inj {P Q : NodeId → Prop}
    (hP : ∀ a b, P a → Q b → a.toRaw = b.toRaw → a = b) {ids others : List NodeId}
    (hl : ids.length = others.length) (hi : ∀ id ∈ ids, P id) (ho : ∀ id ∈ others, Q id)
    (h : columnBytes ids = columnBytes others) : ids = others := by
  induction ids generalizing others with
  | nil => exact (List.eq_nil_of_length_eq_zero hl.symm).symm
  | cons a ids ih =>
    cases others with
    | nil => simp at hl
    | cons b others =>
      simp only [List.forall_mem_cons] at hi ho
      rw [columnBytes_cons, columnBytes_cons] at h
      obtain ⟨hhead, htail⟩ := List.append_inj h (by simp)
      rw [hP a b hi.1 ho.1 ((NodeId.toBytes_eq_iff a b).mp hhead),
        ih (by simpa using hl) hi.2 ho.2 htail]

/-- The bytes that a pattern fixes are those that every match starts with. -/
theorem columnBytes_prefix {pattern ids : List NodeId}
    (h : List.Forall₂ (fun p id => p = NodeId.any ∨ p = id) pattern ids) :
    columnBytes (pattern.takeWhile fun id => !id.isAny) <+: columnBytes ids := by
  induction h with
  | nil => exact List.prefix_rfl
  | @cons p id pattern ids hp _ ih =>
    cases hany : p.isAny with
    | true => simp [hany, columnBytes]
    | false =>
      have hid : p = id := hp.resolve_left fun he => by simp [he, NodeId.isAny] at hany
      rw [List.takeWhile_cons_of_pos (by simp [hany]), columnBytes_cons, columnBytes_cons, hid]
      exact (List.prefix_append_right_inj _).mpr ih

variable (x : TripleIndex) {t u : IdTriple}

theorem key_lt_iff : x.key t < x.key u ↔ IdTriple.Before x.order t u :=
  columnBytes_lt_iff (by simp [Triple.toList])

@[simp] theorem length_key (t : IdTriple) : (x.key t).length = Shape.indexKey.keyLength := by
  rw [key, length_columnBytes]
  rfl

theorem key_inj {P Q : NodeId → Prop} (hP : ∀ a b, P a → Q b → a.toRaw = b.toRaw → a = b)
    (ht : ∀ id ∈ t.toList, P id) (hu : ∀ id ∈ u.toList, Q id) : x.key t = x.key u ↔ t = u := by
  refine ⟨fun h => ?_, fun h => h ▸ rfl⟩
  have hcols : (x.order.permute t).toList = (x.order.permute u).toList :=
    columnBytes_inj hP (by simp [Triple.toList])
      (fun id hid => ht id (IdTriple.mem_toList_permute.mp hid))
      (fun id hid => hu id (IdTriple.mem_toList_permute.mp hid)) h
  have hperm := congrArg x.order.unpermute (Triple.ext_toList hcols)
  rwa [IndexOrder.unpermute_permute, IndexOrder.unpermute_permute] at hperm

theorem key_inj_of_real (ht : t.Real) (hu : u.Real) : x.key t = x.key u ↔ t = u :=
  x.key_inj (fun _ _ => NodeId.toRaw_injective_of_isReal) ht hu

/-- No other triple at all has the key of a triple of real ids that are told by their bits. -/
theorem key_inj_of_real_of_inRange (hu : u.Real) (hr : u.InRange) : x.key t = x.key u ↔ t = u :=
  x.key_inj (P := fun _ => True) (Q := fun id => id.isReal = true ∧ id.InRange)
    (fun _ _ _ h => NodeId.toRaw_injective_right h.1 h.2) (fun _ _ => trivial)
    (fun id hid => ⟨hu id hid, hr id hid⟩)

theorem fixedBytes_prefix_key {pattern : IdTriple} (h : IdTriple.isMatch pattern t = true) :
    x.fixedBytes pattern <+: x.key t :=
  columnBytes_prefix (IdTriple.forall₂_permute_of_isMatch h x.order)

/-- A key is read column by column. -/
theorem decode_columnBytes (a b c : NodeId) :
    x.decode (columnBytes [a, b, c]) =
      (Triple.mk a.readBack? b.readBack? c.readBack?).allSome?.map x.order.unpermute := by
  have hkey : columnBytes [a, b, c] = a.toBytes ++ (b.toBytes ++ (c.toBytes ++ [])) := rfl
  have hl (id : NodeId) : id.toBytes.length = 8 := NodeId.length_toBytes id
  have hdrop₁ : (columnBytes [a, b, c]).drop 8 = b.toBytes ++ (c.toBytes ++ []) := by
    rw [hkey, List.drop_left' (hl a)]
  have hdrop₂ : (columnBytes [a, b, c]).drop 16 = c.toBytes ++ [] := by
    rw [show 16 = 8 + 8 from rfl, ← List.drop_drop, hdrop₁, List.drop_left' (hl b)]
  rw [decode, hdrop₁, hdrop₂, hkey, List.take_left' (hl a), List.take_left' (hl b),
    List.take_left' (hl c)]
  simp only [NodeId.ofBytes_toBytes, Triple.allSome?, Option.bind_eq_bind, Option.map_bind,
    Function.comp_def]
  rfl

/-- Whatever the order of the columns, a key reads back as what the bits of the ids stand for. -/
theorem decode_key_eq (t : IdTriple) : x.decode (x.key t) = t.readBack? := by
  ext u
  have hcolumns (v : IdTriple) : x.order.unpermute v = u ↔ v = x.order.permute u := by
    constructor
    · rintro rfl
      rw [IndexOrder.permute_unpermute]
    · rintro rfl
      rw [IndexOrder.unpermute_permute]
  rw [key, Triple.toList, decode_columnBytes, Option.map_eq_some_iff, IdTriple.readBack?]
  simp only [hcolumns, exists_eq_right, Triple.allSome?_eq_some_iff, Triple.map]
  cases x.order with
  | spo => rfl
  | pos => exact and_rotate.symm
  | osp => exact and_rotate

/-- A key reads back as its triple if every id is told by its bits. -/
theorem decode_key (ht : t.InRange) : x.decode (x.key t) = some t := by
  rw [decode_key_eq, (IdTriple.readBack?_eq_self_iff t).mpr ht]

/-- The key of a triple whose ids are told by their bits is that of no other such triple. -/
theorem key_inj_of_inRange (ht : t.InRange) (hu : u.InRange) : x.key t = x.key u ↔ t = u :=
  ⟨fun h => Option.some.inj ((x.decode_key ht).symm.trans
    ((congrArg x.decode h).trans (x.decode_key hu))), congrArg x.key⟩

/-- A key is made of the bits of the ids. -/
theorem key_eq (t : IdTriple) :
    x.key t = (t.rawColumns x.order).flatMap fun raw => Bytes.ofNat NodeId.size raw.toNat := by
  rw [key, columnBytes, IdTriple.rawColumns, List.flatMap_map]
  rfl

/-- Whatever a triple reads back as has the same key. -/
theorem key_of_readBack? (h : t.readBack? = some u) : x.key u = x.key t := by
  rw [key_eq, key_eq, IdTriple.rawColumns_of_readBack? h]

end TripleIndex

end TripleStore
