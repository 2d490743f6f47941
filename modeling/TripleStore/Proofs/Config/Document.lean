import Mathlib.Data.List.Nodup
import Mathlib.Tactic.Convert
import TripleStore.Config.Document
import TripleStore.Proofs.Json.Printer

/-!
# Saving and loading configurations

A saved configuration loads as itself. A document that holds some of the members of a saved one, in
whatever order and layout, loads as the configuration with these members and the defaults for the
others; the flags of the capabilities can be left out and put in another order by themselves.
-/

namespace TripleStore

namespace Json

open Spelling

/-- Strict JSON: documents are read as what they spell, and what is printed is a document. -/
structure Codec.Strict (codec : Codec) : Prop where
  read?_eq : ∀ {x text}, Document x text → codec.read? text = some x
  document : ∀ {x}, WellSpelled x → Document x (codec.print x)

theorem strict_laidOut : Codec.laidOut.Strict := ⟨Document.read?_eq, WellSpelled.document⟩

/-! ### Members by name -/

def ofMembers (ms : List (String × Json)) : Json := .object (ms.map fun m => member m.1 m.2)

/-- The members that are kept, in some order. -/
def Kept (keep : String → Bool) (all ms : List (String × Json)) : Prop :=
  ms.Perm (all.filter fun m => keep m.1)

theorem Kept.all (all : List (String × Json)) : Kept (fun _ => true) all all := by
  rw [Kept, List.filter_true]

theorem Kept.nodup {keep : String → Bool} {all ms : List (String × Json)} (h : Kept keep all ms)
    (hall : (all.map Prod.fst).Nodup) : (ms.map Prod.fst).Nodup :=
  (h.map Prod.fst).nodup_iff.2 (hall.sublist (List.filter_sublist.map Prod.fst))

theorem lookup_eq_some_iff_mem {ms : List (String × Json)} (hms : (ms.map Prod.fst).Nodup)
    {name : String} {x : Json} : ms.lookup name = some x ↔ (name, x) ∈ ms := by
  induction ms with
  | nil => simp
  | cons m ms ih =>
    obtain ⟨key, y⟩ := m
    rw [List.map_cons, List.nodup_cons] at hms
    by_cases hname : name = key
    · subst hname
      have hmem : (name, x) ∉ ms := fun h => hms.1 (List.mem_map.2 ⟨_, h, rfl⟩)
      simp [hmem, eq_comm]
    · have hne : (name == key) = false := beq_eq_false_iff_ne.2 hname
      simp [List.lookup_cons, hne, hname, ih hms.2]

/-- A member that is kept is found wherever it stands. -/
theorem Kept.lookup {keep : String → Bool} {all ms : List (String × Json)} (h : Kept keep all ms)
    (hall : (all.map Prod.fst).Nodup) (name : String) :
    ms.lookup name = if keep name then all.lookup name else none := by
  ext x
  rw [lookup_eq_some_iff_mem (h.nodup hall), h.mem_iff, List.mem_filter]
  split
  · next hkeep => simp [hkeep, lookup_eq_some_iff_mem hall]
  · next hkeep => simp [hkeep]

theorem named?_members (ms : List (String × Json)) :
    named? (ms.map fun m => member m.1 m.2) = some ms := by
  induction ms with
  | nil => rfl
  | cons m ms ih =>
    unfold named? at ih ⊢
    simp only [member] at ih
    simp [member, toString?_encode, ih]

theorem fields?_ofMembers (names : List String) {ms : List (String × Json)}
    (hms : (ms.map Prod.fst).Nodup) :
    fields? names (ofMembers ms) = some fun name => ms.lookup name := by
  have honce : ∀ name ∈ names, (ms.filter fun m => m.1 == name).length ≤ 1 := by
    intro name _
    have hcount : (ms.filter fun m => m.1 == name).length = (ms.map Prod.fst).count name := by
      rw [List.count, List.countP_map, List.countP_eq_length_filter]
      rfl
    rw [hcount]
    exact List.nodup_iff_count_le_one.1 hms name
  simpa [fields?, ofMembers, named?_members] using honce

/-- What a kept member says, if the member says something in the whole object. -/
theorem Kept.fit? {α : Type} {read? : Json → Option α} {keep : String → Bool}
    {all ms : List (String × Json)} (h : Kept keep all ms) (hall : (all.map Prod.fst).Nodup)
    {name : String} {x : Json} {a : α} (hx : all.lookup name = some x) (ha : read? x = some a) :
    fit? read? (ms.lookup name) = some (if keep name then some a else none) := by
  rw [h.lookup hall, hx]
  split
  · rw [Json.fit?, ha, Option.map_some]
  · rfl

theorem ofMembers_wellSpelled {ms : List (String × Json)} (hms : ∀ m ∈ ms, WellSpelled m.2) :
    WellSpelled (ofMembers ms) := by
  refine .object (fun m hm => ?_) fun m hm => ?_
  · obtain ⟨n, -, rfl⟩ := List.mem_map.1 hm
    exact encode_spelled _
  · obtain ⟨n, hn, rfl⟩ := List.mem_map.1 hm
    exact hms n hn

theorem Kept.wellSpelled {keep : String → Bool} {all ms : List (String × Json)}
    (h : Kept keep all ms) (hall : ∀ m ∈ all, WellSpelled m.2) : WellSpelled (ofMembers ms) :=
  ofMembers_wellSpelled fun m hm => hall m (List.mem_of_mem_filter (h.mem_iff.1 hm))

theorem text?_ofText (text : String) : text? (ofText text) = some text := toString?_encode text

theorem ofText_wellSpelled (text : String) : WellSpelled (ofText text) := .string (encode_spelled _)

end Json

open Json

/-! ### Capabilities -/

namespace Capabilities

def members (c : Capabilities) : List (String × Json) := fieldNames.zip (c.flags.map Json.bool)

/-- The flags that are kept, the others at their defaults. -/
def keeping (keep : String → Bool) (c : Capabilities) : Capabilities :=
  let defaults : Capabilities := {}
  { sizeAccurate := if keep "size_accurate" then c.sizeAccurate else defaults.sizeAccurate
    addAllowed := if keep "add_allowed" then c.addAllowed else defaults.addAllowed
    addAllowedChecked :=
      if keep "add_allowed_checked" then c.addAllowedChecked else defaults.addAllowedChecked
    deleteAllowed := if keep "delete_allowed" then c.deleteAllowed else defaults.deleteAllowed
    deleteAllowedChecked :=
      if keep "delete_allowed_checked" then c.deleteAllowedChecked
      else defaults.deleteAllowedChecked
    canBeEmpty := if keep "can_be_empty" then c.canBeEmpty else defaults.canBeEmpty
    iteratorRemoveAllowed :=
      if keep "iterator_remove_allowed" then c.iteratorRemoveAllowed
      else defaults.iteratorRemoveAllowed
    handlesLiteralTyping :=
      if keep "handles_literal_typing" then c.handlesLiteralTyping
      else defaults.handlesLiteralTyping }

theorem toJson_eq (c : Capabilities) : c.toJson = ofMembers c.members := rfl

theorem members_nodup (c : Capabilities) : (c.members.map Prod.fst).Nodup := by
  have hnames : c.members.map Prod.fst = fieldNames := rfl
  rw [hnames]
  decide

theorem ofJson?_kept {keep : String → Bool} {c : Capabilities} {ms : List (String × Json)}
    (h : Kept keep c.members ms) : ofJson? (ofMembers ms) = some (c.keeping keep) := by
  have hfields := fields?_ofMembers fieldNames (h.nodup c.members_nodup)
  have hflag : ∀ (name : String) (flag : Bool), c.members.lookup name = some (.bool flag) →
      (fit? bool? (ms.lookup name)).map (fun b => b.getD true) =
        some (if keep name then flag else true) := by
    intro name flag hname
    rw [h.fit? c.members_nodup hname (a := flag) rfl]
    split <;> rfl
  simp only [ofJson?, hfields, Option.bind_eq_bind, Option.bind_some, Option.pure_def,
    hflag "size_accurate" c.sizeAccurate rfl, hflag "add_allowed" c.addAllowed rfl,
    hflag "add_allowed_checked" c.addAllowedChecked rfl,
    hflag "delete_allowed" c.deleteAllowed rfl,
    hflag "delete_allowed_checked" c.deleteAllowedChecked rfl,
    hflag "can_be_empty" c.canBeEmpty rfl,
    hflag "iterator_remove_allowed" c.iteratorRemoveAllowed rfl,
    hflag "handles_literal_typing" c.handlesLiteralTyping rfl, keeping]

theorem members_wellSpelled (c : Capabilities) : ∀ m ∈ c.members, WellSpelled m.2 := by
  intro m hm
  obtain ⟨flag, -, hflag⟩ := List.mem_map.1 (List.of_mem_zip hm).2
  rw [← hflag]
  exact .bool flag

end Capabilities

namespace Config

def members (c : Config) (capabilities : Json) : List (String × Json) :=
  [("name", ofText c.name), ("capabilities", capabilities),
   ("index_orders", .array (c.indexOrders.map fun o => ofText o.text)),
   ("transactions", .bool c.transactions)]

/-- The members and flags that are kept, the others at their defaults. -/
def keeping (keep keepFlag : String → Bool) (c : Config) : Config :=
  let defaults : Config := {}
  { name := if keep "name" then c.name else defaults.name
    capabilities :=
      if keep "capabilities" then c.capabilities.keeping keepFlag else defaults.capabilities
    indexOrders := if keep "index_orders" then c.indexOrders else defaults.indexOrders
    transactions := if keep "transactions" then c.transactions else defaults.transactions }

theorem toJson_eq (c : Config) : c.toJson = ofMembers (c.members c.capabilities.toJson) := rfl

theorem members_nodup (c : Config) (capabilities : Json) :
    ((c.members capabilities).map Prod.fst).Nodup := by
  have hnames : (c.members capabilities).map Prod.fst = fieldNames := rfl
  rw [hnames]
  decide

theorem order_ofJson? (o : IndexOrder) : IndexOrder.ofJson? (ofText o.text) = some o := by
  have hname : IndexOrder.ofText? o.text = some o := by cases o <;> decide
  rw [ofText, IndexOrder.ofJson?, Spelling.toString?_encode, Option.bind_some, hname]

theorem orders?_ofText (os : List IndexOrder) :
    orders? (.array (os.map fun o => ofText o.text)) = some os := by
  unfold orders?
  induction os with
  | nil => rfl
  | cons o os ih =>
    dsimp only at ih ⊢
    simp [order_ofJson?, ih]

theorem getD_kept {α : Type} (keep : Bool) (a d : α) :
    (if keep then some a else none).getD d = if keep then a else d := by
  split <;> rfl

theorem ofJson?_kept {keep keepFlag : String → Bool} {c : Config}
    {flags ms : List (String × Json)} (hflags : Kept keepFlag c.capabilities.members flags)
    (hms : Kept keep (c.members (ofMembers flags)) ms) :
    ofJson? (ofMembers ms) = some (c.keeping keep keepFlag) := by
  have hnodup := c.members_nodup (ofMembers flags)
  have hfields := fields?_ofMembers fieldNames (hms.nodup hnodup)
  have hname : fit? text? (ms.lookup "name") = some (if keep "name" then some c.name else none) :=
    hms.fit? hnodup rfl (text?_ofText c.name)
  have hcapabilities : fit? Capabilities.ofJson? (ms.lookup "capabilities") =
      some (if keep "capabilities" then some (c.capabilities.keeping keepFlag) else none) :=
    hms.fit? hnodup rfl (Capabilities.ofJson?_kept hflags)
  have horders : fit? orders? (ms.lookup "index_orders") =
      some (if keep "index_orders" then some c.indexOrders else none) :=
    hms.fit? hnodup rfl (orders?_ofText c.indexOrders)
  have htransactions : fit? bool? (ms.lookup "transactions") =
      some (if keep "transactions" then some c.transactions else none) :=
    hms.fit? hnodup rfl rfl
  simp only [ofJson?, hfields, Option.bind_eq_bind, Option.bind_some, Option.pure_def, hname,
    hcapabilities, horders, htransactions, Settings.fill, keeping, getD_kept]

theorem keeping_all (c : Config) : c.keeping (fun _ => true) (fun _ => true) = c := rfl

theorem members_wellSpelled (c : Config) {capabilities : Json} (h : WellSpelled capabilities) :
    ∀ m ∈ c.members capabilities, WellSpelled m.2 := by
  intro m hm
  simp only [members, List.mem_cons, List.not_mem_nil, or_false] at hm
  rcases hm with rfl | rfl | rfl | rfl
  · exact ofText_wellSpelled _
  · exact h
  · refine .array fun x hx => ?_
    obtain ⟨o, -, rfl⟩ := List.mem_map.1 hx
    exact ofText_wellSpelled _
  · exact .bool _

section

variable {codec : Json.Codec} (hcodec : codec.Strict)

include hcodec

theorem load?_kept {keep keepFlag : String → Bool} {c : Config} {flags ms : List (String × Json)}
    {text : String} (hflags : Kept keepFlag c.capabilities.members flags)
    (hms : Kept keep (c.members (ofMembers flags)) ms)
    (htext : Document (ofMembers ms) text.toList) :
    load? codec text = some (c.keeping keep keepFlag) := by
  rw [load?, hcodec.read?_eq htext, Option.bind_some, ofJson?_kept hflags hms]

/-- What a configuration is saved as is one of the documents that keep every member. -/
theorem load?_save (c : Config) : load? codec (c.save codec) = some c := by
  have hspelled : WellSpelled c.toJson := by
    rw [toJson_eq, Capabilities.toJson_eq]
    exact ofMembers_wellSpelled
      (c.members_wellSpelled (ofMembers_wellSpelled c.capabilities.members_wellSpelled))
  have hsaved : Document c.toJson (c.save codec).toList := by
    rw [save, String.toList_ofList]
    exact hcodec.document hspelled
  have hload := load?_kept hcodec (.all c.capabilities.members) (.all _) hsaved
  rwa [keeping_all] at hload

/-- A saved configuration loads as itself, and what is left of its document when members and flags
are dropped, in any order and layout, loads with the defaults in their place. -/
theorem load?_save_and_kept (c : Config) :
    load? codec (c.save codec) = some c ∧
      ∀ (keep keepFlag : String → Bool) (flags ms : List (String × Json)) (text : String),
        Kept keepFlag c.capabilities.members flags → Kept keep (c.members (ofMembers flags)) ms →
        Document (ofMembers ms) text.toList →
          load? codec text = some (c.keeping keep keepFlag) :=
  ⟨load?_save hcodec c, fun _ _ _ _ _ => load?_kept hcodec⟩

end

/-- One flag and three members are kept, in reverse; the name holds a quote, a backslash and a
control. -/
theorem load?_save_and_kept_reversed :
    Codec.laidOut.Strict ∧ load? .laidOut
      ("\x7b\n  \"index_orders\": [\n    \"POS\",\n    \"POS\"\n  ],\n" ++
        "  \"capabilities\": \x7b\n    \"add_allowed\": false\n  \x7d,\n" ++
        "  \"name\": \"a\\\"b\\\\\\u0001\"\n\x7d") =
      some { name := "a\"b\\\x01", capabilities := { addAllowed := false },
             indexOrders := [.pos, .pos] } := by
  let c : Config :=
    { name := "a\"b\\\x01", capabilities := .readOnly, indexOrders := [.pos, .pos],
      transactions := false }
  let flags : List (String × Json) := [("add_allowed", .bool false)]
  let ms := ((c.members (ofMembers flags)).filter fun m => m.1 != "transactions").reverse
  have hflags : Kept (· == "add_allowed") c.capabilities.members flags := .rfl
  have hms : Kept (· != "transactions") (c.members (ofMembers flags)) ms := List.reverse_perm _
  have hspelled : WellSpelled (ofMembers ms) :=
    hms.wellSpelled (c.members_wellSpelled (hflags.wellSpelled c.capabilities.members_wellSpelled))
  have hload := (load?_save_and_kept strict_laidOut c).2 _ _ flags ms
    (String.ofList ((ofMembers ms).print 0)) hflags hms
    (by rw [String.toList_ofList]; exact hspelled.document)
  have htext : String.ofList ((ofMembers ms).print 0) =
      "\x7b\n  \"index_orders\": [\n    \"POS\",\n    \"POS\"\n  ],\n" ++
        "  \"capabilities\": \x7b\n    \"add_allowed\": false\n  \x7d,\n" ++
        "  \"name\": \"a\\\"b\\\\\\u0001\"\n\x7d" := by decide +kernel
  rw [htext] at hload
  exact ⟨strict_laidOut, hload⟩

end Config

end TripleStore
