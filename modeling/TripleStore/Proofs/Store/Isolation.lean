import Mathlib.Logic.Function.Basic
import TripleStore.Proofs.Graph.Refinement
import TripleStore.Proofs.Graph.Turn

/-!
# Graphs that share a node table

The graphs of a store give ids to their terms from one table, so the ids of a graph depend on what
the others did before. What it answers does not: whatever is done with other graphs, a graph answers
as it would alone with a table of its own. Both runs are compared with the content of the graph, in
which there are no ids.
-/

namespace TripleStore

open MemoryTable

/-- What a reply tells, whatever ids the terms have. -/
inductive Shown where
  | done (result : Except Error Report)
  | flag (result : Except Error Bool)
  | count (result : Except Error Nat)
  | items (result : Except Error (Multiset (Except Error Statement)))

/-- The reply with ids left out, and with the order of matches and of deletions left open. -/
def Reply.shown : Reply → Shown
  | .done result => .done (result.map Report.ofEvents)
  | .flag result => .flag result
  | .count result => .count result
  | .items result =>
    .items (result.map fun items => ↑(items.map fun item => item.map Found.statement))

namespace Content

/-- What a content replies to an operation of a thread. -/
def reply (who : Thread) (c : Content) : Operation → Shown
  | .request r => .done (c.perform who r).2
  | .contains p =>
    .flag (if c.closed then .error .closed else .ok (decide (c.matching p).Nonempty))
  | .size => .count (if c.closed then .error .closed else .ok c.stored.card)
  | .find p => .items (if c.closed then .error .closed else .ok ((c.matching p).val.map .ok))
  | .inTransaction => .flag (.ok (c.inTransaction who))

def take (who : Thread) (c : Content) : Operation → Content
  | .request r => (c.perform who r).1
  | _ => c

end Content

def Turn.table {τ : Type} [NodeTable τ] (t : Turn τ) (g : Graph) : τ :=
  match t.op with
  | .request r => (g.perform t.who t.nodes r).nodes
  | _ => t.nodes

/-- The graphs of a store, at places of the caller's choice. -/
structure Store where
  nodes : MemoryTable := .empty
  graphs : Nat → Option Graph := fun _ => none

namespace Store

/-- What is asked of a store. -/
inductive Act where
  /-- Makes a graph at a place, which loses the one it had. -/
  | create (place : Nat) (config : Config) (statements : List Pattern)
  | turn (place : Nat) (who : Thread) (op : Operation)

namespace Act

def place : Act → Nat
  | .create place _ _ | .turn place _ _ => place

/-- The terms that may get ids. -/
def names : Act → List Term
  | .create _ _ statements => statements.flatMap Pattern.terms
  | .turn _ _ (.request r) => r.asks.flatMap Pattern.terms
  | .turn _ _ _ => []

/-- The act says what it is about in statements, not by ids found before. -/
def Explicit (a : Act) : Prop :=
  ∀ place who found, a ≠ .turn place who (.request (.removeFound found))

end Act

def act (s : Store) : Act → Option Reply × Store
  | .create place config statements =>
    match Graph.createPinned config s.nodes statements with
    | (.error e, nodes) =>
      (some (.done (.error e)), ⟨nodes, Function.update s.graphs place none⟩)
    | (.ok g, nodes) => (some (.done (.ok [])), ⟨nodes, Function.update s.graphs place (some g)⟩)
  | .turn place who op =>
    match s.graphs place with
    | none => (none, s)
    | some g =>
      let t : Turn MemoryTable := ⟨who, s.nodes, op⟩
      (some (t.reply g), ⟨t.table g, Function.update s.graphs place (some (t.take g))⟩)

def after (s : Store) (history : List Act) : Store := history.foldl (fun s a => (s.act a).2) s

/-- What is replied at a place in a history. -/
def replies (place : Nat) (s : Store) : List Act → List Reply
  | [] => []
  | a :: rest =>
    (if a.place = place then (s.act a).1.toList else []) ++ replies place (s.act a).2 rest

end Store

/-- What an act at its place replies and leaves. -/
def Content.act (c : Option Content) : Store.Act → Option Shown × Option Content
  | .create _ config statements =>
    match Content.create config statements with
    | .error e => (some (.done (.error e)), none)
    | .ok c' => (some (.done (.ok (.ofEvents []))), some c')
  | .turn _ who op =>
    match c with
    | none => (none, none)
    | some c => (some (c.reply who op), some (c.take who op))

/-- What acts at one place reply. -/
def Content.replies (c : Option Content) : List Store.Act → List Shown
  | [] => []
  | a :: rest => (Content.act c a).1.toList ++ Content.replies (Content.act c a).2 rest

namespace Graph.Holds

variable {g : Graph} {m : MemoryTable} {c : Content}

/-- The matches that a graph finds are those of its content, and are told by `contains`. -/
theorem findAll (h : g.Holds m c) (p : Pattern) : ∃ items : List Found,
    g.findAll m p = (if c.closed then .error .closed else .ok (items.map .ok)) ∧
      ↑(items.map Found.statement) = (c.matching p).val ∧
      g.contains m p =
        (if c.closed then .error .closed else .ok (decide (c.matching p).Nonempty)) := by
  obtain ⟨S, hS, hspells⟩ := h.stored
  obtain ⟨items, -, hfind, hnodup, hmem, hcontains⟩ :=
    findAll_spec hS (fun t ht => hspells.covers ht) p
  have hset : (items.map Found.statement).toFinset = c.matching p := by
    ext st
    rw [List.mem_toFinset, hmem, statementSet_eq h.stored, Content.matching,
      Finset.mem_filter, capabilities, h.config, Finset.mem_coe]
  have hnonempty : (!items.isEmpty) = decide (c.matching p).Nonempty := by
    rw [← hset, Bool.eq_iff_iff, decide_eq_true_iff, List.toFinset_nonempty_iff]
    simp
  rw [h.closed] at hfind hcontains
  refine ⟨items, hfind, ?_, hnonempty ▸ hcontains⟩
  rw [← hset, List.toFinset_val, hnodup.dedup]

/-- A graph answers what its content says. -/
theorem shown_reply (h : g.Holds m c) (who : Thread) {op : Operation}
    (hfits : ∀ r, op = .request r → r.Fits m) :
    (Turn.reply ⟨who, m, op⟩ g).shown = c.reply who op := by
  cases op with
  | request r => exact congrArg Shown.done (follows_perform h who (hfits r rfl)).result
  | contains p =>
    obtain ⟨items, -, -, hcontains⟩ := h.findAll p
    exact congrArg Shown.flag hcontains
  | size =>
    refine congrArg Shown.count ?_
    rw [Graph.size, h.closed, h.stored.size_eq]
  | find p =>
    obtain ⟨items, hfind, hmatching, -⟩ := h.findAll p
    refine congrArg Shown.items ?_
    show (g.findAll m p).map _ = _
    rw [hfind]
    split
    · rfl
    · rw [Except.map, ← hmatching, Multiset.map_coe, List.map_map, List.map_map]
      rfl
  | inTransaction => exact congrArg (fun b => Shown.flag (.ok b)) (h.inTransaction who)

/-- After a turn the graph has the content after the operation. -/
theorem turn {names : Finset Term} (h : g.Holds m c) (hm : m.Within names) (who : Thread)
    {op : Operation} (hop : ∀ r, op = .request r → r.Fits m ∧
      ∀ p ∈ r.asks, ∀ t ∈ p.terms, t ∈ names) :
    let t : Turn MemoryTable := ⟨who, m, op⟩
    (t.table g).Within names ∧ m.terms <+: (t.table g).terms ∧
      (t.take g).Holds (t.table g) (c.take who op) := by
  intro t
  cases op with
  | request r =>
    obtain ⟨hfits, hasks⟩ := hop r rfl
    exact ⟨within_perform hm h.stored.inStep who hasks, h.nodes_perform who r,
      (follows_perform h who hfits).holds⟩
  | contains p => exact ⟨hm, List.prefix_rfl, h⟩
  | size => exact ⟨hm, List.prefix_rfl, h⟩
  | find p => exact ⟨hm, List.prefix_rfl, h⟩
  | inTransaction => exact ⟨hm, List.prefix_rfl, h⟩

end Graph.Holds

namespace Store

/-- The table has terms of these names only, and each place a graph with its content. -/
structure Holds (names : Finset Term) (s : Store) (contents : Nat → Option Content) : Prop where
  within : s.nodes.Within names
  graphs : ∀ place, Option.Rel (fun g c => g.Holds s.nodes c) (s.graphs place) (contents place)

variable {names : Finset Term} {s : Store} {contents : Nat → Option Content} {a : Act}

theorem Holds.update (h : s.Holds names contents) {m : MemoryTable} (hm : m.Within names)
    (hle : s.nodes.terms <+: m.terms) (place : Nat) {g : Option Graph} {c : Option Content}
    (hg : Option.Rel (fun g c => g.Holds m c) g c) :
    Holds names ⟨m, Function.update s.graphs place g⟩ (Function.update contents place c) := by
  refine ⟨hm, fun other => ?_⟩
  by_cases he : other = place
  · subst he
    simp only [Function.update_self]
    exact hg
  · simp only [Function.update_of_ne he]
    have hother := h.graphs other
    generalize s.graphs other = g', contents other = c' at hother ⊢
    cases hother with
    | none => exact .none
    | some hg' => exact .some (hg'.grow hle)

theorem Holds.cases (h : s.Holds names contents) (place : Nat) :
    (s.graphs place = none ∧ contents place = none) ∨
      ∃ g c, s.graphs place = some g ∧ contents place = some c ∧ g.Holds s.nodes c := by
  have hplace := h.graphs place
  generalize s.graphs place = g, contents place = c at hplace ⊢
  cases hplace with
  | none => exact .inl ⟨rfl, rfl⟩
  | some hg => exact .inr ⟨_, _, rfl, rfl, hg⟩

/-- An act replies what the content of its place says, and other places keep their contents. -/
theorem holds_act (h : s.Holds names contents) (hnames : ∀ t ∈ a.names, t ∈ names)
    (ha : a.Explicit) :
    (s.act a).1.map Reply.shown = (Content.act (contents a.place) a).1 ∧
      Holds names (s.act a).2
        (Function.update contents a.place (Content.act (contents a.place) a).2) := by
  cases a with
  | create place config statements =>
    obtain ⟨hm, hle, hresult⟩ := Graph.createPinned_follows h.within config statements
      fun p hp t ht => hnames t (List.mem_flatMap.mpr ⟨p, hp, ht⟩)
    rw [act, Content.act]
    cases hcreate : Graph.createPinned config s.nodes statements with
    | mk result m =>
      rw [hcreate] at hm hle hresult
      cases hcontent : Content.create config statements with
      | error e =>
        rw [hcontent] at hresult
        obtain rfl : result = .error e := hresult
        exact ⟨rfl, h.update hm hle place .none⟩
      | ok c =>
        rw [hcontent] at hresult
        obtain ⟨g, rfl, hg⟩ : ∃ g, result = .ok g ∧ g.Holds m c := hresult
        exact ⟨rfl, h.update hm hle place (.some hg)⟩
  | turn place who op =>
    obtain ⟨hg, hc⟩ | ⟨g, c, hg, hc, hholds⟩ := h.cases place
    · simp only [act, Act.place, hg, hc, Content.act]
      refine ⟨rfl, ?_⟩
      rwa [← hc, Function.update_eq_self]
    · simp only [act, Act.place, hg, hc, Content.act]
      have hop (r : Request) (he : op = .request r) :
          r.Fits s.nodes ∧ ∀ p ∈ r.asks, ∀ t ∈ p.terms, t ∈ names := by
        subst he
        have hasks : ∀ p ∈ r.asks, ∀ t ∈ p.terms, t ∈ names :=
          fun p hp t ht => hnames t (List.mem_flatMap.mpr ⟨p, hp, ht⟩)
        refine ⟨Graph.fits_of_within h.within hasks ?_, hasks⟩
        rintro found rfl
        exact ha place who found rfl
      obtain ⟨hm, hle, hturn⟩ := hholds.turn h.within who hop
      exact ⟨congrArg some (hholds.shown_reply who fun r he => (hop r he).1),
        h.update hm hle place (.some hturn)⟩

theorem holds_new (hcard : names.card ≤ NodeId.maxValue.toNat + 1) :
    Holds names {} fun _ => none :=
  ⟨within_empty hcard, fun _ => .none⟩

theorem holds_after (h : s.Holds names contents) {history : List Act}
    (hnames : ∀ a ∈ history, ∀ t ∈ a.names, t ∈ names) (hexplicit : ∀ a ∈ history, a.Explicit) :
    ∃ contents, (s.after history).Holds names contents := by
  induction history generalizing s contents with
  | nil => exact ⟨contents, h⟩
  | cons a rest ih =>
    rw [List.forall_mem_cons] at hnames hexplicit
    exact ih (holds_act h hnames.1 hexplicit.1).2 hnames.2 hexplicit.2

/-- The replies at a place are those of its content to the acts at this place. -/
theorem shown_replies (h : s.Holds names contents) (place : Nat) {history : List Act}
    (hnames : ∀ a ∈ history, ∀ t ∈ a.names, t ∈ names) (hexplicit : ∀ a ∈ history, a.Explicit) :
    (s.replies place history).map Reply.shown =
      Content.replies (contents place) (history.filter fun a => a.place = place) := by
  induction history generalizing s contents with
  | nil => rfl
  | cons a rest ih =>
    rw [List.forall_mem_cons] at hnames hexplicit
    obtain ⟨hreply, hafter⟩ := holds_act h hnames.1 hexplicit.1
    have hrest := ih hafter hnames.2 hexplicit.2
    rw [replies]
    by_cases hplace : a.place = place
    · subst hplace
      rw [Function.update_self] at hrest
      rw [if_pos rfl, List.filter_cons_of_pos (by simp), Content.replies, List.map_append, hrest,
        ← hreply, Option.toList_map]
    · rw [Function.update_of_ne (Ne.symm hplace)] at hrest
      rw [if_neg hplace, List.filter_cons_of_neg (by simpa using hplace), List.nil_append, hrest]

/-- Whatever else is done in a store before and after a graph is made, the graph answers as it does
when it is made over a new table and only its own acts are carried out. The history gives ids to no
more terms than there are ids, of which no memory runs out. -/
theorem replies_as_if_alone (before rest : List Act) (place : Nat) (config : Config)
    (statements : List Pattern) :
    let made : Act := .create place config statements
    (∀ a ∈ before ++ made :: rest, a.Explicit) →
    ((before ++ made :: rest).flatMap Act.names).toFinset.card ≤ NodeId.maxValue.toNat + 1 →
    ((after {} before).replies place (made :: rest)).map Reply.shown =
      (replies place {} (made :: rest.filter fun a => a.place = place)).map Reply.shown := by
  intro made hexplicit hcard
  have hnames : ∀ a ∈ before ++ made :: rest, ∀ t ∈ a.names,
      t ∈ ((before ++ made :: rest).flatMap Act.names).toFinset :=
    fun a ha t ht => List.mem_toFinset.mpr (List.mem_flatMap.mpr ⟨a, ha, ht⟩)
  have hown : made :: rest.filter (fun a => a.place = place) =
      (made :: rest).filter fun a => a.place = place := by
    rw [List.filter_cons_of_pos (by simp [made, Act.place])]
  rw [List.forall_mem_append] at hexplicit hnames
  obtain ⟨contents, hbefore⟩ := holds_after (holds_new hcard) hnames.1 hexplicit.1
  rw [shown_replies hbefore place hnames.2 hexplicit.2, hown,
    shown_replies (holds_new hcard) place
      (fun a ha => hnames.2 a (List.mem_of_mem_filter ha))
      (fun a ha => hexplicit.2 a (List.mem_of_mem_filter ha)),
    List.filter_filter]
  simp only [Bool.and_self, ← hown]
  rfl

theorem replies_as_if_alone_beside_aborted_additions :
    let number (lexical : String) : Pattern := ⟨.term (.blank "b"), .term (.iri "p"),
      .term (.literal (.ofDatatype lexical Vocabulary.xsdInteger))⟩
    let ask (place : Nat) (r : Request) : Act := .turn place ⟨place⟩ (.request r)
    let before := [.create 0 {} [], ask 0 .begin, ask 0 (.add (number "01")), ask 0 .abort]
    let made : Act := .create 1 {} [number "2"]
    let rest := [ask 1 (.add (number "1")), ask 0 (.add (number "3")), ask 1 (.add (number "01")),
      .turn 1 ⟨1⟩ (.find Pattern.any), ask 0 .clear, ask 1 (.delete (number "1")),
      .turn 1 ⟨1⟩ .size]
    let own := made :: rest.filter fun a => a.place = 1
    ((∀ a ∈ before ++ made :: rest, a.Explicit) ∧
        ((before ++ made :: rest).flatMap Act.names).toFinset.card ≤ NodeId.maxValue.toNat + 1) ∧
      ((after {} before).act made).2.nodes.terms ≠ (({} : Store).act made).2.nodes.terms ∧
      ((after {} before).replies 1 (made :: rest)).map Reply.shown =
        (replies 1 {} own).map Reply.shown := by
  intro number ask before made rest own
  have hexplicit : ∀ a ∈ before ++ made :: rest, a.Explicit := by
    simp [before, made, rest, ask, Act.Explicit]
  have hcard : ((before ++ made :: rest).flatMap Act.names).toFinset.card ≤
      NodeId.maxValue.toNat + 1 := (List.toFinset_card_le _).trans (by decide +kernel)
  exact ⟨⟨hexplicit, hcard⟩, by decide +kernel,
    replies_as_if_alone before rest 1 {} [number "2"] hexplicit hcard⟩

end Store

end TripleStore
