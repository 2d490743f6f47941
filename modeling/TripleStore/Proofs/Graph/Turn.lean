import TripleStore.Graph.Cursor
import TripleStore.Proofs.Graph.Abort

/-!
# Turns of threads

A turn is one operation of a thread on a graph that others use too. While a thread holds the
transaction the others wait, except with what ends a transaction or asks whether one is held, and
that finds none of theirs. `Graph.Does` says once what an admitted turn can do; from it follow who
is in a transaction afterwards, and that the log of the transaction leads from what was committed to
what is stored. The steps of a walk that is not drained within one turn change nothing of a graph
and are left out.
-/

namespace TripleStore

/-- What a thread asks of a graph in one turn. -/
inductive Operation where
  | request (r : Request)
  | contains (pattern : Pattern)
  | size
  /-- All matches of a pattern, read within the turn. -/
  | find (pattern : Pattern)
  | inTransaction

namespace Operation

/-- The operation waits while another thread holds the transaction. -/
def waits : Operation → Bool
  | .request .commit | .request .abort | .inTransaction => false
  | _ => true

def Reads : Operation → Prop
  | .contains _ | .size | .find _ => True
  | .request _ | .inTransaction => False

def Ends (op : Operation) : Prop :=
  op = .request .commit ∨ op = .request .abort ∨ op = .request .close

theorem eq_of_waits_eq_false {op : Operation} (h : op.waits = false) :
    op = .request .commit ∨ op = .request .abort ∨ op = .inTransaction := by
  unfold waits at h
  split at h
  · exact .inl rfl
  · exact .inr (.inl rfl)
  · exact .inr (.inr rfl)
  · cases h

end Operation

inductive Reply where
  | done (result : Except Error (List Event))
  | flag (result : Except Error Bool)
  | count (result : Except Error Nat)
  | items (result : Except Error (List (Except Error Found)))
deriving DecidableEq

/-- An operation of a thread with the node table that it meets. -/
structure Turn (τ : Type) where
  who : Thread
  nodes : τ
  op : Operation

namespace Turn

variable {τ : Type} [NodeTable τ]

def take (t : Turn τ) (g : Graph) : Graph :=
  match t.op with
  | .request r => (g.perform t.who t.nodes r).graph
  | _ => g

def reply (t : Turn τ) (g : Graph) : Reply :=
  match t.op with
  | .request r => .done (g.perform t.who t.nodes r).result
  | .contains p => .flag (g.contains t.nodes p)
  | .size => .count g.size
  | .find p => .items (g.findAll t.nodes p)
  | .inTransaction => .flag (.ok (g.inTransaction t.who))

/-- The turn need not wait: the graph is closed, no transaction is open, or the thread holds it. -/
def Admitted (t : Turn τ) (g : Graph) : Prop := t.op.waits = true → g.mustWait t.who = false

instance (t : Turn τ) (g : Graph) : Decidable (t.Admitted g) := inferInstanceAs (Decidable (_ → _))

def Begins (t : Turn τ) (g : Graph) : Prop :=
  t.op = .request .begin ∧ (g.perform t.who t.nodes .begin).result = .ok []

/-- What is stored after the turn is committed: the thread commits its transaction, or changes
triples while no transaction is open. -/
def commits (t : Turn τ) (g : Graph) : Bool :=
  match t.op with
  | .request .commit => g.inTransaction t.who
  | .request .begin | .request .abort | .request .close => false
  | .request _ => g.txn.isNone
  | _ => false

end Turn

namespace Graph

variable {τ : Type} [NodeTable τ] {g : Graph} {t : Turn τ} {who owner : Thread}

theorem txn_undo (g : Graph) : g.undo.2.txn = none := by
  rw [undo]
  split
  next hnone => exact hnone
  next => rfl

/-- Nobody but the owner of a transaction is in it. -/
theorem inTransaction_inj (h : g.inTransaction who = true) (h' : g.inTransaction owner = true) :
    who = owner := by
  cases htxn : g.txn with
  | none => simp [inTransaction, htxn] at h
  | some t =>
    simp only [inTransaction, htxn, Option.any_some, decide_eq_true_eq] at h h'
    exact h.symm.trans h'

theorem mustWait_of_inTransaction (hopen : g.closed = false) (h : g.inTransaction owner = true)
    (hne : who ≠ owner) : g.mustWait who = true := by
  cases htxn : g.txn with
  | none => simp [inTransaction, htxn] at h
  | some t =>
    simp only [inTransaction, htxn, Option.any_some, decide_eq_true_eq] at h
    simp [mustWait, hopen, htxn, h, hne.symm]

theorem perform_end_of_stranger (hopen : g.closed = false)
    (htransactions : g.config.transactions = true) (hout : g.inTransaction who = false) (nodes : τ)
    {r : Request} (hr : r = .commit ∨ r = .abort) :
    g.perform who nodes r = ⟨g, nodes, .error .noTransaction⟩ := by
  rcases hr with rfl | rfl
  · simp [Graph.perform, control, hopen, htransactions, commit, hout, Except.map]
  · simp [Graph.perform, control, hopen, htransactions, abort, hout, Except.map]

/-- What a turn can do to a graph. -/
inductive Does (t : Turn τ) (g : Graph) : Graph → Prop where
  | nothing : ¬ t.Begins g → (g.inTransaction t.who = true → ¬ t.op.Ends) →
      (t.commits g = true → g.txn = none) → Does t g g
  /-- A mutation, which goes into the log of the open transaction. -/
  | changes {g' : Graph} : ¬ t.Begins g → ¬ t.op.Ends → t.commits g = g.txn.isNone →
      g.Evolves g' → Does t g g'
  | begins : t.Begins g → g.txn = none → t.commits g = false →
      Does t g { g with txn := some ⟨t.who, []⟩ }
  | commits : ¬ t.Begins g → g.inTransaction t.who = true → t.op.Ends → t.commits g = true →
      Does t g { g with txn := none }
  /-- The open transaction is taken back, if there is one, and the graph may be closed. -/
  | undoes (closed : Bool) : ¬ t.Begins g → (∀ who, g.inTransaction who = true → t.who = who) →
      t.op.Ends → t.commits g = false → Does t g { g.undo.2 with closed }

section

variable (who : Thread) (nodes : τ)

theorem does_mutation (hstep : g.indexes.InStep) {r : Request} (hr : r.IsMutation) :
    Does ⟨who, nodes, .request r⟩ g (g.perform who nodes r).graph := by
  refine .changes ?_ ?_ ?_ (evolves_perform hstep who nodes hr)
  · rintro ⟨hop, -⟩
    cases hop
    exact hr
  · rintro (hop | hop | hop) <;> cases hop <;> exact hr
  · cases r with
    | add p => rfl
    | delete p => rfl
    | remove p => rfl
    | removeFound found => rfl
    | clear => rfl
    | begin => exact hr.elim
    | commit => exact hr.elim
    | abort => exact hr.elim
    | close => exact hr.elim

theorem does_begin (hopen : g.closed = false) (htransactions : g.config.transactions = true) :
    Does ⟨who, nodes, .request .begin⟩ g (g.perform who nodes .begin).graph := by
  cases htxn : g.txn with
  | none =>
    have hbegin := perform_begin_eq hopen htransactions htxn who nodes
    have hbegins : Turn.Begins ⟨who, nodes, .request .begin⟩ g := ⟨rfl, by rw [hbegin]⟩
    rw [hbegin]
    exact .begins hbegins htxn rfl
  | some t =>
    have hrefused := perform_begin_of_txn hopen htransactions htxn who nodes
    rw [hrefused]
    refine .nothing ?_ ?_ (fun h => by cases h)
    · rintro ⟨-, hresult⟩
      rw [hrefused] at hresult
      cases hresult
    · rintro - (hop | hop | hop) <;> cases hop

theorem does_commit (hopen : g.closed = false) (htransactions : g.config.transactions = true) :
    Does ⟨who, nodes, .request .commit⟩ g (g.perform who nodes .commit).graph := by
  have hbegins : ¬ Turn.Begins ⟨who, nodes, .request .commit⟩ g := fun h => by cases h.1
  cases howner : g.inTransaction who with
  | true =>
    have hgraph : (g.perform who nodes .commit).graph = { g with txn := none } := by
      simp [Graph.perform, control, hopen, htransactions, commit, howner]
    rw [hgraph]
    exact .commits hbegins howner (.inl rfl) howner
  | false =>
    have hout := Bool.eq_false_iff.mp howner
    rw [perform_end_of_stranger hopen htransactions howner nodes (.inl rfl)]
    exact .nothing hbegins (fun h => absurd h hout) fun h => absurd h hout

theorem does_abort (hopen : g.closed = false) (htransactions : g.config.transactions = true) :
    Does ⟨who, nodes, .request .abort⟩ g (g.perform who nodes .abort).graph := by
  have hbegins : ¬ Turn.Begins ⟨who, nodes, .request .abort⟩ g := fun h => by cases h.1
  cases howner : g.inTransaction who with
  | true =>
    have hgraph : (g.perform who nodes .abort).graph = g.undo.2 := by
      simp [Graph.perform, control, hopen, htransactions, abort, howner]
    rw [hgraph]
    exact .undoes g.undo.2.closed hbegins (fun _ h => inTransaction_inj howner h) (.inr (.inl rfl))
      rfl
  | false =>
    have hout := Bool.eq_false_iff.mp howner
    rw [perform_end_of_stranger hopen htransactions howner nodes (.inr rfl)]
    exact .nothing hbegins (fun h => absurd h hout) fun h => by cases h

theorem does_close (hopen : g.closed = false) (ht : g.mustWait who = false) :
    Does ⟨who, nodes, .request .close⟩ g (g.perform who nodes .close).graph := by
  have hgraph : (g.perform who nodes .close).graph = { g.undo.2 with closed := true } := by
    simp [Graph.perform, close, hopen]
  rw [hgraph]
  refine .undoes true (fun h => by cases h.1) (fun other hother => ?_) (.inr (.inr rfl)) rfl
  -- closing waits, so a transaction that is open is the thread's own
  by_contra hne
  exact Bool.false_ne_true (ht.symm.trans (mustWait_of_inTransaction hopen hother hne))

end

theorem does_of_closed (hclosed : g.closed = true) (hnone : g.txn = none) (t : Turn τ) :
    Does t g (t.take g) := by
  have htake : t.take g = g := by
    rw [Turn.take]
    split
    · exact graph_perform_of_closed hclosed _ _ _
    · rfl
  rw [htake]
  refine .nothing ?_ (fun h => ?_) (fun _ => hnone)
  · rintro ⟨-, hresult⟩
    simp [Graph.perform, control, hclosed] at hresult
  · simp [inTransaction, hnone] at h

theorem does_take (hg : Reachable τ g) (htransactions : g.config.transactions = true)
    (ht : t.Admitted g) : Does t g (t.take g) := by
  cases hclosed : g.closed with
  | true => exact does_of_closed hclosed (hg.txn_eq_none hclosed) t
  | false =>
    obtain ⟨who, nodes, op⟩ := t
    have hread (hop : ∀ r, op ≠ .request r) (hcommits : Turn.commits ⟨who, nodes, op⟩ g = false) :
        Does ⟨who, nodes, op⟩ g g := by
      refine .nothing (fun h => hop _ h.1) ?_ fun h => by simp [hcommits] at h
      rintro - (h | h | h) <;> exact hop _ h
    cases op with
    | contains p => exact hread (fun r h => by cases h) rfl
    | size => exact hread (fun r h => by cases h) rfl
    | find p => exact hread (fun r h => by cases h) rfl
    | inTransaction => exact hread (fun r h => by cases h) rfl
    | request r =>
      cases r using Request.mutationCases with
      | mutation r hr => exact does_mutation who nodes (kept_of_reachable hg).indexes hr
      | begin => exact does_begin who nodes hclosed htransactions
      | commit => exact does_commit who nodes hclosed htransactions
      | abort => exact does_abort who nodes hclosed htransactions
      | close => exact does_close who nodes hclosed (ht rfl)

/-- A thread is in a transaction if it just began one, or was in one and did not end it. -/
theorem Does.inTransaction_iff {g' : Graph} (h : Does t g g') (who : Thread) :
    g'.inTransaction who = true ↔
      (t.who = who ∧ t.Begins g) ∨ (g.inTransaction who = true ∧ ¬ (t.who = who ∧ t.op.Ends)) := by
  cases h with
  | nothing hbegins hends _ =>
    constructor
    · exact fun h => .inr ⟨h, fun hmine => hends (hmine.1 ▸ h) hmine.2⟩
    · exact fun h => (h.resolve_left fun hb => hbegins hb.2).1
  | changes hbegins hends _ hevolves =>
    obtain ⟨changes, indexes, -, rfl⟩ := hevolves
    have hsame : inTransaction { g with indexes, txn := g.txn.map (·.record changes) } who =
        g.inTransaction who := by
      rw [inTransaction, inTransaction, Option.any_map]
      rfl
    rw [hsame]
    constructor
    · exact fun h => .inr ⟨h, fun hmine => hends hmine.2⟩
    · exact fun h => (h.resolve_left fun hb => hbegins hb.2).1
  | begins hbegins hnone _ =>
    simp [inTransaction, hnone, hbegins]
  | commits hbegins howner hends _ =>
    constructor
    · intro h
      cases h
    · rintro (hb | ⟨hin, hmine⟩)
      · exact absurd hb.2 hbegins
      · exact absurd ⟨inTransaction_inj howner hin, hends⟩ hmine
  | undoes closed hbegins howner hends _ =>
    constructor
    · intro h
      simp [inTransaction, txn_undo] at h
    · rintro (hb | ⟨hin, hmine⟩)
      · exact absurd hb.2 hbegins
      · exact absurd ⟨howner who hin, hends⟩ hmine

/-- The graph holds what was committed, changed by what the open transaction logs. -/
structure Over (committed : IndexSet) (g : Graph) : Prop where
  inStep : committed.InStep
  idle : g.txn = none → g.indexes = committed
  working : ∀ t, g.txn = some t → Tracks committed t.undo g.indexes

theorem Over.undo_eq {c : IndexSet} (h : Over c g) : g.undo.2.indexes = c := by
  rw [undo]
  split
  next hnone => exact h.idle hnone
  next t htxn => rw [(h.working t htxn).rollback_eq h.inStep]

theorem Does.over {g' : Graph} {c : IndexSet} (h : Does t g g') (hc : Over c g) :
    Over (if t.commits g then g'.indexes else c) g' := by
  cases h with
  | nothing _ _ hcommits =>
    split
    next hcommitted =>
      rw [hc.idle (hcommits hcommitted)]
      exact hc
    next => exact hc
  | changes _ _ hcommits hevolves =>
    -- outside a transaction the changes are committed at once, inside they extend its log
    obtain ⟨changes, indexes, hchanges, rfl⟩ := hevolves
    rw [hcommits]
    cases htxn : g.txn with
    | none =>
      have hstep : g.indexes.InStep := (hc.idle htxn).symm ▸ hc.inStep
      exact ⟨hchanges.inStep hstep, fun _ => rfl, fun t ht => by cases ht⟩
    | some t =>
      refine ⟨hc.inStep, fun hnone => (by cases hnone), fun u hu => ?_⟩
      cases hu
      exact (hc.working t htxn).trans hchanges
  | begins _ hnone hcommits =>
    rw [hcommits]
    refine ⟨hc.inStep, fun hnone => (by cases hnone), fun t ht => ?_⟩
    cases ht
    exact hc.idle hnone ▸ .nil
  | commits _ howner _ hcommits =>
    rw [hcommits]
    cases htxn : g.txn with
    | none => simp [inTransaction, htxn] at howner
    | some t =>
      exact ⟨(hc.working t htxn).inStep hc.inStep, fun _ => rfl, fun u hu => by cases hu⟩
  | undoes closed _ _ _ hcommits =>
    rw [hcommits]
    exact ⟨hc.inStep, fun _ => hc.undo_eq, fun t ht => by simp [txn_undo] at ht⟩

/-- What another thread may do while a transaction is open finds none of its own and leaves the
graph alone. -/
theorem take_of_stranger (hopen : g.closed = false) (htransactions : g.config.transactions = true)
    (howner : g.inTransaction owner = true) (hne : t.who ≠ owner) (ht : t.Admitted g) :
    t.take g = g ∧
      (t.op = .request .commit ∨ t.op = .request .abort →
        t.reply g = .done (.error .noTransaction)) ∧
      (t.op = .inTransaction → t.reply g = .flag (.ok false)) := by
  obtain ⟨who, nodes, op⟩ := t
  have hout : g.inTransaction who = false := by
    rw [Bool.eq_false_iff]
    exact fun hin => hne (inTransaction_inj hin howner)
  have hwaits : op.waits = false := by
    rw [Bool.eq_false_iff]
    intro hwaits
    exact Bool.false_ne_true
      ((ht hwaits).symm.trans (mustWait_of_inTransaction hopen howner hne))
  have hend {r : Request} (hr : r = .commit ∨ r = .abort) :
      Turn.take ⟨who, nodes, .request r⟩ g = g ∧
        Turn.reply ⟨who, nodes, .request r⟩ g = .done (.error .noTransaction) := by
    simp [Turn.take, Turn.reply, perform_end_of_stranger hopen htransactions hout nodes hr]
  rcases Operation.eq_of_waits_eq_false hwaits with rfl | rfl | rfl
  · exact ⟨(hend (.inl rfl)).1, fun _ => (hend (.inl rfl)).2, nofun⟩
  · exact ⟨(hend (.inr rfl)).1, fun _ => (hend (.inr rfl)).2, nofun⟩
  · exact ⟨rfl, nofun, fun _ => congrArg (fun b => Reply.flag (.ok b)) hout⟩

/-- A thread that need not wait and holds no transaction finds none open. -/
theorem txn_eq_none_of_mustWait_eq_false (hg : Reachable τ g) (hwait : g.mustWait who = false)
    (hout : g.inTransaction who ≠ true) : g.txn = none := by
  cases htxn : g.txn with
  | none => rfl
  | some t =>
    have howner : g.inTransaction t.owner = true := by simp [inTransaction, htxn]
    have hopen := hg.closed_eq_false howner
    by_cases hwho : t.owner = who
    · exact absurd (by simp [inTransaction, htxn, hwho]) hout
    · simp [mustWait, hopen, htxn, hwho] at hwait

theorem reachable_take (hg : Reachable τ g) (t : Turn τ) : Reachable τ (t.take g) := by
  rw [Turn.take]
  split
  · exact hg.performed _ _ _
  · exact hg

theorem config_take (t : Turn τ) (g : Graph) : (t.take g).config = g.config := by
  rw [Turn.take]
  split
  · exact config_perform ..
  · rfl

end Graph

end TripleStore
