import TripleStore.Graph.Cursor
import TripleStore.Proofs.Index.Query

/-!
# Draining a cursor

While the graph does not change, what a cursor has yet to yield is a list: its page, what lies
behind the place where it resumes, and the matches of the patterns after that. Fetching a page does
not change this list, and a step takes its head. So a drained walk yields the matches of all
patterns, one pattern after the other.
-/

namespace TripleStore

namespace Cursor

/-- What a cursor has yet to yield while the indexes do not change. -/
def remaining (indexes : IndexSet) (c : Cursor) : List IdTriple :=
  c.page ++
    match c.pending with
    | [] => []
    | p :: rest => indexes.findAfter p c.resume ++ rest.flatMap indexes.find

variable {indexes : IndexSet} {S : Finset IdTriple}

theorem remaining_of_start (pending page : List IdTriple) :
    remaining indexes { pending, page } = page ++ pending.flatMap indexes.find := by
  cases pending <;> rfl

/-- A fetched page is not empty, and nothing is lost or met twice at its end. -/
theorem fetch_spec (hS : indexes.Represents S) (hr : ∀ t ∈ S, t.InRange)
    (pending : List IdTriple) (resume : Option IdTriple) :
    (fetch indexes pending resume = none ∧ remaining indexes { pending, resume } = []) ∨
      ∃ c, fetch indexes pending resume = some c ∧ c.page ≠ [] ∧ c.done = false ∧
        c.remaining indexes = remaining indexes { pending, resume } := by
  induction pending generalizing resume with
  | nil => exact .inl ⟨rfl, rfl⟩
  | cons p rest ih =>
    have hrest : remaining indexes { pending := p :: rest, resume } =
        indexes.findAfter p resume ++ rest.flatMap indexes.find := rfl
    cases hpage : (indexes.findAfter p resume).take pageSize with
    | nil =>
      have hnone : indexes.findAfter p resume = [] :=
        (List.take_eq_nil_iff.mp hpage).resolve_left (by decide)
      have hfetch : fetch indexes (p :: rest) resume = fetch indexes rest none := by
        rw [fetch, hpage]
      rw [hfetch, hrest, hnone, List.nil_append]
      simpa only [remaining_of_start, List.nil_append] using ih none
    | cons t ts =>
      right
      rw [fetch, hpage, hrest]
      refine ⟨_, rfl, ?_⟩
      split
      next hshort =>
        have hwhole : indexes.findAfter p resume = t :: ts := by
          rw [← hpage, List.length_take] at hshort
          rw [← hpage, List.take_of_length_le (by omega)]
        exact ⟨List.cons_ne_nil t ts, rfl, by rw [remaining_of_start, hwhole]⟩
      next =>
        refine ⟨List.cons_ne_nil t ts, rfl, ?_⟩
        have hlast : ((indexes.findAfter p resume).take pageSize).getLast? =
            some ((t :: ts).getLast (List.cons_ne_nil t ts)) := by
          rw [hpage, List.getLast?_eq_some_getLast]
        have hbehind := hS.findAfter_last hr p resume pageSize hlast
        show (t :: ts) ++ (indexes.findAfter p (t :: ts).getLast? ++ rest.flatMap indexes.find) = _
        rw [List.getLast?_eq_some_getLast (List.cons_ne_nil t ts), hbehind, ← hpage,
          ← List.append_assoc, List.take_append_drop]

variable {τ : Type} [NodeTable τ] {g : Graph}

/-- A step of a walk takes the head of what remains. -/
theorem next_spec (hS : g.indexes.Represents S) (hr : ∀ t ∈ S, t.InRange)
    (hopen : g.closed = false) (nodes : τ) {c : Cursor} (hc : c.done = false) :
    (c.remaining g.indexes = [] ∧ (c.next g nodes).1 = none) ∨
      ∃ t c', c.next g nodes = (some (yield nodes t), c') ∧ c'.done = false ∧
        c.remaining g.indexes = t :: c'.remaining g.indexes := by
  have hpop {c' : Cursor} (hfill : c.fill g.indexes = some c') (hpage : c'.page ≠ [])
      (hdone : c'.done = false) (hrem : c'.remaining g.indexes = c.remaining g.indexes) :
      ∃ t c', c.next g nodes = (some (yield nodes t), c') ∧ c'.done = false ∧
        c.remaining g.indexes = t :: c'.remaining g.indexes := by
    obtain ⟨t, page, hcons⟩ := List.exists_cons_of_ne_nil hpage
    refine ⟨t, { c' with page }, ?_, hdone, ?_⟩
    · simp only [next, hc, hopen, hfill, hcons, Bool.false_eq_true, if_false]
    · rw [← hrem, remaining, remaining, hcons, List.cons_append]
  cases hpage : c.page with
  | cons t page =>
    have hne : c.page ≠ [] := hpage ▸ List.cons_ne_nil t page
    have hfill : c.fill g.indexes = some c := by rw [fill, if_neg (by simpa using hne)]
    exact .inr (hpop hfill hne hc rfl)
  | nil =>
    have hfill : c.fill g.indexes = fetch g.indexes c.pending c.resume := by
      rw [fill, hpage]
      rfl
    have hrem : remaining g.indexes { pending := c.pending, resume := c.resume } =
        c.remaining g.indexes := by
      rw [remaining, remaining, hpage]
    rcases fetch_spec hS hr c.pending c.resume with ⟨hnone, hnil⟩ | ⟨c', hsome, hne, hdone, he⟩
    · refine .inl ⟨hrem ▸ hnil, ?_⟩
      simp only [next, hc, hopen, hfill, hnone, Bool.false_eq_true, if_false]
    · exact .inr (hpop (hfill.trans hsome) hne hdone (he.trans hrem))

theorem takeItems_eq (hS : g.indexes.Represents S) (hr : ∀ t ∈ S, t.InRange)
    (hopen : g.closed = false) (nodes : τ) (count : Nat) {c : Cursor} (hc : c.done = false) :
    c.takeItems g nodes count = ((c.remaining g.indexes).take count).map (yield nodes) := by
  induction count generalizing c with
  | zero => rfl
  | succ count ih =>
    rcases next_spec hS hr hopen nodes hc with ⟨hnil, hnext⟩ | ⟨t, c', hnext, hdone, hcons⟩
    · have hpair : c.next g nodes = (none, (c.next g nodes).2) := Prod.ext hnext rfl
      rw [takeItems, hpair, hnil]
      rfl
    · rw [takeItems, hnext, hcons, List.take_succ_cons, List.map_cons, ← ih hdone]

theorem length_flatMap_find_le (hS : indexes.Represents S) (hr : ∀ t ∈ S, t.InRange)
    (pending : List IdTriple) :
    (pending.flatMap indexes.find).length ≤ pending.length * indexes.size := by
  induction pending with
  | nil => simp
  | cons p rest ih =>
    have hp : (indexes.find p).length ≤ indexes.size := hS.length_findAfter_le hr p none
    rw [List.flatMap_cons, List.length_append, List.length_cons, Nat.succ_mul]
    omega

/-- A drained walk yields all matches of all patterns. -/
theorem toList_eq (hS : g.indexes.Represents S) (hr : ∀ t ∈ S, t.InRange)
    (hopen : g.closed = false) (nodes : τ) (pending : List IdTriple) :
    ({ pending } : Cursor).toList g nodes =
      (pending.flatMap g.indexes.find).map (yield nodes) := by
  have hreach : (pending.flatMap g.indexes.find).length ≤ ({ pending } : Cursor).reach g := by
    have hlen := length_flatMap_find_le hS hr pending
    show _ ≤ 0 + pending.length * g.indexes.size + 1
    omega
  rw [toList, takeItems_eq hS hr hopen nodes _ rfl, remaining_of_start, List.nil_append,
    List.take_of_length_le hreach]

/-- What a cursor yields decodes to its statement. -/
theorem decodes_of_next {nodes : τ} {c : Cursor} {f : Found}
    (h : (c.next g nodes).1 = some (.ok f)) :
    NodeTable.decodeTriple nodes f.ids = .ok f.statement := by
  have hyield {ids : IdTriple} (h : yield nodes ids = .ok f) :
      NodeTable.decodeTriple nodes f.ids = .ok f.statement := by
    rw [yield] at h
    cases hdecode : NodeTable.decodeTriple nodes ids with
    | error e =>
      rw [hdecode] at h
      cases h
    | ok st =>
      rw [hdecode] at h
      cases h
      exact hdecode
  rw [next] at h
  split at h
  · cases h
  · split at h
    · cases h
    · split at h
      · cases h
      · split at h
        · cases h
        next ids _ _ => exact hyield (Option.some.inj h)

end Cursor

end TripleStore
