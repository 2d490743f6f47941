import TripleStore.Graph.Cursor
import TripleStore.Proofs.Index.Query

/-!
# Progress of a cursor

While the graph changes, what a cursor has yet to yield is not a list but a place: `Ahead` tells of
each triple whether it would still be met if it were stored. A page takes in what is stored ahead of
it, and the cursor moves past just that. `Progress` is what holds between the steps of a walk,
whatever is stored or taken out between them: nothing met is ahead, and nothing that has been stored
all along is left behind.
-/

namespace TripleStore.Cursor

open IdTriple (Before)

variable {order : IdTriple → IndexOrder} {s : IndexSet} {S : Finset IdTriple}

/-- The cursor meets the triple if it is stored from now on: a pattern that is pending matches it,
the current one behind the place where it resumes. `order` tells in which order a pattern is
scanned. -/
def Ahead (order : IdTriple → IndexOrder) (c : Cursor) (t : IdTriple) : Prop :=
  match c.pending with
  | [] => False
  | p :: rest =>
    (p.Matches t ∧ ∀ a ∈ c.resume, Before (order p) a t) ∨ ∃ q ∈ rest, q.Matches t

theorem ahead_of_start (pending page : List IdTriple) (t : IdTriple) :
    Ahead order { pending, page } t ↔ ∃ q ∈ pending, q.Matches t := by
  cases pending <;> simp [Ahead]

/-- What a page takes in is stored ahead of the cursor, and the cursor moves past it and past
nothing else that is stored. -/
structure Fetched (order : IdTriple → IndexOrder) (S : Finset IdTriple) (c c' : Cursor) : Prop where
  page_ne_nil : c'.page ≠ []
  done : c'.done = false
  pending : c'.pending <:+ c.pending
  nodup : c'.page.Nodup
  mem : ∀ t ∈ c'.page, t ∈ S ∧ c.Ahead order t ∧ ¬ c'.Ahead order t
  ahead : ∀ t, c'.Ahead order t → c.Ahead order t
  stored : ∀ t ∈ S, c.Ahead order t → t ∈ c'.page ∨ c'.Ahead order t

/-- A pattern that is scanned to its end leaves the patterns after it. -/
theorem fetched_short {p : IdTriple} {rest page : List IdTriple} {resume : Option IdTriple}
    (hne : page ≠ []) (hnodup : page.Nodup)
    (hapart : ∀ q ∈ rest, ∀ t, p.Matches t → ¬ q.Matches t)
    (hpage : ∀ t, t ∈ page ↔ t ∈ S ∧ p.Matches t ∧ ∀ a ∈ resume, Before (order p) a t) :
    Fetched order S { pending := p :: rest, resume } { pending := rest, page } := by
  refine ⟨hne, rfl, List.suffix_cons p rest, hnodup, fun t ht => ?_, fun t ht => ?_,
    fun t ht hahead => ?_⟩
  · obtain ⟨hS, hmatch, hbehind⟩ := (hpage t).mp ht
    refine ⟨hS, .inl ⟨hmatch, hbehind⟩, ?_⟩
    rw [ahead_of_start]
    rintro ⟨q, hq, hq'⟩
    exact hapart q hq t hmatch hq'
  · exact .inr ((ahead_of_start rest page t).mp ht)
  · rcases hahead with ⟨hmatch, hbehind⟩ | hrest
    · exact .inl ((hpage t).mpr ⟨ht, hmatch, hbehind⟩)
    · exact .inr ((ahead_of_start rest page t).mpr hrest)

/-- A full page leaves what is behind its last triple. -/
theorem fetched_full {p last : IdTriple} {rest front back : List IdTriple}
    {resume : Option IdTriple} (hsorted : (front ++ [last] ++ back).Pairwise (Before (order p)))
    (hapart : ∀ q ∈ rest, ∀ t, p.Matches t → ¬ q.Matches t)
    (hfound : ∀ t, t ∈ front ++ [last] ++ back ↔
      t ∈ S ∧ p.Matches t ∧ ∀ a ∈ resume, Before (order p) a t) :
    Fetched order S { pending := p :: rest, resume }
      { pending := p :: rest, resume := some last, page := front ++ [last] } := by
  obtain ⟨hpage, -, hback⟩ := List.pairwise_append.mp hsorted
  have hlast : last ∈ front ++ [last] := List.mem_append_right _ List.mem_cons_self
  -- nothing of the page comes behind its last triple
  have hend {t : IdTriple} (ht : t ∈ front ++ [last]) : ¬ Before (order p) last t := by
    rcases List.mem_append.mp ht with ht | ht
    · exact List.lt_asymm ((List.pairwise_append.mp hpage).2.2 t ht last List.mem_cons_self)
    · obtain rfl := List.mem_singleton.mp ht
      exact List.lt_irrefl _
  refine ⟨by simp, rfl, List.suffix_rfl, IdTriple.nodup_of_pairwise_before hpage,
    fun t ht => ?_, fun t ht => ?_, fun t ht hahead => ?_⟩
  · obtain ⟨hS, hmatch, hbehind⟩ := (hfound t).mp (List.mem_append_left _ ht)
    refine ⟨hS, .inl ⟨hmatch, hbehind⟩, ?_⟩
    rintro (⟨-, hlt⟩ | ⟨q, hq, hq'⟩)
    · exact hend ht (hlt last rfl)
    · exact hapart q hq t hmatch hq'
  · rcases ht with ⟨hmatch, hlt⟩ | hrest
    · have hbehind := ((hfound last).mp (List.mem_append_left _ hlast)).2.2
      exact .inl ⟨hmatch, fun a ha => List.lt_trans (hbehind a ha) (hlt last rfl)⟩
    · exact .inr hrest
  · rcases hahead with ⟨hmatch, hbehind⟩ | hrest
    · rcases List.mem_append.mp ((hfound t).mpr ⟨ht, hmatch, hbehind⟩) with hin | hin
      · exact .inl hin
      · refine .inr (.inl ⟨hmatch, fun a ha => ?_⟩)
        cases ha
        exact hback last hlast t hin
    · exact .inr (.inr hrest)

/-- A pattern of which nothing is stored behind the place to resume is passed over. -/
theorem Fetched.skip {p : IdTriple} {rest : List IdTriple} {resume : Option IdTriple} {c' : Cursor}
    (h : Fetched order S { pending := rest } c')
    (hnone : ∀ t ∈ S, p.Matches t → ¬ ∀ a ∈ resume, Before (order p) a t) :
    Fetched order S { pending := p :: rest, resume } c' := by
  have hahead {t : IdTriple} (ht : Ahead order { pending := rest } t) :
      Ahead order { pending := p :: rest, resume } t := .inr ((ahead_of_start rest [] t).mp ht)
  refine ⟨h.page_ne_nil, h.done, h.pending.trans (List.suffix_cons p rest), h.nodup,
    fun t ht => ?_, fun t ht => hahead (h.ahead t ht), fun t ht hold => ?_⟩
  · obtain ⟨hS, hold, hnew⟩ := h.mem t ht
    exact ⟨hS, hahead hold, hnew⟩
  · rcases hold with ⟨hmatch, hbehind⟩ | hrest
    · exact absurd hbehind (hnone t ht hmatch)
    · exact h.stored t ht ((ahead_of_start rest [] t).mpr hrest)

theorem fetch_ahead (hS : s.Represents S) (hr : ∀ t ∈ S, t.InRange)
    (horder : ∀ p, (s.choose p).order = order p) (pending : List IdTriple)
    (hapart : pending.Pairwise fun p q => ∀ t, p.Matches t → ¬ q.Matches t)
    (resume : Option IdTriple) :
    (fetch s pending resume = none ∧ ∀ t ∈ S, ¬ Ahead order { pending, resume } t) ∨
      ∃ c', fetch s pending resume = some c' ∧ Fetched order S { pending, resume } c' := by
  induction pending generalizing resume with
  | nil => exact .inl ⟨rfl, fun _ _ h => h⟩
  | cons p rest ih =>
    obtain ⟨hfirst, hrest⟩ := List.pairwise_cons.mp hapart
    obtain ⟨hsorted, hfound⟩ := hS.findAfter_spec hr p resume
    simp only [horder] at hsorted hfound
    cases hpage : (s.findAfter p resume).take pageSize with
    | nil =>
      have hnil : s.findAfter p resume = [] :=
        (List.take_eq_nil_iff.mp hpage).resolve_left (by decide)
      have hnone : ∀ t ∈ S, p.Matches t → ¬ ∀ a ∈ resume, Before (order p) a t := by
        intro t ht hmatch hbehind
        have hin := (hfound t).mpr ⟨ht, hmatch, hbehind⟩
        simp [hnil] at hin
      have hfetch : fetch s (p :: rest) resume = fetch s rest none := by
        rw [fetch, hpage]
      rw [hfetch]
      rcases ih hrest none with ⟨hend, hahead⟩ | ⟨c', hsome, hfetched⟩
      · refine .inl ⟨hend, fun t ht hold => ?_⟩
        rcases hold with ⟨hmatch, hbehind⟩ | hlater
        · exact hnone t ht hmatch hbehind
        · exact hahead t ht ((ahead_of_start rest [] t).mpr hlater)
      · exact .inr ⟨c', hsome, hfetched.skip hnone⟩
    | cons t ts =>
      right
      rw [fetch, hpage]
      refine ⟨_, rfl, ?_⟩
      split
      next hshort =>
        have hwhole : s.findAfter p resume = t :: ts := by
          rw [← hpage, List.length_take] at hshort
          rw [← hpage, List.take_of_length_le (by omega)]
        rw [hwhole] at hsorted hfound
        exact fetched_short (List.cons_ne_nil t ts) (IdTriple.nodup_of_pairwise_before hsorted)
          hfirst hfound
      next =>
        obtain ⟨front, last, hsplit⟩ :=
          (List.eq_nil_or_concat' (t :: ts)).resolve_left (List.cons_ne_nil t ts)
        rw [hsplit, List.getLast?_concat]
        rw [hsplit] at hpage
        rw [← List.take_append_drop pageSize (s.findAfter p resume), hpage] at hsorted hfound
        exact fetched_full hsorted hfirst hfound

theorem exists_matches_of_ahead {c : Cursor} {t : IdTriple} (h : c.Ahead order t) :
    ∃ q ∈ c.pending, q.Matches t := by
  unfold Ahead at h
  split at h
  · exact h.elim
  next p rest hpending =>
    rw [hpending]
    rcases h with ⟨hmatch, -⟩ | ⟨q, hq, hmatch⟩
    · exact ⟨p, List.mem_cons_self, hmatch⟩
    · exact ⟨q, List.mem_cons_of_mem p hq, hmatch⟩

/-- What holds of a cursor and the triples it has met since the patterns were looked up, given which
triples were stored ever since then and which always. -/
structure Progress (order : IdTriple → IndexOrder) (patterns : List IdTriple)
    (Ever Always : IdTriple → Prop) (met : List IdTriple) (c : Cursor) : Prop where
  pending : c.pending <:+ patterns
  ended : c.done = true → c.pending = [] ∧ c.page = []
  nodup : (met ++ c.page).Nodup
  behind : ∀ t ∈ met ++ c.page, ¬ c.Ahead order t
  ever : ∀ t ∈ met ++ c.page, Ever t ∧ ∃ q ∈ patterns, q.Matches t
  always : ∀ t, Always t → (∃ q ∈ patterns, q.Matches t) → t ∈ met ++ c.page ∨ c.Ahead order t

namespace Progress

variable {patterns met : List IdTriple} {Ever Always : IdTriple → Prop} {c c' : Cursor}

theorem start (order : IdTriple → IndexOrder) (patterns : List IdTriple)
    (Ever Always : IdTriple → Prop) :
    Progress order patterns Ever Always [] { pending := patterns } := by
  refine ⟨List.suffix_rfl, nofun, List.nodup_nil, by simp, by simp, fun t _ hmatch => ?_⟩
  exact .inr ((ahead_of_start patterns [] t).mpr hmatch)

/-- As time goes on, more triples have been stored ever and fewer always. -/
theorem mono {Ever' Always' : IdTriple → Prop} (h : Progress order patterns Ever Always met c)
    (hever : ∀ t, Ever t → Ever' t) (halways : ∀ t, Always' t → Always t) :
    Progress order patterns Ever' Always' met c :=
  { h with
    ever := fun t ht => ⟨hever t (h.ever t ht).1, (h.ever t ht).2⟩
    always := fun t ht => h.always t (halways t ht) }

theorem fetched (h : Progress order patterns Ever Always met c) (hpage : c.page = [])
    (hf : Fetched order S { pending := c.pending, resume := c.resume } c')
    (hever : ∀ t ∈ S, Ever t) (halways : ∀ t, Always t → t ∈ S) :
    Progress order patterns Ever Always met c' := by
  have hnodup := h.nodup
  have hbehind := h.behind
  have hseen := h.ever
  have hall := h.always
  rw [hpage, List.append_nil] at hnodup hbehind hseen
  simp only [hpage, List.append_nil] at hall
  refine ⟨hf.pending.trans h.pending, fun hdone => ?_, ?_, fun t ht => ?_, fun t ht => ?_,
    fun t ht hmatch => ?_⟩
  · exact absurd (hf.done.symm.trans hdone) Bool.false_ne_true
  · exact hnodup.append hf.nodup fun t hmet hin => hbehind t hmet (hf.mem t hin).2.1
  · rcases List.mem_append.mp ht with hmet | hin
    · exact fun hahead => hbehind t hmet (hf.ahead t hahead)
    · exact (hf.mem t hin).2.2
  · rcases List.mem_append.mp ht with hmet | hin
    · exact hseen t hmet
    · obtain ⟨hS, hahead, -⟩ := hf.mem t hin
      obtain ⟨q, hq, hmatch⟩ := exists_matches_of_ahead hahead
      exact ⟨hever t hS, q, h.pending.subset hq, hmatch⟩
  · rcases hall t ht hmatch with hmet | hahead
    · exact .inl (List.mem_append_left _ hmet)
    · exact (hf.stored t (halways t ht) hahead).imp_left (List.mem_append_right _)

theorem pop (h : Progress order patterns Ever Always met c) {t : IdTriple} {page : List IdTriple}
    (hpage : c.page = t :: page) :
    Progress order patterns Ever Always (met ++ [t]) { c with page } := by
  have happend : met ++ [t] ++ page = met ++ c.page := by
    rw [hpage, List.append_assoc, List.singleton_append]
  refine ⟨h.pending, fun hdone => ?_, ?_, ?_, ?_, ?_⟩
  · have hnil := (h.ended hdone).2
    rw [hpage] at hnil
    cases hnil
  all_goals simp only [happend]
  · exact h.nodup
  · exact h.behind
  · exact h.ever
  · exact h.always

theorem finish (h : Progress order patterns Ever Always met c) (hpage : c.page = [])
    (hnone : ∀ t, Always t → ¬ c.Ahead order t) :
    Progress order patterns Ever Always met
      { c with pending := [], resume := none, page := [], done := true } := by
  refine ⟨List.nil_suffix, fun _ => ⟨rfl, rfl⟩, hpage ▸ h.nodup, fun _ _ h => h, hpage ▸ h.ever,
    fun t ht hmatch => .inl ?_⟩
  exact hpage ▸ (h.always t ht hmatch).resolve_right (hnone t ht)

variable {τ : Type} [NodeTable τ] {g : Graph}

/-- One step of a walk: it ends having met all that has always been stored, or meets one more. -/
theorem next (h : Progress order patterns Ever Always met c) (hopen : g.closed = false)
    (hS : g.indexes.Represents S) (hr : ∀ t ∈ S, t.InRange)
    (horder : ∀ p, (g.indexes.choose p).order = order p)
    (hapart : patterns.Pairwise fun p q => ∀ t, p.Matches t → ¬ q.Matches t)
    (hever : ∀ t ∈ S, Ever t) (halways : ∀ t, Always t → t ∈ S) (nodes : τ) :
    (∃ c', c.next g nodes = (none, c') ∧ c'.done = true ∧
        Progress order patterns Ever Always met c' ∧
        ∀ t, Always t → (∃ q ∈ patterns, q.Matches t) → t ∈ met) ∨
      ∃ t c', c.next g nodes = (some (yield nodes t), c') ∧
        Progress order patterns Ever Always (met ++ [t]) c' := by
  have hmet {c' : Cursor} (h : Progress order patterns Ever Always met c')
      (hdone : c'.done = true) : ∀ t, Always t → (∃ q ∈ patterns, q.Matches t) → t ∈ met := by
    obtain ⟨hpending, hpage⟩ := h.ended hdone
    intro t ht hmatch
    have hin := (h.always t ht hmatch).resolve_right fun hahead => by
      simp [Ahead, hpending] at hahead
    rwa [hpage, List.append_nil] at hin
  have hpop {c' : Cursor} (hdone : c.done = false) (hfill : c.fill g.indexes = some c')
      (hne : c'.page ≠ []) (h : Progress order patterns Ever Always met c') :
      ∃ t c', c.next g nodes = (some (yield nodes t), c') ∧
        Progress order patterns Ever Always (met ++ [t]) c' := by
    obtain ⟨t, page, hcons⟩ := List.exists_cons_of_ne_nil hne
    refine ⟨t, { c' with page }, ?_, h.pop hcons⟩
    simp only [Cursor.next, hdone, hopen, hfill, hcons, Bool.false_eq_true, if_false]
  cases hdone : c.done with
  | true => exact .inl ⟨c, by simp [Cursor.next, hdone], hdone, h, hmet h hdone⟩
  | false =>
    cases hpage : c.page with
    | cons t page =>
      have hne : c.page ≠ [] := hpage ▸ List.cons_ne_nil t page
      exact .inr (hpop hdone (by simp [fill, hne]) hne h)
    | nil =>
      have hfill : c.fill g.indexes = fetch g.indexes c.pending c.resume := by
        simp [fill, hpage]
      have hpending := hapart.sublist h.pending.sublist
      rcases fetch_ahead hS hr horder c.pending hpending c.resume with
        ⟨hnone, hahead⟩ | ⟨c', hsome, hfetched⟩
      · have hend := h.finish hpage fun t ht => hahead t (halways t ht)
        refine .inl ⟨_, ?_, rfl, hend, hmet hend rfl⟩
        simp only [Cursor.next, hdone, hopen, hfill, hnone, Bool.false_eq_true, if_false]
      · exact .inr (hpop hdone (hfill.trans hsome) hfetched.page_ne_nil
          (h.fetched hpage hfetched hever halways))

end Progress

end TripleStore.Cursor
