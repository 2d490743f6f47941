import Mathlib.Data.List.TakeWhile
import TripleStore.Text.Blank

/-!
# Trimming and cutting

A text is trimmed already if no blank stands at its ends, and blanks around it make no difference.
Cutting undoes joining: texts that hold no character of a class, joined by one, are the pieces of
the joined text.
-/

namespace TripleStore.Text

/-! ### Blanks around a text -/

theorem trim_of_ends {cs : List Char} (hfirst : ∀ c ∈ cs.head?, isBlank c = false)
    (hlast : ∀ c ∈ cs.getLast?, isBlank c = false) : trim cs = cs := by
  have hkeeps : ∀ ds : List Char, (∀ c ∈ ds.head?, isBlank c = false) →
      ds.dropWhile isBlank = ds := by
    intro ds hds
    cases ds with
    | nil => rfl
    | cons d ds => exact List.dropWhile_cons_of_neg (by rw [hds d rfl]; exact Bool.false_ne_true)
  rw [trim, trimStart, hkeeps cs hfirst, trimEnd,
    hkeeps cs.reverse (by rwa [List.head?_reverse]), List.reverse_reverse]

theorem trim_eq_self {cs : List Char} (h : ∀ c ∈ cs, isBlank c = false) : trim cs = cs :=
  trim_of_ends (fun c hc => h c (List.mem_of_mem_head? hc))
    fun c hc => h c (List.mem_of_mem_getLast? hc)

theorem trim_append {front back : List Char} (hfront : ∀ c ∈ front, isBlank c = true)
    (hback : ∀ c ∈ back, isBlank c = true) (cs : List Char) :
    trim (front ++ cs ++ back) = trim cs := by
  have hstart : trimStart (front ++ cs ++ back) = trimStart (cs ++ back) := by
    rw [trimStart, List.append_assoc, List.dropWhile_append_of_pos hfront, trimStart]
  have hnone : back.dropWhile isBlank = [] := List.dropWhile_eq_nil_iff.2 hback
  rw [trim, hstart, trim, trimStart, List.dropWhile_append]
  split
  next hempty => rw [hnone, trimStart, List.isEmpty_iff.1 hempty]
  next =>
    rw [trimEnd, List.reverse_append, List.dropWhile_append_of_pos (by simpa using hback), trimEnd,
      trimStart]

theorem trim_of_blank {cs : List Char} (h : ∀ c ∈ cs, isBlank c = true) : trim cs = [] := by
  have hnone := trim_append h (List.forall_mem_nil _) []
  rwa [List.append_nil, List.append_nil] at hnone

/-! ### Pieces -/

variable {cut : Char → Bool}

theorem pieces_eq_splitOnP (cut : Char → Bool) (cs : List Char) :
    pieces cut cs = cs.splitOnP cut := by
  induction cs with
  | nil => simp [pieces]
  | cons c cs ih =>
    rw [pieces, List.splitOnP_cons_eq_if_modifyHead, ← ih]
    split
    · rfl
    · cases hpieces : pieces cut cs with
      | nil => exact absurd hpieces (pieces_ne_nil cut cs)
      | cons w ws => rfl

theorem pieces_intercalate {c : Char} (hcut : cut c = true) {ws : List (List Char)} (hne : ws ≠ [])
    (hws : ∀ w ∈ ws, ∀ d ∈ w, cut d = false) : pieces cut ([c].intercalate ws) = ws := by
  rw [pieces_eq_splitOnP]
  induction ws with
  | nil => exact absurd rfl hne
  | cons w ws ih =>
    have hw : w.splitOnP cut = [w] := List.splitOnP_eq_singleton (hws w List.mem_cons_self)
    cases ws with
    | nil => rwa [List.intercalate_singleton]
    | cons w' ws =>
      rw [List.intercalate_cons_cons, List.append_assoc, List.singleton_append,
        List.splitOnP_append_cons _ _ hcut, hw,
        ih (List.cons_ne_nil _ _) fun v hv => hws v (List.mem_cons_of_mem w hv),
        List.singleton_append]

theorem mem_pieces {c : Char} {cs : List Char} (hc : c ∈ cs) (hcut : cut c = false) :
    ∃ w ∈ pieces cut cs, c ∈ w := by
  induction cs with
  | nil => cases hc
  | cons d cs ih =>
    rw [pieces]
    split
    next hd =>
      have hne : c ≠ d := by
        rintro rfl
        exact Bool.false_ne_true (hcut.symm.trans hd)
      obtain ⟨w, hw, hcw⟩ := ih (List.mem_of_ne_of_mem hne hc)
      exact ⟨w, List.mem_cons_of_mem _ hw, hcw⟩
    next =>
      cases hpieces : pieces cut cs with
      | nil => exact absurd hpieces (pieces_ne_nil cut cs)
      | cons w ws =>
        rcases List.mem_cons.1 hc with rfl | hc
        · exact ⟨_, List.mem_cons_self, List.mem_cons_self⟩
        · obtain ⟨v, hv, hcv⟩ := ih hc
          rw [hpieces] at hv
          rcases List.mem_cons.1 hv with rfl | hv
          · exact ⟨_, List.mem_cons_self, List.mem_cons_of_mem d hcv⟩
          · exact ⟨v, List.mem_cons_of_mem _ hv, hcv⟩

theorem words_intercalate {c : Char} (hblank : isBlank c = true) {ws : List (List Char)}
    (hne : ∀ w ∈ ws, w ≠ []) (hws : ∀ w ∈ ws, ∀ d ∈ w, isBlank d = false) :
    words ([c].intercalate ws) = ws := by
  rcases eq_or_ne ws [] with rfl | hsome
  · rfl
  · rw [words, pieces_intercalate hblank hsome hws]
    exact List.filter_eq_self.2 fun w hw => by simp [hne w hw]

end TripleStore.Text
