import Mathlib.Data.Finset.Basic
import TripleStore.Proofs.Index.Sorted

/-!
# Scans of an index

A single index takes triples with marks among their ids too. As long as every id is told by its
bits, whatever calls it went through, it behaves as a finite set of triples, and a scan yields the
members that match and lie behind the place where it resumes, in the order of the columns.
-/

namespace TripleStore

namespace TripleIndex

inductive Command where
  | insert (t : IdTriple)
  | erase (t : IdTriple)
  | clear

def perform (x : TripleIndex) : Command → TripleIndex
  | .insert t => (x.insert t).2
  | .erase t => (x.erase t).2
  | .clear => x.clear

def run (order : IndexOrder) (commands : List Command) : TripleIndex :=
  commands.foldl perform (empty order)

namespace Command

/-- Every id of the triple that the call is about is told by its bits. -/
def InRange : Command → Prop
  | .insert t | .erase t => t.InRange
  | .clear => True

instance : DecidablePred InRange
  | .insert t | .erase t => inferInstanceAs (Decidable t.InRange)
  | .clear => isTrue trivial

def contents (S : Finset IdTriple) : Command → Finset IdTriple
  | .insert t => Insert.insert t S
  | .erase t => S.erase t
  | .clear => ∅

end Command

def contents (commands : List Command) : Finset IdTriple := commands.foldl Command.contents ∅

/-- The index holds the triples of a set, whose ids are all told by their bits. -/
structure Collects (x : TripleIndex) (S : Finset IdTriple) : Prop where
  listed : ∃ ts, x.Keeps ts ∧ ∀ t, t ∈ ts ↔ t ∈ S
  inRange : ∀ t ∈ S, t.InRange

namespace Collects

variable {x : TripleIndex} {S : Finset IdTriple}

theorem contains_iff (h : x.Collects S) {t : IdTriple} (ht : t.InRange) :
    x.contains t = true ↔ t ∈ S := by
  obtain ⟨⟨ts, hts, hmem⟩, hr⟩ := h
  rw [contains, hts.held.contains_iff, exists_key_iff_of_inj, hmem]
  exact fun u hu => (x.key_inj_of_inRange (hr u ((hmem u).mp hu)) ht).mp

/-- A call changes an index as it changes the set of its triples. -/
theorem perform (h : x.Collects S) {c : Command} (hc : c.InRange) :
    (x.perform c).Collects (c.contents S) := by
  obtain ⟨⟨ts, hts, hmem⟩, hr⟩ := h
  have hinj {t : IdTriple} (ht : t.InRange) : ∀ u ∈ ts, x.key u = x.key t → u = t :=
    fun u hu => (x.key_inj_of_inRange (hr u ((hmem u).mp hu)) ht).mp
  cases c with
  | insert t =>
    obtain ⟨-, us, hus, hmem'⟩ := Keeps.insert (hinj hc) hts
    refine ⟨⟨us, hus, fun u => ?_⟩, Finset.forall_mem_insert .. |>.mpr ⟨hc, hr⟩⟩
    rw [hmem', hmem, Command.contents, Finset.mem_insert]
  | erase t =>
    obtain ⟨-, us, hus, hmem'⟩ := Keeps.erase (hinj hc) hts
    refine ⟨⟨us, hus, fun u => ?_⟩, fun u hu => hr u (Finset.mem_of_mem_erase hu)⟩
    rw [hmem', hmem, Command.contents, Finset.mem_erase]
  | clear => exact ⟨⟨[], hts.clear, by simp [Command.contents]⟩, by simp [Command.contents]⟩

/-- A scan yields the matches that lie behind the triple it resumes from, if there is one. -/
theorem scanAfter_spec (h : x.Collects S) (pattern : IdTriple) (after : Option IdTriple) :
    (x.scanAfter pattern after).Pairwise (IdTriple.Before x.order) ∧
      ∀ t, t ∈ x.scanAfter pattern after ↔
        t ∈ S ∧ pattern.Matches t ∧ ∀ a ∈ after, x.key a < x.key t := by
  obtain ⟨⟨ts, hts, hmem⟩, hr⟩ := h
  rw [hts.scanAfter_eq fun t ht => hr t ((hmem t).mp ht)]
  refine ⟨hts.ascending.filter _, fun t => ?_⟩
  cases after <;> simp [hmem, IdTriple.isMatch_iff, and_comm]

end Collects

theorem collects_empty (order : IndexOrder) : (empty order).Collects ∅ :=
  ⟨⟨[], keeps_empty order, by simp⟩, by simp⟩

@[simp] theorem order_perform (x : TripleIndex) (c : Command) : (x.perform c).order = x.order := by
  cases c <;> rfl

/-- A run of calls is followed by the set of the triples. -/
theorem collects_run (order : IndexOrder) {commands : List Command}
    (hr : ∀ c ∈ commands, c.InRange) :
    (run order commands).Collects (contents commands) ∧ (run order commands).order = order := by
  induction commands using List.reverseRecOn with
  | nil => exact ⟨collects_empty order, rfl⟩
  | append_singleton commands c ih =>
    rw [List.forall_mem_append, List.forall_mem_singleton] at hr
    obtain ⟨hcollects, horder⟩ := ih hr.1
    rw [run, contents, List.foldl_concat, List.foldl_concat, ← run, ← contents, order_perform]
    exact ⟨hcollects.perform hr.2, horder⟩

/-- Whatever calls an index went through, a scan yields the triples it then stores that match the
pattern and have greater keys than the triple to resume from, each once, ascending by the raw ids
in the columns. The triple to resume from need neither be stored nor match. -/
theorem run_scans_matches_behind (order : IndexOrder) (commands : List Command)
    (hr : ∀ c ∈ commands, c.InRange) (pattern : IdTriple) (after : Option IdTriple) :
    let x := run order commands
    (∀ t, t.InRange → (x.contains t = true ↔ t ∈ contents commands)) ∧
      (∀ t, t ∈ x.scanAfter pattern after ↔
        t ∈ contents commands ∧ pattern.Matches t ∧ ∀ a ∈ after, x.key a < x.key t) ∧
      (x.scanAfter pattern after).Nodup ∧
      (x.scanAfter pattern after).Pairwise (IdTriple.Before order) ∧
      x.scan pattern = x.scanAfter pattern none := by
  intro x
  obtain ⟨hcollects, horder⟩ : x.Collects (contents commands) ∧ x.order = order :=
    collects_run order hr
  obtain ⟨hascending, hmem⟩ := hcollects.scanAfter_spec pattern after
  exact ⟨fun t => hcollects.contains_iff, hmem, IdTriple.nodup_of_pairwise_before hascending,
    horder ▸ hascending, rfl⟩

theorem run_scans_matches_behind_removed_mark :
    let mark : IdTriple := ⟨.any, .real 7, .missing⟩
    let commands : List Command := [.insert ⟨.real 1, .real 7, .real NodeId.maxValue⟩,
      .insert mark, .insert ⟨.real 2, .real 7, .real 3⟩, .insert ⟨.real 2, .real 8, .real 3⟩,
      .erase mark]
    let pattern : IdTriple := ⟨.any, .real 7, .any⟩
    let after : IdTriple := ⟨.real 5, .real 7, .real 3⟩
    let x := run .pos commands
    (∀ c ∈ commands, c.InRange) ∧
      x.scan pattern = [⟨.real 2, .real 7, .real 3⟩, ⟨.real 1, .real 7, .real NodeId.maxValue⟩] ∧
      (∀ t, t ∈ x.scanAfter pattern (some after) ↔
        t ∈ contents commands ∧ pattern.Matches t ∧ ∀ a ∈ some after, x.key a < x.key t) ∧
      (x.scanAfter pattern (some after)).Pairwise (IdTriple.Before .pos) := by
  intro mark commands pattern after x
  have hr : ∀ c ∈ commands, c.InRange := by decide
  obtain ⟨-, hmem, -, hascending, -⟩ :=
    run_scans_matches_behind .pos commands hr pattern (some after)
  exact ⟨hr, by decide +kernel, hmem, hascending⟩

end TripleIndex

end TripleStore
