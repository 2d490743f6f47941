import TripleStore.Json.Printer
import TripleStore.Proofs.Json.Reader

/-!
# What is printed is a document

The laid-out form of a value spells it, so it is read back as the value.
-/

namespace TripleStore.Json

open Spelling

/-- The strings of a value are spelled as JSON has it, and there are no numbers in it. -/
inductive WellSpelled : Json → Prop where
  | null : WellSpelled .null
  | bool (b : Bool) : WellSpelled (.bool b)
  | string {s : List Char} (hs : Spelled s) : WellSpelled (.string s)
  | array {xs : List Json} (hxs : ∀ x ∈ xs, WellSpelled x) : WellSpelled (.array xs)
  | object {ms : List (List Char × Json)} (hkeys : ∀ m ∈ ms, Spelled m.1)
      (hvalues : ∀ m ∈ ms, WellSpelled m.2) : WellSpelled (.object ms)

theorem newLine_gap (depth : Nat) : Gap (newLine depth) := by
  intro c hc
  rcases List.mem_cons.1 hc with rfl | hc
  · rfl
  · rw [List.eq_of_mem_replicate hc]
    rfl

theorem gap_nil : Gap [] := fun _ hc => by cases hc

theorem named_quoteSpelling {key : List Char} (hkey : Spelled key) :
    Named key (quoteSpelling key ++ [':', ' ']) := by
  have hblank : Gap [' '] := fun c hc => by rw [List.mem_singleton.1 hc]; rfl
  simpa [quoteSpelling] using Named.mk hkey gap_nil hblank

theorem printElements_written {x : Json} {xs : List Json} (outer inner : Nat)
    (hxs : ∀ y ∈ x :: xs, Written (.value y) (print inner y)) :
    Written (.elements (x :: xs))
      (print inner x ++ printElements inner xs ++ newLine outer ++ [']']) := by
  induction xs generalizing x with
  | nil =>
    simpa [printElements] using
      Written.lastElement (hxs x List.mem_cons_self) (newLine_gap outer)
  | cons y ys ih =>
    have hrest := ih fun z hz => hxs z (List.mem_cons_of_mem x hz)
    simpa [printElements] using
      Written.nextElement (hxs x List.mem_cons_self) gap_nil (newLine_gap inner) hrest

theorem printMembers_written {m : List Char × Json} {ms : List (List Char × Json)}
    (outer inner : Nat) (hkeys : ∀ n ∈ m :: ms, Spelled n.1)
    (hms : ∀ n ∈ m :: ms, Written (.value n.2) (print inner n.2)) :
    Written (.members (m :: ms))
      (quoteSpelling m.1 ++ [':', ' '] ++ print inner m.2 ++ printMembers inner ms ++
        newLine outer ++ ['\x7d']) := by
  induction ms generalizing m with
  | nil =>
    simpa [printMembers] using Written.lastMember (named_quoteSpelling (hkeys m List.mem_cons_self))
      (hms m List.mem_cons_self) (newLine_gap outer)
  | cons n ns ih =>
    have hrest := ih (fun k hk => hkeys k (List.mem_cons_of_mem m hk))
      fun k hk => hms k (List.mem_cons_of_mem m hk)
    simpa [printMembers] using Written.nextMember (named_quoteSpelling (hkeys m List.mem_cons_self))
      (hms m List.mem_cons_self) gap_nil (newLine_gap inner) hrest

theorem WellSpelled.written {x : Json} (h : WellSpelled x) (depth : Nat) :
    Written (.value x) (print depth x) := by
  induction h generalizing depth with
  | null => exact .null
  | bool b =>
    cases b
    · exact .false
    · exact .true
  | string hs => exact .string hs
  | @array xs hxs ih =>
    cases xs with
    | nil => exact .noElements gap_nil
    | cons x xs =>
      have helements := printElements_written depth (depth + 1) fun y hy => ih y hy _
      simpa [print] using Written.array (newLine_gap (depth + 1)) helements
  | @object ms hkeys hvalues ih =>
    cases ms with
    | nil => exact .noMembers gap_nil
    | cons m ms =>
      have hmembers := printMembers_written depth (depth + 1) hkeys fun n hn => ih n hn _
      simpa [print] using Written.object (newLine_gap (depth + 1)) hmembers

/-- The laid-out form of a value spells it. -/
theorem WellSpelled.document {x : Json} (h : WellSpelled x) : Document x (print 0 x) := by
  simpa using Document.mk gap_nil (h.written 0) gap_nil

end TripleStore.Json
