import TripleStore.Graph.Transaction
import TripleStore.Proofs.Index.Set

/-!
# Taking changes back

An answer of an index set tells whether it changed: a triple that is put in for the first time can
be taken out again, and the other way round, and the bytes are as before. `Tracks` says that a log
holds such effective changes only, in the order they were made; rolling it back cannot fail and
restores the bytes of the start.
-/

namespace TripleStore

namespace IndexSet

/-- All indexes hold the same triples. -/
def InStep (s : IndexSet) : Prop := ∃ S, s.Represents S

variable {s s' : IndexSet} {S : Finset IdTriple} {t : IdTriple} {changed : Bool}

theorem real_of_insert (h : s.insert t = .ok (changed, s')) : t.Real := by
  by_contra ht
  obtain ⟨id, -, hrefused⟩ := refused_of_not_real ht
  rw [(hrefused s).1] at h
  cases h

theorem real_of_remove (h : s.remove t = .ok (changed, s')) : t.Real := by
  by_contra ht
  obtain ⟨id, -, hrefused⟩ := refused_of_not_real ht
  rw [(hrefused s).2] at h
  cases h

theorem orders_of_insert (h : s.insert t = .ok (changed, s')) : s'.orders = s.orders := by
  have horders := orders_put s t
  rw [insert_of_real (real_of_insert h)] at h
  rwa [Except.ok.inj h] at horders

theorem orders_of_remove (h : s.remove t = .ok (changed, s')) : s'.orders = s.orders := by
  have horders := orders_drop s t
  rw [remove_of_real (real_of_remove h)] at h
  rwa [Except.ok.inj h] at horders

/-- What an insertion tells and leaves. -/
theorem Represents.of_insert (hS : s.Represents S) (h : s.insert t = .ok (changed, s')) :
    (changed = true ↔ t ∉ S) ∧ s'.Represents (Insert.insert t S) ∧ s'.orders = s.orders := by
  have horders := orders_of_insert h
  have ht := real_of_insert h
  have hput := hS.put ht
  rw [insert_of_real ht] at h
  rw [Except.ok.inj h] at hput
  exact ⟨hput.1, hput.2, horders⟩

/-- What a removal tells and leaves. -/
theorem Represents.of_remove (hS : s.Represents S) (h : s.remove t = .ok (changed, s')) :
    (changed = true ↔ t ∈ S) ∧ s'.Represents (S.erase t) ∧ s'.orders = s.orders := by
  have horders := orders_of_remove h
  have ht := real_of_remove h
  have hdrop := hS.drop ht
  rw [remove_of_real ht] at h
  rw [Except.ok.inj h] at hdrop
  exact ⟨hdrop.1, hdrop.2, horders⟩

theorem InStep.insert (hs : s.InStep) (h : s.insert t = .ok (changed, s')) : s'.InStep := by
  obtain ⟨S, hS⟩ := hs
  exact ⟨_, (hS.of_insert h).2.1⟩

theorem InStep.remove (hs : s.InStep) (h : s.remove t = .ok (changed, s')) : s'.InStep := by
  obtain ⟨S, hS⟩ := hs
  exact ⟨_, (hS.of_remove h).2.1⟩

/-- Putting in a triple that is there already leaves every byte as it is. -/
theorem InStep.insert_unchanged (hs : s.InStep) (h : s.insert t = .ok (false, s')) : s' = s := by
  obtain ⟨S, hS⟩ := hs
  obtain ⟨hfresh, hput, horders⟩ := hS.of_insert h
  have hin : t ∈ S := by
    by_contra hout
    exact Bool.false_ne_true (hfresh.mpr hout)
  rw [Finset.insert_eq_self.mpr hin] at hput
  exact hput.unique hS horders

/-- Taking out a triple that is not there leaves every byte as it is. -/
theorem InStep.remove_unchanged (hs : s.InStep) (h : s.remove t = .ok (false, s')) : s' = s := by
  obtain ⟨S, hS⟩ := hs
  obtain ⟨hfound, hdrop, horders⟩ := hS.of_remove h
  have hout : t ∉ S := fun hin => Bool.false_ne_true (hfound.mpr hin)
  rw [Finset.erase_eq_of_notMem hout] at hdrop
  exact hdrop.unique hS horders

/-- A triple put in for the first time can be taken out again, which restores every byte. -/
theorem InStep.remove_of_insert (hs : s.InStep) (h : s.insert t = .ok (true, s')) :
    s'.remove t = .ok (true, s) := by
  obtain ⟨S, hS⟩ := hs
  obtain ⟨hfresh, hput, horders⟩ := hS.of_insert h
  have hremove := remove_of_real (real_of_insert h) s'
  obtain ⟨hfound, hdrop, horders'⟩ := hput.of_remove hremove
  rw [Finset.erase_insert (hfresh.mp rfl)] at hdrop
  have hback : (s'.drop t).2 = s := hdrop.unique hS (horders'.trans horders)
  have hthere : (s'.drop t).1 = true := hfound.mpr (Finset.mem_insert_self t S)
  rw [hremove, ← hback, ← hthere]

/-- A triple taken out can be put in again, which restores every byte. -/
theorem InStep.insert_of_remove (hs : s.InStep) (h : s.remove t = .ok (true, s')) :
    s'.insert t = .ok (true, s) := by
  obtain ⟨S, hS⟩ := hs
  obtain ⟨hfound, hdrop, horders⟩ := hS.of_remove h
  have hinsert := insert_of_real (real_of_remove h) s'
  obtain ⟨hfresh, hput, horders'⟩ := hdrop.of_insert hinsert
  rw [Finset.insert_erase (hfound.mp rfl)] at hput
  have hback : (s'.put t).2 = s := hput.unique hS (horders'.trans horders)
  have hnew : (s'.put t).1 = true := hfresh.mpr (Finset.notMem_erase t S)
  rw [hinsert, ← hback, ← hnew]

end IndexSet

open IndexSet

/-- The changes lead from the first index set to the second one, each of them an effective one. -/
inductive Tracks (start : IndexSet) : List Change → IndexSet → Prop where
  | nil : Tracks start [] start
  | added {changes s s' t} : Tracks start changes s → s.insert t = .ok (true, s') →
      Tracks start (changes ++ [.added t]) s'
  | removed {changes s s' t} : Tracks start changes s → s.remove t = .ok (true, s') →
      Tracks start (changes ++ [.removed t]) s'

namespace Tracks

variable {start s s' : IndexSet} {changes further : List Change}

theorem inStep (h : Tracks start changes s) (hs : start.InStep) : s.InStep := by
  induction h with
  | nil => exact hs
  | added _ hinsert ih => exact ih.insert hinsert
  | removed _ hremove ih => exact ih.remove hremove

theorem orders_eq (h : Tracks start changes s) : s.orders = start.orders := by
  induction h with
  | nil => rfl
  | added _ hinsert ih => exact (orders_of_insert hinsert).trans ih
  | removed _ hremove ih => exact (orders_of_remove hremove).trans ih

theorem trans (h : Tracks start changes s) (h' : Tracks s further s') :
    Tracks start (changes ++ further) s' := by
  induction h' with
  | nil => rwa [List.append_nil]
  | added _ hinsert ih =>
    rw [← List.append_assoc]
    exact ih.added hinsert
  | removed _ hremove ih =>
    rw [← List.append_assoc]
    exact ih.removed hremove

theorem rollback_concat {c : Change} {s₁ : IndexSet} {changed : Bool}
    (h : c.undo s = .ok (changed, s₁)) :
    rollback s (changes ++ [c]) = rollback s₁ changes := by
  rw [rollback, List.reverse_concat, undoAll, h]
  rfl

/-- Rolling back a log of effective changes succeeds and restores every byte of the start. -/
theorem rollback_eq (h : Tracks start changes s) (hs : start.InStep) :
    rollback s changes = (.ok (), start) := by
  induction h with
  | nil => rfl
  | added hpre hinsert ih =>
    rw [rollback_concat (c := .added _) ((hpre.inStep hs).remove_of_insert hinsert), ih]
  | removed hpre hremove ih =>
    rw [rollback_concat (c := .removed _) ((hpre.inStep hs).insert_of_remove hremove), ih]

end Tracks

end TripleStore
