import TripleStore.Proofs.Index.Set

/-!
# Queries of an index set

Whatever index a pattern is looked up in, the answer is the represented set cut down to the matches,
in the order of that index. The tests for a match, the size and the check of consistency agree with
it. Every id stored is mostly taken to be told by its bits; otherwise a key may not read back.
-/

namespace TripleStore.IndexSet

variable {s : IndexSet} {S : Finset IdTriple}

theorem choose_mem (s : IndexSet) (pattern : IdTriple) : s.choose pattern ∈ s.indexes := by
  have hfold : ∀ (xs : List TripleIndex) (best : TripleIndex),
      xs.foldl (fun best x => if reach pattern best < reach pattern x then x else best) best ∈
        best :: xs := by
    intro xs
    induction xs with
    | nil => simp
    | cons x xs ih =>
      intro best
      rw [List.foldl_cons]
      split
      · exact List.mem_cons_of_mem _ (ih x)
      · rcases List.mem_cons.mp (ih best) with he | hmem
        · rw [he]
          exact List.mem_cons_self
        · exact List.mem_cons_of_mem _ (List.mem_cons_of_mem _ hmem)
  exact hfold s.others s.primary

/-- The order of the index that a pattern is looked up in hangs on nothing but the orders kept. -/
theorem order_choose_congr {s' : IndexSet} (h : s'.orders = s.orders) (pattern : IdTriple) :
    (s'.choose pattern).order = (s.choose pattern).order := by
  let better (best o : IndexOrder) : IndexOrder :=
    if (best.boundColumns pattern).length < (o.boundColumns pattern).length then o else best
  have hfold (xs : List TripleIndex) (best : TripleIndex) :
      (xs.foldl (fun best x => if reach pattern best < reach pattern x then x else best)
        best).order = (xs.map (·.order)).foldl better best.order := by
    induction xs generalizing best with
    | nil => rfl
    | cons x xs ih =>
      rw [List.foldl_cons, ih, List.map_cons, List.foldl_cons]
      congr 1
      exact apply_ite TripleIndex.order ..
  obtain ⟨hprimary, hothers⟩ : s'.primary.order = s.primary.order ∧
      s'.others.map (·.order) = s.others.map (·.order) := List.cons.inj h
  rw [choose, choose, hfold, hfold, hprimary, hothers]

theorem isMissing_iff (id : NodeId) : id.isMissing = true ↔ id = .missing := by
  cases id <;> simp [NodeId.isMissing]

/-- A term without id is in no stored triple. -/
theorem not_isMatch_of_missing {pattern t : IdTriple} (ht : t.Real)
    (h : pattern.toList.any NodeId.isMissing = true) : pattern.isMatch t = false := by
  simp only [IdTriple.Real, Triple.toList, List.forall_mem_cons] at ht
  obtain ⟨hs, hp, ho, -⟩ := ht
  have hne {p id : NodeId} (hid : id.isReal = true) (hm : p.isMissing = true) :
      ¬ (p = .any ∨ p = id) := by
    rintro (rfl | rfl)
    · cases hm
    · cases p <;> simp_all [NodeId.isReal, NodeId.isMissing]
  rw [Bool.eq_false_iff, Ne, IdTriple.isMatch_iff]
  rintro ⟨hms, hmp, hmo⟩
  simp only [Triple.toList, List.any_cons, List.any_nil, Bool.or_false, Bool.or_eq_true] at h
  rcases h with h | h | h
  · exact hne hs h hms
  · exact hne hp h hmp
  · exact hne ho h hmo

/-- The triples of the chosen index tell what a lookup finds behind any place. -/
theorem Represents.findAfter_eq (h : s.Represents S) (hr : ∀ t ∈ S, t.InRange)
    (pattern : IdTriple) :
    ∃ ts : List IdTriple, ts.Pairwise (IdTriple.Before (s.choose pattern).order) ∧
      (∀ t, t ∈ ts ↔ t ∈ S) ∧
      ∀ after, s.findAfter pattern after =
        ts.filter fun t => after.all (fun a => IdTriple.Before (s.choose pattern).order a t) &&
          pattern.isMatch t := by
  obtain ⟨ts, hts, hmem⟩ := h.index (s.choose_mem pattern)
  refine ⟨ts, hts.ascending, hmem, fun after => ?_⟩
  simp only [← TripleIndex.key_lt_iff]
  rw [findAfter]
  split
  next hmissing =>
    refine (List.filter_eq_nil_iff.mpr fun t ht => ?_).symm
    simp [not_isMatch_of_missing (hts.real t ht) hmissing]
  next => exact hts.keeps.scanAfter_eq (fun t ht => hr t ((hmem t).mp ht)) pattern after

/-- A lookup finds the matches behind a place, in the order chosen for the pattern. -/
theorem Represents.findAfter_spec (h : s.Represents S) (hr : ∀ t ∈ S, t.InRange)
    (pattern : IdTriple) (after : Option IdTriple) :
    (s.findAfter pattern after).Pairwise (IdTriple.Before (s.choose pattern).order) ∧
      ∀ t, t ∈ s.findAfter pattern after ↔ t ∈ S ∧ pattern.Matches t ∧
        ∀ a ∈ after, IdTriple.Before (s.choose pattern).order a t := by
  obtain ⟨ts, hasc, hmem, hfind⟩ := h.findAfter_eq hr pattern
  rw [hfind]
  refine ⟨hasc.filter _, fun t => ?_⟩
  cases after <;> simp [hmem, IdTriple.isMatch_iff, and_comm]

theorem Represents.find_spec (h : s.Represents S) (hr : ∀ t ∈ S, t.InRange) (pattern : IdTriple) :
    (s.find pattern).Pairwise (IdTriple.Before (s.choose pattern).order) ∧
      ∀ t, t ∈ s.find pattern ↔ t ∈ S ∧ pattern.isMatch t = true := by
  obtain ⟨hasc, hmem⟩ := h.findAfter_spec hr pattern none
  refine ⟨hasc, fun t => ?_⟩
  rw [find, hmem, IdTriple.isMatch_iff]
  simp

/-- A lookup finds what stored triples read back as. -/
theorem Represents.mem_find_iff (h : s.Represents S) {pattern u : IdTriple} :
    u ∈ s.find pattern ↔
      .missing ∉ pattern.toList ∧ pattern.Matches u ∧ ∃ t ∈ S, t.readBack? = some u := by
  obtain ⟨ts, hts, hmem⟩ := h.index (s.choose_mem pattern)
  have hmissing : pattern.toList.any NodeId.isMissing = true ↔ .missing ∈ pattern.toList := by
    simp [isMissing_iff]
  rw [find, findAfter]
  split
  next hm => simp [hmissing.mp hm]
  next hm =>
    change u ∈ (s.choose pattern).scan pattern ↔ _
    rw [hts.keeps.scan_eq, List.mem_filter, List.mem_filterMap, IdTriple.isMatch_iff]
    simp only [hmem, ← hmissing, hm]
    tauto

/-- Nothing is found twice, and no triple of real ids is found that is not there. This takes no id
to be told by its bits. -/
theorem Represents.nodup_find (h : s.Represents S) (pattern : IdTriple) :
    (s.find pattern).Nodup ∧ ∀ t ∈ s.find pattern, t.Real → t ∈ S := by
  constructor
  · rw [find, findAfter]
    split
    next => exact List.nodup_nil
    next =>
      obtain ⟨ts, hts, -⟩ := h.index (s.choose_mem pattern)
      exact hts.nodup_scan pattern
  · intro u hu hreal
    obtain ⟨-, -, t, ht, hback⟩ := h.mem_find_iff.mp hu
    rwa [IdTriple.eq_of_readBack?_of_real hback (h.real ht) hreal]

theorem Represents.contains_iff (h : s.Represents S) (hr : ∀ t ∈ S, t.InRange) (t : IdTriple) :
    s.contains t = true ↔ t ∈ S := by
  obtain ⟨ts, hts, hmem⟩ := h.primary
  rw [contains, hts.contains_iff_of_inRange (fun t ht => hr t ((hmem t).mp ht)), hmem]

theorem isMatch_iff_eq_of_real {pattern t : IdTriple}
    (h : pattern.toList.all NodeId.isReal = true) : pattern.isMatch t = true ↔ pattern = t := by
  have hany {p id : NodeId} (hp : p.isReal = true) : p = .any ∨ p = id ↔ p = id :=
    ⟨fun hor => hor.resolve_left fun he => (by simp [he, NodeId.isReal] at hp), .inr⟩
  simp only [Triple.toList, List.all_cons, List.all_nil, Bool.and_true, Bool.and_eq_true] at h
  rw [IdTriple.isMatch_iff, IdTriple.Matches, hany h.1, hany h.2.1, hany h.2.2]
  cases pattern
  cases t
  simp

theorem Represents.containsMatch_eq (h : s.Represents S) (hr : ∀ t ∈ S, t.InRange)
    (pattern : IdTriple) : s.containsMatch pattern = !(s.find pattern).isEmpty := by
  rw [containsMatch]
  split
  next hreal =>
    have hmem := (h.find_spec hr pattern).2
    rw [Bool.eq_iff_iff, h.contains_iff hr, Bool.not_eq_true', List.isEmpty_eq_false_iff_exists_mem]
    constructor
    · intro hin
      exact ⟨pattern, (hmem pattern).mpr ⟨hin, (isMatch_iff_eq_of_real hreal).mpr rfl⟩⟩
    · rintro ⟨t, ht⟩
      obtain ⟨hin, hmatch⟩ := (hmem t).mp ht
      rwa [(isMatch_iff_eq_of_real hreal).mp hmatch]
  next => rfl

theorem length_eq_card {ts : List IdTriple} (hnodup : ts.Nodup) (hmem : ∀ t, t ∈ ts ↔ t ∈ S) :
    ts.length = S.card := by
  have hS : ts.toFinset = S := by
    ext t
    rw [List.mem_toFinset, hmem]
  rw [← List.toFinset_card_of_nodup hnodup, hS]

theorem Represents.size_eq (h : s.Represents S) : s.size = S.card := by
  obtain ⟨ts, hts, hmem⟩ := h.primary
  rw [size, hts.len_eq, length_eq_card hts.nodup hmem]

theorem Represents.length_findAfter_le (h : s.Represents S) (hr : ∀ t ∈ S, t.InRange)
    (pattern : IdTriple) (after : Option IdTriple) :
    (s.findAfter pattern after).length ≤ s.size := by
  obtain ⟨ts, hasc, hmem, hfind⟩ := h.findAfter_eq hr pattern
  rw [hfind, h.size_eq, ← length_eq_card (IdTriple.nodup_of_pairwise_before hasc) hmem]
  exact List.length_filter_le _ _

/-- In an ascending list the members behind one of them are those greater than it. -/
theorem filter_behind {R : IdTriple → IdTriple → Prop} [DecidableRel R]
    (hasymm : ∀ t u, R t u → ¬ R u t) {front back : List IdTriple} {last : IdTriple}
    (h : (front ++ [last] ++ back).Pairwise R) :
    (front ++ [last] ++ back).filter (fun t => R last t) = back := by
  obtain ⟨hfront, -, hback⟩ := List.pairwise_append.mp h
  have hnone : (front ++ [last]).filter (fun t => R last t) = [] := by
    apply List.filter_eq_nil_iff.mpr
    intro t ht
    rw [decide_eq_true_eq]
    rcases List.mem_append.mp ht with ht | ht
    · exact hasymm _ _ ((List.pairwise_append.mp hfront).2.2 t ht last List.mem_cons_self)
    · obtain rfl := List.mem_singleton.mp ht
      exact fun hlt => hasymm _ _ hlt hlt
  have hall : back.filter (fun t => R last t) = back := by
    apply List.filter_eq_self.mpr
    intro t ht
    rw [decide_eq_true_eq]
    exact hback last (List.mem_append_right _ List.mem_cons_self) t ht
  rw [List.filter_append, hnone, hall, List.nil_append]

/-- A lookup that resumes behind the last triple of a page yields what the page left. -/
theorem Represents.findAfter_last (h : s.Represents S) (hr : ∀ t ∈ S, t.InRange)
    (pattern : IdTriple) (after : Option IdTriple) (n : Nat) {last : IdTriple}
    (hlast : ((s.findAfter pattern after).take n).getLast? = some last) :
    s.findAfter pattern (some last) = (s.findAfter pattern after).drop n := by
  obtain ⟨ts, hasc, hmem, hfind⟩ := h.findAfter_eq hr pattern
  obtain ⟨front, hpage⟩ := List.getLast?_eq_some_iff.mp hlast
  have hsplit : s.findAfter pattern after =
      front ++ [last] ++ (s.findAfter pattern after).drop n := by
    rw [← hpage, List.take_append_drop]
  have hsorted : (s.findAfter pattern after).Pairwise
      (IdTriple.Before (s.choose pattern).order) := by
    rw [hfind]
    exact hasc.filter _
  have hbehind : last ∈ s.findAfter pattern after := by
    rw [hsplit]
    simp
  have hrest : s.findAfter pattern (some last) = (s.findAfter pattern after).filter
      fun t => IdTriple.Before (s.choose pattern).order last t := by
    rw [hfind, List.mem_filter, Bool.and_eq_true] at hbehind
    rw [hfind, hfind, List.filter_filter]
    apply List.filter_congr
    intro t _
    cases hlt : decide (IdTriple.Before (s.choose pattern).order last t) with
    | false => simp [hlt]
    | true =>
      have hafter : (after.all fun a =>
          decide (IdTriple.Before (s.choose pattern).order a t)) = true := by
        cases after with
        | none => rfl
        | some a =>
          rw [decide_eq_true_eq] at hlt
          simp only [Option.all_some, decide_eq_true_eq] at hbehind ⊢
          exact List.lt_trans hbehind.2.1 hlt
      rw [Option.all_some, hlt, hafter, Bool.true_and, Bool.true_and]
  rw [hrest]
  conv_lhs => rw [hsplit]
  exact filter_behind (fun t u => List.lt_asymm) (hsplit ▸ hsorted)

theorem rawLe_iff {t u : IdTriple} :
    IdTriple.rawLe t u = true ↔ ¬ IdTriple.Before .spo u t := by
  simp only [IdTriple.rawLe, decide_eq_true_eq]
  exact List.not_lt.symm

/-- Sorting by subject gives the first index back, whatever order the triples came in. -/
theorem mergeSort_eq_of_perm {ts us : List IdTriple} (hasc : us.Pairwise (IdTriple.Before .spo))
    (hperm : ts.Perm us) : ts.mergeSort IdTriple.rawLe = us := by
  have hsorted : (ts.mergeSort IdTriple.rawLe).Pairwise fun t u => IdTriple.rawLe t u = true := by
    refine List.pairwise_mergeSort (fun t u v htu huv => ?_) (fun t u => ?_) ts
    · simp only [IdTriple.rawLe, decide_eq_true_eq] at *
      exact List.le_trans htu huv
    · simpa [IdTriple.rawLe] using List.le_total _ _
  have hle : us.Pairwise fun t u => IdTriple.rawLe t u = true :=
    hasc.imp fun hlt => rawLe_iff.mpr (List.lt_asymm hlt)
  have hpermuted : (ts.mergeSort IdTriple.rawLe).Perm us := (ts.mergeSort_perm _).trans hperm
  refine hpermuted.eq_of_pairwise (fun t u ht hu htu hut => ?_) hsorted hle
  by_contra hne
  let Apart (t u : IdTriple) : Prop :=
    t ≠ u → IdTriple.Before .spo t u ∨ IdTriple.Before .spo u t
  have hapart : ∀ ⦃t⦄, t ∈ us → ∀ ⦃u⦄, u ∈ us → Apart t u :=
    List.Pairwise.forall_of_forall_of_flip (fun _ _ hne => absurd rfl hne)
      (hasc.imp fun hlt _ => Or.inl hlt) (hasc.imp fun hlt _ => Or.inr hlt)
  rcases hapart (hpermuted.mem_iff.mp ht) hu hne with hlt | hlt
  · exact rawLe_iff.mp hut hlt
  · exact rawLe_iff.mp htu hlt

/-- The scan of all triples yields whatever the keys read back as. -/
theorem scan_any_eq {x : TripleIndex} {ts : List IdTriple} (h : x.Keeps ts) :
    x.scan IdTriple.any = ts.filterMap IdTriple.readBack? := by
  rw [h.scan_eq]
  exact List.filter_eq_self.mpr fun t _ => rfl

/-- The indexes list the triples of one set, so only a key that reads back as nothing can make them
differ: it counts as one key, but no scan yields it. -/
theorem Represents.isConsistent_eq_of_readBack? (h : s.Represents S)
    (hback : ∀ t ∈ S, t.readBack?.isSome) : s.isConsistent = true := by
  obtain ⟨ts, hts, hmem⟩ := h.primary
  have hasc : ts.Pairwise (IdTriple.Before .spo) := h.primary_order ▸ hts.ascending
  have hlength : (ts.filterMap IdTriple.readBack?).length = ts.length :=
    List.filterMap_length_eq_length.mpr fun t ht => hback t ((hmem t).mp ht)
  rw [isConsistent, scan_any_eq hts.keeps, List.all_eq_true]
  intro x hx
  obtain ⟨us, hus, hmem'⟩ := h.others x hx
  have hperm : us.Perm ts :=
    (List.perm_ext_iff_of_nodup hus.nodup hts.nodup).mpr fun t => (hmem' t).trans (hmem t).symm
  rw [scan_any_eq hus.keeps, mergeSort_eq_of_perm (IdTriple.pairwise_readBack? hasc)
    (hperm.filterMap _), hus.len_eq, hperm.length_eq, hlength]
  simp

theorem Represents.isConsistent_eq (h : s.Represents S) (hr : ∀ t ∈ S, t.InRange) :
    s.isConsistent = true := by
  apply h.isConsistent_eq_of_readBack?
  intro t ht
  rw [(IdTriple.readBack?_eq_self_iff t).mpr (hr t ht), Option.isSome_some]

end TripleStore.IndexSet
