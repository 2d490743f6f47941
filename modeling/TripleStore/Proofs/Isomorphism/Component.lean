import Mathlib.Data.List.Forall2
import Mathlib.Data.List.GetD
import TripleStore.Proofs.Isomorphism.Refine

/-!
# Components make up a side

The representatives join the nodes that a triple mentions together, and no others than this forces.
So the components are closed and make up their side, and a renaming that carries one side onto
another carries the components of the one onto those of the other.
-/

namespace TripleStore.Isomorphism

/-- Nodes of one representative have one value. -/
def Refines {α : Type} (n : Nat) (reps : List Nat) (value : Nat → α) : Prop :=
  ∀ x < n, ∀ y < n, representative reps x = representative reps y → value x = value y

section Relabel

variable {α : Type} {value : Nat → α} {n : Nat} {reps : List Nat}

theorem representative_eq_getElem {x : Nat} (hx : x < reps.length) :
    representative reps x = reps[x] :=
  List.getD_eq_getElem reps x hx

@[simp] theorem length_relabel (reps : List Nat) (x y : Nat) :
    (relabel reps x y).length = reps.length := by
  simp [relabel]

theorem representative_relabel {x : Nat} (hx : x < reps.length) (y z : Nat) :
    representative (relabel reps y z) x =
      if representative reps x = representative reps z then representative reps y
      else representative reps x := by
  have hx' : x < (relabel reps y z).length := (length_relabel reps y z).symm ▸ hx
  rw [representative_eq_getElem hx', representative_eq_getElem hx]
  exact List.getElem_map _

theorem Refines.relabel (h : Refines n reps value) (hlen : reps.length = n) {y z : Nat}
    (hy : y < n) (hz : z < n) (he : value y = value z) : Refines n (relabel reps y z) value := by
  intro u hu v hv huv
  rw [representative_relabel (hlen ▸ hu), representative_relabel (hlen ▸ hv)] at huv
  split at huv
  next hsource =>
    split at huv
    next hsource' => exact (h u hu z hz hsource).trans (h v hv z hz hsource').symm
    next => exact ((h u hu z hz hsource).trans he.symm).trans (h y hy v hv huv)
  next =>
    split at huv
    next hsource' => exact (h u hu y hy huv).trans (he.trans (h v hv z hz hsource').symm)
    next => exact h u hu v hv huv

/-- Relabeling keeps together what is together. -/
theorem refines_relabel (hlen : reps.length = n) (y z : Nat) :
    Refines n reps (representative (relabel reps y z)) := by
  intro u hu v hv huv
  rw [representative_relabel (hlen ▸ hu), representative_relabel (hlen ▸ hv), huv]

theorem Refines.trans {reps' : List Nat} (h : Refines n reps (representative reps'))
    (h' : Refines n reps' value) : Refines n reps value :=
  fun u hu v hv huv => h' u hu v hv (h u hu v hv huv)

/-- Relabeling pairs in order brings the numbers of each together, and no others than this
forces. -/
theorem foldl_relabel_spec (value : Nat → α) (hlen : reps.length = n) {pairs : List (Nat × Nat)}
    (hpairs : ∀ p ∈ pairs, p.1 < n ∧ p.2 < n) :
    let joined := pairs.foldl (fun reps p => relabel reps p.1 p.2) reps
    joined.length = n ∧ Refines n reps (representative joined) ∧
      (∀ p ∈ pairs, representative joined p.1 = representative joined p.2) ∧
      ((∀ p ∈ pairs, value p.1 = value p.2) → Refines n reps value → Refines n joined value) := by
  induction pairs generalizing reps with
  | nil => exact ⟨hlen, fun _ _ _ _ h => h, by simp, fun _ h => h⟩
  | cons p pairs ih =>
    rw [List.forall_mem_cons] at hpairs
    obtain ⟨⟨hfirst, hsecond⟩, hpairs⟩ := hpairs
    have hlen' : (relabel reps p.1 p.2).length = n := (length_relabel reps p.1 p.2).trans hlen
    obtain ⟨hjoined, hkept, hall, hvalue⟩ := ih hlen' hpairs
    refine ⟨hjoined, (refines_relabel hlen p.1 p.2).trans hkept, ?_, fun hv h => ?_⟩
    · rw [List.forall_mem_cons]
      refine ⟨hkept p.1 hfirst p.2 hsecond ?_, hall⟩
      rw [representative_relabel (hlen ▸ hfirst), representative_relabel (hlen ▸ hsecond),
        if_pos rfl]
      split <;> rfl
    · rw [List.forall_mem_cons] at hv
      exact hvalue hv.2 (h.relabel hlen hfirst hsecond hv.1)

end Relabel

namespace UnionFind

/-- The sets after unions of pairs in order. -/
def united (uf : UnionFind) (n : Nat) (pairs : List (Nat × Nat)) : uf.Sets :=
  pairs.foldl (fun sets p => uf.union sets p.1 p.2) (uf.new n)

/-- Numbers have the same representative exactly if the unions so far link them. -/
structure Lawful (uf : UnionFind) : Prop where
  length_labels : ∀ {n pairs}, (∀ p ∈ pairs, p.1 < n ∧ p.2 < n) →
    (uf.labels (uf.united n pairs)).length = n
  representative_eq_iff : ∀ {n pairs}, (∀ p ∈ pairs, p.1 < n ∧ p.2 < n) → ∀ x < n, ∀ y < n,
    (representative (uf.labels (uf.united n pairs)) x =
        representative (uf.labels (uf.united n pairs)) y ↔
      Relation.EqvGen (fun x y => (x, y) ∈ pairs) x y)

theorem refines_range {α : Type} (n : Nat) (value : Nat → α) : Refines n (List.range n) value := by
  have hself {x : Nat} (hx : x < n) : representative (List.range n) x = x := by
    rw [representative_eq_getElem (List.length_range.symm ▸ hx), List.getElem_range]
  intro x hx y hy he
  rw [hself hx, hself hy] at he
  rw [he]

theorem lawful_relabeling : relabeling.Lawful where
  length_labels {n pairs} hpairs := (foldl_relabel_spec id List.length_range hpairs).1
  representative_eq_iff {n pairs} hpairs x hx y hy := by
    let link (x y : Nat) : Prop := (x, y) ∈ pairs
    obtain ⟨-, -, hjoined, hvalue⟩ :=
      foldl_relabel_spec (Quot.mk link) List.length_range hpairs
    constructor
    · intro he
      have hlinked : Refines n (relabeling.labels (relabeling.united n pairs)) (Quot.mk link) :=
        hvalue (fun p hp => Quot.sound hp) (refines_range n _)
      exact Quot.eqvGen_exact (hlinked x hx y hy he)
    · clear hx hy
      intro hlinked
      induction hlinked with
      | rel x y hpair => exact hjoined (x, y) hpair
      | refl x => rfl
      | symm x y _ ih => exact ih.symm
      | trans x y z _ _ ih ih' => exact ih.trans ih'

end UnionFind

def pairsOf (t : Triple Slot) : List (Nat × Nat) :=
  match blanksOf t with
  | [] => []
  | first :: rest => rest.map fun b => (first, b)

namespace Side

variable {s : Side} {uf : UnionFind}

theorem uniteTriple_eq (sets : uf.Sets) (t : Triple Slot) :
    uniteTriple uf sets t =
      (pairsOf t).foldl (fun sets p => uf.union sets p.1 p.2) sets := by
  rw [uniteTriple, pairsOf]
  cases blanksOf t with
  | nil => rfl
  | cons first rest =>
    dsimp only
    rw [List.foldl_map]

theorem representatives_eq (s : Side) (uf : UnionFind) : s.representatives uf =
    uf.labels (uf.united s.blanks (s.blankTriples.flatMap pairsOf)) := by
  rw [representatives, UnionFind.united, List.foldl_flatMap]
  simp only [← uniteTriple_eq]

theorem mem_pairsOf {t : Triple Slot} {p : Nat × Nat} (hp : p ∈ pairsOf t) :
    p.1 ∈ blanksOf t ∧ p.2 ∈ blanksOf t := by
  rw [pairsOf] at hp
  cases hblanks : blanksOf t with
  | nil =>
    rw [hblanks] at hp
    cases hp
  | cons first rest =>
    rw [hblanks] at hp
    obtain ⟨x, hx, rfl⟩ := List.mem_map.mp hp
    exact ⟨List.mem_cons_self, List.mem_cons_of_mem first hx⟩

/-- The unions of a triple link all nodes that it mentions. -/
theorem eqvGen_pairsOf {t : Triple Slot} {x y : Nat} (hx : x ∈ blanksOf t) (hy : y ∈ blanksOf t) :
    Relation.EqvGen (fun x y => (x, y) ∈ pairsOf t) x y := by
  rw [pairsOf]
  cases hblanks : blanksOf t with
  | nil =>
    rw [hblanks] at hx
    cases hx
  | cons first rest =>
    have hfirst {x : Nat} (hx : x ∈ blanksOf t) :
        Relation.EqvGen (fun x y => (x, y) ∈ rest.map fun b => (first, b)) first x := by
      rw [hblanks] at hx
      rcases List.mem_cons.mp hx with rfl | hx
      · exact .refl x
      · exact .rel _ _ (List.mem_map_of_mem hx)
    exact ((hfirst hx).symm).trans _ _ _ (hfirst hy)

theorem representatives_spec {α : Type} (hu : uf.Lawful) (hs : s.Sound) (value : Nat → α) :
    (s.representatives uf).length = s.blanks ∧
      (∀ t ∈ s.blankTriples, ∀ x ∈ blanksOf t, ∀ y ∈ blanksOf t,
        representative (s.representatives uf) x =
          representative (s.representatives uf) y) ∧
      ((∀ t ∈ s.blankTriples, ∀ x ∈ blanksOf t, ∀ y ∈ blanksOf t, value x = value y) →
        Refines s.blanks (s.representatives uf) value) := by
  have hpairs : ∀ p ∈ s.blankTriples.flatMap pairsOf, p.1 < s.blanks ∧ p.2 < s.blanks := by
    intro p hp
    obtain ⟨t, ht, hp⟩ := List.mem_flatMap.mp hp
    exact (mem_pairsOf hp).imp (hs.bounded t ht _) (hs.bounded t ht _)
  rw [representatives_eq]
  refine ⟨hu.length_labels hpairs, fun t ht x hx y hy => ?_, fun hv x hx y hy he => ?_⟩
  · have hlinked : Relation.EqvGen (fun x y => (x, y) ∈ s.blankTriples.flatMap pairsOf) x y :=
      (eqvGen_pairsOf hx hy).mono fun _ _ hp => List.mem_flatMap.mpr ⟨t, ht, hp⟩
    exact (hu.representative_eq_iff hpairs x (hs.bounded t ht x hx) y (hs.bounded t ht y hy)).mpr
      hlinked
  · have hlinked := (hu.representative_eq_iff hpairs x hx y hy).mp he
    clear hx hy he
    induction hlinked with
    | rel x y hp =>
      obtain ⟨t, ht, hp⟩ := List.mem_flatMap.mp hp
      exact hv t ht x (mem_pairsOf hp).1 y (mem_pairsOf hp).2
    | refl x => rfl
    | symm x y _ ih => exact ih.symm
    | trans x y z _ _ ih ih' => exact ih.trans ih'

def componentAt (s : Side) (uf : UnionFind) (r : Nat) : Component where
  blanks := (List.range s.blanks).filter fun x => representative (s.representatives uf) x = r
  triples := s.blankTriples.filter fun t =>
    (blanksOf t).head?.any fun x => representative (s.representatives uf) x = r

theorem components_eq (s : Side) (uf : UnionFind) :
    s.components uf = (s.representatives uf).eraseDups.map (s.componentAt uf) := rfl

def representativeOf (s : Side) (uf : UnionFind) (t : Triple Slot) : Nat :=
  representative (s.representatives uf) ((blanksOf t).headD 0)

namespace Sound

theorem headD_mem (hs : s.Sound) {t : Triple Slot} (ht : t ∈ s.blankTriples) :
    (blanksOf t).headD 0 ∈ blanksOf t := by
  obtain ⟨x, rest, hcons⟩ := List.exists_cons_of_ne_nil (hs.mentioned t ht)
  rw [hcons]
  exact List.mem_cons_self

theorem triples_componentAt (hs : s.Sound) (uf : UnionFind) (r : Nat) :
    (s.componentAt uf r).triples =
      s.blankTriples.filter fun t => s.representativeOf uf t = r := by
  apply List.filter_congr
  intro t ht
  obtain ⟨x, rest, hcons⟩ := List.exists_cons_of_ne_nil (hs.mentioned t ht)
  rw [representativeOf, hcons]
  rfl

variable (hu : uf.Lawful)

include hu

theorem representative_mem (hs : s.Sound) {x : Nat} (hx : x < s.blanks) :
    representative (s.representatives uf) x ∈ s.representatives uf := by
  have hlt : x < (s.representatives uf).length :=
    (representatives_spec hu hs id).1.symm ▸ hx
  rw [representative_eq_getElem hlt]
  exact List.getElem_mem hlt

theorem exists_representative (hs : s.Sound) {r : Nat} (hr : r ∈ s.representatives uf) :
    ∃ x < s.blanks, representative (s.representatives uf) x = r := by
  obtain ⟨x, hx, rfl⟩ := List.getElem_of_mem hr
  exact ⟨x, (representatives_spec hu hs id).1 ▸ hx, representative_eq_getElem hx⟩

/-- A triple belongs to the component of each node that it mentions. -/
theorem representativeOf_eq (hs : s.Sound) {t : Triple Slot} (ht : t ∈ s.blankTriples) {x : Nat}
    (hx : x ∈ blanksOf t) :
    s.representativeOf uf t = representative (s.representatives uf) x :=
  (representatives_spec hu hs id).2.1 t ht _ (hs.headD_mem ht) x hx

theorem closed_componentAt (hs : s.Sound) (r : Nat) : (s.componentAt uf r).Closed where
  nodup := List.nodup_range.filter _
  mentioned t ht x hx := by
    rw [hs.triples_componentAt, List.mem_filter, decide_eq_true_eq] at ht
    refine List.mem_filter.mpr ⟨List.mem_range.mpr (hs.bounded t ht.1 x hx), ?_⟩
    rw [decide_eq_true_eq, ← hs.representativeOf_eq hu ht.1 hx, ht.2]

/-- The components share out the nodes and the triples of the side. -/
theorem components_perm (hs : s.Sound) :
    ((s.components uf).flatMap Component.blanks).Perm (List.range s.blanks) ∧
      ((s.components uf).flatMap Component.triples).Perm s.blankTriples := by
  have hnodup := nodup_eraseDups (s.representatives uf)
  rw [components_eq, List.flatMap_map, List.flatMap_map]
  constructor
  · refine flatMap_filter_perm _ hnodup fun x hx => ?_
    rw [List.mem_eraseDups]
    exact hs.representative_mem hu (List.mem_range.mp hx)
  · rw [List.flatMap_congr fun r _ => hs.triples_componentAt uf r]
    refine flatMap_filter_perm _ hnodup fun t ht => ?_
    rw [List.mem_eraseDups]
    exact hs.representative_mem hu (hs.bounded t ht _ (hs.headD_mem ht))

theorem closed_of_mem (hs : s.Sound) {c : Component} (hc : c ∈ s.components uf) :
    c.Closed := by
  rw [components_eq] at hc
  obtain ⟨r, -, rfl⟩ := List.mem_map.mp hc
  exact hs.closed_componentAt hu r

theorem blanks_ne_nil (hs : s.Sound) {c : Component} (hc : c ∈ s.components uf) :
    c.blanks ≠ [] := by
  rw [components_eq] at hc
  obtain ⟨r, hr, rfl⟩ := List.mem_map.mp hc
  obtain ⟨x, hx, rfl⟩ := hs.exists_representative hu (List.mem_eraseDups.mp hr)
  refine List.ne_nil_of_mem (a := x) (List.mem_filter.mpr ⟨List.mem_range.mpr hx, ?_⟩)
  rw [decide_eq_true_eq]

theorem blanks_lt (hs : s.Sound) {c : Component} (hc : c ∈ s.components uf) :
    ∀ x ∈ c.blanks, x < s.blanks := by
  intro x hx
  have hflat : x ∈ (s.components uf).flatMap Component.blanks :=
    List.mem_flatMap.mpr ⟨c, hc, hx⟩
  exact List.mem_range.mp ((hs.components_perm hu).1.mem_iff.mp hflat)

end Sound

theorem disjoint_components (s : Side) (uf : UnionFind) :
    (s.components uf).Pairwise fun c d => ∀ x ∈ c.blanks, x ∉ d.blanks := by
  rw [components_eq, List.pairwise_map]
  refine (nodup_eraseDups (s.representatives uf)).imp
    fun {r r'} (hne : r ≠ r') x hx hx' => hne ?_
  have hr := (List.mem_filter.mp hx).2
  have hr' := (List.mem_filter.mp hx').2
  rw [decide_eq_true_eq] at hr hr'
  exact hr.symm.trans hr'

end Side

section Carries

variable {π : Nat → Nat} {a b : Side} {uf : UnionFind} (hu : uf.Lawful)

include hu

theorem representative_le_of_carries (ha : a.Sound) (hb : b.Sound)
    (h : Carries π a.whole b.whole) {x y : Nat} (hx : x < a.blanks) (hy : y < a.blanks)
    (he : representative (a.representatives uf) x = representative (a.representatives uf) y) :
    representative (b.representatives uf) (π x) = representative (b.representatives uf) (π y) := by
  have hvalue := (Side.representatives_spec hu ha
    fun x => representative (b.representatives uf) (π x)).2.2
  refine hvalue (fun t ht v hv w hw => ?_) x hx y hy he
  have hmem : renameTriple π t ∈ b.blankTriples :=
    h.triples.mem_iff.mp (List.mem_map_of_mem ht)
  have hrenamed {v : Nat} (hv : v ∈ blanksOf t) : π v ∈ blanksOf (renameTriple π t) := by
    rw [blanksOf_renameTriple]
    exact List.mem_map_of_mem hv
  exact (Side.representatives_spec hu hb id).2.1 _ hmem _ (hrenamed hv) _ (hrenamed hw)

/-- Nodes hang together exactly if their images do. -/
theorem representative_iff_of_carries (ha : a.Sound) (hb : b.Sound)
    (h : Carries π a.whole b.whole) {x y : Nat} (hx : x < a.blanks) (hy : y < a.blanks) :
    representative (b.representatives uf) (π x) = representative (b.representatives uf) (π y) ↔
      representative (a.representatives uf) x = representative (a.representatives uf) y := by
  refine ⟨fun he => ?_, representative_le_of_carries hu ha hb h hx hy⟩
  obtain ⟨σ, hσ, hleft⟩ := h.symm ha.closed hb.closed
  have hback := representative_le_of_carries hu hb ha hσ (h.lt hx) (h.lt hy) he
  rwa [hleft x (List.mem_range.mpr hx), hleft y (List.mem_range.mpr hy)] at hback

theorem carries_componentAt (ha : a.Sound) (hb : b.Sound) (h : Carries π a.whole b.whole) {x : Nat}
    (hx : x < a.blanks) :
    Carries π (a.componentAt uf (representative (a.representatives uf) x))
      (b.componentAt uf (representative (b.representatives uf) (π x))) where
  blanks := by
    refine map_filter_perm h.blanks fun y hy => ?_
    exact decide_eq_decide.mpr (representative_iff_of_carries hu ha hb h (List.mem_range.mp hy) hx)
  triples := by
    rw [ha.triples_componentAt, hb.triples_componentAt]
    refine map_filter_perm h.triples fun t ht => ?_
    have hhead := ha.headD_mem ht
    have hmem : renameTriple π t ∈ b.blankTriples := h.triples.mem_iff.mp (List.mem_map_of_mem ht)
    have himage : π ((blanksOf t).headD 0) ∈ blanksOf (renameTriple π t) := by
      rw [blanksOf_renameTriple]
      exact List.mem_map_of_mem hhead
    rw [hb.representativeOf_eq hu hmem himage]
    exact decide_eq_decide.mpr
      (representative_iff_of_carries hu ha hb h (ha.bounded t ht _ hhead) hx)

def imageOf (uf : UnionFind) (π : Nat → Nat) (a b : Side) (r : Nat) : Nat :=
  representative (b.representatives uf) (π ((a.representatives uf).idxOf r))

theorem imageOf_representative (ha : a.Sound) (hb : b.Sound) (h : Carries π a.whole b.whole)
    {x : Nat} (hx : x < a.blanks) :
    imageOf uf π a b (representative (a.representatives uf) x) =
      representative (b.representatives uf) (π x) := by
  have hlt := List.idxOf_lt_length_of_mem (ha.representative_mem hu hx)
  have hfirst : representative (a.representatives uf)
      ((a.representatives uf).idxOf (representative (a.representatives uf) x)) =
        representative (a.representatives uf) x :=
    (representative_eq_getElem hlt).trans (List.getElem_idxOf hlt)
  have hbound := hlt.trans_eq (Side.representatives_spec hu ha id).1
  exact (representative_iff_of_carries hu ha hb h hbound hx).mpr hfirst

/-- Different representatives have different images, and all are met. -/
theorem map_imageOf_perm (ha : a.Sound) (hb : b.Sound) (h : Carries π a.whole b.whole) :
    ((a.representatives uf).eraseDups.map (imageOf uf π a b)).Perm
      (b.representatives uf).eraseDups := by
  have hexists {r : Nat} (hr : r ∈ (a.representatives uf).eraseDups) :
      ∃ x < a.blanks, representative (a.representatives uf) x = r :=
    ha.exists_representative hu (List.mem_eraseDups.mp hr)
  have hnodup : ((a.representatives uf).eraseDups.map (imageOf uf π a b)).Nodup := by
    refine List.Nodup.map_on (fun r hr r' hr' he => ?_) (nodup_eraseDups _)
    obtain ⟨x, hx, rfl⟩ := hexists hr
    obtain ⟨y, hy, rfl⟩ := hexists hr'
    rw [imageOf_representative hu ha hb h hx, imageOf_representative hu ha hb h hy] at he
    exact (representative_iff_of_carries hu ha hb h hx hy).mp he
  refine (List.perm_ext_iff_of_nodup hnodup (nodup_eraseDups _)).mpr fun r => ?_
  rw [List.mem_map, List.mem_eraseDups]
  constructor
  · rintro ⟨r, hr, rfl⟩
    obtain ⟨x, hx, rfl⟩ := hexists hr
    rw [imageOf_representative hu ha hb h hx]
    exact hb.representative_mem hu (h.lt hx)
  · intro hr
    obtain ⟨y, hy, rfl⟩ := hb.exists_representative hu hr
    obtain ⟨x, hx, rfl⟩ := List.mem_map.mp (h.blanks.mem_iff.mpr (List.mem_range.mpr hy))
    have hx := List.mem_range.mp hx
    exact ⟨_, List.mem_eraseDups.mpr (ha.representative_mem hu hx),
      imageOf_representative hu ha hb h hx⟩

/-- A renaming of sides carries each component onto one of its own. -/
theorem exists_images_of_carries (ha : a.Sound) (hb : b.Sound) (h : Carries π a.whole b.whole) :
    ∃ cs, List.Forall₂ (Carries π) (a.components uf) cs ∧ cs.Perm (b.components uf) := by
  refine ⟨(a.representatives uf).eraseDups.map fun r => b.componentAt uf (imageOf uf π a b r),
    ?_, ?_⟩
  · rw [Side.components_eq, List.forall₂_map_left_iff, List.forall₂_map_right_iff,
      List.forall₂_same]
    intro r hr
    obtain ⟨x, hx, rfl⟩ := ha.exists_representative hu (List.mem_eraseDups.mp hr)
    rw [imageOf_representative hu ha hb h hx]
    exact carries_componentAt hu ha hb h hx
  · have hcomponents := (map_imageOf_perm hu ha hb h).map (b.componentAt uf)
    rwa [List.map_map] at hcomponents

end Carries

end TripleStore.Isomorphism
