import Mathlib.Data.List.Basic
import TripleStore.Graph.Listener

/-!
# Delivery of events

A batch is delivered by calls that are settled when the delivery starts: event by event, each to the
listeners of the start in the order of registration. Whatever a call does, the next one is made in
the state it leaves. `recording` writes the calls down as they are made. The tokens of a registry
ascend in the order of registration, and none is given out twice.
-/

namespace TripleStore

/-- A call of a listener about an event, in a state. -/
structure Call (α σ : Type) where
  listener : α
  event : Event
  state : σ

section

variable {α σ : Type}

/-- Which listeners are to be called about which events, in this order. -/
def schedule (listeners : List α) (events : List Event) : List (α × Event) :=
  events.flatMap fun e => listeners.map fun l => (l, e)

/-- What a listener does, with a note of the call. -/
def recording (call : α → Event → σ → Reaction σ) (l : α) (e : Event)
    (s : σ × List (Call α σ)) : Reaction (σ × List (Call α σ)) :=
  let reaction := call l e s.1
  { state := (reaction.state, s.2 ++ [⟨l, e, s.1⟩]), panicked := reaction.panicked }

/-- The calls are made one after the other, each in the state that the one before left. -/
inductive Calls (call : α → Event → σ → Reaction σ) : σ → List (Call α σ) → σ → Prop where
  | nil {s : σ} : Calls call s [] s
  | cons {s s' : σ} {l : α} {e : Event} {calls : List (Call α σ)} :
      Calls call (call l e s).state calls s' → Calls call s (⟨l, e, s⟩ :: calls) s'

variable {call : α → Event → σ → Reaction σ}

theorem deliver_eq_foldl (call : α → Event → σ → Reaction σ) (listeners : List α)
    (events : List Event) (s : σ) : deliver call listeners events s =
      (schedule listeners events).foldl (fun s c => (call c.1 c.2 s).state) s := by
  simp only [deliver, schedule, List.foldl_flatMap, List.foldl_map]

theorem deliver_nil (call : α → Event → σ → Reaction σ) (events : List Event) (s : σ) :
    deliver call [] events s = s := by
  induction events with
  | nil => rfl
  | cons e events ih => exact ih

theorem foldl_recording (call : α → Event → σ → Reaction σ) (plan : List (α × Event)) (s : σ)
    (noted : List (Call α σ)) :
    ∃ calls, plan.foldl (fun s c => (recording call c.1 c.2 s).state) (s, noted) =
        (plan.foldl (fun s c => (call c.1 c.2 s).state) s, noted ++ calls) ∧
      calls.map (fun c => (c.listener, c.event)) = plan ∧
      Calls call s calls (plan.foldl (fun s c => (call c.1 c.2 s).state) s) := by
  induction plan generalizing s noted with
  | nil => exact ⟨[], by simp, rfl, .nil⟩
  | cons c plan ih =>
    obtain ⟨calls, hfold, hplan, hcalls⟩ := ih (call c.1 c.2 s).state (noted ++ [⟨c.1, c.2, s⟩])
    refine ⟨⟨c.1, c.2, s⟩ :: calls, ?_, congrArg (c :: ·) hplan, .cons hcalls⟩
    rw [List.append_assoc] at hfold
    exact hfold

/-- The calls of a delivery are those of the schedule, and writing them down changes nothing. -/
theorem deliver_recording (call : α → Event → σ → Reaction σ) (listeners : List α)
    (events : List Event) (s : σ) :
    ∃ calls, deliver (recording call) listeners events (s, []) =
        (deliver call listeners events s, calls) ∧
      calls.map (fun c => (c.listener, c.event)) = schedule listeners events ∧
      Calls call s calls (deliver call listeners events s) := by
  rw [deliver_eq_foldl, deliver_eq_foldl]
  exact foldl_recording call (schedule listeners events) s []

/-- What holds at the start and is kept by each call that is made holds whenever a listener is
called, and in the end. -/
theorem Calls.invariant {P : σ → Prop} {s s' : σ} {calls : List (Call α σ)}
    (h : Calls call s calls s')
    (hstep : ∀ c ∈ calls, P c.state → P (call c.listener c.event c.state).state) (hs : P s) :
    (∀ c ∈ calls, P c.state) ∧ P s' := by
  induction h with
  | nil => exact ⟨by simp, hs⟩
  | cons _ ih =>
    rw [List.forall_mem_cons] at hstep
    obtain ⟨hrest, hend⟩ := ih hstep.2 (hstep.1 hs)
    exact ⟨List.forall_mem_cons.mpr ⟨hs, hrest⟩, hend⟩

theorem filter_token {listeners : List (Nat × α)} (h : (listeners.map (·.1)).Nodup) {l : Nat × α}
    (hl : l ∈ listeners) : listeners.filter (fun l' => l'.1 = l.1) = [l] := by
  induction listeners with
  | nil => cases hl
  | cons l' listeners ih =>
    obtain ⟨hfirst, hrest⟩ := List.nodup_cons.mp h
    have hother (k : Nat × α) (hk : k ∈ listeners) : k.1 ≠ l'.1 := fun he =>
      hfirst (List.mem_map.mpr ⟨k, hk, he⟩)
    rcases List.mem_cons.mp hl with rfl | hl
    · have hnone : listeners.filter (fun l' => l'.1 = l.1) = [] :=
        List.filter_eq_nil_iff.mpr fun k hk => by simpa using hother k hk
      simp [hnone]
    · rw [List.filter_cons_of_neg (by simpa using (hother l hl).symm), ih hrest hl]

/-- If the listeners have a token each, the one of a token is called about every event once, in the
order of the batch. -/
theorem events_of_schedule {listeners : List (Nat × α)} (h : (listeners.map (·.1)).Nodup)
    {l : Nat × α} (hl : l ∈ listeners) (events : List Event) :
    ((schedule listeners events).filter fun c => c.1.1 = l.1).map (·.2) = events := by
  have hone (e : Event) :
      (listeners.map fun l => (l, e)).filter (fun c => c.1.1 = l.1) = [(l, e)] := by
    have htoken : ((fun c : (Nat × α) × Event => decide (c.1.1 = l.1)) ∘ fun l' => (l', e)) =
        fun l' => decide (l'.1 = l.1) := rfl
    rw [List.filter_map, htoken, filter_token h hl]
    rfl
  simp only [schedule, List.filter_flatMap, hone, List.map_flatMap, List.map_cons, List.map_nil,
    List.flatMap_singleton']

end

namespace Registry

variable {α : Type} {r r' : Registry α}

/-- The tokens ascend, and the next one is behind them all. -/
structure Ordered (r : Registry α) : Prop where
  ascending : (r.entries.map (·.1)).Pairwise (· < ·)
  fresh : ∀ l ∈ r.entries, l.1 < r.nextToken

/-- The second registry came about from the first one by registering and unregistering. -/
inductive Evolves (r : Registry α) : Registry α → Prop where
  | refl : Evolves r r
  | registered (listener : α) {r' : Registry α} : Evolves r r' → Evolves r (r'.register listener).2
  | unregistered (token : Nat) {r' : Registry α} :
      Evolves r r' → Evolves r (r'.unregister token).2

theorem ordered_empty : ({} : Registry α).Ordered := ⟨.nil, by simp⟩

theorem Ordered.register (h : r.Ordered) (listener : α) : (r.register listener).2.Ordered := by
  refine ⟨?_, ?_⟩
  · show ((r.entries ++ [(r.nextToken, listener)]).map (·.1)).Pairwise (· < ·)
    rw [List.map_append, List.pairwise_append]
    refine ⟨h.ascending, List.pairwise_singleton _ _, fun token htoken next hnext => ?_⟩
    obtain ⟨l, hl, rfl⟩ := List.mem_map.mp htoken
    obtain rfl := List.mem_singleton.mp hnext
    exact h.fresh l hl
  · show ∀ l ∈ r.entries ++ [(r.nextToken, listener)], l.1 < r.nextToken + 1
    rw [List.forall_mem_append, List.forall_mem_singleton]
    exact ⟨fun l hl => Nat.lt_succ_of_lt (h.fresh l hl), Nat.lt_succ_self _⟩

theorem Ordered.unregister (h : r.Ordered) (token : Nat) : (r.unregister token).2.Ordered :=
  ⟨h.ascending.sublist (List.filter_sublist.map _),
    fun l hl => h.fresh l (List.mem_of_mem_filter hl)⟩

theorem Evolves.ordered (h : Evolves r r') (hr : r.Ordered) : r'.Ordered := by
  induction h with
  | refl => exact hr
  | registered listener _ ih => exact ih.register listener
  | unregistered token _ ih => exact ih.unregister token

theorem Evolves.nextToken_le (h : Evolves r r') : r.nextToken ≤ r'.nextToken := by
  induction h with
  | refl => exact Nat.le_refl _
  | registered listener _ ih => exact Nat.le_succ_of_le ih
  | unregistered token _ ih => exact ih

/-- A listener that is registered later has another token. -/
theorem Evolves.token_ne (h : Evolves r r') (hr : r.Ordered) {l : Nat × α} (hl : l ∈ r.entries)
    (listener : α) : l.1 ≠ (r'.register listener).1 :=
  Nat.ne_of_lt (Nat.lt_of_lt_of_le (hr.fresh l hl) h.nextToken_le)

end Registry

end TripleStore
