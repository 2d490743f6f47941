import TripleStore.Graph.Event

/-!
# Listeners

A graph has listeners under tokens that count up and are never used again. `deliver` brings a batch
of events to the listeners that are registered when it starts: event by event, and each event to
the listeners in the order of registration. A listener may change anything, also by mutations that
deliver batches of their own; one that panics is taken to have returned.
-/

namespace TripleStore

/-- Listeners under tokens, in the order of registration. -/
structure Registry (α : Type) where
  nextToken : Nat := 0
  entries : List (Nat × α) := []

namespace Registry

variable {α : Type}

/-- Registers a listener under a new token. -/
def register (r : Registry α) (listener : α) : Nat × Registry α :=
  (r.nextToken, ⟨r.nextToken + 1, r.entries ++ [(r.nextToken, listener)]⟩)

/-- Takes out the listener under a token and tells whether there was one. -/
def unregister (r : Registry α) (token : Nat) : Bool × Registry α :=
  let entries := r.entries.filter fun entry => entry.1 != token
  (entries.length != r.entries.length, { r with entries })

def size (r : Registry α) : Nat := r.entries.length

def snapshot (r : Registry α) : List α := r.entries.map (·.2)

end Registry

/-- What a listener leaves behind, and whether it panicked. -/
structure Reaction (σ : Type) where
  state : σ
  panicked : Bool := false

def deliver {α σ : Type} (call : α → Event → σ → Reaction σ) (listeners : List α)
    (events : List Event) (s : σ) : σ :=
  events.foldl (fun s e => listeners.foldl (fun s l => (call l e s).state) s) s

end TripleStore
