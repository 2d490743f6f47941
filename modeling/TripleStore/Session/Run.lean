import TripleStore.Session.Act

/-!
# Running a session

`State.run` carries out one step, with the steps nested in it and those of the listeners that it
sets off. The fuel bounds how deep steps nest; the weight of a session's steps is enough, since a
listener carries out its steps only so often. `play` runs the steps of a session in order and
reports on each.
-/

namespace TripleStore.Session

/-- The thread that steps run on unless they say otherwise. -/
def firstThread : Thread := ⟨0⟩

/-- The thread that a race sets against the first one. -/
def secondThread : Thread := ⟨1⟩

/-- What the body of a transaction fails with when it is told to. -/
def bodyFailure : Error := .unsupported "txn body"

namespace State

/-- The step would have to wait. -/
def isBlocked (s : State) (who : Thread) : Step → Bool
  | .act site action => (s.placesToWaitFor site.graph action).any (s.mustWait who)
  | .transaction site .. => (s.place? site.graph).any (s.mustWait who)
  | .listen .. | .race .. => false

/-- Carries out the steps of a transaction up to the first one that a graph, a node table or the
reading of an argument refuses. -/
def runBody (run : Step → State → Answer × State) :
    List Step → State → (List Answer × Option Error) × State
  | [], s => (([], none), s)
  | step :: rest, s =>
    match run step s with
    | (.refused (.library e), s) => (([.refused (.library e)], some e), s)
    | (answer, s) =>
      let ((answers, failure), s) := runBody run rest s
      ((answer :: answers, failure), s)

/-- Carries out the steps of a listener and writes their answers into the log. -/
def runSteps (run : Step → State → Answer × State) (name : String) (steps : List Step)
    (s : State) : State :=
  steps.foldl (fun s step =>
    let (answer, s) := run step s
    s.write (.step name answer)) s

/-- Lets the listener at a place react to an event of the graph at another place. -/
def callListener (run : Step → State → Answer × State) (place listener : Nat) (e : Event)
    (s : State) : Reaction State :=
  match s.listeners[listener]? with
  | none => { state := s }
  | some l =>
    let t := l.trigger
    let s := s.write (.event t.name e)
    let s := if t.query then s.write (.size t.name (s.graphAt place).size) else s
    if t.kind.any (· != e.kind) || (!l.steps.isEmpty && t.times ≤ l.runs) then { state := s }
    else
      let s := { s with listeners := s.listeners.modify listener fun l =>
        { l with runs := l.runs + 1 } }
      { state := s.runSteps run t.name l.steps, panicked := t.panics }

def listen (s : State) (place : Nat) (trigger : Trigger) (steps : List Step) : Answer × State :=
  match s.members[place]? with
  | none => (.refused .badInput, s)
  | some m =>
    let (token, listeners) := m.listeners.register s.listeners.size
    let s := s.changeMember place fun m => { m with listeners }
    (.value (.count listeners.size), { s with
      listeners := s.listeners.push { trigger, steps }
      tokens := bindName trigger.name token s.tokens })

/-- How a body ended that no step has failed in. -/
def endOf : BodyEnd → BodyResult
  | .returns => .returned
  | .fails => .failed bodyFailure
  | .panics => .panicked

def runTransaction (react : React) (run : Step → State → Answer × State) (who : Thread)
    (place : Nat) (steps : List Step) (ending : BodyEnd) (s : State) : Answer × State :=
  let body (s : State) : (BodyResult × List Answer) × State :=
    let ((answers, failure), s) := runBody run steps s
    ((((failure.map BodyResult.failed).getD (endOf ending)), answers), s)
  let ((result, answers), s) := s.transact react who place [] body
  let ended : Except Refusal Unit :=
    match result with
    | .returned => .ok ()
    | .failed e => .error (.library e)
    | .panicked => .error .panicked
  (.value (.transaction answers ended), s)

def run (outside : Outside) : (fuel : Nat) → Thread → Step → State → Answer × State
  | 0, _, _, s => (.refused .exhausted, s)
  | fuel + 1, who, step, s =>
    let react : React := fun who place listener e s =>
      s.callListener (fun step s => run outside fuel who step s) place listener e
    if s.isBlocked who step then (.refused .wouldBlock, s)
    else
      match step with
      | .act site action => s.act outside react who site.graph action
      | .listen site trigger steps =>
        match s.place? site.graph with
        | some place => s.listen place trigger steps
        | none => (.refused .badInput, s)
      | .transaction site steps ending =>
        match s.place? site.graph with
        | some place =>
          s.runTransaction react (fun step s => run outside fuel who step s) who place steps ending
        | none => (.refused .badInput, s)
      | .race site ending step =>
        match s.place? site.graph with
        | some place =>
          if (s.graphAt place).inTransaction firstThread then
            let (ended, s) := s.request react firstThread place ending
            let (answer, s) := run outside fuel secondThread step s
            (.raced (Answer.ofUnit ended) answer, s)
          else (.refused .badInput, s)
        | none => (.refused .badInput, s)

/-- What is told about the size of a graph to a thread. -/
def sizeNote (s : State) (who : Thread) (graph : String) : SizeNote :=
  match s.place? graph with
  | none => .untold
  | some place =>
    if s.mustWait who place then .untold
    else
      match (s.graphAt place).size with
      | .ok n => .size n
      | .error _ => .closed

/-- The graph of a name exists and the thread would have to wait for it. -/
def isHeldBack (s : State) (who : Thread) (graph : String) : Bool :=
  (s.place? graph).any (s.mustWait who)

def report (outside : Outside) (fuel : Nat) (step : Step) (s : State) : Report × State :=
  let who := step.site.thread
  let graph := step.site.graph
  let heldBack := s.isHeldBack who graph
  let (answer, s) := run outside fuel who step { s with log := [] }
  let size := if heldBack then .untold else s.sizeNote who graph
  ({ answer, size, log := s.log.reverse }, s)

def reports (outside : Outside) (fuel : Nat) : List Step → State → List Report
  | [], _ => []
  | step :: rest, s =>
    let (r, s) := report outside fuel step s
    r :: reports outside fuel rest s

end State

/-- The reports on a session from its start. -/
def play (outside : Outside) (screened : Bool) (steps : List Step) : List Report :=
  State.reports outside (Step.totalWeight steps + 1) steps { screened }

end TripleStore.Session
