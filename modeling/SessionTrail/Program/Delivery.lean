import SessionTrail.Trail

/-!
# Delivery

How events get from a session to its listeners. A worker takes the events of its queue in order. The
workers of a session take turns in the order in which they were attached, so that each event has gone
to all of them before the next one goes to any. A listener that fails with an event gets the next one
all the same; one that crashes gets no more. When a session stops, or a listener is detached, what is
queued is delivered first.
-/
namespace SessionTrail

/-- An event that a worker took, and what became of it. -/
structure Handled where
  worker : Nat
  event : Event
  result : Outcome HandlingError Unit
deriving DecidableEq, Repr

namespace Program

/-- Let a worker of a session take the next event of its queue, if there is one. -/
def turn (id : SessionId) (w : Worker) (s : Program) : List Handled × Program :=
  match s.session? id with
  | none => ([], s)
  | some session =>
    match session.bus.receive w.subscription with
    | (.message e, bus) =>
      let s := s.modifySession id fun session => { session with bus }
      match (notify w.listener e).run s with
      | (.crashed, s) => ([⟨w.number, e, .crashed⟩], s.modifySession id (·.silence w))
      | (outcome, s) => ([⟨w.number, e, outcome⟩], s)
    | (_, _) => ([], s)

/-- Let each of the workers take one event. -/
def round (id : SessionId) : List Worker → Program → List Handled × Program
  | [], s => ([], s)
  | w :: rest, s =>
    let (first, s) := turn id w s
    let (others, s) := round id rest s
    (first ++ others, s)

/-- Let the workers take `n` events each. -/
def rounds (id : SessionId) (workers : List Worker) : Nat → Program → List Handled × Program
  | 0, s => ([], s)
  | n + 1, s =>
    let (first, s) := round id workers s
    let (others, s) := rounds id workers n s
    (first ++ others, s)

/-- The greatest number of events that wait for one of the workers of a session. -/
def backlog (session : Session) (workers : List Worker) : Nat :=
  workers.foldl (fun n w => max n (session.bus.queue w.subscription).length) 0

/-- Let some workers of a session take all that is queued for them. -/
def flush (id : SessionId) (workers : List Worker) (s : Program) : List Handled × Program :=
  match s.session? id with
  | some session => rounds id workers (backlog session workers) s
  | none => ([], s)

/-- Let all workers of a session take all that is queued for them. -/
def settle (id : SessionId) (s : Program) : List Handled × Program :=
  flush id (((s.session? id).map (·.workers)).getD []) s

def post (id : SessionId) (e : Event) : Action Program CallError Unit :=
  onSession id (Session.post e)

/-- Mark a session as stopped and leave the place where it stands as the active one. -/
def markStopped (id : SessionId) (s : Program) : Program :=
  match s.session? id with
  | none => s
  | some session =>
    if session.stopped then s
    else
      let s := s.modifySession id fun session =>
        { session with stopped := true, bus := session.bus.close }
      match session.home with
      | .shared => (s.clearActive id).2
      | .own _ => s.modifySession id fun session => { session with home := .own false }

/-- Stop a session: let its workers take what is queued, end them, and mark the session as stopped. -/
def stop (id : SessionId) (s : Program) : List Handled × Program :=
  let (handled, s) := settle id s
  let s := s.modifySession id fun session => session.workers.foldl Session.endWorker session
  (handled, markStopped id s)

/-- Ask for a listener to be attached to a session. -/
def attach (id : SessionId) (l : Listener) : Action Program CallError Unit :=
  onSession id (Session.attach l)

/-- End the first worker of a listener after it has taken what is queued; whether there was one. -/
def endWorkerOf (id : SessionId) (l : ListenerId) (s : Program) : Bool × Program :=
  match (s.session? id).bind (·.workerOf? l) with
  | none => (false, s)
  | some w => (true, (flush id [w] s).2.modifySession id (·.endWorker w))

/-- Ask for a listener to be detached from a session, whether or not that has stopped. -/
def detach (id : SessionId) (l : Listener) : Action Program CallError Bool := do
  onSession id (Session.consult .detach)
  fun s =>
    let (found, s) := endWorkerOf id l.id s
    (.done found, s)

end Program

end SessionTrail
