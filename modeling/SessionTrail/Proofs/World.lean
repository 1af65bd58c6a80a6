import SessionTrail.Program.Launch
import SessionTrail.Program.Submission

/-!
# Worlds and their runs

A world is a program together with what is held outside of it. Operations act on a world one after
another; one that needs a session, an installer or a listener which nobody holds, or an integration that
is not there, does not happen. A worker's turn is an operation of its own, so deliveries fall between all
others in any order. A command is an operation or a launch, and the opening of a launch is again a list
of commands.

What a run shows (activations, postings, deliveries) is collected along its operations.
-/
namespace SessionTrail

/-- A program with the installers and listeners that somebody outside holds. -/
structure World where
  program : Program
  installers : List InstallerId := []
  listeners : List Listener := []

namespace World

/-- A world in which nothing has happened yet. -/
def initial (now : Timestamp) (retention : Retention) : World :=
  { program := { now, reporter := { retention } } }

def update (w : World) (f : Program → Program) : World := { w with program := f w.program }

/-- Change the program through a session that somebody can reach. -/
def through (w : World) (id : SessionId) (f : Program → Program) : World :=
  if w.program.isReachable id then w.update f else w

def worker? (w : World) (id : SessionId) (number : Nat) : Option Worker :=
  (w.program.session? id).bind fun x => x.workers.find? (·.number = number)

end World

/-- What can happen to a world in one go. -/
inductive Operation where
  | tick (now : Timestamp)
  | start (id : SessionId) (settings : Settings) (backend : Backend) (detached : Bool)
  | stop (id : SessionId)
  | release (id : SessionId)
  | setBackend (id : SessionId) (backend : Backend)
  | read (id : SessionId) (a : Attribute)
  | write (id : SessionId) (key value : String)
  | post (id : SessionId) (e : Event)
  | turn (id : SessionId) (number : Nat)
  | makeActive (id : SessionId)
  | clearActive (id : SessionId)
  | newListener (behaviour : Behaviour)
  | attach (id : SessionId) (l : Listener)
  | detach (id : SessionId) (l : Listener)
  | enable (integration : String)
  | disable (integration : String)
  | leave (crumb : Breadcrumb)
  | clearCrumbs
  | register (rule : Rule)
  | unregister (id : ProcessorId)
  | submit (report : Report) (hint : Hint)
  | newInstaller (config : Config)
  | ensureInstalled (g : InstallerId) (id : SessionId)
  | forgetGone (g : InstallerId)
  | newIntegration (config : Config)
  | setUp (i : IntegrationId)

/-- An operation, or a launch: the commands of its opening and what the opening hands out then. -/
inductive Command where
  | operation (o : Operation)
  | launch (g : InstallerId) (opening : List Command) (result : Except String SessionId)

/-- The world after an operation. -/
def Operation.next : Operation → World → World
  | .tick now, w => w.update fun s => { s with now }
  | .start id settings backend detached, w =>
    w.update (·.start id settings backend (if detached then .own true else .shared))
  | .stop id, w => w.through id fun s => (Program.stop id s).2
  | .release id, w => w.update fun s => (s.release id).2
  | .setBackend id backend, w => w.update (·.setBackend id backend)
  | .read id a, w => w.through id fun s => ((Program.onSession id (Session.read a)).run s).2
  | .write id key value, w =>
    w.through id fun s => ((Program.onSession id (Session.write key value)).run s).2
  | .post id e, w => w.through id fun s => ((Program.post id e).run s).2
  | .turn id number, w =>
    match w.worker? id number with
    | some worker => w.update fun s => (Program.turn id worker s).2
    | none => w
  | .makeActive id, w => w.through id fun s => (s.makeActive id).2
  | .clearActive id, w => w.update fun s => (s.clearActive id).2
  | .newListener behaviour, w =>
    let (l, program) := w.program.newListener behaviour none
    { w with program, listeners := l :: w.listeners }
  | .attach id l, w =>
    if l ∈ w.listeners then w.through id fun s => ((Program.attach id l).run s).2 else w
  | .detach id l, w =>
    if l ∈ w.listeners then w.through id fun s => ((Program.detach id l).run s).2 else w
  | .enable integration, w =>
    w.update fun s => { s with reporter := s.reporter.enable integration }
  | .disable integration, w =>
    w.update fun s => { s with reporter := s.reporter.disable integration }
  | .leave crumb, w => w.update (·.leave crumb)
  | .clearCrumbs, w => w.update fun s => { s with reporter := s.reporter.clearCrumbs }
  | .register rule, w => w.update fun s => (s.register (.rule rule)).2
  | .unregister id, w => w.update fun s => (s.unregister id).2
  | .submit report hint, w => w.update fun s => (Program.submit report hint s).2
  | .newInstaller config, w =>
    let (g, program) := w.program.newInstaller config
    { w with program, installers := g :: w.installers }
  | .ensureInstalled g id, w =>
    if g ∈ w.installers then w.through id fun s => ((Program.ensureInstalled g id).run s).2 else w
  | .forgetGone g, w =>
    if g ∈ w.installers then w.update fun s => (Program.forgetGone g s).2 else w
  | .newIntegration config, w => w.update fun s => (s.newIntegration config).2
  | .setUp i, w =>
    if w.program.integrations.contains i then
      match (Program.setUp i).run w.program with
      | (.done g, program) => { w with program, installers := g :: w.installers }
      | (_, program) => { w with program }
    else w

def World.perform : List Operation → World → World
  | [], w => w
  | o :: rest, w => perform rest (o.next w)

/-- The end of an opening. One cannot hand out a session that nobody can reach. -/
def openingOutcome (result : Except String SessionId) (s : Program) : Outcome String SessionId :=
  match result with
  | .ok id => if s.isReachable id then .done id else .crashed
  | .error message => .failed message

mutual
/-- The world after a command. -/
def Command.run : Command → World → World
  | .operation o, w => o.next w
  | .launch g opening result, w =>
    if g ∈ w.installers then
      let start : Action Program String SessionId := fun s =>
        let t := (Command.runAll opening { w with program := s }).program
        (openingOutcome result t, t)
      { Command.runAll opening w with program := ((Program.launch g start).run w.program).2 }
    else w

def Command.runAll : List Command → World → World
  | [], w => w
  | c :: rest, w => Command.runAll rest (c.run w)
end

/-- What a launch does behind its opening, if its integration was `on` before that. -/
def launchEnd (g : InstallerId) (on : Bool) : Except String SessionId → List Operation
  | .ok id => if on then [.ensureInstalled g id] else []
  | .error _ => []

mutual
/-- The operations that a command comes down to. -/
def Command.operations : Command → World → List Operation
  | .operation o, _ => [o]
  | .launch g opening result, w =>
    if g ∈ w.installers then
      Command.allOperations opening w ++ launchEnd g (w.program.isOn g) result
    else []

def Command.allOperations : List Command → World → List Operation
  | [], _ => []
  | c :: rest, w => c.operations w ++ Command.allOperations rest (c.run w)
end

/-- What operations show, one after another. -/
def World.along {α : Type} (show? : Operation → World → List α) : List Operation → World → List α
  | [], _ => []
  | o :: rest, w => show? o w ++ along show? rest (o.next w)

/-! ## What a run shows -/

/-- A call that asks an installer for the trail on a session, and the state that it finds. -/
structure Activation where
  installer : InstallerId
  session : SessionId
  before : Program

/-- How an activation ends, and the state that it leaves. -/
def Activation.run (a : Activation) : Outcome InstallError InstallReply × Program :=
  (Program.ensureInstalled a.installer a.session).run a.before

/-- The activations that an operation makes. -/
def Operation.activations : Operation → World → List Activation
  | .ensureInstalled g id, w =>
    if g ∈ w.installers ∧ w.program.isReachable id then [⟨g, id, w.program⟩] else []
  | .setUp i, w =>
    match w.program.integrations.get? i with
    | some ⟨config, none⟩ =>
      let (g, s) := w.program.newInstaller config
      match s.isOn g, s.active with
      | true, some id => [⟨g, id, s⟩]
      | _, _ => []
    | _ => []
  | _, _ => []

/-- An event that a session accepted, and the workers that the session had then. -/
structure Posting where
  session : SessionId
  event : Event
  workers : List Worker

/-- The events that an operation posts with success. -/
def Operation.postings : Operation → World → List Posting
  | .post id e, w =>
    match w.program.isReachable id, w.program.session? id, ((Program.post id e).run w.program).1 with
    | true, some x, .done () => [⟨id, e, x.workers⟩]
    | _, _, _ => []
  | _, _ => []

/-- An event that a worker of a session took, when it did so, and what became of it. -/
structure Delivery where
  time : Timestamp
  session : SessionId
  worker : Worker
  event : Event
  result : Outcome HandlingError Unit

/-- What the workers of a session handled. -/
def World.deliveries (w : World) (id : SessionId) (handled : List Handled) : List Delivery :=
  handled.filterMap fun h =>
    (w.worker? id h.worker).map fun worker => ⟨w.program.now, id, worker, h.event, h.result⟩

/-- The deliveries that an operation makes. -/
def Operation.deliveries : Operation → World → List Delivery
  | .turn id number, w =>
    match w.worker? id number with
    | some worker => w.deliveries id (Program.turn id worker w.program).1
    | none => []
  | .stop id, w =>
    if w.program.isReachable id then w.deliveries id (Program.stop id w.program).1 else []
  | .detach id l, w =>
    if l ∈ w.listeners ∧ w.program.isReachable id then
      match (Program.onSession id (Session.consult .detach)).run w.program with
      | (.done (), s) =>
        match (s.session? id).bind (·.workerOf? l.id) with
        | some worker => w.deliveries id (Program.flush id [worker] s).1
        | none => []
      | _ => []
    else []
  | _, _ => []

/-! ## Commands come down to operations -/

namespace World

theorem perform_append (first rest : List Operation) (w : World) :
    perform (first ++ rest) w = perform rest (perform first w) := by
  induction first generalizing w with
  | nil => rfl
  | cons o first ih => exact ih (o.next w)

/-- To stop a session that can be reached is to deliver what is queued there and to end it. -/
theorem stop_of_reachable {w : World} {id : SessionId} (h : w.program.isReachable id = true) :
    ((Operation.stop id).next w).program = (Program.stop id w.program).2 ∧
      (Operation.stop id).deliveries w = w.deliveries id (Program.stop id w.program).1 := by
  simp only [Operation.next, Operation.deliveries, through, h, if_true, update, and_self]

/-- What a run shows, one of its operations shows in the world that it finds. -/
theorem mem_along {α : Type} {show? : Operation → World → List α} {ops : List Operation} {w : World}
    {a : α} (h : a ∈ along show? ops w) :
    ∃ first o rest, ops = first ++ o :: rest ∧ a ∈ show? o (perform first w) := by
  induction ops generalizing w with
  | nil => cases h
  | cons p ops ih =>
    rcases List.mem_append.mp h with h | h
    · exact ⟨[], p, ops, rfl, h⟩
    · obtain ⟨first, o, rest, he, ho⟩ := ih h
      exact ⟨p :: first, o, rest, by rw [he, List.cons_append], ho⟩

/-- What every operation preserves, a run preserves. -/
theorem perform_preserves {P : World → Prop} {ops : List Operation} {w : World}
    (step : ∀ o ∈ ops, ∀ w, P w → P (o.next w)) (h : P w) : P (perform ops w) := by
  induction ops generalizing w with
  | nil => exact h
  | cons o rest ih =>
    exact ih (fun o ho => step o (List.mem_cons_of_mem _ ho)) (step o List.mem_cons_self w h)

/-- What holds of a program and of what it is changed to holds behind a change through a session. -/
theorem through_preserves {P : Program → Prop} {w : World} {id : SessionId} {f : Program → Program}
    (same : P w.program) (changed : P (f w.program)) : P (w.through id f).program := by
  unfold through
  split
  · exact changed
  · exact same

theorem ensureInstalled_preserves {P : Program → Prop} {w : World} (g : InstallerId) (id : SessionId)
    (same : P w.program) (installed : P ((Program.ensureInstalled g id).run w.program).2) :
    P ((Operation.ensureInstalled g id).next w).program := by
  simp only [Operation.next]
  split
  · exact through_preserves same installed
  · exact same

theorem forgetGone_preserves {P : Program → Prop} {w : World} (g : InstallerId) (same : P w.program)
    (forgotten : P (Program.forgetGone g w.program).2) : P ((Operation.forgetGone g).next w).program := by
  simp only [Operation.next]
  split
  · exact forgotten
  · exact same

end World

open World

/-- A launch is its opening, and then an activation if the integration was on at first and a session
came of it. -/
theorem run_launch_program (g : InstallerId) (start : Action Program String SessionId) (s : Program) :
    ((Program.launch g start).run s).2 =
      match s.isOn g, (start.run s).1 with
      | true, .done id => ((Program.ensureInstalled g id).run (start.run s).2).2
      | _, _ => (start.run s).2 := by
  simp only [Program.launch, Action.run]
  cases s.isOn g with
  | false => rfl
  | true =>
    simp only [if_true]
    rcases start s with ⟨_ | _ | _, t⟩
    · simp only
      rcases Program.ensureInstalled g _ t with ⟨_ | _ | _, u⟩ <;> rfl
    · rfl
    · rfl

/-- The activation that ends a launch is an operation on the world that its opening leaves. -/
private theorem launch_world (g : InstallerId) (result : Except String SessionId) (w v : World)
    (hg : g ∈ v.installers) (start : Action Program String SessionId)
    (hstart : start.run w.program = (openingOutcome result v.program, v.program)) :
    ((Program.launch g start).run w.program).2 =
      (perform (launchEnd g (w.program.isOn g) result) v).program := by
  rw [run_launch_program, hstart]
  cases result with
  | error message => cases w.program.isOn g <;> rfl
  | ok id =>
    cases w.program.isOn g with
    | false => rfl
    | true =>
      by_cases hr : v.program.isReachable id
      · simp only [openingOutcome, launchEnd, hr, if_true, perform, Operation.next, through, update,
          hg]
      · simp only [openingOutcome, launchEnd, hr, perform, Operation.next, through, hg, if_true,
          Bool.false_eq_true, if_false]

theorem launchEnd_held (g : InstallerId) (on : Bool) (result : Except String SessionId) (w : World) :
    (perform (launchEnd g on result) w).installers = w.installers ∧
      (perform (launchEnd g on result) w).listeners = w.listeners := by
  cases result with
  | error message => exact ⟨rfl, rfl⟩
  | ok id =>
    cases on with
    | false => exact ⟨rfl, rfl⟩
    | true =>
      simp only [launchEnd, if_true, perform, Operation.next, through]
      split
      · split <;> exact ⟨rfl, rfl⟩
      · exact ⟨rfl, rfl⟩

theorem installers_through (w : World) (id : SessionId) (f : Program → Program) :
    (w.through id f).installers = w.installers := by
  unfold through
  split <;> rfl

theorem listeners_through (w : World) (id : SessionId) (f : Program → Program) :
    (w.through id f).listeners = w.listeners := by
  unfold through
  split <;> rfl

/-- Nobody lets go of an installer. -/
theorem mem_installers_next {g : InstallerId} (o : Operation) (w : World) (h : g ∈ w.installers) :
    g ∈ (o.next w).installers := by
  cases o with
  | newInstaller config => exact List.mem_cons_of_mem _ h
  | setUp i =>
    simp only [Operation.next]
    split
    · split
      · exact List.mem_cons_of_mem _ h
      · exact h
    · exact h
  | stop | read | write | post | makeActive =>
    rw [Operation.next, installers_through]
    exact h
  | attach | detach | ensureInstalled =>
    simp only [Operation.next]
    split
    · rw [installers_through]
      exact h
    · exact h
  | turn =>
    simp only [Operation.next]
    split <;> exact h
  | forgetGone =>
    simp only [Operation.next]
    split <;> exact h
  | _ => exact h

theorem mem_installers_perform {g : InstallerId} (ops : List Operation) (w : World)
    (h : g ∈ w.installers) : g ∈ (perform ops w).installers :=
  perform_preserves (fun o _ w hw => mem_installers_next o w hw) h

mutual
theorem Command.run_eq_perform (c : Command) (w : World) : c.run w = perform (c.operations w) w := by
  match c with
  | .operation o => rfl
  | .launch g opening result =>
    rw [Command.run, Command.operations]
    split
    · rename_i hg
      -- The launch sees the world of its opening only through the program, so what is held is
      -- taken from the opening itself.
      have ih := Command.runAll_eq_perform opening w
      have held : g ∈ (Command.runAll opening w).installers := by
        rw [ih]
        exact mem_installers_perform _ w hg
      obtain ⟨hi, hl⟩ := launchEnd_held g (w.program.isOn g) result (Command.runAll opening w)
      have hp := launch_world g result w (Command.runAll opening w) held (fun s =>
        (openingOutcome result (Command.runAll opening { w with program := s }).program,
          (Command.runAll opening { w with program := s }).program)) rfl
      rw [perform_append, ← ih]
      simp only [hp]
      rw [← hi, ← hl]
    · rfl

/-- A run of commands is the run of the operations that they come down to. -/
theorem Command.runAll_eq_perform (cs : List Command) (w : World) :
    Command.runAll cs w = perform (Command.allOperations cs w) w := by
  match cs with
  | [] => rfl
  | c :: rest =>
    rw [Command.runAll, Command.allOperations, perform_append, ← Command.run_eq_perform c w]
    exact Command.runAll_eq_perform rest (c.run w)
end

theorem Command.runAll_append (cs more : List Command) (w : World) :
    Command.runAll (cs ++ more) w = Command.runAll more (Command.runAll cs w) := by
  induction cs generalizing w with
  | nil => rfl
  | cons c rest ih =>
    rw [List.cons_append, Command.runAll, Command.runAll, ih]

end SessionTrail
