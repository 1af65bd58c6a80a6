import SessionTrail.Program.Installation
import SessionTrail.Program.Submission

/-!
# What calls and deliveries leave as it is

The core of a session is all but what its calls change: its properties, the count of writes, and the
calls that were seen. The outline is the core without the bus. Reads and writes keep the core of every
session; to hand an event to a listener keeps the cores too, and beside them it leaves breadcrumbs or
records. A delivery keeps the outlines.
-/
namespace SessionTrail

namespace Action

variable {σ ε δ α β γ : Type}

/-- However the action ends, what `view` shows of the state is as before. -/
def Keeps (m : Action σ ε α) (view : σ → γ) : Prop := ∀ s, view (m.run s).2 = view s

variable {view : σ → γ}

theorem keeps_pure (a : α) : (pure a : Action σ ε α).Keeps view := fun _ => rfl

theorem keeps_fail (e : ε) : (fail e : Action σ ε α).Keeps view := fun _ => rfl

theorem keeps_get : (get : Action σ ε σ).Keeps view := fun _ => rfl

theorem keeps_modify {f : σ → σ} (h : ∀ s, view (f s) = view s) :
    (modify f : Action σ ε Unit).Keeps view := h

theorem Keeps.bind {m : Action σ ε α} {next : α → Action σ ε β} (hm : m.Keeps view)
    (hnext : ∀ a, (next a).Keeps view) : (m >>= next).Keeps view := by
  intro s
  rw [run_bind]
  have h := hm s
  rcases hr : m.run s with ⟨_ | _ | _, t⟩
  · rw [hr] at h
    exact (hnext _ t).trans h
  · rw [hr] at h
    exact h
  · rw [hr] at h
    exact h

end Action

open SessionTrail.Action (Keeps)

/-! ## Sessions -/

namespace Session

/-- A session as it is but for the effects of calls. -/
def core (x : Session) : Session :=
  { x with properties := .empty, writes := 0, history := [], log := [] }

/-- A session as it is but for the effects of calls and the state of its bus. -/
def outline (x : Session) : Session := { x.core with bus := {} }

/-- A session with another bus. -/
def withBus (x : Session) (bus : Bus Event) : Session := { x with bus }

theorem outline_core (x : Session) : x.core.outline = x.outline := rfl

theorem withBus_outline (x : Session) (bus : Bus Event) : (x.withBus bus).outline = x.outline := rfl

theorem silence_outline (x : Session) (w : Worker) : (x.silence w).outline = x.outline := rfl

theorem consult_keeps_core (c : Call) : (consult c).Keeps core := by
  intro x
  change (consult c x).2.core = x.core
  unfold consult
  split <;> rfl

theorem attempt_keeps_core (c : Call) : (attempt c).Keeps core := by
  refine (consult_keeps_core c).bind fun _ => Action.keeps_get.bind fun x => ?_
  split
  · exact Action.keeps_fail _
  · exact Action.keeps_pure _

theorem readFact_keeps_core (f : Fact) : (readFact f).Keeps core :=
  (attempt_keeps_core _).bind fun _ => Action.keeps_get.bind fun _ => Action.keeps_pure _

theorem read_keeps_core (a : Attribute) : (read a).Keeps core :=
  (attempt_keeps_core _).bind fun _ => Action.keeps_get.bind fun _ => Action.keeps_pure _

theorem write_keeps_core (key value : String) : (write key value).Keeps core :=
  (attempt_keeps_core _).bind fun _ => Action.keeps_modify fun _ => rfl

theorem writeIdentity_keeps_core (keyPrefix : String) : (writeIdentity keyPrefix).Keeps core :=
  (readFact_keeps_core _).bind fun _ => (write_keeps_core _ _).bind fun _ =>
    (readFact_keeps_core _).bind fun _ => write_keeps_core _ _

theorem run_post_of_running {x : Session} (e : Event) (hx : x.stopped = false) :
    (post e).run x = (.done (), { x with bus := (x.bus.publish e).2 }) := by
  change post e x = _
  simp only [post, bind, Action.bind, Action.get, hx, Bool.false_eq_true, if_false,
    Action.modify]

theorem run_post_of_stopped {x : Session} (e : Event) (hx : x.stopped = true) :
    (post e).run x = (.failed .stopped, x) := by
  change post e x = _
  simp only [post, bind, Action.bind, Action.get, hx, if_true, Action.fail]

theorem post_keeps_outline (e : Event) : (post e).Keeps outline := by
  intro x
  cases hx : x.stopped with
  | true => rw [run_post_of_stopped e hx]
  | false =>
    rw [run_post_of_running e hx]
    rfl

end Session

/-! ## Programs -/

namespace Program

/-- A program as it is but for the effects of calls. -/
def core (s : Program) : Program := { s with sessions := s.sessions.map Session.core }

/-- A program as it is but for what listeners do: for the effects of calls, the breadcrumbs and the
records. -/
def bare (s : Program) : Program := { s.core with reporter := s.reporter.clearCrumbs, recorded := {} }

/-- A bare program without the states of the buses. -/
def outline (s : Program) : Program := { s.bare with sessions := s.sessions.map Session.outline }

/-- A program's core without its reporter. -/
def body (s : Program) : Program := { s.core with reporter := {} }

theorem outline_bare (s : Program) : s.bare.outline = s.outline := by
  simp only [outline, bare, core, Table.map, List.map_map]
  rfl

theorem outline_eq_of_bare_eq {s t : Program} (h : s.bare = t.bare) : s.outline = t.outline := by
  rw [← outline_bare s, h, outline_bare]

theorem bare_eq_of_core_eq {s t : Program} (h : s.core = t.core) : s.bare = t.bare := by
  have hb : ∀ u : Program, u.bare =
      { u.core with reporter := u.core.reporter.clearCrumbs, recorded := {} } := fun _ => rfl
  rw [hb s, hb t, h]

theorem outline_eq_of_core_eq {s t : Program} (h : s.core = t.core) : s.outline = t.outline :=
  outline_eq_of_bare_eq (bare_eq_of_core_eq h)

theorem body_eq_of_core_eq {s t : Program} (h : s.core = t.core) : s.body = t.body := by
  have hb : ∀ u : Program, u.body = { u.core with reporter := {} } := fun _ => rfl
  rw [hb s, hb t, h]

theorem session?_core (s : Program) (id : SessionId) :
    s.core.session? id = (s.session? id).map Session.core :=
  Table.get?_map Session.core s.sessions id

theorem session?_bare (s : Program) (id : SessionId) :
    s.bare.session? id = (s.session? id).map Session.core :=
  Table.get?_map Session.core s.sessions id

theorem session?_of_map_eq {γ : Type} {view : Session → γ} {s t : Program}
    (h : t.sessions.map view = s.sessions.map view) {id : SessionId} {y : Session}
    (hy : t.session? id = some y) : ∃ x, s.session? id = some x ∧ view x = view y := by
  have hg := congrArg (fun u => u.get? id) h
  simp only [session?] at hy
  simp only [Table.get?_map, hy, Option.map_some] at hg
  exact Option.map_eq_some_iff.mp hg.symm

theorem isSome_session?_of_map_eq {γ : Type} {view : Session → γ} {s t : Program}
    (h : t.sessions.map view = s.sessions.map view) (id : SessionId) :
    (t.session? id).isSome = (s.session? id).isSome := by
  have hg := congrArg (fun u => (u.get? id).isSome) h
  simp only [Table.get?_map, Option.isSome_map] at hg
  exact hg

theorem isReachable_iff {s : Program} {id : SessionId} :
    s.isReachable id = true ↔
      ∃ x, s.session? id = some x ∧ (x.held = true ∨ s.active = some id ∨ x.home = .own true) := by
  simp only [isReachable]
  cases s.session? id with
  | none => simp
  | some x => simp [or_assoc]

theorem isReachable_of_sessions {s t : Program} (ha : t.active = s.active) {id : SessionId}
    (hs : ∀ y, t.session? id = some y →
      ∃ x, s.session? id = some x ∧ y.held = x.held ∧ y.home = x.home)
    (hr : t.isReachable id = true) : s.isReachable id = true := by
  obtain ⟨y, hy, hor⟩ := isReachable_iff.mp hr
  obtain ⟨x, hx, hheld, hhome⟩ := hs y hy
  rw [hheld, hhome, ha] at hor
  exact isReachable_iff.mpr ⟨x, hx, hor⟩

theorem session?_modifySession (s : Program) (id id' : SessionId) (f : Session → Session) :
    (s.modifySession id f).session? id' =
      if id' = id then (s.session? id').map f else s.session? id' :=
  Table.get?_modify s.sessions id id' f

/-- A session behind a change of one of them is the changed one, or another as it was. -/
theorem modifySession_cases {s : Program} {id id' : SessionId} {f : Session → Session} {y : Session}
    (hy : (s.modifySession id f).session? id' = some y) :
    ∃ x, s.session? id' = some x ∧ (id' = id ∧ y = f x ∨ id' ≠ id ∧ y = x) := by
  rw [session?_modifySession] at hy
  split at hy
  · rename_i he
    obtain ⟨x, hx, rfl⟩ := Option.map_eq_some_iff.mp hy
    exact ⟨x, hx, .inl ⟨he, rfl⟩⟩
  · rename_i he
    exact ⟨y, hy, .inr ⟨he, rfl⟩⟩

/-- A session where one has been set is that one, or another as it was. -/
theorem set_cases {s : Program} {id id' : SessionId} {x y : Session}
    (hy : (s.sessions.set id x).get? id' = some y) :
    id' = id ∧ y = x ∨ id' ≠ id ∧ s.session? id' = some y := by
  rw [Table.get?_set] at hy
  split at hy
  · rename_i he
    exact .inl ⟨he, (Option.some.inj hy).symm⟩
  · rename_i he
    exact .inr ⟨he, hy⟩

theorem isReachable_modifySession (s : Program) (id id' : SessionId) {f : Session → Session}
    (held : ∀ x, (f x).held = x.held) (home : ∀ x, (f x).home = x.home) :
    (s.modifySession id f).isReachable id' = s.isReachable id' := by
  have ha : (s.modifySession id f).active = s.active := rfl
  simp only [isReachable, session?_modifySession, ha]
  by_cases he : id' = id
  · rw [if_pos he]
    cases s.session? id' with
    | none => rfl
    | some x => simp only [Option.map_some, held, home]
  · rw [if_neg he]

/-- A start adds a session without workers, unless one has the identity already. -/
theorem start_cases (s : Program) (id : SessionId) (settings : Settings) (backend : Backend)
    (home : Home) :
    s.start id settings backend home = s ∨ s.session? id = none ∧
      ∃ x : Session, x.workers = [] ∧ x.bus = {} ∧ x.stopped = false ∧ x.backend = backend ∧
        s.start id settings backend home =
          { s with
            sessions := s.sessions.set id x
            active := if home = .shared then some id else s.active } := by
  cases hc : s.sessions.contains id with
  | true =>
    left
    simp only [start, hc, if_true]
  | false =>
    right
    refine ⟨by simpa [Table.contains, session?] using hc,
      { settings := settings.started, applicationId := localApplicationId s.now, backend, home },
      rfl, rfl, rfl, rfl, ?_⟩
    simp only [start, hc, Bool.false_eq_true, if_false]

theorem modifySession_of_none {s : Program} {id : SessionId} {f : Session → Session}
    (hx : s.session? id = none) : s.modifySession id f = s := by
  simp only [session?] at hx
  simp only [modifySession, Table.modify, hx]

theorem modifySession_congr {s : Program} {id : SessionId} {x : Session} {f f' : Session → Session}
    (hx : s.session? id = some x) (h : f x = f' x) : s.modifySession id f = s.modifySession id f' := by
  simp only [session?] at hx
  simp only [modifySession, Table.modify, hx, h]

theorem isReachable_of_map_eq {s t : Program}
    (h : t.sessions.map Session.outline = s.sessions.map Session.outline)
    (ha : t.active = s.active) (id : SessionId) : t.isReachable id = s.isReachable id := by
  have hr : ∀ u : Program, u.isReachable id =
      ((u.sessions.map Session.outline).get? id).any fun x =>
        x.held || u.active = some id || x.home = .own true := by
    intro u
    simp only [isReachable, session?, Table.get?_map]
    cases u.sessions.get? id <;> rfl
  rw [hr, hr, h, ha]

theorem run_onSession {α : Type} {m : Action Session CallError α} {id : SessionId} {s : Program}
    {x : Session} (hx : s.session? id = some x) :
    (onSession id m).run s =
      ((m.run x).1, { s with sessions := s.sessions.set id (m.run x).2 }) := by
  change onSession id m s = _
  simp only [onSession, hx]

theorem run_onSession_of_none {α : Type} {m : Action Session CallError α} {id : SessionId}
    {s : Program} (hx : s.session? id = none) : (onSession id m).run s = (.failed .stopped, s) := by
  change onSession id m s = _
  simp only [onSession, hx]

theorem reporter_onSession {α : Type} (id : SessionId) (m : Action Session CallError α) (s : Program) :
    ((onSession id m).run s).2.reporter = s.reporter := by
  cases hx : s.session? id with
  | none => rw [run_onSession_of_none hx]
  | some x => rw [run_onSession hx]

theorem onSession_keeps_core {α : Type} {m : Action Session CallError α} (id : SessionId)
    (hm : m.Keeps Session.core) : (onSession id m).Keeps core := by
  intro s
  cases hx : s.session? id with
  | none => rw [run_onSession_of_none hx]
  | some x =>
    rw [run_onSession hx]
    simp only [core]
    rw [Table.map_set_of_get? hx (hm x)]

theorem onSession_keeps_outline {α : Type} {m : Action Session CallError α} (id : SessionId)
    (hm : m.Keeps Session.outline) : (onSession id m).Keeps outline := by
  intro s
  cases hx : s.session? id with
  | none => rw [run_onSession_of_none hx]
  | some x =>
    rw [run_onSession hx]
    simp only [outline, bare, core]
    rw [Table.map_set_of_get? hx (hm x)]

/-- A change that does not depend on the effects of calls is made to the core alike. -/
theorem core_modifySession {f : Session → Session} (s : Program) (id : SessionId)
    (hf : ∀ x, (f x).core = f x.core) : (s.modifySession id f).core = s.core.modifySession id f := by
  simp only [modifySession, core]
  rw [Table.map_modify_comm _ _ hf]

theorem outline_modifySession {f : Session → Session} (s : Program) (id : SessionId)
    (hf : ∀ x, (f x).outline = x.outline) : (s.modifySession id f).outline = s.outline := by
  simp only [modifySession, outline, bare, core]
  rw [Table.map_modify _ _ hf]

theorem outline_modifySession_congr {s t : Program} (h : t.outline = s.outline) (id : SessionId)
    {f : Session → Session} (hf : ∀ x, (f x).outline = (f x.outline).outline) :
    (t.modifySession id f).outline = (s.modifySession id f).outline := by
  have hm : ∀ u : Program, (u.modifySession id f).outline =
      { u.outline with sessions := u.outline.sessions.modify id fun x => (f x).outline } := by
    intro u
    have hc : (u.sessions.modify id f).map Session.outline =
        (u.sessions.map Session.outline).modify id fun x => (f x).outline :=
      Table.map_modify_comm _ _ hf
    simp only [modifySession, outline, bare, core, hc]
  rw [hm, hm, h]

theorem bare_modifySession {f : Session → Session} (s : Program) (id : SessionId)
    (hf : ∀ x, (f x).core = f x.core) : (s.modifySession id f).bare = s.bare.modifySession id f := by
  simp only [modifySession, bare, core]
  rw [Table.map_modify_comm _ _ hf]

theorem leave_bare (s : Program) (crumb : Breadcrumb) : (s.leave crumb).bare = s.bare := rfl

theorem record_bare (s : Program) (id : ListenerId) (kind : EventKind) :
    (s.record id kind).bare = s.bare := rfl

theorem writeIdentity_keeps_core (keyPrefix : String) (id : Option SessionId) :
    (writeIdentity keyPrefix id).Keeps core := by
  cases id with
  | none => exact Action.keeps_pure _
  | some id => exact onSession_keeps_core id (Session.writeIdentity_keeps_core keyPrefix)

theorem refreshIdentity_keeps_core (keyPrefix : String) : (refreshIdentity keyPrefix).Keeps core := by
  intro s
  have h := writeIdentity_keeps_core keyPrefix s.active s
  change (refreshIdentity keyPrefix s).2.core = s.core
  unfold refreshIdentity
  rcases hr : (writeIdentity keyPrefix s.active).run s with ⟨_ | ⟨_ | _⟩ | _, t⟩ <;>
    (rw [hr] at h; exact h)

theorem trail_keeps_bare (keyPrefix : String) (e : Event) : (trail keyPrefix e).Keeps bare := by
  intro s
  change (trail keyPrefix e s).2.bare = s.bare
  unfold trail
  split
  · rfl
  · rfl
  · split
    · exact (bare_eq_of_core_eq (refreshIdentity_keeps_core keyPrefix _)).trans (leave_bare s _)
    · exact leave_bare s _

/-- Whatever a listener does with an event, it keeps the bare program. -/
theorem notify_keeps_bare (l : Listener) (e : Event) : (notify l e).Keeps bare := by
  unfold notify
  split
  · exact Action.keeps_pure _
  · exact trail_keeps_bare _ e
  · refine (Action.keeps_modify fun s => record_bare s _ _).bind fun _ => ?_
    split
    · exact Action.keeps_fail _
    · exact Action.keeps_pure _

/-! ## Deliveries -/

theorem turn_of_empty {id : SessionId} {w : Worker} {s : Program}
    (h : ∀ x, s.session? id = some x → x.bus.queue w.subscription = []) :
    turn id w s = ([], s) := by
  unfold turn
  split
  · rfl
  · rename_i x hx
    simp only [Bus.receive, h x hx]
    split
    · rename_i hr
      split at hr <;> cases hr
    · rfl

theorem turn_of_queue {id : SessionId} {w : Worker} {s : Program} {x : Session} {e : Event}
    {rest : List Event} (hx : s.session? id = some x) (hq : x.bus.queue w.subscription = e :: rest) :
    let r := (notify w.listener e).run
      (s.modifySession id (·.withBus (x.bus.receive w.subscription).2))
    turn id w s = ([⟨w.number, e, r.1⟩],
      if r.1 = .crashed then r.2.modifySession id (·.silence w) else r.2) := by
  intro r
  have hr : x.bus.receive w.subscription = (.message e, (x.bus.receive w.subscription).2) := by
    simp only [Bus.receive, hq]
  have hb : s.modifySession id (fun y => { y with bus := (x.bus.receive w.subscription).2 }) =
      s.modifySession id (·.withBus (x.bus.receive w.subscription).2) := rfl
  unfold turn
  simp only [hx]
  rw [hr]
  simp only [hb]
  rcases hn : r with ⟨_ | _ | _, t⟩ <;> simp only [r] at hn <;> simp [hn]

theorem turn_outline (id : SessionId) (w : Worker) (s : Program) :
    (turn id w s).2.outline = s.outline := by
  cases hx : s.session? id with
  | none =>
    rw [turn_of_empty fun x h => by rw [hx] at h; cases h]
  | some x =>
    cases hq : x.bus.queue w.subscription with
    | nil =>
      rw [turn_of_empty fun y h => by rw [hx] at h; cases h; exact hq]
    | cons e rest =>
      rw [turn_of_queue hx hq]
      have hn := outline_eq_of_bare_eq (notify_keeps_bare w.listener e
        (s.modifySession id (·.withBus (x.bus.receive w.subscription).2)))
      rw [outline_modifySession s id fun y => y.withBus_outline _] at hn
      simp only
      split
      · rw [outline_modifySession _ id fun y => y.silence_outline w, hn]
      · exact hn

theorem round_outline (id : SessionId) (workers : List Worker) (s : Program) :
    (round id workers s).2.outline = s.outline := by
  induction workers generalizing s with
  | nil => rfl
  | cons w rest ih => exact (ih _).trans (turn_outline id w s)

theorem rounds_outline (id : SessionId) (workers : List Worker) (n : Nat) (s : Program) :
    (rounds id workers n s).2.outline = s.outline := by
  induction n generalizing s with
  | zero => rfl
  | succ n ih => exact (ih _).trans (round_outline id workers s)

/-- However much is delivered, only the buses change beside the effects of calls. -/
theorem flush_outline (id : SessionId) (workers : List Worker) (s : Program) :
    (flush id workers s).2.outline = s.outline := by
  unfold flush
  split
  · exact rounds_outline id workers _ s
  · rfl

theorem settle_of_session? {id : SessionId} {s : Program} {x : Session} (hx : s.session? id = some x) :
    settle id s = flush id x.workers s := by
  simp only [settle, hx, Option.map_some, Option.getD_some]

theorem settle_outline (id : SessionId) (s : Program) : (settle id s).2.outline = s.outline :=
  flush_outline id _ s

theorem markStopped_fields (id : SessionId) (s : Program) :
    (markStopped id s).reporter = s.reporter ∧ (markStopped id s).integrations = s.integrations := by
  unfold markStopped
  split
  · exact ⟨rfl, rfl⟩
  · split
    · exact ⟨rfl, rfl⟩
    · simp only
      split
      · unfold clearActive
        split <;> exact ⟨rfl, rfl⟩
      · exact ⟨rfl, rfl⟩

theorem flush_of_empty {id : SessionId} {w : Worker} {s : Program} {x : Session}
    (hx : s.session? id = some x) (hq : x.bus.queue w.subscription = []) :
    flush id [w] s = ([], s) := by
  have hb : backlog x [w] = 0 := by
    simp only [backlog, List.foldl_cons, List.foldl_nil, hq, List.length_nil, Nat.max_self]
  simp only [flush, hx, hb, rounds]

/-! ## Submissions -/

theorem fillAlong_core (id : SessionId) (plan : List (Place × Attribute)) (report : Report)
    (s : Program) :
    (Report.fillAlong (fun a => onSession id (Session.read a)) plan report s).2.2.core = s.core := by
  induction plan generalizing report s with
  | nil => rfl
  | cons step rest ih =>
    obtain ⟨place, a⟩ := step
    simp only [Report.fillAlong]
    split
    · exact ih report s
    · have h := onSession_keeps_core id (Session.read_keeps_core a) s
      rcases hr : (onSession id (Session.read a)).run s with ⟨⟨_ | value⟩ | _ | _, t⟩ <;>
        rw [hr] at h
      · exact (ih report t).trans h
      · exact (ih _ t).trans h
      · exact h
      · exact h

theorem runEnricher_core (e : Enricher) (report : Report) (s : Program) :
    (runEnricher e report s).2.core = s.core := by
  unfold runEnricher
  split
  · exact fillAlong_core e.session enrichmentPlan report s
  · rfl

/-- Enrichers keep the core of the program. -/
theorem process_core (hint : Hint) (ps : List Processor) (hps : ∀ r, Processor.rule r ∉ ps)
    (report : Report) (s : Program) :
    (Reporter.process (runProcessor hint) ps report s).2.core = s.core := by
  induction ps generalizing report s with
  | nil => rfl
  | cons p rest ih =>
    cases p with
    | rule r => exact absurd List.mem_cons_self (hps r)
    | enricher e =>
      exact (ih (fun r hr => hps r (List.mem_cons_of_mem _ hr)) _ _).trans (runEnricher_core e report s)

end Program

/-- No two processors have the same number, and all numbers have been given. -/
structure Reporter.Numbered {π : Type} (r : Reporter π) : Prop where
  distinct : (r.processors.map (·.1)).Nodup
  bounded : ∀ row ∈ r.processors, row.1.val < r.registrations

theorem Reporter.Numbered.of_eq {π : Type} {r r' : Reporter π} (h : r.Numbered)
    (hp : r'.processors = r.processors) (hn : r'.registrations = r.registrations) : r'.Numbered := by
  refine ⟨?_, fun row hm => ?_⟩
  · rw [hp]
    exact h.distinct
  · rw [hp] at hm
    rw [hn]
    exact h.bounded row hm

theorem Reporter.Numbered.register {π : Type} {r : Reporter π} (h : r.Numbered) (p : π) :
    (r.register p).2.Numbered := by
  refine ⟨?_, fun row hm => ?_⟩
  · simp only [Reporter.register, List.map_append]
    refine List.nodup_append.mpr ⟨h.distinct, List.pairwise_singleton _ _, fun a ha b hb he => ?_⟩
    obtain ⟨row, hm, rfl⟩ := List.mem_map.mp ha
    have hlt := h.bounded row hm
    rw [he, List.mem_singleton.mp hb] at hlt
    exact Nat.lt_irrefl _ hlt
  · rcases List.mem_append.mp hm with hm | hm
    · exact Nat.lt_succ_of_lt (h.bounded row hm)
    · rw [List.mem_singleton.mp hm]
      exact Nat.lt_succ_self _

theorem Reporter.Numbered.filter {π : Type} {r : Reporter π} (h : r.Numbered)
    (keep : ProcessorId × π → Bool) :
    { r with processors := r.processors.filter keep : Reporter π }.Numbered :=
  ⟨h.distinct.sublist (List.filter_sublist.map _), fun row hm => h.bounded row (List.mem_filter.mp hm).1⟩

namespace Program

/-- What a processor can do to the reporter: leave breadcrumbs, register rules and remove processors.
The enrichers after it were there before it. -/
structure Thins (s t : Program) : Prop where
  body_eq : t.body = s.body
  enrichers : ∀ p e, (p, Processor.enricher e) ∈ t.reporter.processors →
    (p, Processor.enricher e) ∈ s.reporter.processors
  registrations : s.reporter.registrations ≤ t.reporter.registrations
  numbered : s.reporter.Numbered → t.reporter.Numbered

theorem Thins.refl (s : Program) : Thins s s := ⟨rfl, fun _ _ h => h, Nat.le_refl _, fun h => h⟩

theorem Thins.trans {s t u : Program} (h : Thins s t) (h' : Thins t u) : Thins s u :=
  ⟨h'.body_eq.trans h.body_eq, fun p e he => h.enrichers p e (h'.enrichers p e he),
    Nat.le_trans h.registrations h'.registrations, fun hn => h'.numbered (h.numbered hn)⟩

theorem processors_of_core_eq {s t : Program} (h : s.core = t.core) :
    s.reporter.processors = t.reporter.processors := by
  have hr := congrArg (fun u : Program => u.reporter.processors) h
  exact hr

theorem registrations_of_core_eq {s t : Program} (h : s.core = t.core) :
    s.reporter.registrations = t.reporter.registrations := by
  have hr := congrArg (fun u : Program => u.reporter.registrations) h
  exact hr

theorem Thins.of_core_eq {s t : Program} (h : t.core = s.core) : Thins s t := by
  refine ⟨body_eq_of_core_eq h, fun p e he => ?_, ?_,
    fun hn => hn.of_eq (processors_of_core_eq h) (registrations_of_core_eq h)⟩
  · rw [processors_of_core_eq h] at he
    exact he
  · exact Nat.le_of_eq (registrations_of_core_eq h).symm

theorem runRule_thins (hint : Hint) (r : Rule) (report : Report) (s : Program) :
    Thins s (runRule hint r report s).2 := by
  unfold runRule
  split
  · exact ⟨rfl, fun _ _ h => h, Nat.le_refl _, fun h => h.of_eq rfl rfl⟩
  · refine ⟨rfl, fun p e he => ?_, Nat.le_succ _, fun h => h.register _⟩
    rcases List.mem_append.mp he with h | h
    · exact h
    · simp at h
  · exact ⟨rfl, fun p e he => (List.mem_filter.mp he).1, Nat.le_refl _, fun h => h.filter _⟩
  · exact .refl s

theorem runProcessor_thins (hint : Hint) (p : Processor) (report : Report) (s : Program) :
    Thins s (runProcessor hint p report s).2 := by
  cases p with
  | enricher e => exact .of_core_eq (runEnricher_core e report s)
  | rule r => exact runRule_thins hint r report s

/-- What each processor preserves, and the keeping of a report, a submission preserves. -/
theorem submit_preserves {P : Program → Prop} (hint : Hint)
    (step : ∀ p report s, P s → P (runProcessor hint p report s).2)
    (kept : ∀ s final, P s → P { s with reporter := s.reporter.keep final }) (report : Report) {s : Program}
    (hs : P s) : P (submit report hint s).2 := by
  have process : ∀ (ps : List Processor) report s, P s →
      P (Reporter.process (runProcessor hint) ps report s).2 := fun ps => by
    induction ps with
    | nil => exact fun _ _ h => h
    | cons p rest ih =>
      intro report s hs
      have h := step p report s hs
      simp only [Reporter.process]
      rcases hr : runProcessor hint p report s with ⟨_ | next, t⟩ <;> rw [hr] at h
      · exact h
      · exact ih next t h
  have h := process (s.reporter.processors.map (·.2)) (s.reporter.withCrumbs report) s hs
  unfold submit
  split <;> rename_i hr <;> rw [hr] at h
  · exact kept _ _ h
  · exact h

/-- Whatever the processors do to a report that is submitted, the enrichers after it were registered
before. -/
theorem submit_thins (report : Report) (hint : Hint) (s : Program) :
    Thins s (submit report hint s).2 :=
  submit_preserves hint (fun p report t h => h.trans (runProcessor_thins hint p report t))
    (fun _ _ h => h.trans ⟨rfl, fun _ _ he => he, Nat.le_refl _, fun hn => hn.of_eq rfl rfl⟩) report (.refl s)

end Program

end SessionTrail
