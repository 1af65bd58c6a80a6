import SessionTrail.Proofs.Exchange

/-!
# Breadcrumbs of deliveries

Every breadcrumb that listeners leave belongs to the delivery of an event, and with it to a session and
to a listener there. The reporter gets the breadcrumbs of all deliveries in the order of the deliveries.
-/
namespace SessionTrail

open Program World

/-- The level, message and data of the breadcrumbs that tell of an event: one for every job that starts
or ends and every attempt at a stage that is submitted or completed, none where it is not known whether
the attempt has failed. -/
def Event.crumbs : Event → List (Level × String × List (String × String))
  | .jobStart job _ _ => [(.info, "Job " ++ decimalText job.val.toNat ++ " Started", [])]
  | .jobEnd job _ .succeeded =>
    [(.info, "Job " ++ decimalText job.val.toNat ++ " Ended", [("result", "JobSucceeded")])]
  | .jobEnd job _ (.failed _) =>
    [(.warning, "Job " ++ decimalText job.val.toNat ++ " Failed", [("result", "JobFailed")])]
  | .stageSubmitted ⟨stage, attempt, name, _⟩ =>
    [(.info, "Stage " ++ decimalText stage.val.toNat ++ " Submitted",
      [("attemptId", decimalText attempt.toNat), ("name", name)])]
  | .stageCompleted ⟨stage, attempt, name, .set reason⟩ =>
    [(.warning, "Stage " ++ decimalText stage.val.toNat ++ " Failed",
      [("attemptId", decimalText attempt.toNat), ("name", name), ("reason", reason)])]
  | .stageCompleted ⟨stage, attempt, name, .unset⟩ =>
    [(.info, "Stage " ++ decimalText stage.val.toNat ++ " Completed",
      [("attemptId", decimalText attempt.toNat), ("name", name)])]
  | _ => []

/-- What a breadcrumb says, without its time. -/
def Breadcrumb.content (c : Breadcrumb) : Level × String × List (String × String) :=
  (c.level, c.message, c.data.entries)

/-- The breadcrumbs that a delivery leaves. -/
def Delivery.crumbs (d : Delivery) : List Breadcrumb := d.worker.listener.crumbs d.time d.event

/-- The data of an attempt at a stage stand in the order in which they are given. -/
theorem entries_attempt (attempt name : String) :
    (SortedMap.ofList [("attemptId", attempt), ("name", name)]).entries =
      [("attemptId", attempt), ("name", name)] := by
  have h : ¬ ("name" < "attemptId") := by decide
  simp [SortedMap.ofList, SortedMap.insert, SortedMap.empty, insertEntry, h]

/-- The reason of a failure comes last, though it is given first. -/
theorem entries_failure (attempt name reason : String) :
    (SortedMap.ofList [("reason", reason), ("attemptId", attempt), ("name", name)]).entries =
      [("attemptId", attempt), ("name", name), ("reason", reason)] := by
  have h₁ : "attemptId" < "reason" := by decide
  have h₂ : ¬ ("name" < "attemptId") := by decide
  have h₃ : "name" < "reason" := by decide
  simp [SortedMap.ofList, SortedMap.insert, SortedMap.empty, insertEntry, h₁, h₂, h₃]

/-- The trail says of every event what is to be told of it. -/
theorem crumbs_of_trail {l : Listener} {keyPrefix : String} (hl : l.behaviour = .trail keyPrefix)
    (now : Timestamp) (e : Event) : (l.crumbs now e).map Breadcrumb.content = e.crumbs := by
  simp only [Listener.crumbs, hl]
  cases e with
  | jobEnd job time outcome => cases outcome <;> rfl
  | stageSubmitted a =>
    simp only [Event.note, List.map_singleton, Breadcrumb.content, Note.crumb, StageAttempt.data,
      entries_attempt]
    rfl
  | stageCompleted a =>
    obtain ⟨stage, attempt, name, reason⟩ := a
    cases reason with
    | unset =>
      simp only [Event.note, Remote.get, List.map_singleton, Breadcrumb.content, Note.crumb,
        StageAttempt.data, entries_attempt]
      rfl
    | set reason =>
      simp only [Event.note, Remote.get, List.map_singleton, Breadcrumb.content, Note.crumb,
        StageAttempt.data, entries_failure]
      rfl
    | unreachable why => rfl
  | _ => rfl

namespace World

variable {w : World}

theorem crumbs_deliveries {id : SessionId} {x : Session} (hx : w.program.session? id = some x)
    (h : List Handled) :
    (w.deliveries id h).flatMap Delivery.crumbs = h.flatMap (x.crumbs w.program.now) := by
  induction h with
  | nil => rfl
  | cons k rest ih =>
    rw [List.flatMap_cons, ← ih, deliveries, List.filterMap_cons]
    have hw : w.worker? id k.worker = x.workers.find? (·.number = k.worker) := by
      rw [worker?, hx, Option.bind_some]
    rw [hw, Session.crumbs]
    cases x.workers.find? (·.number = k.worker) <;> rfl

theorem worker_of_delivery {o : Operation} {d : Delivery} (hd : d ∈ o.deliveries w) :
    ∃ x, w.program.session? d.session = some x ∧ d.worker ∈ x.workers := by
  have hall : ∀ id h, d ∈ w.deliveries id h →
      ∃ x, w.program.session? d.session = some x ∧ d.worker ∈ x.workers := by
    intro id h hm
    obtain ⟨k, _, hk⟩ := List.mem_filterMap.mp hm
    obtain ⟨v, hv, rfl⟩ := Option.map_eq_some_iff.mp hk
    obtain ⟨x, hx, hf⟩ := Option.bind_eq_some_iff.mp hv
    exact ⟨x, hx, List.mem_of_find?_eq_some hf⟩
  cases o with
  | turn id number =>
    simp only [Operation.deliveries] at hd
    split at hd
    · exact hall id _ hd
    · cases hd
  | stop id =>
    simp only [Operation.deliveries] at hd
    split at hd
    · exact hall id _ hd
    · cases hd
  | detach id l =>
    simp only [Operation.deliveries] at hd
    split at hd
    · split at hd
      · split at hd
        · exact hall id _ hd
        · cases hd
      · cases hd
    · cases hd
  | _ => cases hd

end World

/-! ## What the reporter gets -/

/-- An operation that neither clears the breadcrumbs nor registers a rule, which may leave its own. -/
def Operation.sparesCrumbs : Operation → Bool
  | .clearCrumbs | .register _ => false
  | _ => true

/-- The breadcrumbs that an operation leaves: those of what it delivers, or one that it is given. -/
def Operation.crumbs : Operation → World → List Breadcrumb
  | .leave crumb, _ => [crumb]
  | o, w => (o.deliveries w).flatMap Delivery.crumbs

namespace Program

/-- Only enrichers are registered. -/
def Unruled (s : Program) : Prop := ∀ p r, (p, Processor.rule r) ∉ s.reporter.processors

namespace Notes

variable {s t : Program} {crumbs : List Breadcrumb}

theorem unruled (h : Notes s t crumbs) (hs : s.Unruled) : t.Unruled :=
  fun p r hm => hs p r (h.rules p r hm)

theorem of_processors (hr : t.reporter.retention = s.reporter.retention)
    (hb : t.reporter.breadcrumbs = s.reporter.breadcrumbs)
    (hp : ∀ p r, (p, Processor.rule r) ∈ t.reporter.processors →
      (p, Processor.rule r) ∈ s.reporter.processors) : Notes s t [] := ⟨hr, hb, hp⟩

theorem forgetGone (g : InstallerId) (s : Program) : Notes s (Program.forgetGone g s).2 [] := by
  cases hi : s.installer? g with
  | none =>
    rw [forgetGone_of_none hi]
    exact .of_reporter_eq rfl
  | some i =>
    rw [forgetGone_eq hi]
    exact .of_processors rfl rfl fun _ _ hm => (List.mem_filter.mp hm).1

theorem register_enricher (s : Program) (e : Enricher) :
    Notes s (s.register (.enricher e)).2 [] := by
  refine .of_processors rfl rfl fun p r hm => ?_
  rcases List.mem_append.mp hm with hm | hm
  · exact hm
  · simp at hm

theorem installs {id : SessionId} {l : Listener} {e : Enricher}
    {r : Outcome InstallFailure ProcessorId} (h : Installs id l e s r t) : Notes s t [] := by
  cases h with
  | refused _ _ hc | takenBack _ _ _ _ _ hc | stuck _ _ _ _ _ hc | lostAtFirst _ _ _ _ hc
  | lostLater _ _ _ _ _ _ hc => exact .of_reporter_eq (congrArg Program.reporter hc :)
  | completed _ _ _ _ hc =>
    have hr : t.reporter = (s.register (.enricher e)).2.reporter := (congrArg Program.reporter hc :)
    exact (register_enricher s e).trans (.of_reporter_eq hr)

/-- An activation leaves no breadcrumb. -/
theorem ensureInstalled {left : InstallerId → SessionId → Nat} (h : Sound left s) (g : InstallerId)
    (id : SessionId) : Notes s ((Program.ensureInstalled g id).run s).2 [] := by
  obtain ⟨r, _, hrun, _⟩ | ⟨i, r, u, _, _, hin, _, hrun⟩ :=
    ensureInstalled_cases g id s (h.listener_lt id)
  · rw [hrun]
    exact .forgetGone g s
  · rw [hrun]
    have hres : Notes (Program.forgetGone g s).2 (reserved (Program.forgetGone g s).2 g id) [] :=
      .of_reporter_eq rfl
    exact (((forgetGone g s).trans hres).trans (installs hin)).trans (.of_reporter_eq rfl)

/-- Enrichers leave no breadcrumb of a report. -/
theorem submit (hs : s.Unruled) (report : Report) (hint : Hint) :
    Notes s (Program.submit report hint s).2 [] := by
  have hps : ∀ r, Processor.rule r ∉ s.reporter.processors.map (·.2) := fun r hr => by
    obtain ⟨⟨p, _⟩, hm, rfl⟩ := List.mem_map.mp hr
    exact hs p r hm
  have h : Notes s _ [] := .of_core_eq (process_core hint _ hps (s.reporter.withCrumbs report) s)
  unfold Program.submit
  split <;> rename_i hr <;> rw [hr] at h
  · exact ⟨h.retention_eq, h.breadcrumbs_eq, h.rules⟩
  · exact h

theorem markStopped (id : SessionId) (s : Program) : Notes s (Program.markStopped id s) [] :=
  .of_reporter_eq (markStopped_fields id s).1

end Notes

end Program

namespace World

variable {w : World}

theorem notes_through {id : SessionId} {f : Program → Program}
    (h : Notes w.program (f w.program) []) : Notes w.program (w.through id f).program [] :=
  through_preserves (P := fun t => Notes w.program t []) (.of_reporter_eq rfl) h

/-- The breadcrumbs of some deliveries of a session. -/
theorem notes_of_delivered {id : SessionId} {x : Session} {t : Program} {h : List Handled}
    (hx : w.program.session? id = some x) (hw : x.Wired) (hd : Delivered id w.program t h) :
    Notes w.program t ((w.deliveries id h).flatMap Delivery.crumbs) := by
  rw [crumbs_deliveries hx]
  exact hd.notes x hx hw

theorem notes_stop (hw : w.program.Wired) (id : SessionId) :
    Notes w.program ((Operation.stop id).next w).program ((Operation.stop id).crumbs w) := by
  simp only [Operation.crumbs]
  obtain ⟨hn, hd, -⟩ | ⟨x, t, h, hx, -, hdel, hn, hd⟩ := stop_cases w id <;> rw [hn, hd]
  · exact .of_reporter_eq rfl
  · have he : Notes t (t.modifySession id fun session =>
        session.workers.foldl Session.endWorker session) [] := .of_reporter_eq rfl
    have hn := (notes_of_delivered hx (hw id x hx) (hdel (hw id x hx)).1).trans
      (he.trans (.markStopped id _))
    rw [List.append_nil, List.append_nil] at hn
    exact hn

theorem notes_detach (hw : w.program.Wired) (id : SessionId) (l : Listener) :
    Notes w.program ((Operation.detach id l).next w).program ((Operation.detach id l).crumbs w) := by
  simp only [Operation.crumbs]
  obtain ⟨hn, hd, -⟩ | ⟨x, v, t, h, hx, -, -, hdel, hn, hd, -⟩ := detach_cases w id l
  · rw [hd]
    exact .of_core_eq hn
  · rw [hn, hd]
    have he : Notes t (t.modifySession id (·.endWorker v)) [] := .of_reporter_eq rfl
    have hn := (notes_of_delivered hx (hw id x hx) (hdel (hw id x hx)).1).trans he
    rw [List.append_nil] at hn
    exact hn

/-- Every operation that spares the breadcrumbs adds what `Operation.crumbs` says. -/
theorem notes_next {left : InstallerId → SessionId → Nat} (h : w.Sound left) (hw : w.program.Wired)
    (hr : w.program.Unruled) {o : Operation} (ho : o.sparesCrumbs = true) :
    Notes w.program (o.next w).program (o.crumbs w) := by
  cases o with
  | stop id => exact notes_stop hw id
  | detach id l => exact notes_detach hw id l
  | turn id number =>
    simp only [Operation.crumbs]
    obtain ⟨hn, hd⟩ | ⟨x, t, h, hx, hdel, hn, hd⟩ := turn_cases w id number <;> rw [hn, hd]
    · exact .of_reporter_eq rfl
    · exact notes_of_delivered hx (hw id x hx) (hdel (hw id x hx))
  | leave crumb => exact .leave w.program crumb
  | submit report hint => exact .submit hr report hint
  | ensureInstalled g id =>
    exact ensureInstalled_preserves (P := fun t => Notes w.program t []) g id (.of_reporter_eq rfl)
      (.ensureInstalled h.program g id)
  | setUp i =>
    exact setUp_preserves (P := fun t => Notes w.program t []) w i (.of_reporter_eq rfl)
      (fun _ => .of_reporter_eq rfl)
      (fun config id hn => hn.trans (.ensureInstalled (h.program.newInstaller config) _ id))
      fun _ _ hn => hn.trans (.of_reporter_eq rfl)
  | forgetGone g =>
    exact forgetGone_preserves (P := fun t => Notes w.program t []) g (.of_reporter_eq rfl) (.forgetGone g _)
  | unregister id => exact .of_processors rfl rfl fun _ _ hm => (List.mem_filter.mp hm).1
  | start id settings backend detached =>
    refine .of_reporter_eq ?_
    simp only [Operation.next, update, Program.start]
    split <;> rfl
  | read id a => exact notes_through (.of_core_eq (onSession_keeps_core id (Session.read_keeps_core a) _))
  | write id key value =>
    exact notes_through (.of_core_eq (onSession_keeps_core id (Session.write_keeps_core key value) _))
  | post id e => exact notes_through (.of_reporter_eq (reporter_onSession id _ _))
  | attach id l =>
    change Notes w.program _ []
    simp only [Operation.next]
    split
    · exact notes_through (.of_reporter_eq (reporter_onSession id _ _))
    · exact .of_reporter_eq rfl
  | clearActive id =>
    refine .of_reporter_eq ?_
    simp only [Operation.next, update, Program.clearActive]
    split <;> rfl
  | enable integration =>
    refine .of_processors ?_ ?_ ?_ <;> simp only [Operation.next, update, Reporter.enable]
    · split <;> rfl
    · split <;> rfl
    · split <;> exact fun _ _ hm => hm
  | disable integration => exact .of_processors rfl rfl fun _ _ hm => hm
  | makeActive id => exact notes_through (.of_reporter_eq rfl)
  | clearCrumbs | register => cases ho
  | tick | release | setBackend | newListener | newInstaller | newIntegration =>
    exact .of_reporter_eq rfl

/-- Along a run that spares the breadcrumbs the reporter gets those of all operations, in order. -/
theorem notes_perform {left : InstallerId → SessionId → Nat} {ops : List Operation} (h : w.Sound left)
    (hw : w.program.Wired) (hr : w.program.Unruled) (ho : ∀ o ∈ ops, o.sparesCrumbs = true) :
    Notes w.program (perform ops w).program (along Operation.crumbs ops w) := by
  induction ops generalizing w left with
  | nil => exact .of_reporter_eq rfl
  | cons o rest ih =>
    have hn := notes_next h hw hr (ho o List.mem_cons_self)
    exact hn.trans (ih (h.next o) ((mails_next h o).wired hw) (hn.unruled hr)
      fun p hp => ho p (List.mem_cons_of_mem _ hp))

end World

end SessionTrail
