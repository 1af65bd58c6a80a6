import SessionTrail.Proofs.Capture
import SessionTrail.Proofs.Profile
import SessionTrail.Proofs.Reads

/-!
# From settings to reports

The settings with which a session is started fix what the session says of itself as long as it runs, whatever
else happens. A configuration that the settings bring along goes before the defaults that a start puts into
it, but it is the settings themselves that give name and master in a report. A report that is filled from the
session says in each place what it said before, or else what the settings have for the place.
-/
namespace SessionTrail

open Program World

/-! ## Settings -/

theorem SortedMap.get?_insertIfAbsent {α : Type} (m : SortedMap α) (key k : String) (value : α) :
    (m.insertIfAbsent key value).get? k = (m.get? k).or (if k = key then some value else none) := by
  unfold insertIfAbsent contains
  by_cases hk : k = key
  · subst hk
    cases hm : m.get? k with
    | none => simp
    | some old => simp [hm]
  · rw [if_neg hk, Option.or_none]
    split
    · rfl
    · exact get?_insert_of_ne m value hk

namespace Settings

/-- What a start puts under a key of the configuration that has no value. -/
def confDefault (S : Settings) (key : String) : Option String :=
  if key = appNameKey then some S.appName
  else if key = masterKey then some S.master
  else if key = executorIdKey then some "driver"
  else none

theorem get?_effectiveConf (S : Settings) (key : String) :
    S.effectiveConf.get? key = (S.conf.get? key).or (S.confDefault key) := by
  simp only [effectiveConf, SortedMap.get?_insertIfAbsent, Option.or_assoc, confDefault]
  by_cases happ : key = appNameKey
  · rw [if_pos happ, if_pos happ, Option.some_or]
  · rw [if_neg happ, if_neg happ, Option.none_or]
    by_cases hmaster : key = masterKey
    · rw [if_pos hmaster, if_pos hmaster, Option.some_or]
    · rw [if_neg hmaster, if_neg hmaster, Option.none_or]

/-- What settings have for each place of a report, where the application has an identity. -/
def tells (S : Settings) (applicationId : String) : Place → Option String
  | .userId => some S.user
  | .tag "executor.id" => (S.conf.get? "spark.executor.id").or (some "driver")
  | .tag "spark-submit.deployMode" => S.conf.get? "spark.submit.deployMode"
  | .tag "driver.host" => S.conf.get? "spark.driver.host"
  | .tag "driver.port" => S.conf.get? "spark.driver.port"
  | .tag "spark_version" => some S.version
  | .tag "app_name" => some S.appName
  | .tag "application_id" => some applicationId
  | .tag "master" => some S.master
  | .tag "spark_home" => S.home
  | .extra "web_url" => S.webUrl
  | _ => none

end Settings

/-! ## Filling where every read is served -/

/-- Whether a backend serves all reads. -/
def Backend.ServesReads (b : Backend) : Prop := ∀ history a, b.trouble history (.read a) = none

theorem Backend.ServesReads.readsFixed {b : Backend} (h : b.ServesReads) : b.ReadsFixed :=
  fun history history' a => (h history a).trans (h history' a).symm

/-- What a plan fills a place from. -/
def plannedFor (plan : List (Place × Attribute)) (place : Place) : Option Attribute :=
  (plan.find? fun step => step.1 = place).map (·.2)

theorem plannedFor_eq_none {plan : List (Place × Attribute)} {place : Place}
    (h : place ∉ plan.map (·.1)) : plannedFor plan place = none := by
  rw [plannedFor, Option.map_eq_none_iff, List.find?_eq_none]
  intro step hm he
  exact h (List.mem_map.mpr ⟨step, hm, of_decide_eq_true he⟩)

theorem Report.fillFrom_of_served {answer : Attribute → Outcome CallError (Option String)}
    {value : Attribute → Option String} (h : ∀ a, answer a = .done (value a))
    {plan : List (Place × Attribute)} (hp : (plan.map (·.1)).Nodup) (r : Report) :
    (fillFrom answer plan r).1 = .done () ∧ ∀ place,
      (fillFrom answer plan r).2.at? place = (r.at? place).or ((plannedFor plan place).bind value) := by
  induction plan generalizing r with
  | nil => exact ⟨rfl, fun place => (Option.or_none).symm⟩
  | cons step rest ih =>
    obtain ⟨p, a⟩ := step
    rw [List.map_cons, List.nodup_cons] at hp
    have hself : plannedFor ((p, a) :: rest) p = some a := by
      simp [plannedFor]
    have hother : ∀ place, place ≠ p → plannedFor ((p, a) :: rest) place = plannedFor rest place := by
      intro place hne
      rw [plannedFor, List.find?_cons_of_neg (by simpa using hne.symm)]
      rfl
    have hrest : plannedFor rest p = none := plannedFor_eq_none hp.1
    rw [fillFrom, h a]
    by_cases hat : (r.at? p).isSome = true
    · obtain ⟨said, hsaid⟩ := Option.isSome_iff_exists.mp hat
      obtain ⟨hdone, hall⟩ := ih hp.2 r
      rw [if_pos hat]
      refine ⟨hdone, fun place => ?_⟩
      rw [hall place]
      by_cases hne : place = p
      · rw [hne, hsaid, Option.some_or, Option.some_or]
      · rw [hother place hne]
    · rw [if_neg hat]
      rw [Option.not_isSome_iff_eq_none] at hat
      cases hv : value a with
      | none =>
        obtain ⟨hdone, hall⟩ := ih hp.2 r
        refine ⟨hdone, fun place => ?_⟩
        rw [hall place]
        by_cases hne : place = p
        · rw [hne, hself, hrest, Option.bind_some, hv, Option.bind_none]
        · rw [hother place hne]
      | some v =>
        obtain ⟨hdone, hall⟩ := ih hp.2 (r.put v p)
        refine ⟨hdone, fun place => ?_⟩
        rw [hall place, at?_put]
        by_cases hne : place = p
        · rw [if_pos hne, hne, hself, hat, Option.bind_some, hv, Option.some_or, Option.none_or]
        · rw [if_neg hne, hother place hne]

/-! ## A session that was started from settings -/

/-- A session has its settings and its identity from a start, and the backend from then. -/
structure Session.StartedFrom (S : Settings) (applicationId : String) (backend : Backend) (x : Session) :
    Prop where
  settings : x.settings = S.started
  applicationId : x.applicationId = applicationId
  backend : x.backend = backend

namespace Session.StartedFrom

variable {S : Settings} {applicationId : String} {backend : Backend} {x : Session}

theorem conf (h : x.StartedFrom S applicationId backend) (key : String) :
    x.valueOf (.setting (.conf key)) = (S.conf.get? key).or (S.confDefault key) := by
  rw [valueOf, setting, h.settings]
  exact S.get?_effectiveConf key

/-- What the enrichment plan reads for a place is what the settings have for it. -/
theorem planned (h : x.StartedFrom S applicationId backend) (place : Place) :
    (plannedFor enrichmentPlan place).bind x.valueOf =
      S.tells (backend.applicationId.getD applicationId) place := by
  have happ : x.fact .applicationId = backend.applicationId.getD applicationId := by
    rw [fact, h.backend, h.applicationId]
  have hsettings := h.settings
  -- Only the executor has a default in the configuration that a report shows.
  have hconf : ∀ key, key ∉ [Settings.appNameKey, Settings.masterKey, Settings.executorIdKey] →
      x.valueOf (.setting (.conf key)) = S.conf.get? key := by
    intro key hkey
    simp only [List.mem_cons, List.not_mem_nil, or_false, not_or] at hkey
    rw [h.conf, Settings.confDefault, if_neg hkey.1, if_neg hkey.2.1, if_neg hkey.2.2, Option.or_none]
  unfold Settings.tells
  split
  · exact (congrArg (fun S : Settings => some S.user) hsettings :)
  · exact h.conf "spark.executor.id"
  · exact hconf "spark.submit.deployMode" (by decide)
  · exact hconf "spark.driver.host" (by decide)
  · exact hconf "spark.driver.port" (by decide)
  · exact (congrArg (fun S : Settings => some S.version) hsettings :)
  · exact (congrArg (fun S : Settings => some S.appName) hsettings :)
  · exact congrArg some happ
  · exact (congrArg (fun S : Settings => some S.master) hsettings :)
  · exact (congrArg Settings.home hsettings :)
  · exact (congrArg Settings.webUrl hsettings :)
  · rw [plannedFor_eq_none, Option.bind_none]
    intro hm
    simp only [enrichmentPlan, List.map_cons, List.map_nil, List.mem_cons, List.not_mem_nil, or_false] at hm
    rcases hm with rfl | rfl | rfl | rfl | rfl | rfl | rfl | rfl | rfl | rfl | rfl <;> simp_all

end Session.StartedFrom

/-- What a report has come to be that was filled from a session with some settings: each place says what it
said before, or else what the settings have for it, and all that is not a place is as it was. -/
structure Report.IdentifiedBy (S : Settings) (applicationId : String) (r final : Report) : Prop where
  places : ∀ place, final.at? place = (r.at? place).or (S.tells applicationId place)
  user : final.user = some ⟨some (((r.user.bind (·.id))).getD S.user)⟩
  eventId : final.eventId = r.eventId
  timestamp : final.timestamp = r.timestamp
  level : final.level = r.level
  message : final.message = r.message
  breadcrumbs : final.breadcrumbs = r.breadcrumbs

namespace Program

variable {s : Program} {id : SessionId} {x : Session} {S : Settings} {applicationId : String}
  {backend : Backend}

/-- A running session that serves reads answers all of them with what it has. -/
theorem answer_of_served (hx : s.session? id = some x) (hb : x.backend.ServesReads)
    (hrun : x.stopped = false) (a : Attribute) : s.answer id a = .done (x.valueOf a) := by
  have hnone : x.troubleWith (.read a) = none := by
    rw [Session.troubleWith, Backend.troubleWith, hb, hrun]
    rfl
  rw [answer, hx, Option.map_some, Option.getD_some, Session.answer, hnone, Option.elim_none]

/-- A report is filled in full from a running session that serves reads, and nothing but these reads is left
of that in the program. -/
theorem fillReport_identified (hx : s.session? id = some x) (hfrom : x.StartedFrom S applicationId backend)
    (hb : backend.ServesReads) (hrun : x.stopped = false) (r : Report) :
    ∃ final reads, fillReport id r s = (.done (), final, s.modifySession id (·.afterReads reads)) ∧
      r.IdentifiedBy S (backend.applicationId.getD applicationId) final := by
  have hserves : x.backend.ServesReads := hfrom.backend ▸ hb
  have hfixed : ∀ y, s.session? id = some y → y.backend.ReadsFixed := by
    intro y hy
    rw [hx] at hy
    cases hy
    exact hserves.readsFixed
  have hnodup : (enrichmentPlan.map (·.1)).Nodup := by decide
  obtain ⟨hdone, hplaces⟩ := Report.fillFrom_of_served (answer_of_served hx hserves hrun) hnodup r
  obtain ⟨hout, hfinal⟩ := Report.fillAlong_eq_fillFrom (s.answer id) enrichmentPlan r
    (onSession_read_fixed hfixed) s rfl
  obtain ⟨reads, outcome, final, t, _, hr, ht, hfilled⟩ :=
    Report.filledBy_fillByPlan (fun a => onSession id (Session.read a)) r s
  rw [foldl_onSession_read] at ht
  change Report.fillAlong _ enrichmentPlan r s = _ at hr
  rw [hr] at hout hfinal
  simp only at hout hfinal
  have hat : ∀ place, final.at? place =
      (r.at? place).or (S.tells (backend.applicationId.getD applicationId) place) := by
    intro place
    rw [hfinal, hplaces, hfrom.planned]
  have huser : final.user.bind (·.id) = some ((r.user.bind (·.id)).getD S.user) := by
    have h := hat .userId
    rw [Report.at?, Report.at?, Settings.tells] at h
    rw [h]
    cases r.user.bind (·.id) <;> rfl
  refine ⟨final, reads, ?_, hat, ?_, hfilled.eventId, hfilled.timestamp, hfilled.level, hfilled.message,
    hfilled.breadcrumbs⟩
  · rw [hout, hdone, ht] at hr
    exact hr
  · obtain ⟨user, hu, hid⟩ := Option.bind_eq_some_iff.mp huser
    rw [hu]
    exact congrArg (fun id => some (User.mk id)) hid

end Program

/-! ## Runs -/

namespace World

variable {w : World} {left : InstallerId → SessionId → Nat} {id : SessionId} {S : Settings}
  {applicationId : String} {backend : Backend}

theorem startedFrom_start (hnew : w.program.session? id = none) (S : Settings) (backend : Backend)
    (detached : Bool) : ∃ x, ((Operation.start id S backend detached).next w).program.session? id = some x ∧
      x.StartedFrom S (localApplicationId w.program.now) backend := by
  have hc : w.program.sessions.contains id = false := by
    rw [Table.contains, show w.program.sessions.get? id = none from hnew]
    rfl
  simp only [Operation.next, update, start, hc, Bool.false_eq_true, if_false]
  exact ⟨_, Table.get?_set_self .., rfl, rfl, rfl⟩

/-- Unless it is given another backend, a session stays what it was started as. -/
theorem startedFrom_perform (h : w.Sound left) {ops : List Operation}
    (hsame : ∀ b, .setBackend id b ∉ ops)
    (hx : ∃ x, w.program.session? id = some x ∧ x.StartedFrom S applicationId backend) :
    ∃ y, (perform ops w).program.session? id = some y ∧ y.StartedFrom S applicationId backend := by
  induction ops generalizing w left with
  | nil => exact hx
  | cons o rest ih =>
    obtain ⟨x, hx, hfrom⟩ := hx
    obtain ⟨y, hy, hsettings, happ, hback, _⟩ := session?_next h o hx
    have hkeeps : ∀ b, o ≠ .setBackend id b := fun b he => hsame b (he ▸ List.mem_cons_self)
    exact ih (h.next o) (fun b hm => hsame b (List.mem_cons_of_mem _ hm))
      ⟨y, hy, hsettings.trans hfrom.settings, happ.trans hfrom.applicationId,
        (hback hkeeps).trans hfrom.backend⟩

end World

/-- Whatever happens before and after a session is started, while it runs and its backend serves reads: the
configuration that it shows is the one of its settings, with defaults for name, master and executor, and any
report is filled from it in full, from the settings where the report says nothing, and in no other respect. -/
theorem settings_flow_into_reports (now : Timestamp) (retention : Retention) (before after : List Command)
    (id : SessionId) (S : Settings) (backend : Backend) (detached : Bool) (hb : backend.ServesReads) :
    let w := Command.runAll before (initial now retention)
    let started := (Operation.start id S backend detached).next w
    let s := (Command.runAll after started).program
    w.program.session? id = none → (∀ b, .setBackend id b ∉ Command.allOperations after started) →
      s.hasStopped id = false →
        (∀ key, ((onSession id (Session.read (.setting (.conf key)))).run s).1 =
          .done ((S.conf.get? key).or (S.confDefault key))) ∧
        ∀ r : Report, ∃ final reads,
          fillReport id r s = (.done (), final, s.modifySession id (·.afterReads reads)) ∧
            r.IdentifiedBy S (backend.applicationId.getD (localApplicationId w.program.now)) final := by
  intro w started s hnew hsame hrun
  obtain ⟨left, hsound⟩ := sound_runAll now retention before
  obtain ⟨x, hx, hfrom⟩ : ∃ x, s.session? id = some x ∧
      x.StartedFrom S (localApplicationId w.program.now) backend := by
    rw [show s = _ from congrArg World.program (Command.runAll_eq_perform after started)]
    exact startedFrom_perform (hsound.next _) hsame (startedFrom_start hnew S backend detached)
  have hruns : x.stopped = false := by
    rw [hasStopped, hx, Option.any_some] at hrun
    exact hrun
  refine ⟨fun key => ?_, fun r => fillReport_identified hx hfrom hb hruns r⟩
  rw [onSession_read, answer_of_served hx (hfrom.backend ▸ hb) hruns, hfrom.conf]

/-- Settings that bring along a name and an executor in their configuration. -/
def overridden : Settings :=
  { Settings.standard (some "ada") with
    webUrl := some "http://host:4040"
    conf := (SortedMap.empty.insert "spark.app.name" "other").insert "spark.executor.id" "7" }

/-- Another session takes the shared place meanwhile, and the report already has a master. -/
theorem overridden_settings_flow :
    let started := (Operation.start ⟨⟨0⟩⟩ overridden .sound false).next (initial .epoch .standard)
    let s := (Command.runAll [.operation (.start ⟨⟨1⟩⟩ (.standard none) .sound false)] started).program
    let r := { Report.new ⟨7⟩ .epoch .error with tags := SortedMap.empty.insert "master" "mine" }
    (started.program.session? ⟨⟨0⟩⟩).isSome = true ∧ s.hasStopped ⟨⟨0⟩⟩ = false ∧
      ((onSession ⟨⟨0⟩⟩ (Session.read (.setting (.conf "spark.app.name")))).run s).1 =
        .done (some "other") ∧
      ((onSession ⟨⟨0⟩⟩ (Session.read (.setting (.conf "spark.master")))).run s).1 =
        .done (some "local[*]") ∧
      ∃ final reads, fillReport ⟨⟨0⟩⟩ r s = (.done (), final, s.modifySession ⟨⟨0⟩⟩ (·.afterReads reads)) ∧
        final.at? (.tag "app_name") = some "sparkcrumbs" ∧ final.at? (.tag "executor.id") = some "7" ∧
        final.at? (.tag "master") = some "mine" ∧ final.at? (.tag "driver.host") = none ∧
        final.at? (.extra "web_url") = some "http://host:4040" ∧ final.user = some ⟨some "ada"⟩ := by
  intro started s r
  obtain ⟨hconf, hfill⟩ := settings_flow_into_reports .epoch .standard []
    [.operation (.start ⟨⟨1⟩⟩ (.standard none) .sound false)] ⟨⟨0⟩⟩ overridden .sound false
    (fun _ _ => rfl) rfl (fun b hm => nomatch List.mem_singleton.mp hm) (by decide)
  obtain ⟨final, reads, hfinal, hid⟩ := hfill r
  refine ⟨by decide, by decide, (hconf _).trans (by decide), (hconf _).trans (by decide), final, reads, hfinal,
    ?_, ?_, ?_, ?_, ?_, hid.user.trans (by decide)⟩ <;> rw [hid.places] <;> decide

end SessionTrail
