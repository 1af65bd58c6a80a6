import SessionTrail.Proofs.Disabled
import SessionTrail.Proofs.Evolution
import SessionTrail.Proofs.Untrailed

/-!
# A trail that is never switched on

In a run that enables none of the integrations that it configures, and leaves the trail to set-ups and
launches, nobody gets it. All that such a run shows, it shows without its installers too: each operation
either goes the same way without them or changes nothing but them.
-/
namespace SessionTrail

open Program World

/-! ## Operations -/

/-- An operation that leaves the integrations with the names `off` as they are, and the trail to installers
that are configured with those and to set-ups and launches. -/
def Operation.Offstage (off : String → Prop) : Operation → Prop
  | .enable name => ¬ off name
  | .newInstaller config | .newIntegration config => off config.integration
  | .newListener behaviour => ∀ p, behaviour ≠ .trail p
  | .ensureInstalled .. => False
  | _ => True

mutual
/-- The commands of openings count as well. -/
def Command.Offstage (off : String → Prop) : Command → Prop
  | .operation o => o.Offstage off
  | .launch _ opening _ => Command.AllOffstage off opening

def Command.AllOffstage (off : String → Prop) : List Command → Prop
  | [] => True
  | c :: rest => c.Offstage off ∧ Command.AllOffstage off rest
end

/-- An installer that is configured with one of the names `off`, and stands with no session. -/
structure Installer.Rests (off : String → Prop) (i : Installer) : Prop where
  configured : off i.config.integration
  rows : i.standings.rows = []

namespace Session

/-- What becomes of a session without trail listeners unless somebody writes into it. -/
def Unwritten (x y : Session) : Prop :=
  y.properties = x.properties ∧ (x.Fits (fun _ => False) → y.Fits fun _ => False)

theorem admits_unwritten : Admits (fun _ => False) Unwritten where
  refl _ := ⟨rfl, id⟩
  trans h h' := ⟨h'.1.trans h.1, h'.2 ∘ h.2⟩
  fewer hp _ hw := ⟨hp, fun h v hv => h v (hw v hv)⟩
  attached x l hl := by
    refine ⟨rfl, fun h v hv => ?_⟩
    rw [addWorker_workers] at hv
    rcases List.mem_append.mp hv with hv | hv
    · exact h v hv
    · rw [List.mem_singleton.mp hv]
      exact hl
  written _ _ hp := hp.elim
  fits h := h.2

/-- What a write from outside makes of a session. -/
theorem write_changes (x : Session) (key value : String) :
    ((write key value).run x).2.workers = x.workers ∧
      (((write key value).run x).2.properties = x.properties ∨
        ((write key value).run x).2.properties = x.properties.insert key value) := by
  have hm : (write key value).run x = _ := makes_write x key value
  refine ⟨(congrArg Session.workers (write_keeps_core key value x) :), ?_⟩
  rw [hm]
  simp only [makeCalls]
  cases x.troubleWith (.write key value) with
  | none => exact .inr rfl
  | some t => exact .inl rfl

end Session

namespace Program

variable {s t : Program} {id id' : SessionId} {key value : String} {y : Session}

/-- A property that nobody writes stood there before. -/
theorem Evolves.property (h : Evolves Session.Unwritten s t) (hy : t.session? id = some y)
    (hk : y.properties.get? key = some value) :
    ∃ x, s.session? id = some x ∧ x.properties.get? key = some value := by
  cases hx : s.session? id with
  | some x =>
    obtain ⟨y', hy', hp, _⟩ := h.kept id x hx
    rw [hy] at hy'
    cases hy'
    exact ⟨x, rfl, hp ▸ hk⟩
  | none =>
    obtain ⟨x, hp, _, hxy, _⟩ := h.added id y hy hx
    rw [hxy, hp] at hk
    cases hk

/-- A write from outside changes the properties of one session. -/
theorem session_of_write
    (hy : ((onSession id (Session.write key value)).run s).2.session? id' = some y) :
    ∃ x, s.session? id' = some x ∧ y.workers = x.workers ∧
      (y.properties = x.properties ∨ id' = id ∧ y.properties = x.properties.insert key value) := by
  cases hx : s.session? id with
  | none =>
    rw [run_onSession_of_none hx] at hy
    exact ⟨y, hy, rfl, .inl rfl⟩
  | some x =>
    rw [run_onSession hx] at hy
    obtain ⟨rfl, rfl⟩ | ⟨_, hy⟩ := set_cases hy
    · obtain ⟨hw, hp⟩ := x.write_changes key value
      exact ⟨x, hx, hw, hp.imp_right fun hp => ⟨rfl, hp⟩⟩
    · exact ⟨y, hy, rfl, .inl rfl⟩

end Program

namespace World

variable {w : World} {off : String → Prop}

theorem switches_through {id : SessionId} {f : Program → Program}
    (h : (f w.program).reporter.integrations = w.program.reporter.integrations) :
    (w.through id f).program.reporter.integrations = w.program.reporter.integrations :=
  through_preserves (P := fun t => t.reporter.integrations = w.program.reporter.integrations) rfl h

/-- Only who enables or disables an integration changes which ones are enabled. -/
theorem switches_next {o : Operation} (ho : o.isIdle = true) (he : ∀ name, o ≠ .enable name)
    (hd : ∀ name, o ≠ .disable name) :
    (o.next w).program.reporter.integrations = w.program.reporter.integrations := by
  have hout : ∀ {s t : Program}, t.outline = s.outline →
      t.reporter.integrations = s.reporter.integrations :=
    fun h => (congrArg (fun u : Program => u.reporter.integrations) h :)
  cases o with
  | enable name => exact absurd rfl (he name)
  | disable name => exact absurd rfl (hd name)
  | start id settings backend detached =>
    simp only [Operation.next, update, Program.start]
    split <;> rfl
  | stop id =>
    refine switches_through ?_
    obtain ⟨hr, _⟩ : (Program.stop id w.program).2.reporter = (settle id w.program).2.reporter ∧ _ :=
      markStopped_fields id _
    rw [hr]
    exact hout (settle_outline id w.program)
  | read | write | post => exact switches_through (congrArg Reporter.integrations (reporter_onSession _ _ _) :)
  | turn id number =>
    simp only [Operation.next]
    split
    · exact hout (turn_outline id _ _)
    · rfl
  | makeActive id => exact switches_through rfl
  | clearActive id =>
    simp only [Operation.next, update, Program.clearActive]
    split <;> rfl
  | attach id l =>
    simp only [Operation.next]
    split
    · exact switches_through (congrArg Reporter.integrations (reporter_onSession _ _ _) :)
    · rfl
  | detach id l =>
    simp only [Operation.next]
    split
    · refine switches_through ?_
      obtain ho | ⟨_, _, _, _, _, ho⟩ := detach_outline id l w.program
      · exact hout ho
      · exact (congrArg (fun u : Program => u.reporter.integrations) ho :)
    · rfl
  | submit report hint => exact switches_submit report hint _
  | tick | release | setBackend | newListener | leave | clearCrumbs | register | unregister => rfl
  | newInstaller | ensureInstalled | forgetGone | newIntegration | setUp => cases ho

/-- What is disabled stays so unless somebody enables it. -/
theorem isEnabled_next_eq_false {o : Operation} (ho : o.isIdle = true) {name : String}
    (hne : o ≠ .enable name) (h : w.program.isEnabled name = false) :
    (o.next w).program.isEnabled name = false := by
  cases o with
  | enable other =>
    have hother : name ≠ other := fun he => hne (by rw [he])
    simp only [Operation.next, update, isEnabled, Reporter.enable] at h ⊢
    split
    · exact h
    · simpa [Reporter.isEnabled, hother] using h
  | disable other =>
    simp only [Operation.next, update, isEnabled, Reporter.disable, Reporter.isEnabled] at h ⊢
    simp only [List.contains_eq_mem, decide_eq_false_iff_not, List.mem_filter] at h ⊢
    exact fun hm => h hm.1
  | newInstaller | ensureInstalled | forgetGone | newIntegration | setUp => cases ho
  | _ =>
    rw [isEnabled, Reporter.isEnabled, switches_next rfl (fun _ he => by cases he) fun _ he => by cases he]
    exact h

/-- A world in which the integrations with the names `off` are disabled, all configured ones are among them,
and nobody has the trail. -/
structure Offstage (off : String → Prop) (w : World) : Prop where
  disabled : ∀ name, off name → w.program.isEnabled name = false
  installer : ∀ g i, w.program.installer? g = some i → i.Rests off
  integration : ∀ i j, w.program.integrations.get? i = some j → off j.config.integration
  listener : ∀ l ∈ w.listeners, l.Fits fun _ => False
  worker : w.program.Fits fun _ => False
  enricher : ∀ p e, (p, Processor.enricher e) ∉ w.program.reporter.processors

namespace Offstage

theorem initial (off : String → Prop) (now : Timestamp) (retention : Retention) :
    (World.initial now retention).Offstage off :=
  ⟨fun _ _ => rfl, fun _ _ h => (nomatch h), fun _ _ h => (nomatch h), fun _ h => (nomatch h),
    fun _ _ h => (nomatch h), fun _ _ h => (nomatch h)⟩

theorem isOn_eq_false (h : w.Offstage off) (g : InstallerId) : w.program.isOn g = false := by
  cases hi : w.program.installer? g with
  | none => rw [isOn, hi, Option.any_none]
  | some i => rw [isOn, hi, Option.any_some, h.disabled _ (h.installer g i hi).configured]

theorem installer_isOn_eq_false (h : w.Offstage off) {config : Config} (hc : off config.integration) :
    (w.program.newInstaller config).2.isOn (w.program.newInstaller config).1 = false := by
  rw [isOn, installer?_newInstaller, if_pos rfl, Option.any_some]
  exact h.disabled _ hc

/-- An installer that has nothing to forget changes nothing. -/
theorem forgetGone (h : w.Offstage off) (g : InstallerId) : ∃ installers,
    (Program.forgetGone g w.program).2 = { w.program with installers } ∧
      ∀ g' i, installers.get? g' = some i → i.Rests off := by
  cases hi : w.program.installer? g with
  | none => exact ⟨_, forgetGone_of_none hi, h.installer⟩
  | some i =>
    have hrows := (h.installer g i hi).rows
    refine ⟨w.program.installers.modify g w.program.keepRows, ?_, fun g' j hj => ?_⟩
    · have hp : w.program.reporter.processors.filter
          (·.1 ∉ (w.program.goneRows i).filterMap (·.2.processor?)) = w.program.reporter.processors := by
        simp [goneRows, hrows]
      rw [forgetGone_eq hi, hp]
    · rw [Table.get?_modify] at hj
      split at hj
      · obtain ⟨k, hk, rfl⟩ := Option.map_eq_some_iff.mp hj
        have hr := h.installer g' k hk
        exact ⟨hr.configured, by rw [keepRows, hr.rows, List.filter_nil]⟩
      · exact h.installer g' j hj

theorem newInstaller (h : w.Offstage off) {config : Config} (hc : off config.integration) :
    ∀ g i, (w.program.newInstaller config).2.installer? g = some i → i.Rests off := by
  intro g i hi
  rw [installer?_newInstaller] at hi
  split at hi
  · cases hi
    exact ⟨hc, rfl⟩
  · exact h.installer g i hi

/-- A set-up makes an installer that does not come to install anything. -/
theorem setUp (h : w.Offstage off) (i : IntegrationId) : ∃ installers integrations,
    (if w.program.integrations.contains i then ((Program.setUp i).run w.program).2 else w.program) =
        { w.program with installers, integrations } ∧
      (∀ g j, installers.get? g = some j → j.Rests off) ∧
      ∀ k j, integrations.get? k = some j → off j.config.integration := by
  rcases hi : w.program.integrations.get? i with _ | ⟨config, _ | g⟩
  · simp only [Table.contains, hi, Option.isSome_none, Bool.false_eq_true, if_false]
    exact ⟨_, _, rfl, h.installer, h.integration⟩
  · have hoff := h.integration i _ hi
    simp only [Table.contains, hi, Option.isSome_some, if_true]
    obtain ⟨_, _, hon, _⟩ | ⟨_, _, hon, _⟩ | ⟨_, hr⟩ := setUp_ends hi
    · rw [h.installer_isOn_eq_false hoff] at hon
      cases hon
    · rw [h.installer_isOn_eq_false hoff] at hon
      cases hon
    · rw [hr]
      refine ⟨_, _, rfl, h.newInstaller hoff, fun k j hj => ?_⟩
      rw [Table.get?_modify] at hj
      split at hj
      · obtain ⟨j', hj', rfl⟩ := Option.map_eq_some_iff.mp hj
        exact h.integration k j' hj'
      · exact h.integration k j hj
  · simp only [Table.contains, hi, Option.isSome_some, if_true, setUp_of_kept hi]
    exact ⟨_, _, rfl, h.installer, h.integration⟩

/-- What has to do with installers and integrations changes nothing but those. -/
theorem next_of_not_idle (h : w.Offstage off) {o : Operation} (ho : o.Offstage off)
    (hidle : ¬ o.isIdle = true) : (o.next w).untrailed = w.untrailed ∧ (o.next w).Offstage off := by
  -- All but the installers and integrations is as it was.
  have hsame : ∀ {installers integrations held}, (∀ g i, installers.get? g = some i → i.Rests off) →
      (∀ i j, integrations.get? i = some j → off j.config.integration) →
      World.Offstage off ⟨{ w.program with installers, integrations }, held, w.listeners⟩ :=
    fun hi hj => ⟨h.disabled, hi, hj, h.listener, h.worker, h.enricher⟩
  cases o with
  | newInstaller config => exact ⟨rfl, hsame (h.newInstaller ho) h.integration⟩
  | newIntegration config =>
    refine ⟨rfl, hsame h.installer fun i j hj => ?_⟩
    rw [Table.get?_set] at hj
    split at hj
    · cases hj
      exact ho
    · exact h.integration i j hj
  | forgetGone g =>
    simp only [Operation.next]
    split
    · obtain ⟨installers, hp, hi⟩ := h.forgetGone g
      simp only [update, hp]
      exact ⟨rfl, hsame hi h.integration⟩
    · exact ⟨rfl, h⟩
  | setUp i =>
    obtain ⟨held, hn⟩ := setUp_next w i
    obtain ⟨installers, integrations, hp, hi, hj⟩ := h.setUp i
    rw [hn, hp]
    exact ⟨rfl, hsame hi hj⟩
  | ensureInstalled g id => exact ho.elim
  | _ => exact absurd rfl hidle

theorem evolves_next (h : w.Offstage off) {o : Operation} (ho : o.isIdle = true)
    (hwrite : ∀ id key value, o ≠ .write id key value) :
    Evolves Session.Unwritten w.program (o.next w).program := by
  have ha := Session.admits_unwritten
  by_cases hback : ∃ id b, o = .setBackend id b
  · obtain ⟨id, b, rfl⟩ := hback
    exact .modifySession ha fun _ _ => ⟨rfl, fun hx => hx⟩
  · exact evolves_idle ha ho hwrite (fun id b he => hback ⟨id, b, he⟩) h.worker h.listener

theorem fits_next (h : w.Offstage off) {o : Operation} (ho : o.isIdle = true) :
    (o.next w).program.Fits fun _ => False := by
  by_cases hwrite : ∃ id key value, o = .write id key value
  · obtain ⟨id, key, value, rfl⟩ := hwrite
    refine through_preserves (P := fun t => t.Fits fun _ => False) h.worker fun id' y hy v hv => ?_
    obtain ⟨x, hx, hw, _⟩ := session_of_write hy
    exact h.worker id' x hx v (hw ▸ hv)
  · exact (h.evolves_next ho fun id key value he => hwrite ⟨id, key, value, he⟩).fits
      Session.admits_unwritten h.worker

/-- A property stood there before, or is written from outside. -/
theorem property_next (h : w.Offstage off) {o : Operation} (ho : o.Offstage off) {id : SessionId}
    {y : Session} (hy : (o.next w).program.session? id = some y) {key value : String}
    (hk : y.properties.get? key = some value) :
    (∃ x, w.program.session? id = some x ∧ x.properties.get? key = some value) ∨
      o = .write id key value := by
  by_cases hidle : o.isIdle = true
  · by_cases hwrite : ∃ id' key' value', o = .write id' key' value'
    · obtain ⟨id', key', value', rfl⟩ := hwrite
      revert hy
      refine through_preserves (P := fun t => t.session? id = some y → _) (fun hy => .inl ⟨y, hy, hk⟩)
        fun hy => ?_
      obtain ⟨x, hx, _, hp | ⟨rfl, hp⟩⟩ := session_of_write hy <;> rw [hp] at hk
      · exact .inl ⟨x, hx, hk⟩
      · rw [SortedMap.get?_insert] at hk
        split at hk
        · rename_i he
          cases hk
          rw [he]
          exact .inr rfl
        · exact .inl ⟨x, hx, hk⟩
    · exact .inl ((h.evolves_next hidle fun id' key' value' he =>
        hwrite ⟨id', key', value', he⟩).property hy hk)
  · have hs : (o.next w).program.sessions = w.program.sessions :=
      (congrArg (fun v : World => v.program.sessions) (h.next_of_not_idle ho hidle).1 :)
    rw [session?, hs] at hy
    exact .inl ⟨y, hy, hk⟩

theorem next_of_idle (h : w.Offstage off) {o : Operation} (ho : o.Offstage off) (hidle : o.isIdle = true) :
    (o.next w).Offstage off := by
  have hi : Idle w.program (o.next w).program := idle_next hidle
  refine ⟨fun name hn => ?_, fun g i hg => ?_, fun i j hj => ?_, fun l hl => ?_,
    h.fits_next hidle, fun p e hm => h.enricher p e (hi.enrichers p e hm)⟩
  · refine isEnabled_next_eq_false hidle (fun he => ?_) (h.disabled name hn)
    rw [he] at ho
    exact ho hn
  · rw [installer?, hi.installers_eq] at hg
    exact h.installer g i hg
  · rw [hi.integrations_eq] at hj
    exact h.integration i j hj
  · by_cases hn : ∃ b, o = .newListener b
    · obtain ⟨b, rfl⟩ := hn
      rcases List.mem_cons.mp hl with rfl | hl
      · exact fun p hp => ho p hp
      · exact h.listener l hl
    · rw [listeners_next w fun b hb => hn ⟨b, hb⟩] at hl
      exact h.listener l hl

theorem next (h : w.Offstage off) {o : Operation} (ho : o.Offstage off) : (o.next w).Offstage off := by
  by_cases hidle : o.isIdle = true
  · exact h.next_of_idle ho hidle
  · exact (h.next_of_not_idle ho hidle).2

theorem perform (h : w.Offstage off) {ops : List Operation} (ho : ∀ o ∈ ops, o.Offstage off) :
    (World.perform ops w).Offstage off := perform_preserves (fun o hm _ hw => hw.next (ho o hm)) h

theorem property_perform (h : w.Offstage off) {ops : List Operation} (ho : ∀ o ∈ ops, o.Offstage off)
    {id : SessionId} {y : Session} (hy : (World.perform ops w).program.session? id = some y)
    {key value : String} (hk : y.properties.get? key = some value) :
    (∃ x, w.program.session? id = some x ∧ x.properties.get? key = some value) ∨
      .write id key value ∈ ops := by
  induction ops generalizing w with
  | nil => exact .inl ⟨y, hy, hk⟩
  | cons o rest ih =>
    have hfirst := ho o List.mem_cons_self
    obtain ⟨x, hx, hkx⟩ | hm := ih (h.next hfirst) (fun p hp => ho p (List.mem_cons_of_mem _ hp)) hy
    · refine (h.property_next hfirst hx hkx).imp_right fun he => ?_
      rw [he]
      exact List.mem_cons_self
    · exact .inr (List.mem_cons_of_mem _ hm)

/-! ### The run without installers -/

theorem perform_untrailed (h : w.Offstage off) {ops : List Operation} (ho : ∀ o ∈ ops, o.Offstage off) :
    (World.perform ops w).untrailed = World.perform (ops.filter Operation.isIdle) w.untrailed := by
  induction ops generalizing w with
  | nil => rfl
  | cons o rest ih =>
    have hfirst := ho o List.mem_cons_self
    have hrest := ih (h.next hfirst) fun p hp => ho p (List.mem_cons_of_mem _ hp)
    rw [World.perform, hrest]
    by_cases hidle : o.isIdle = true
    · rw [List.filter_cons_of_pos hidle, World.perform, next_untrailed w hidle]
    · rw [List.filter_cons_of_neg hidle, (h.next_of_not_idle hfirst hidle).1]

/-- What an operation shows without regard to installers, and only if it has nothing to do with them, the run
without installers shows as well. -/
theorem along_untrailed {α : Type} {show? : Operation → World → List α} (h : w.Offstage off)
    (hsame : ∀ w o, show? o w.untrailed = show? o w)
    (hnone : ∀ w (o : Operation), ¬ o.isIdle = true → show? o w = []) {ops : List Operation}
    (ho : ∀ o ∈ ops, o.Offstage off) :
    along show? ops w = along show? (ops.filter Operation.isIdle) w.untrailed := by
  induction ops generalizing w with
  | nil => rfl
  | cons o rest ih =>
    have hfirst := ho o List.mem_cons_self
    have hrest := ih (h.next hfirst) fun p hp => ho p (List.mem_cons_of_mem _ hp)
    rw [along, hrest]
    by_cases hidle : o.isIdle = true
    · rw [List.filter_cons_of_pos hidle, along, hsame, next_untrailed w hidle]
    · rw [List.filter_cons_of_neg hidle, hnone w o hidle, (h.next_of_not_idle hfirst hidle).1]
      rfl

theorem deliveries_along (h : w.Offstage off) {ops : List Operation} (ho : ∀ o ∈ ops, o.Offstage off) :
    along Operation.deliveries ops w =
      along Operation.deliveries (ops.filter Operation.isIdle) w.untrailed :=
  h.along_untrailed deliveries_untrailed (fun w o hi => by cases o <;> first | rfl | exact absurd rfl hi) ho

theorem postings_along (h : w.Offstage off) {ops : List Operation} (ho : ∀ o ∈ ops, o.Offstage off) :
    along Operation.postings ops w =
      along Operation.postings (ops.filter Operation.isIdle) w.untrailed :=
  h.along_untrailed postings_untrailed (fun w o hi => by cases o <;> first | rfl | exact absurd rfl hi) ho

/-! ### Reports -/

variable {left : InstallerId → SessionId → Nat}

/-- Nobody leaves a breadcrumb of a delivery. -/
theorem crumbs_eq_nil (h : w.Offstage off) {o : Operation} (hl : ∀ crumb, o ≠ .leave crumb) :
    o.crumbs w = [] := by
  have hd : (o.deliveries w).flatMap Delivery.crumbs = [] := by
    refine List.flatMap_eq_nil_iff.mpr fun d hd => ?_
    obtain ⟨x, hx, hv⟩ := worker_of_delivery hd
    have hb := h.worker _ x hx _ hv
    rw [Delivery.crumbs, Listener.crumbs]
    split
    · rename_i p _ hp _
      exact (hb p hp).elim
    · rfl
  cases o with
  | leave crumb => exact absurd rfl (hl crumb)
  | _ => exact hd

/-- Where nobody registers a rule or leaves a breadcrumb, a reporter has neither. -/
theorem plain_next (h : w.Offstage off) (hs : w.Sound left) (hw : w.program.Wired) {o : Operation}
    (hr : ∀ rule, o ≠ .register rule) (hl : ∀ crumb, o ≠ .leave crumb)
    (hp : w.program.Unruled ∧ w.program.reporter.breadcrumbs = []) :
    (o.next w).program.Unruled ∧ (o.next w).program.reporter.breadcrumbs = [] := by
  by_cases hc : o = .clearCrumbs
  · rw [hc]
    exact ⟨hp.1, rfl⟩
  · have hspares : o.sparesCrumbs = true := by
      cases o with
      | clearCrumbs => exact absurd rfl hc
      | register rule => exact absurd rfl (hr rule)
      | _ => rfl
    have hn := notes_next hs hw hp.1 hspares
    rw [h.crumbs_eq_nil hl] at hn
    exact ⟨hn.unruled hp.1, hn.breadcrumbs_eq.trans hp.2⟩

theorem plain_perform (h : w.Offstage off) (hs : w.Sound left) (hw : w.program.Wired)
    {ops : List Operation} (ho : ∀ o ∈ ops, o.Offstage off) (hr : ∀ rule, .register rule ∉ ops)
    (hl : ∀ crumb, .leave crumb ∉ ops)
    (hp : w.program.Unruled ∧ w.program.reporter.breadcrumbs = []) :
    (World.perform ops w).program.Unruled ∧ (World.perform ops w).program.reporter.breadcrumbs = [] := by
  induction ops generalizing w left with
  | nil => exact hp
  | cons o rest ih =>
    have hnext := h.plain_next hs hw (fun rule he => hr rule (he ▸ List.mem_cons_self))
      (fun crumb he => hl crumb (he ▸ List.mem_cons_self)) hp
    exact ih (h.next (ho o List.mem_cons_self)) (hs.next o) ((mails_next hs o).wired hw)
      (fun p hp => ho p (List.mem_cons_of_mem _ hp)) (fun rule hm => hr rule (List.mem_cons_of_mem _ hm))
      (fun crumb hm => hl crumb (List.mem_cons_of_mem _ hm)) hnext

theorem processors_eq_nil (h : w.Offstage off) (hr : w.program.Unruled) :
    w.program.reporter.processors = [] := by
  refine List.eq_nil_iff_forall_not_mem.mpr fun ⟨p, q⟩ hm => ?_
  cases q with
  | enricher e => exact h.enricher p e hm
  | rule r => exact hr p r hm

end Offstage

/-! ### Commands -/

mutual
/-- A launch comes down to its opening: it does not get to an activation. -/
theorem Offstage.operations {w : World} (h : w.Offstage off) (c : Command) (hc : c.Offstage off) :
    ∀ o ∈ c.operations w, o.Offstage off := by
  match c with
  | .operation o =>
    intro p hp
    rw [List.mem_singleton.mp hp]
    exact hc
  | .launch g opening result =>
    intro p hp
    simp only [Command.operations, h.isOn_eq_false g, launchEnd_of_off, List.append_nil] at hp
    split at hp
    · exact Offstage.allOperations h opening hc p hp
    · cases hp

theorem Offstage.allOperations {w : World} (h : w.Offstage off) (cs : List Command)
    (hc : Command.AllOffstage off cs) : ∀ o ∈ Command.allOperations cs w, o.Offstage off := by
  match cs with
  | [] => exact fun _ ho => nomatch ho
  | c :: rest =>
    have hfirst := Offstage.operations h c hc.1
    have hrest : (c.run w).Offstage off := by
      rw [Command.run_eq_perform]
      exact h.perform hfirst
    intro o ho
    rcases List.mem_append.mp ho with ho | ho
    · exact hfirst o ho
    · exact Offstage.allOperations hrest rest hc.2 o ho
end

end World

/-- In every run that enables none of the integrations that it configures and leaves the trail to set-ups and
launches, and at every point of it: the state, the deliveries and the postings are those of the same run
without installers; a launch ends as its opening does; no listener or enricher of the trail is there, and
only properties that are written from outside; no installer has a session; and where others register no rule
and leave no breadcrumb, the reporter has neither and keeps a report as it is given. In any world, a launch through an installer whose integration is
disabled is its opening, and reports pass by the enrichers of a disabled integration. -/
theorem disabled_trail_is_invisible (now : Timestamp) (retention : Retention) {off : String → Prop}
    (cs : List Command) (offstage : Command.AllOffstage off cs) :
    (∀ first rest, Command.allOperations cs (initial now retention) = first ++ rest →
      let w := perform first (initial now retention)
      let others := first.filter Operation.isIdle
      w.untrailed = perform others (initial now retention) ∧
      along Operation.deliveries first (initial now retention) =
        along Operation.deliveries others (initial now retention) ∧
      along Operation.postings first (initial now retention) =
        along Operation.postings others (initial now retention) ∧
      (∀ (ε : Type) g (start : Action Program ε SessionId), (Program.launch g start).run w.program =
        ((start.run w.program).1.mapError .start, (start.run w.program).2)) ∧
      (∀ id x, w.program.session? id = some x →
        (∀ v ∈ x.workers, v.listener.owner = none ∧ ∀ p, v.listener.behaviour ≠ .trail p) ∧
        ∀ key value, x.properties.get? key = some value → .write id key value ∈ first) ∧
      (∀ p e, (p, .enricher e) ∉ w.program.reporter.processors) ∧
      (∀ g i, w.program.installer? g = some i → i.installedSessions = []) ∧
      ((∀ rule, .register rule ∉ first) → (∀ crumb, .leave crumb ∉ first) →
        w.program.reporter.breadcrumbs = [] ∧ w.program.reporter.processors = [] ∧
        ∀ report hint, Program.submit report hint w.program =
          (some report, { w.program with reporter := w.program.reporter.keep report }))) ∧
    (∀ (w : World) g opening result, g ∈ w.installers → w.program.isOn g = false →
      (Command.launch g opening result).run w = Command.runAll opening w) ∧
    (∀ (ε : Type) (s : Program) g (start : Action Program ε SessionId), s.isOn g = false →
      (Program.launch g start).run s = ((start.run s).1.mapError .start, (start.run s).2)) ∧
    ∀ (s : Program) integration, s.isEnabled integration = false → ∀ report hint,
      Program.submit report hint s = submitTo
        ((s.reporter.processors.map (·.2)).filter fun p => !p.serves integration) report hint s ∧
      ((∀ row ∈ s.reporter.processors, row.2.serves integration = true) → Program.submit report hint s =
        (some (s.reporter.withCrumbs report),
          { s with reporter := s.reporter.keep (s.reporter.withCrumbs report) })) := by
  have hinit := Offstage.initial off now retention
  have hall := hinit.allOperations cs offstage
  refine ⟨fun first rest hops => ?_, fun w g opening result hg hoff => Command.run_launch_of_off hg hoff ..,
    fun ε s g start hoff => run_launch_of_off hoff start, fun s integration hoff report hint =>
      ⟨submit_of_disabled hoff report hint, fun hserve => submit_of_serving hoff hserve report hint⟩⟩
  have hfirst : ∀ o ∈ first, o.Offstage off := fun o ho =>
    hall o (hops ▸ List.mem_append_left _ ho)
  have hw := hinit.perform hfirst
  have hs := sound_initial now retention
  refine ⟨hinit.perform_untrailed hfirst, hinit.deliveries_along hfirst, hinit.postings_along hfirst,
    fun ε g start => run_launch_of_off (hw.isOn_eq_false g) start, fun id x hx => ⟨fun v hv => ?_, ?_⟩,
    hw.enricher, fun g i hi => ?_, fun hr hl => ?_⟩
  · have hb : ∀ p, v.listener.behaviour ≠ .trail p := fun p hp => hw.worker id x hx v hv p hp
    refine ⟨?_, hb⟩
    obtain ho | ⟨p, hp⟩ := (hs.perform first).program.trail id x hx v hv
    · exact ho
    · exact absurd hp (hb p)
  · intro key value hk
    obtain ⟨x', hx', _⟩ | hm := hinit.property_perform hfirst hx hk
    · cases hx'
    · exact hm
  · rw [Installer.installedSessions, (hw.installer g i hi).rows]
    rfl
  · have hnone : (initial now retention).program.Unruled ∧
        (initial now retention).program.reporter.breadcrumbs = [] := ⟨fun _ _ hm => (nomatch hm), rfl⟩
    obtain ⟨hu, hb⟩ := hinit.plain_perform hs (wired_initial now retention) hfirst hr hl hnone
    have hp := hw.processors_eq_nil hu
    refine ⟨hb, hp, fun report hint => ?_⟩
    rw [submit_of_no_processors hp, Reporter.withCrumbs, hb, List.append_nil]

/-- A run that sets an integration up and launches a session while another integration is enabled. -/
def unlitRun : List Command :=
  [.operation (.enable "audit"), .operation (.newIntegration .standard), .operation (.setUp ⟨0⟩),
    .launch ⟨0⟩ [.operation (.start ⟨⟨0⟩⟩ (.standard none) .sound false)] (.ok ⟨⟨0⟩⟩),
    .operation (.post ⟨⟨0⟩⟩ (.jobStart ⟨7⟩ .epoch [])), .operation (.forgetGone ⟨0⟩)]

/-- A run that launches a session and then disables the integration. -/
def switchedOffRun : List Command :=
  [.operation (.enable "spark"), .operation (.newInstaller .standard),
    .launch ⟨0⟩ [.operation (.start ⟨⟨0⟩⟩ (.standard none) .sound false)] (.ok ⟨⟨0⟩⟩),
    .operation (.disable "spark")]

/-- The launch is the start of a session, as if nothing had been set up. An enricher that is left from
before fills no report of the session that is still active. -/
theorem unlit_launch_is_its_start :
    let w := Command.runAll unlitRun (initial .epoch .standard)
    let s := (Command.runAll switchedOffRun (initial .epoch .standard)).program
    Command.AllOffstage (· = "spark") unlitRun ∧ w.installers = [⟨0⟩] ∧
    w.untrailed = perform [.enable "audit", .start ⟨⟨0⟩⟩ (.standard none) .sound false,
      .post ⟨⟨0⟩⟩ (.jobStart ⟨7⟩ .epoch [])] (initial .epoch .standard) ∧
    (∀ report hint, (Program.submit report hint w.program).1 = some report) ∧
    s.active = some ⟨⟨0⟩⟩ ∧ s.isEnabled "spark" = false ∧
    s.reporter.processors = [(⟨0⟩, .enricher ⟨⟨⟨0⟩⟩, "spark", false⟩)] ∧
    ∀ report hint, (Program.submit report hint s).1 = some (s.reporter.withCrumbs report) := by
  intro w s
  have hoff : Command.AllOffstage (· = "spark") unlitRun := by
    simp [unlitRun, Command.AllOffstage, Command.Offstage, Operation.Offstage, Config.standard,
      Config.defaultIntegration]
  have hdisabled : s.isEnabled "spark" = false := by decide
  have hleft : s.reporter.processors = [(⟨0⟩, .enricher ⟨⟨⟨0⟩⟩, "spark", false⟩)] := by decide
  obtain ⟨hrun, _, _, hsubmit⟩ := disabled_trail_is_invisible .epoch .standard unlitRun hoff
  have hops : Command.allOperations unlitRun (initial .epoch .standard) =
      [.enable "audit", .newIntegration .standard, .setUp ⟨0⟩,
        .start ⟨⟨0⟩⟩ (.standard none) .sound false, .post ⟨⟨0⟩⟩ (.jobStart ⟨7⟩ .epoch []),
        .forgetGone ⟨0⟩] := by rfl
  obtain ⟨hplain, _, _, _, _, _, _, hkept⟩ := hrun _ [] (List.append_nil _).symm
  have hw : w = perform (Command.allOperations unlitRun (initial .epoch .standard))
      (initial .epoch .standard) := Command.runAll_eq_perform _ _
  refine ⟨hoff, by decide, ?_, fun report hint => ?_, by decide, hdisabled, hleft, fun report hint => ?_⟩
  · rw [hw]
    exact hplain
  · rw [hw, (hkept (by simp [hops]) (by simp [hops])).2.2]
  · rw [(hsubmit s "spark" hdisabled report hint).2 fun row hm => ?_]
    rw [hleft] at hm
    rw [List.mem_singleton.mp hm]
    rfl

end SessionTrail
