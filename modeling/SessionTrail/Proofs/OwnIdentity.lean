import SessionTrail.Proofs.Branding
import SessionTrail.Proofs.Crash
import SessionTrail.Session.Outages

/-!
# No session gets the identity of another

In every run in which only installers and trail listeners write properties, and in which no session's
application changes its identity: what stands in a session's properties is its own name and identity, under
keys with the prefixes of the installers and of trail listeners made by hand. Wherever reads and writes are
refused or crash, the name stands where the identity does, and what stands once stands from then on.
-/
namespace SessionTrail

open Program World

namespace World

/-- Whether something in a world writes with a prefix: an installer, or a trail listener made by hand. -/
def HasPrefix (w : World) (p : String) : Prop :=
  w.program.HasPrefix p ∨ ∃ l ∈ w.listeners, l.behaviour = .trail p

end World

/-- Whether an operation writes no property from outside, and lets an application keep its identity. -/
def Operation.Faithful : Operation → World → Prop
  | .write .., _ => False
  | .setBackend id backend, w => ∀ x ∈ w.program.session? id,
    (x.withBackend backend).fact .applicationId = x.fact .applicationId
  | _, _ => True

instance (o : Operation) (w : World) : Decidable (o.Faithful w) := by
  cases o with
  | write => exact inferInstanceAs (Decidable False)
  | setBackend id backend =>
    exact inferInstanceAs (Decidable (∀ x ∈ w.program.session? id,
      (x.withBackend backend).fact .applicationId = x.fact .applicationId))
  | _ => exact inferInstanceAs (Decidable True)

/-- Whether all operations of a run are faithful. -/
def World.Faithful : List Operation → World → Prop
  | [], _ => True
  | o :: rest, w => o.Faithful w ∧ Faithful rest (o.next w)

instance World.decidableFaithful : (ops : List Operation) → (w : World) → Decidable (Faithful ops w)
  | [], _ => inferInstanceAs (Decidable True)
  | o :: rest, w =>
    have := decidableFaithful rest (o.next w)
    inferInstanceAs (Decidable (o.Faithful w ∧ Faithful rest (o.next w)))

namespace World

variable {w : World} {left : InstallerId → SessionId → Nat} {P : String → Prop} {p : String}

/-- Nobody lets go of a listener. -/
theorem mem_listeners_next {l : Listener} (o : Operation) (h : l ∈ w.listeners) :
    l ∈ (o.next w).listeners := by
  by_cases hn : ∃ b, o = .newListener b
  · obtain ⟨b, rfl⟩ := hn
    exact List.mem_cons_of_mem _ h
  · rw [listeners_next w fun b hb => hn ⟨b, hb⟩]
    exact h

theorem configs_next (h : w.Sound left) {o : Operation} (hn : ∀ config, o ≠ .newInstaller config)
    (hs : ∀ i, o ≠ .setUp i) : (o.next w).program.configs = w.program.configs := by
  cases o with
  | newInstaller config => exact absurd rfl (hn config)
  | setUp i => exact absurd rfl (hs i)
  | ensureInstalled g id =>
    exact ensureInstalled_preserves (P := fun t => t.configs = w.program.configs) g id rfl
      (configs_ensureInstalled h.program g id)
  | forgetGone g =>
    exact forgetGone_preserves (P := fun t => t.configs = w.program.configs) g rfl (configs_forgetGone g _)
  | newIntegration config => rfl
  | _ => exact congrArg (Table.map Installer.config) (idle_next rfl).installers_eq

/-- Whatever writes with a prefix goes on to do so. -/
theorem HasPrefix.next (hp : w.HasPrefix p) (h : w.Sound left) (o : Operation) :
    (o.next w).HasPrefix p := by
  obtain hp | ⟨l, hl, hb⟩ := hp
  · refine .inl ?_
    by_cases hn : ∃ config, o = .newInstaller config
    · obtain ⟨config, rfl⟩ := hn
      exact hp.newInstaller h.program config
    · by_cases hs : ∃ i, o = .setUp i
      · obtain ⟨i, rfl⟩ := hs
        refine setUp_preserves (P := fun t => t.HasPrefix p) w i hp (hp.newInstaller h.program)
          (fun config id hm => ?_) fun _ _ ht => ht
        obtain ⟨g, c, hc, he⟩ := hm
        exact ⟨g, c, (congrArg (Table.get? · g)
          (configs_ensureInstalled (h.program.newInstaller config) _ id)).trans hc, he⟩
      · obtain ⟨g, c, hc, he⟩ := hp
        refine ⟨g, c, ?_, he⟩
        rw [configs_next h (fun config ho => hn ⟨config, ho⟩) fun i ho => hs ⟨i, ho⟩]
        exact hc
  · exact .inr ⟨l, mem_listeners_next o hl, hb⟩

theorem HasPrefix.perform (hp : w.HasPrefix p) (h : w.Sound left) (ops : List Operation) :
    (perform ops w).HasPrefix p := by
  induction ops generalizing w left with
  | nil => exact hp
  | cons o rest ih => exact ih (hp.next h o) (h.next o)

/-- Whatever an operation does, it writes nothing into a session but that session's own identity. -/
theorem brands_next (h : w.Sound left) {o : Operation} (ho : o.Faithful w) (hf : w.program.Fits P)
    (hP : ∀ p, (o.next w).HasPrefix p → P p) :
    Evolves (Session.Brands P) w.program (o.next w).program := by
  have ha := Session.admits_brands P
  have hprefix : ∀ {p}, w.HasPrefix p → P p := fun hp => hP _ (hp.next h o)
  by_cases hidle : o.isIdle = true
  · by_cases hback : ∃ id b, o = .setBackend id b
    · obtain ⟨id, b, rfl⟩ := hback
      refine .modifySession ha fun x hx => .of_properties_eq rfl (funext fun f => ?_) fun hx => hx
      cases f with
      | applicationId => exact ho x hx
      | _ => rfl
    · refine evolves_idle ha hidle (fun id key value he => ?_) (fun id b he => hback ⟨id, b, he⟩) hf
        fun l hl p hp => hprefix (.inr ⟨l, hl, hp⟩)
      rw [he] at ho
      exact ho
  · cases o with
    | ensureInstalled g id =>
      exact ensureInstalled_preserves g id (.refl ha _) (.ensureInstalled ha hf g
        (fun i hi => hprefix (.inl (hasPrefix_of_installer hi))) id)
    | forgetGone g =>
      exact forgetGone_preserves g (.refl ha _) (.of_sessions_eq ha (forgetGone_fields g _).1)
    | setUp i =>
      -- The new installer's prefix counts as soon as the installer is there, so the program that it
      -- installs in has the prefixes of the one behind the set-up.
      refine setUp_preserves
        (P := fun t => (∀ p, t.HasPrefix p → P p) → Evolves (Session.Brands P) w.program t) w i
        (fun _ => .refl ha _) (fun _ _ => .of_sessions_eq ha rfl) (fun config id hm ht => ?_)
        (fun _ _ ht hs => (ht fun p hp => hs p hp).trans ha (.of_sessions_eq ha rfl))
        fun p hp => hP p (.inl hp)
      have hs : ∀ p, (w.program.newInstaller config).2.HasPrefix p → P p := by
        rintro p ⟨g, c, hc, he⟩
        exact ht p ⟨g, c, (congrArg (Table.get? · g)
          (configs_ensureInstalled (h.program.newInstaller config) _ id)).trans hc, he⟩
      exact (hm hs).trans ha (.ensureInstalled ha ((hm hs).fits ha hf) _
        (fun i hi => hs _ (hasPrefix_of_installer hi)) id)
    | newInstaller | newIntegration => exact .of_sessions_eq ha rfl
    | _ => exact absurd rfl hidle

/-! ## Runs -/

/-- A whole run leaves every session branded, and every property that stands. -/
theorem brands_perform {ops : List Operation} {w : World} {left : InstallerId → SessionId → Nat}
    (h : w.Sound left) (ho : Faithful ops w) (hf : w.program.Fits P)
    (hP : ∀ p, (perform ops w).HasPrefix p → P p) :
    Evolves (Session.Brands P) w.program (perform ops w).program := by
  have ha := Session.admits_brands P
  induction ops generalizing w left with
  | nil => exact .refl ha _
  | cons o rest ih =>
    have hnext := brands_next h ho.1 hf fun p hp => hP p (hp.perform (h.next o) rest)
    exact hnext.trans ha (ih (h.next o) ho.2 (hnext.fits ha hf) hP)

theorem faithful_append (first rest : List Operation) (w : World) :
    Faithful (first ++ rest) w ↔ Faithful first w ∧ Faithful rest (perform first w) := by
  induction first generalizing w with
  | nil => exact ⟨fun h => ⟨trivial, h⟩, And.right⟩
  | cons o first ih =>
    rw [List.cons_append, Faithful, Faithful, ih, and_assoc]
    rfl

end World

/-- In every run in which nobody writes properties from outside and applications keep their identities, keys
of different prefixes or names are different, and at every point of the run, for every session: what
stands in its properties is its own name or identity under the key of a prefix that is written with; where
the identity stands the name does; and what stands is still there in the end. -/
theorem properties_are_the_sessions_own (now : Timestamp) (retention : Retention) (cs : List Command)
    (faithful : Faithful (Command.allOperations cs (initial now retention)) (initial now retention)) :
    (∀ p q, ∀ name ∈ [appNameProperty, applicationIdProperty],
      ∀ name' ∈ [appNameProperty, applicationIdProperty],
        propertyKey p name = propertyKey q name' → p = q ∧ name = name') ∧
    ∀ first rest, Command.allOperations cs (initial now retention) = first ++ rest →
      let w := perform first (initial now retention)
      ∀ id x, w.program.session? id = some x →
        (∀ key value, x.properties.get? key = some value → ∃ p, w.HasPrefix p ∧
          (key = propertyKey p appNameProperty ∧ value = x.fact .appName ∨
            key = propertyKey p applicationIdProperty ∧ value = x.fact .applicationId)) ∧
        (∀ p, (x.properties.get? (propertyKey p applicationIdProperty)).isSome = true →
          (x.properties.get? (propertyKey p appNameProperty)).isSome = true) ∧
        ∃ y, (Command.runAll cs (initial now retention)).program.session? id = some y ∧
          ∀ key value, x.properties.get? key = some value → y.properties.get? key = some value := by
  refine ⟨fun p q name hn name' hn' h => propertyKey_inj hn hn' h, ?_⟩
  intro first rest hops w id x hx
  have hinit := sound_initial now retention
  rw [hops, faithful_append] at faithful
  have hbrands : ∀ P, Session.Admits P (Session.Brands P) := Session.admits_brands
  have hnobody : (initial now retention).program.Fits w.HasPrefix := fun _ _ hx => by cases hx
  have hfirst := brands_perform hinit faithful.1 hnobody fun _ hp => hp
  have hmore : ∀ p, w.HasPrefix p → (perform rest w).HasPrefix p := fun p hp =>
    hp.perform (hinit.perform first) rest
  have hb : w.program.Branded w.HasPrefix := Branded.evolves (fun _ _ hx => by cases hx) hfirst
  have hf : w.program.Fits w.HasPrefix := hfirst.fits (hbrands _) hnobody
  obtain ⟨y, hy, hxy⟩ :=
    (brands_perform (hinit.perform first) faithful.2 (hf.mono hmore) fun _ hp => hp).kept id x hx
  refine ⟨(hb id x hx).own, (hb id x hx).named, y, ?_, hxy.kept ((hb id x hx).mono hmore)⟩
  rw [Command.runAll_eq_perform, hops, perform_append]
  exact hy

/-- A run in which two installers put the trail on two sessions. The one that is active refuses its second
write when the listener of the other session refreshes its identity, and crashes when that does so again. -/
def brandedRun : List Command :=
  [.operation (.newInstaller ⟨"spark", "a."⟩), .operation (.newInstaller ⟨"spark", "b."⟩),
    .operation (.start ⟨⟨0⟩⟩ { Settings.standard none with appName := "ours" } .sound false),
    .operation (.ensureInstalled ⟨0⟩ ⟨⟨0⟩⟩),
    .operation (.start ⟨⟨1⟩⟩ { Settings.standard none with appName := "theirs" }
      { skipWrites := 1, failingWrites := 1 : Outages }.backend false),
    .operation (.post ⟨⟨0⟩⟩ (.jobStart ⟨7⟩ .epoch [])), .operation (.turn ⟨⟨0⟩⟩ 0),
    .operation (.ensureInstalled ⟨1⟩ ⟨⟨1⟩⟩), .operation (.setBackend ⟨⟨1⟩⟩ .nameless),
    .operation (.post ⟨⟨0⟩⟩ (.jobStart ⟨8⟩ .epoch [])), .operation (.turn ⟨⟨0⟩⟩ 0)]

/-- What has been written of the refused refresh is the active session's own name, and it stays there behind
the installation and the crash. -/
theorem half_written_identity_stays :
    let ops := Command.allOperations brandedRun (initial .epoch .standard)
    Faithful ops (initial .epoch .standard) ∧
    ((perform (ops.take 7) (initial .epoch .standard)).program.session? ⟨⟨1⟩⟩).map
      (·.properties.entries) = some [("a.app_name", "theirs")] ∧
    ∃ y, (Command.runAll brandedRun (initial .epoch .standard)).program.session? ⟨⟨1⟩⟩ = some y ∧
      y.properties.get? "a.app_name" = some "theirs" ∧
      y.properties.entries = [("a.app_name", "theirs"), ("b.app_name", "theirs"),
        ("b.application_id", "local-0")] := by
  intro ops
  have hfaithful : Faithful ops (initial .epoch .standard) := by decide
  have hhalf : ((perform (ops.take 7) (initial .epoch .standard)).program.session? ⟨⟨1⟩⟩).map
      (·.properties.entries) = some [("a.app_name", "theirs")] := by decide
  have hend : ((Command.runAll brandedRun (initial .epoch .standard)).program.session? ⟨⟨1⟩⟩).map
      (·.properties.entries) = some [("a.app_name", "theirs"), ("b.app_name", "theirs"),
        ("b.application_id", "local-0")] := by decide
  refine ⟨hfaithful, hhalf, ?_⟩
  obtain ⟨x, hx, hentries⟩ := Option.map_eq_some_iff.mp hhalf
  obtain ⟨_, hall⟩ := properties_are_the_sessions_own .epoch .standard brandedRun hfaithful
  obtain ⟨_, _, y, hy, hkept⟩ := hall (ops.take 7) (ops.drop 7) (List.take_append_drop 7 ops).symm ⟨⟨1⟩⟩ x hx
  refine ⟨y, hy, hkept "a.app_name" "theirs" ?_, ?_⟩
  · rw [SortedMap.get?, hentries]
    rfl
  · rw [hy, Option.map_some] at hend
    exact Option.some.inj hend

end SessionTrail
