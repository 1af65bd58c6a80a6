import Mathlib.Algebra.Ring.Nat
import Mathlib.Data.List.Nodup
import Mathlib.Data.List.Perm.Subperm
import SessionTrail.Proofs.Crash
import SessionTrail.Proofs.Enrichers

/-!
# One enricher for each installation

Where nobody but the installers registers and removes processors, the reporter has one enricher for
each session that an installer has installed the trail on, under the number that the installer has
written down, and no other processor. Activations that end in any other way leave none behind.
-/
namespace SessionTrail

open Program World

/-- Whether an operation leaves it to installers to register and remove processors. -/
def Operation.sparesProcessors : Operation → Bool
  | .register _ | .unregister _ => false
  | _ => true

namespace Program

/-- The integration for which an installer makes its enrichers. -/
def integrationOf? (s : Program) (g : InstallerId) : Option String :=
  (s.installer? g).map (·.config.integration)

/-- Where an installer has the trail on a session, the reporter holds the enricher that it has made for
that. -/
def Registers (s : Program) (g : InstallerId) (id : SessionId) : Prop :=
  ∀ p, s.standing? g id = some (.installed p) → ∃ name, s.integrationOf? g = some name ∧
    (p, Processor.enricher ⟨id, name, false⟩) ∈ s.reporter.processors

/-- Only enrichers are registered, and every installation has its own. -/
structure Registered (s : Program) : Prop where
  unruled : s.Unruled
  enricher : ∀ g id, s.Registers g id

theorem integrationOf?_of_modify {s t : Program} {g : InstallerId} {f : Installer → Installer}
    (h : ∀ g', t.installer? g' = if g' = g then (s.installer? g').map f else s.installer? g')
    (hf : ∀ i, (f i).config = i.config) (g' : InstallerId) :
    t.integrationOf? g' = s.integrationOf? g' := by
  simp only [integrationOf?, h]
  split
  · rw [Option.map_map]
    congr 1
    funext i
    simp only [Function.comp_apply, hf]
  · rfl

theorem integrationOf?_setStanding (s : Program) (g : InstallerId) (id : SessionId)
    (st : Option Standing) (g' : InstallerId) :
    (setStanding g id st s).integrationOf? g' = s.integrationOf? g' :=
  integrationOf?_of_modify (fun g' => installer?_setStanding s g g' id st) (fun _ => rfl) g'

theorem integrationOf?_forgetGone (g : InstallerId) (s : Program) (g' : InstallerId) :
    (forgetGone g s).2.integrationOf? g' = s.integrationOf? g' := by
  cases hi : s.installer? g with
  | none => rw [forgetGone_of_none hi]
  | some i =>
    refine integrationOf?_of_modify (g := g) (f := s.keepRows) (fun g' => ?_) (fun _ => rfl) g'
    rw [forgetGone_eq hi]
    exact Table.get?_modify s.installers g g' _

/-! ## Steps that have nothing to do with processors -/

/-- From `s` to `t` the processors do not change. -/
def Steady (s t : Program) : Prop := t.reporter.processors = s.reporter.processors

namespace Steady

variable {s t u : Program}

theorem refl (s : Program) : Steady s s := rfl

theorem trans (h : Steady s t) (h' : Steady t u) : Steady s u := Eq.trans h' h

theorem of_outline_eq (h : t.outline = s.outline) : Steady s t :=
  (congrArg (fun u : Program => u.reporter.processors) h :)

theorem of_core_eq (h : t.core = s.core) : Steady s t := of_outline_eq (outline_eq_of_core_eq h)

theorem start (s : Program) (id : SessionId) (settings : Settings) (backend : Backend) (home : Home) :
    Steady s (s.start id settings backend home) := by
  obtain he | ⟨_, _, _, _, _, _, he⟩ := start_cases s id settings backend home <;> rw [he] <;> rfl

theorem stop (id : SessionId) (s : Program) : Steady s (Program.stop id s).2 := by
  have hr : (Program.stop id s).2.reporter = (settle id s).2.reporter := (markStopped_fields id _).1
  rw [Steady, hr]
  exact of_outline_eq (settle_outline id s)

theorem of_modifySession {id : SessionId} {f : Session → Session}
    (h : t.outline = (s.modifySession id f).outline) : Steady s t :=
  trans (t := s.modifySession id f) rfl (of_outline_eq h)

theorem attach (id : SessionId) (l : Listener) (s : Program) :
    Steady s ((Program.attach id l).run s).2 := by
  obtain ho | ⟨_, _, _, ho⟩ := attach_outline id l s
  · exact of_outline_eq ho
  · exact of_modifySession ho

theorem detach (id : SessionId) (l : Listener) (s : Program) :
    Steady s ((Program.detach id l).run s).2 := by
  obtain ho | ⟨_, _, _, _, _, ho⟩ := detach_outline id l s
  · exact of_outline_eq ho
  · exact of_modifySession ho

theorem clearActive (s : Program) (id : SessionId) : Steady s (s.clearActive id).2 := by
  unfold Program.clearActive
  split <;> rfl

theorem enable (s : Program) (integration : String) :
    Steady s { s with reporter := s.reporter.enable integration } := by
  simp only [Steady, Reporter.enable]
  split <;> rfl

theorem submit (hs : s.Unruled) (report : Report) (hint : Hint) :
    Steady s (Program.submit report hint s).2 := by
  have hps : ∀ r, Processor.rule r ∉ s.reporter.processors.map (·.2) := fun r hr => by
    obtain ⟨⟨p, _⟩, hm, rfl⟩ := List.mem_map.mp hr
    exact hs p r hm
  have h : Steady s _ := .of_core_eq (process_core hint _ hps (s.reporter.withCrumbs report) s)
  unfold Program.submit
  split <;> rename_i hr <;> rw [hr] at h <;> exact h

end Steady

/-! ## Steps of installers -/

/-- An installation registers its enricher if it is completed, and else leaves the reporter alone. -/
theorem Installs.reporter_cases {id : SessionId} {l : Listener} {e : Enricher} {s u : Program}
    {r : Outcome InstallFailure ProcessorId} (h : Installs id l e s r u) :
    (r = .done ⟨s.reporter.registrations⟩ ∧ u.reporter = (s.reporter.register (.enricher e)).2) ∨
      (∀ p, r ≠ .done p) ∧ u.reporter = s.reporter := by
  cases h with
  | refused _ _ hc | takenBack _ _ _ _ _ hc | stuck _ _ _ _ _ hc | lostAtFirst _ _ _ _ hc
  | lostLater _ _ _ _ _ _ hc => exact .inr ⟨nofun, (congrArg Program.reporter hc :)⟩
  | completed _ _ _ _ hc => exact .inl ⟨rfl, (congrArg Program.reporter hc :)⟩

theorem standingAfter_ne_installed {r : Outcome InstallFailure ProcessorId} (h : ∀ p, r ≠ .done p)
    (p : ProcessorId) : standingAfter r ≠ some (.installed p) := by
  rcases r with q | ⟨_, _ | _⟩ | _
  · exact absurd rfl (h q)
  all_goals nofun

section

variable {s t u : Program} {left : InstallerId → SessionId → Nat} {g : InstallerId} {id : SessionId}

/-! ### No rules -/

theorem Unruled.of_steady (h : s.Unruled) (ht : Steady s t) : t.Unruled := by
  intro p r hm
  rw [show t.reporter.processors = _ from ht] at hm
  exact h p r hm

theorem Unruled.forgetGone (h : s.Unruled) (g : InstallerId) : (Program.forgetGone g s).2.Unruled := by
  cases hi : s.installer? g with
  | none =>
    rw [forgetGone_of_none hi]
    exact h
  | some i =>
    intro p r hm
    rw [forgetGone_eq hi] at hm
    exact h p r (List.mem_filter.mp hm).1

theorem Unruled.ensureInstalled (h : s.Unruled) (hs : Sound left s) (g : InstallerId)
    (id : SessionId) : ((Program.ensureInstalled g id).run s).2.Unruled := by
  have hf := h.forgetGone g
  obtain ⟨r, _, hrun, _⟩ | ⟨i, r, u, hi, _, hin, _, hrun⟩ :=
    ensureInstalled_cases g id s (hs.listener_lt id)
  · rw [hrun]
    exact hf
  · rw [hrun]
    intro p q hm
    change (p, Processor.rule q) ∈ u.reporter.processors at hm
    obtain ⟨_, hrep⟩ | ⟨_, hrep⟩ := hin.reporter_cases <;> rw [hrep] at hm
    · rcases List.mem_append.mp hm with hm | hm
      · exact hf p q hm
      · simp at hm
    · exact hf p q hm

/-! ### An enricher for every installation -/

namespace Registers

theorem of_standing? (h : s.Registers g id) (hname : t.integrationOf? g = s.integrationOf? g)
    (hst : ∀ p, t.standing? g id = some (.installed p) → s.standing? g id = some (.installed p))
    (hkept : ∀ p q, t.standing? g id = some (.installed p) → (p, q) ∈ s.reporter.processors →
      (p, q) ∈ t.reporter.processors) : t.Registers g id := by
  intro p hp
  obtain ⟨name, hn, hm⟩ := h p (hst p hp)
  exact ⟨name, hname.trans hn, hkept p _ hp hm⟩

/-- Where the installers do not change, it is enough that the enricher stays. -/
theorem of_installers_eq (h : s.Registers g id) (hi : t.installers = s.installers)
    (hkept : ∀ p q, s.standing? g id = some (.installed p) → (p, q) ∈ s.reporter.processors →
      (p, q) ∈ t.reporter.processors) : t.Registers g id := by
  have hst := standing?_of_installers_eq hi g id
  refine h.of_standing? ?_ (fun p hp => ?_) fun p q hp => ?_
  · simp only [integrationOf?, installer?, hi]
  · rw [← hst]
    exact hp
  · rw [hst] at hp
    exact hkept p q hp

theorem newInstaller (h : s.Registers g id) (hs : Sound left s) (config : Config) :
    (s.newInstaller config).2.Registers g id := by
  intro p hp
  rw [hs.standing?_newInstaller] at hp
  obtain ⟨name, hn, hm⟩ := h p hp
  refine ⟨name, ?_, hm⟩
  -- The new installer stands with no session yet, so this is another one.
  have hne : g ≠ (s.newInstaller config).1 := fun he => by
    rw [he, standing?, hs.installer?_fresh] at hp
    cases hp
  rw [integrationOf?, installer?_newInstaller, if_neg hne]
  exact hn

/-- What is forgotten takes its own enricher along, and no other. -/
theorem forgetGone (h : s.Registers g id) (he : s.Enriched) (hs : Sound left s) (g' : InstallerId) :
    (Program.forgetGone g' s).2.Registers g id := by
  cases hi : s.installer? g' with
  | none =>
    rw [forgetGone_of_none hi]
    exact h
  | some i =>
    have hst := forgetGone_standing? fun j hj => hs.standings_distinct g' j hj
    have hold : ∀ p, (Program.forgetGone g' s).2.standing? g id = some (.installed p) →
        s.standing? g id = some (.installed p) ∧
          (g = g' → s.isGone id (.installed p) = false) := fun p hp => by
      rw [hst] at hp
      split at hp
      · rename_i hg
        obtain ⟨hp, hgone⟩ := Option.filter_eq_some_iff.mp hp
        exact ⟨hg ▸ hp, fun _ => by simpa using hgone⟩
      · rename_i hg
        exact ⟨hp, fun he => absurd he hg⟩
    refine h.of_standing? (integrationOf?_forgetGone g' s g) (fun p hp => (hold p hp).1)
      fun p q hp hm => ?_
    obtain ⟨hp, hkept⟩ := hold p hp
    rw [forgetGone_eq hi]
    refine List.mem_filter.mpr ⟨hm, decide_eq_true fun hnumber => ?_⟩
    -- A number that is removed has been written down for a session that is gone.
    obtain ⟨⟨id', st⟩, hrow, hst⟩ := List.mem_filterMap.mp hnumber
    obtain ⟨hrow, hgone⟩ := List.mem_filter.mp hrow
    cases st with
    | installed p' =>
      cases hst
      have hp' : s.standing? g' id' = some (.installed p) := by
        rw [standing?, hi, Option.bind_some]
        exact Table.get?_of_mem (hs.standings_distinct g' i hi) hrow
      obtain ⟨hg, hid⟩ := he.single g id g' id' p hp hp'
      rw [← hid, hkept hg] at hgone
      cases hgone
    | installing | stranded => cases hst

/-- However an installation ends, its enricher is registered if the trail is installed. -/
theorem installed {g' : InstallerId} {id' : SessionId} {l : Listener} {i : Installer}
    {r : Outcome InstallFailure ProcessorId} (h : t.Registers g id)
    (hin : Installs id' l (nextEnricher i id') (reserved t g' id') r u)
    (hi : t.installer? g' = some i) :
    (setStanding g' id' (standingAfter r) u).Registers g id := by
  have hst := standing?_after hin (by rw [hi]; rfl) g id
  have hname : (setStanding g' id' (standingAfter r) u).integrationOf? g = t.integrationOf? g := by
    rw [integrationOf?_setStanding, integrationOf?, installer?_of_installs hin]
    exact integrationOf?_setStanding t g' id' _ g
  obtain ⟨hr, hrep⟩ | ⟨hr, hrep⟩ := hin.reporter_cases
  · have hrep' : (setStanding g' id' (standingAfter r) u).reporter =
        (t.reporter.register (.enricher (nextEnricher i id'))).2 := hrep
    intro p hp
    rw [hname, hrep']
    rw [hst] at hp
    split at hp
    · rename_i hc
      have hnew : p = ⟨t.reporter.registrations⟩ := by
        rw [hr] at hp
        exact (Standing.installed.inj (Option.some.inj hp)).symm
      refine ⟨i.config.integration, ?_, List.mem_append_right _ ?_⟩
      · rw [hc.1, integrationOf?, hi, Option.map_some]
      · rw [hnew, hc.2]
        exact List.mem_singleton_self _
    · obtain ⟨name, hn, hm⟩ := h p hp
      exact ⟨name, hn, List.mem_append_left _ hm⟩
  · have hrep' : (setStanding g' id' (standingAfter r) u).reporter = t.reporter := hrep
    refine h.of_standing? hname (fun p hp => ?_) fun p q _ hm => ?_
    · rw [hst] at hp
      split at hp
      · exact absurd hp (standingAfter_ne_installed hr p)
      · exact hp
    · rw [hrep']
      exact hm

theorem ensureInstalled (h : s.Registers g id) (he : s.Enriched) (hs : Sound left s)
    (g' : InstallerId) (id' : SessionId) :
    ((Program.ensureInstalled g' id').run s).2.Registers g id := by
  have hf := h.forgetGone he hs g'
  obtain ⟨r, _, hrun, _⟩ | ⟨i, r, u, hi, _, hin, _, hrun⟩ :=
    ensureInstalled_cases g' id' s (hs.listener_lt id')
  · rw [hrun]
    exact hf
  · rw [hrun]
    exact hf.installed hin hi

end Registers

end

end Program

/-! ## Runs -/

namespace World

variable {w : World} {left : InstallerId → SessionId → Nat}

theorem steady_through {id : SessionId} {f : Program → Program} (h : Steady w.program (f w.program)) :
    Steady w.program (w.through id f).program := through_preserves (.refl _) h

theorem steady_next {o : Operation} (hu : ∀ report hint, o = .submit report hint → w.program.Unruled)
    (ho : o.isIdle = true) (hp : o.sparesProcessors = true) :
    Steady w.program (o.next w).program := by
  cases o with
  | start id settings backend detached => exact .start _ id settings backend _
  | stop id => exact steady_through (.stop id _)
  | read id a => exact steady_through (.of_core_eq (onSession_keeps_core id (Session.read_keeps_core a) _))
  | write id key value =>
    exact steady_through (.of_core_eq (onSession_keeps_core id (Session.write_keeps_core key value) _))
  | post id e =>
    exact steady_through (.of_outline_eq (onSession_keeps_outline id (Session.post_keeps_outline e) _))
  | turn id number =>
    simp only [Operation.next]
    split
    · exact .of_outline_eq (turn_outline id _ _)
    · exact .refl _
  | attach id l =>
    simp only [Operation.next]
    split
    · exact steady_through (.attach id l _)
    · exact .refl _
  | detach id l =>
    simp only [Operation.next]
    split
    · exact steady_through (.detach id l _)
    · exact .refl _
  | makeActive id => exact steady_through rfl
  | clearActive id => exact .clearActive _ id
  | enable integration => exact .enable _ integration
  | submit report hint => exact .submit (hu report hint rfl) report hint
  | register | unregister => cases hp
  | newInstaller | ensureInstalled | forgetGone | newIntegration | setUp => cases ho
  | tick | release | setBackend | newListener | disable | leave | clearCrumbs => rfl

theorem unruled_next (hs : w.Sound left) (hu : w.program.Unruled) {o : Operation}
    (ho : o.sparesProcessors = true) : (o.next w).program.Unruled := by
  cases o with
  | ensureInstalled g id =>
    exact ensureInstalled_preserves g id hu (hu.ensureInstalled hs.program g id)
  | setUp i =>
    exact setUp_preserves w i hu (fun _ => hu.of_steady rfl)
      (fun config id hv => hv.ensureInstalled (hs.program.newInstaller config) _ id)
      fun _ _ hv => hv.of_steady rfl
  | forgetGone g =>
    exact forgetGone_preserves g hu (hu.forgetGone g)
  | newInstaller config => exact hu.of_steady rfl
  | newIntegration config => exact hu.of_steady rfl
  | _ => exact hu.of_steady (steady_next (fun _ _ _ => hu) rfl ho)

/-- An operation keeps the enricher of an installation registered, unless somebody else than an installer
removes it. -/
theorem registers_next (hs : w.Sound left) (he : w.program.Enriched) {g : InstallerId} {id : SessionId}
    (h : w.program.Registers g id) {o : Operation}
    (ho : o.isIdle = true → ∀ p q, w.program.standing? g id = some (.installed p) →
      (p, q) ∈ w.program.reporter.processors → (p, q) ∈ (o.next w).program.reporter.processors) :
    (o.next w).program.Registers g id := by
  cases o with
  | ensureInstalled g' id' =>
    exact ensureInstalled_preserves (P := fun s => s.Registers g id) g' id' h
      (h.ensureInstalled he hs.program g' id')
  | setUp i =>
    exact setUp_preserves (P := fun s => s.Registers g id) w i h (h.newInstaller hs.program)
      (fun config id' hr => hr.ensureInstalled (he.newInstaller hs.program config)
        (hs.program.newInstaller config) _ id')
      fun _ _ hr => hr.of_installers_eq rfl fun _ _ _ hm => hm
  | forgetGone g' =>
    exact forgetGone_preserves (P := fun s => s.Registers g id) g' h (h.forgetGone he hs.program g')
  | newInstaller config => exact h.newInstaller hs.program config
  | newIntegration config => exact h.of_installers_eq rfl fun _ _ _ hm => hm
  | _ => exact h.of_installers_eq (idle_next rfl).installers_eq (ho rfl)

/-- Every operation that leaves the processors to the installers keeps the enrichers in step. -/
theorem registered_next (hs : w.Sound left) (he : w.program.Enriched) (h : w.program.Registered)
    {o : Operation} (ho : o.sparesProcessors = true) : (o.next w).program.Registered := by
  refine ⟨unruled_next hs h.unruled ho, fun g id => ?_⟩
  refine registers_next hs he (h.enricher g id) fun hidle p q _ hm => ?_
  rw [show _ = w.program.reporter.processors from steady_next (fun _ _ _ => h.unruled) hidle ho]
  exact hm

theorem registered_perform (hs : w.Sound left) (he : w.program.Enriched) (h : w.program.Registered)
    {ops : List Operation} (ho : ∀ o ∈ ops, o.sparesProcessors = true) :
    (perform ops w).program.Registered := by
  induction ops generalizing w left with
  | nil => exact h
  | cons o rest ih =>
    exact ih (hs.next o) (enriched_next hs he o) (registered_next hs he h (ho o List.mem_cons_self))
      fun p hp => ho p (List.mem_cons_of_mem _ hp)

theorem registered_initial (now : Timestamp) (retention : Retention) :
    (initial now retention).program.Registered :=
  ⟨fun _ _ hm => (nomatch hm), fun _ _ _ hp => (nomatch hp)⟩

end World

/-! ## Counting -/

namespace Program

variable {s : Program} {left : InstallerId → SessionId → Nat}

/-- The numbers that installers have written down for their installations. -/
def installedNumbers (s : Program) : List ProcessorId :=
  s.installers.rows.flatMap fun row => row.2.standings.rows.filterMap (·.2.processor?)

/-- Installers are numbered without gaps, so no number is given twice. -/
theorem installers_distinct (h : Sound left s) : s.installers.Distinct := by
  have hsub : (List.range s.installers.rows.length).map InstallerId.mk ⊆ s.installers.keys := by
    intro g hg
    obtain ⟨n, hn, rfl⟩ := List.mem_map.mp hg
    have hsome := (h.installers_dense ⟨n⟩).mpr (List.mem_range.mp hn)
    obtain ⟨i, hi⟩ := Option.isSome_iff_exists.mp hsome
    exact List.mem_map.mpr ⟨_, Table.mem_of_get? hi, rfl⟩
  have hnodup : ((List.range s.installers.rows.length).map InstallerId.mk).Nodup :=
    List.nodup_range.map fun _ _ he => congrArg InstallerId.val he
  have hperm := (hnodup.subperm hsub).perm_of_length_le (by
    simp only [Table.keys, List.length_map, List.length_range, Nat.le_refl])
  exact hperm.nodup_iff.mp hnodup

theorem standing?_of_row (h : Sound left s) {g : InstallerId} {i : Installer} {id : SessionId}
    {st : Standing} (hi : (g, i) ∈ s.installers.rows) (hrow : (id, st) ∈ i.standings.rows) :
    s.standing? g id = some st := by
  have hg : s.installer? g = some i := Table.get?_of_mem (installers_distinct h) hi
  rw [standing?, hg, Option.bind_some]
  exact Table.get?_of_mem (h.standings_distinct g i hg) hrow

theorem mem_rowNumbers {rows : List (SessionId × Standing)} {p : ProcessorId} :
    p ∈ rows.filterMap (·.2.processor?) ↔ ∃ id, (id, .installed p) ∈ rows := by
  rw [List.mem_filterMap]
  constructor
  · rintro ⟨⟨id, st⟩, hm, hp⟩
    cases st with
    | installed q =>
      cases hp
      exact ⟨id, hm⟩
    | installing | stranded => cases hp
  · rintro ⟨id, hm⟩
    exact ⟨_, hm, rfl⟩

theorem mem_installedNumbers (h : Sound left s) {p : ProcessorId} :
    p ∈ s.installedNumbers ↔ ∃ g id, s.standing? g id = some (.installed p) := by
  rw [installedNumbers, List.mem_flatMap]
  constructor
  · rintro ⟨⟨g, i⟩, hi, hp⟩
    obtain ⟨id, hrow⟩ := mem_rowNumbers.mp hp
    exact ⟨g, id, standing?_of_row h hi hrow⟩
  · rintro ⟨g, id, hst⟩
    obtain ⟨i, hi, hrow⟩ := Option.bind_eq_some_iff.mp hst
    exact ⟨(g, i), Table.mem_of_get? hi, mem_rowNumbers.mpr ⟨id, Table.mem_of_get? hrow⟩⟩

theorem installedNumbers_nodup (h : Sound left s) (he : s.Enriched) : s.installedNumbers.Nodup := by
  rw [installedNumbers, List.nodup_flatMap]
  constructor
  · rintro ⟨g, i⟩ hi
    have hd := h.standings_distinct g i (Table.get?_of_mem (installers_distinct h) hi)
    have hrows : i.standings.rows.Pairwise fun a b => a.1 ≠ b.1 := List.pairwise_map.mp hd
    refine List.pairwise_filterMap.mpr (hrows.imp_of_mem fun {a b} ha hb hne p hp q hq hpq => hne ?_)
    -- One number stands for one session.
    obtain ⟨id, st⟩ := a
    obtain ⟨id', st'⟩ := b
    cases st <;> cases hp
    cases st' <;> cases hq
    exact (he.single g id g id' p (standing?_of_row h hi ha)
      (hpq ▸ standing?_of_row h hi hb)).2
  · have hrows : s.installers.rows.Pairwise fun a b => a.1 ≠ b.1 :=
      List.pairwise_map.mp (installers_distinct h)
    refine hrows.imp_of_mem fun {a b} ha hb hne => ?_
    intro p hp hq
    obtain ⟨id, hrow⟩ := mem_rowNumbers.mp hp
    obtain ⟨id', hrow'⟩ := mem_rowNumbers.mp hq
    exact hne (he.single a.1 id b.1 id' p (standing?_of_row h ha hrow) (standing?_of_row h hb hrow')).1

theorem length_installedNumbers (s : Program) : s.installedNumbers.length =
    (s.installers.rows.map fun row => row.2.installedSessions.length).sum := by
  rw [installedNumbers, List.length_flatMap]
  congr 1
  refine List.map_congr_left fun row _ => ?_
  have hrow : ∀ st : Standing, st.processor?.isSome = st.isInstalled := fun st => by cases st <;> rfl
  rw [Installer.installedSessions, List.length_map, List.length_filterMap_eq_countP,
    List.countP_eq_length_filter]
  simp only [hrow]

/-- The numbers under which processors are registered are those that installers have written down. -/
theorem numbers_perm (h : Sound left s) (he : s.Enriched) (hr : s.Registered) :
    (s.reporter.processors.map (·.1)).Perm s.installedNumbers := by
  rw [List.perm_ext_iff_of_nodup he.numbered.distinct (installedNumbers_nodup h he)]
  intro p
  rw [mem_installedNumbers h, List.mem_map]
  constructor
  · rintro ⟨⟨q, e | r⟩, hm, rfl⟩
    · obtain ⟨g, hg⟩ := he.owned q e hm
      exact ⟨g, e.session, hg⟩
    · exact absurd hm (hr.unruled q r)
  · rintro ⟨g, id, hp⟩
    obtain ⟨_, _, hm⟩ := hr.enricher g id p hp
    exact ⟨_, hm, rfl⟩

theorem processor_inj (he : s.Enriched) {p : ProcessorId} {q q' : Processor}
    (hm : (p, q) ∈ s.reporter.processors) (hm' : (p, q') ∈ s.reporter.processors) : q = q' :=
  congrArg Prod.snd (List.inj_on_of_nodup_map he.numbered.distinct hm hm' rfl)

end Program

/-- An activation that does not install leaves on the reporter what its forgetting has left there. -/
theorem Activation.reporter_eq {left : InstallerId → SessionId → Nat} {a : Activation}
    (h : a.before.Sound left) (hr : a.run.1 ≠ .done .installed) :
    a.run.2.reporter = (forgetGone a.installer a.before).2.reporter := by
  obtain ⟨r, _, hrun, _⟩ | ⟨i, r, u, _, _, hin, _, hrun⟩ :=
    ensureInstalled_cases a.installer a.session a.before (h.listener_lt a.session)
  · rw [Activation.run, hrun]
  · rw [Activation.run, hrun] at hr ⊢
    obtain ⟨rfl, _⟩ | ⟨_, hrep⟩ := hin.reporter_cases
    · exact absurd rfl hr
    · exact hrep

/-- In every run in which nobody but installers registers or removes processors, installations and
processors go together one to one: every installation has its enricher on the reporter, no two share
one, every processor is the enricher of an installation, and there are as many of them as there are
installations. An activation that ends without installing registers nothing. -/
theorem enrichers_match_installations (now : Timestamp) (retention : Retention) (cs : List Command)
    (alone : ∀ o ∈ Command.allOperations cs (initial now retention), o.sparesProcessors = true) :
    let s := (Command.runAll cs (initial now retention)).program
    (∀ g id p, s.standing? g id = some (.installed p) → ∃ i, s.installer? g = some i ∧
      (p, Processor.enricher ⟨id, i.config.integration, false⟩) ∈ s.reporter.processors) ∧
    (∀ g id g' id' p, s.standing? g id = some (.installed p) →
      s.standing? g' id' = some (.installed p) → g = g' ∧ id = id') ∧
    (∀ p q, (p, q) ∈ s.reporter.processors → ∃ g id i, s.standing? g id = some (.installed p) ∧
      s.installer? g = some i ∧ q = .enricher ⟨id, i.config.integration, false⟩) ∧
    s.reporter.processors.length =
      (s.installers.rows.map fun row => row.2.installedSessions.length).sum ∧
    ∀ a ∈ along Operation.activations (Command.allOperations cs (initial now retention))
      (initial now retention), a.run.1 ≠ .done .installed →
        a.run.2.reporter = (forgetGone a.installer a.before).2.reporter := by
  intro s
  have hinit := sound_initial now retention
  have hrun : s = (perform (Command.allOperations cs (initial now retention))
      (initial now retention)).program := by
    rw [← Command.runAll_eq_perform]
  have hs := (hinit.perform (Command.allOperations cs (initial now retention))).program
  have he := enriched_perform hinit (enriched_initial now retention)
    (Command.allOperations cs (initial now retention))
  have hr := registered_perform hinit (enriched_initial now retention)
    (registered_initial now retention) alone
  rw [← hrun] at hs he hr
  have hown : ∀ g id p, s.standing? g id = some (.installed p) → ∃ i, s.installer? g = some i ∧
      (p, Processor.enricher ⟨id, i.config.integration, false⟩) ∈ s.reporter.processors := by
    intro g id p hp
    obtain ⟨name, hn, hm⟩ := hr.enricher g id p hp
    obtain ⟨i, hi, rfl⟩ := Option.map_eq_some_iff.mp hn
    exact ⟨i, hi, hm⟩
  refine ⟨hown, he.single, fun p q hm => ?_, ?_, fun a ha hne => ?_⟩
  · obtain e | r := q
    · obtain ⟨g, hg⟩ := he.owned p e hm
      obtain ⟨i, hi, hm'⟩ := hown g e.session p hg
      exact ⟨g, e.session, i, hg, hi, processor_inj he hm hm'⟩
    · exact absurd hm (hr.unruled p r)
  · rw [← length_installedNumbers, ← (numbers_perm hs he hr).length_eq, List.length_map]
  · obtain ⟨first, o, rest, _, ho⟩ := mem_along ha
    exact a.reporter_eq (activation_before (hinit.perform first).program ho).1 hne

/-- A run with two installers, in which one session is stranded, another one crashes, and a third one is
stopped and forgotten by one of the installers. -/
def crowdedRun : List Command :=
  [.operation (.start ⟨⟨0⟩⟩ (.standard none) .sound false),
    .operation (.start ⟨⟨1⟩⟩ (.standard none) .stuck false),
    .operation (.start ⟨⟨2⟩⟩ (.standard none) .nameless false), .operation (.newInstaller .standard),
    .operation (.newInstaller .standard), .operation (.ensureInstalled ⟨0⟩ ⟨⟨0⟩⟩),
    .operation (.ensureInstalled ⟨1⟩ ⟨⟨0⟩⟩), .operation (.ensureInstalled ⟨0⟩ ⟨⟨0⟩⟩),
    .operation (.ensureInstalled ⟨0⟩ ⟨⟨1⟩⟩), .operation (.ensureInstalled ⟨0⟩ ⟨⟨2⟩⟩),
    .operation (.stop ⟨⟨0⟩⟩), .operation (.forgetGone ⟨0⟩)]

/-- What is left is the one enricher that the other installer has not yet removed. -/
theorem enrichers_match_when_crowded :
    let s := (Command.runAll crowdedRun (initial .epoch .standard)).program
    (∀ o ∈ Command.allOperations crowdedRun (initial .epoch .standard), o.sparesProcessors = true) ∧
      s.standing? ⟨1⟩ ⟨⟨0⟩⟩ = some (.installed ⟨1⟩) ∧
      (∃ i, s.installer? ⟨1⟩ = some i ∧
        (⟨1⟩, Processor.enricher ⟨⟨⟨0⟩⟩, i.config.integration, false⟩) ∈ s.reporter.processors) ∧
      s.reporter.processors.length = 1 := by
  intro s
  have alone : ∀ o ∈ Command.allOperations crowdedRun (initial .epoch .standard),
      o.sparesProcessors = true := by decide
  have hst : s.standing? ⟨1⟩ ⟨⟨0⟩⟩ = some (.installed ⟨1⟩) := by decide
  have hsum : (s.installers.rows.map fun row => row.2.installedSessions.length).sum = 1 := by decide
  obtain ⟨hown, _, _, hlength, _⟩ := enrichers_match_installations .epoch .standard crowdedRun alone
  exact ⟨alone, hst, hown ⟨1⟩ ⟨⟨0⟩⟩ ⟨1⟩ hst, hlength.trans hsum⟩

end SessionTrail
