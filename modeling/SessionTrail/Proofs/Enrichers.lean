import SessionTrail.Proofs.Reach

/-!
# Enrichers and standings

Every enricher on the reporter is the one of an installer that stands with its session, so an installer
has at most one for each session, whatever a run does.
-/
namespace SessionTrail

open Program World

namespace Program

/-- Every enricher is registered under the number that an installer has written down for its session,
and no two installers or sessions share a number. -/
structure Enriched (s : Program) : Prop where
  numbered : s.reporter.Numbered
  owned : ∀ p e, (p, Processor.enricher e) ∈ s.reporter.processors →
    ∃ g, s.standing? g e.session = some (.installed p)
  fresh : ∀ g id p, s.standing? g id = some (.installed p) → p.val < s.reporter.registrations
  single : ∀ g id g' id' p, s.standing? g id = some (.installed p) →
    s.standing? g' id' = some (.installed p) → g = g' ∧ id = id'

/-- From `s` to `t` nothing changes with the installers and integrations, and no enricher is
registered. -/
structure Idle (s t : Program) : Prop where
  installers_eq : t.installers = s.installers
  integrations_eq : t.integrations = s.integrations
  enrichers : ∀ p e, (p, Processor.enricher e) ∈ t.reporter.processors →
    (p, Processor.enricher e) ∈ s.reporter.processors
  registrations : s.reporter.registrations ≤ t.reporter.registrations
  numbered : s.reporter.Numbered → t.reporter.Numbered

namespace Idle

variable {s t u : Program}

theorem refl (s : Program) : Idle s s := ⟨rfl, rfl, fun _ _ h => h, Nat.le_refl _, fun h => h⟩

theorem of_processors_eq (hi : t.installers = s.installers) (hj : t.integrations = s.integrations)
    (hp : t.reporter.processors = s.reporter.processors)
    (hn : t.reporter.registrations = s.reporter.registrations) : Idle s t := by
  refine ⟨hi, hj, fun p e hm => ?_, Nat.le_of_eq hn.symm, fun h => h.of_eq hp hn⟩
  rw [hp] at hm
  exact hm

theorem of_reporter_eq (hi : t.installers = s.installers) (hj : t.integrations = s.integrations)
    (hr : t.reporter = s.reporter) : Idle s t := of_processors_eq hi hj (by rw [hr]) (by rw [hr])

theorem of_outline_eq (h : t.outline = s.outline) : Idle s t :=
  of_processors_eq (congrArg Program.installers h :) (congrArg Program.integrations h :)
    (congrArg (fun u : Program => u.reporter.processors) h :)
    (congrArg (fun u : Program => u.reporter.registrations) h :)

theorem of_core_eq (h : t.core = s.core) : Idle s t := of_outline_eq (outline_eq_of_core_eq h)

theorem of_thins (h : Thins s t) : Idle s t :=
  ⟨(congrArg Program.installers h.body_eq :), (congrArg Program.integrations h.body_eq :), h.enrichers,
    h.registrations, h.numbered⟩

theorem of_modifySession {id : SessionId} {f : Session → Session}
    (h : t.outline = (s.modifySession id f).outline) : Idle s t :=
  of_processors_eq (congrArg Program.installers h :) (congrArg Program.integrations h :)
    (congrArg (fun u : Program => u.reporter.processors) h :)
    (congrArg (fun u : Program => u.reporter.registrations) h :)

theorem stop (id : SessionId) (s : Program) : Idle s (Program.stop id s).2 := by
  have hs := of_outline_eq (settle_outline id s)
  obtain ⟨hr, hj⟩ : (Program.stop id s).2.reporter = (settle id s).2.reporter ∧
      (Program.stop id s).2.integrations = (settle id s).2.integrations := markStopped_fields id _
  refine ⟨(Narrows.stop id s).installers_eq, hj.trans hs.integrations_eq, ?_, ?_, ?_⟩
  · rw [hr]
    exact hs.enrichers
  · rw [hr]
    exact hs.registrations
  · rw [hr]
    exact hs.numbered

end Idle

namespace Enriched

variable {s t u : Program} {left : InstallerId → SessionId → Nat}

theorem of_standing?_eq (h : s.Enriched) (hst : ∀ g id, t.standing? g id = s.standing? g id)
    (he : ∀ p e, (p, Processor.enricher e) ∈ t.reporter.processors →
      (p, Processor.enricher e) ∈ s.reporter.processors)
    (hr : s.reporter.registrations ≤ t.reporter.registrations) (hn : t.reporter.Numbered) :
    t.Enriched := by
  constructor
  · exact hn
  · intro p e hm
    obtain ⟨g, hg⟩ := h.owned p e (he p e hm)
    exact ⟨g, (hst g _).trans hg⟩
  · intro g id p hp
    exact Nat.lt_of_lt_of_le (h.fresh g id p ((hst g id).symm.trans hp)) hr
  · intro g id g' id' p hp hp'
    exact h.single g id g' id' p ((hst g id).symm.trans hp) ((hst g' id').symm.trans hp')

theorem idle (h : s.Enriched) (i : Idle s t) : t.Enriched :=
  h.of_standing?_eq (standing?_of_installers_eq i.installers_eq) i.enrichers i.registrations
    (i.numbered h.numbered)

theorem newInstaller (h : s.Enriched) (hs : Sound left s) (config : Config) :
    (s.newInstaller config).2.Enriched :=
  h.of_standing?_eq (hs.standing?_newInstaller config) (fun _ _ hm => hm) (Nat.le_refl _) h.numbered

theorem of_integrations (h : s.Enriched) (integrations : Table IntegrationId Integration) :
    { s with integrations : Program }.Enriched := ⟨h.numbered, h.owned, h.fresh, h.single⟩

/-- An installer that forgets a session removes its enricher. -/
theorem forgetGone (h : s.Enriched) (hs : Sound left s) (g : InstallerId) :
    (Program.forgetGone g s).2.Enriched := by
  cases hi : s.installer? g with
  | none =>
    rw [forgetGone_of_none hi]
    exact h
  | some i =>
    have hst := forgetGone_standing? fun j hj => hs.standings_distinct g j hj
    have hold : ∀ g' id p, (Program.forgetGone g s).2.standing? g' id = some (.installed p) →
        s.standing? g' id = some (.installed p) := fun g' id p hp => by
      rw [hst] at hp
      split at hp
      · rename_i he
        rw [he]
        exact (Option.filter_eq_some_iff.mp hp).1
      · exact hp
    have hreg : (Program.forgetGone g s).2.reporter.registrations = s.reporter.registrations := by
      rw [forgetGone_eq hi]
    constructor
    · rw [forgetGone_eq hi]
      exact h.numbered.filter _
    · intro p e hm
      rw [forgetGone_eq hi] at hm
      obtain ⟨hm, hkept⟩ := List.mem_filter.mp hm
      simp only [decide_eq_true_eq] at hkept
      obtain ⟨g', hg'⟩ := h.owned p e hm
      refine ⟨g', ?_⟩
      rw [hst]
      split
      · rename_i he
        rw [he] at hg'
        rw [hg', Option.filter_some]
        split
        · rfl
        · rename_i hgone
          -- The row of the session is one of those that are forgotten, and its number with it.
          have hrow : (e.session, Standing.installed p) ∈ s.goneRows i := by
            rw [standing?, hi, Option.bind_some] at hg'
            exact List.mem_filter.mpr ⟨Table.mem_of_get? hg', by simpa using hgone⟩
          have hnumber : p ∈ (s.goneRows i).filterMap (·.2.processor?) :=
            List.mem_filterMap.mpr ⟨_, hrow, rfl⟩
          exact absurd hnumber hkept
      · exact hg'
    · intro g' id p hp
      rw [hreg]
      exact h.fresh g' id p (hold g' id p hp)
    · intro g₁ id₁ g₂ id₂ p h₁ h₂
      exact h.single g₁ id₁ g₂ id₂ p (hold _ _ _ h₁) (hold _ _ _ h₂)

section

variable {g : InstallerId} {id : SessionId} {st : Option Standing}

/-- An installer that comes to stand with a session otherwise than by an installation. -/
theorem stands (h : s.Enriched) (hrep : t.reporter = s.reporter)
    (hst : ∀ g' id', t.standing? g' id' = if g' = g ∧ id' = id then st else s.standing? g' id')
    (hfree : s.standing? g id = none) (hno : ∀ p, st ≠ some (.installed p)) : t.Enriched := by
  have hold : ∀ g' id' p, t.standing? g' id' = some (.installed p) →
      s.standing? g' id' = some (.installed p) := fun g' id' p hp => by
    rw [hst] at hp
    split at hp
    · exact absurd hp (hno p)
    · exact hp
  constructor
  · rw [hrep]
    exact h.numbered
  · intro p e hm
    rw [hrep] at hm
    obtain ⟨g', hg'⟩ := h.owned p e hm
    refine ⟨g', ?_⟩
    rw [hst, if_neg fun hc => ?_]
    · exact hg'
    · rw [hc.1, hc.2, hfree] at hg'
      cases hg'
  · intro g' id' p hp
    rw [hrep]
    exact h.fresh g' id' p (hold g' id' p hp)
  · intro g₁ id₁ g₂ id₂ p h₁ h₂
    exact h.single g₁ id₁ g₂ id₂ p (hold _ _ _ h₁) (hold _ _ _ h₂)

/-- An installer that registers an enricher and writes its number down, which is a new one. -/
theorem registers (h : s.Enriched) {e : Enricher}
    (hrep : t.reporter = (s.reporter.register (.enricher e)).2)
    (hst : ∀ g' id', t.standing? g' id' = if g' = g ∧ id' = id
      then some (.installed ⟨s.reporter.registrations⟩) else s.standing? g' id')
    (hfree : s.standing? g id = none) (he : e.session = id) : t.Enriched := by
  have hnew : ∀ g' id', s.standing? g' id' ≠ some (.installed ⟨s.reporter.registrations⟩) :=
    fun g' id' hp => Nat.lt_irrefl _ (h.fresh g' id' _ hp)
  have hcase : ∀ g' id' p, t.standing? g' id' = some (.installed p) →
      (g' = g ∧ id' = id ∧ p = ⟨s.reporter.registrations⟩) ∨
        s.standing? g' id' = some (.installed p) := fun g' id' p hp => by
    rw [hst] at hp
    split at hp
    · rename_i hc
      simp only [Option.some.injEq, Standing.installed.injEq] at hp
      exact .inl ⟨hc.1, hc.2, hp.symm⟩
    · exact .inr hp
  constructor
  · rw [hrep]
    exact h.numbered.register _
  · intro p e' hm
    rw [hrep] at hm
    rcases List.mem_append.mp hm with hm | hm
    · obtain ⟨g', hg'⟩ := h.owned p e' hm
      refine ⟨g', ?_⟩
      rw [hst, if_neg fun hc => ?_]
      · exact hg'
      · rw [hc.1, hc.2, hfree] at hg'
        cases hg'
    · simp only [List.mem_singleton, Prod.mk.injEq, Processor.enricher.injEq] at hm
      exact ⟨g, by rw [hst, hm.1, hm.2, if_pos ⟨rfl, he⟩]⟩
  · intro g' id' p hp
    have hreg : t.reporter.registrations = s.reporter.registrations + 1 := by
      rw [hrep]
      rfl
    rw [hreg]
    rcases hcase g' id' p hp with ⟨_, _, rfl⟩ | hp
    · exact Nat.lt_succ_self _
    · exact Nat.lt_succ_of_lt (h.fresh g' id' p hp)
  · intro g₁ id₁ g₂ id₂ p h₁ h₂
    rcases hcase g₁ id₁ p h₁ with ⟨hg₁, hi₁, rfl⟩ | h₁
    · rcases hcase g₂ id₂ _ h₂ with ⟨hg₂, hi₂, _⟩ | h₂
      · exact ⟨hg₁.trans hg₂.symm, hi₁.trans hi₂.symm⟩
      · exact absurd h₂ (hnew g₂ id₂)
    · rcases hcase g₂ id₂ p h₂ with ⟨_, _, rfl⟩ | h₂
      · exact absurd h₁ (hnew g₁ id₁)
      · exact h.single g₁ id₁ g₂ id₂ p h₁ h₂

/-- However an installation ends, what is written down agrees with what is registered. -/
theorem installed {l : Listener} {e : Enricher} {r : Outcome InstallFailure ProcessorId}
    (h : t.Enriched) (hin : Installs id l e (reserved t g id) r u)
    (hi : (t.installer? g).isSome = true) (hfree : t.standing? g id = none) (he : e.session = id) :
    (setStanding g id (standingAfter r) u).Enriched := by
  have hst := standing?_after hin hi
  cases hin with
  | refused _ _ hc | takenBack _ _ _ _ _ hc | lostAtFirst _ _ _ _ hc | lostLater _ _ _ _ _ _ hc =>
    exact h.stands (congrArg Program.reporter hc :) hst hfree nofun
  | stuck _ _ _ _ _ hc => exact h.stands (congrArg Program.reporter hc :) hst hfree nofun
  | completed _ _ _ _ hc => exact h.registers (congrArg Program.reporter hc :) hst hfree he

end

theorem ensureInstalled (h : s.Enriched) (hs : Sound left s) (g : InstallerId) (id : SessionId) :
    ((Program.ensureInstalled g id).run s).2.Enriched := by
  obtain ⟨r, _, hrun, _⟩ | ⟨i, r, u, hi, hfree, hin, _, hrun⟩ :=
    ensureInstalled_cases g id s (hs.listener_lt id)
  · rw [hrun]
    exact h.forgetGone hs g
  · rw [hrun]
    refine (h.forgetGone hs g).installed hin ?_ ?_ rfl
    · rw [hi]
      rfl
    · rw [standing?, hi]
      exact hfree

end Enriched

end Program

/-- An operation that has nothing to do with installers and integrations. -/
def Operation.isIdle : Operation → Bool
  | .newInstaller _ | .ensureInstalled .. | .forgetGone _ | .newIntegration _ | .setUp _ => false
  | _ => true

namespace World

variable {w : World} {left : InstallerId → SessionId → Nat}

theorem idle_through {id : SessionId} {f : Program → Program} (h : Idle w.program (f w.program)) :
    Idle w.program (w.through id f).program := through_preserves (.refl _) h

theorem idle_next {o : Operation} (ho : o.isIdle = true) : Idle w.program (o.next w).program := by
  cases o with
  | start id settings backend detached =>
    simp only [Operation.next, update, Program.start]
    split
    · exact .refl _
    · exact .of_reporter_eq rfl rfl rfl
  | stop id => exact idle_through (.stop id _)
  | read id a => exact idle_through (.of_core_eq (onSession_keeps_core id (Session.read_keeps_core a) _))
  | write id key value =>
    exact idle_through (.of_core_eq (onSession_keeps_core id (Session.write_keeps_core key value) _))
  | post id e =>
    exact idle_through (.of_outline_eq (onSession_keeps_outline id (Session.post_keeps_outline e) _))
  | turn id number =>
    simp only [Operation.next]
    split
    · exact .of_outline_eq (turn_outline id _ _)
    · exact .refl _
  | attach id l =>
    simp only [Operation.next]
    split
    · refine idle_through ?_
      rcases attach_outline id l w.program with ho | ⟨_, _, _, ho⟩
      · exact .of_outline_eq ho
      · exact .of_modifySession ho
    · exact .refl _
  | detach id l =>
    simp only [Operation.next]
    split
    · refine idle_through ?_
      rcases detach_outline id l w.program with ho | ⟨_, _, _, _, _, ho⟩
      · exact .of_outline_eq ho
      · exact .of_modifySession ho
    · exact .refl _
  | makeActive id => exact idle_through (.of_reporter_eq rfl rfl rfl)
  | clearActive id =>
    simp only [Operation.next, update, Program.clearActive]
    split
    · exact .of_reporter_eq rfl rfl rfl
    · exact .refl _
  | submit report hint => exact .of_thins (submit_thins report hint _)
  | register rule =>
    refine ⟨rfl, rfl, fun p e hm => ?_, Nat.le_succ _, fun h => h.register _⟩
    rcases List.mem_append.mp hm with hm | hm
    · exact hm
    · simp at hm
  | unregister id =>
    exact ⟨rfl, rfl, fun _ _ hm => (List.mem_filter.mp hm).1, Nat.le_refl _, fun h => h.filter _⟩
  | enable integration =>
    simp only [Operation.next, update, Reporter.enable]
    split
    · exact .refl _
    · exact .of_processors_eq rfl rfl rfl rfl
  | disable | leave | clearCrumbs => exact .of_processors_eq rfl rfl rfl rfl
  | tick | release | setBackend | newListener => exact .of_reporter_eq rfl rfl rfl
  | newInstaller | ensureInstalled | forgetGone | newIntegration | setUp => cases ho

theorem enriched_initial (now : Timestamp) (retention : Retention) :
    (initial now retention).program.Enriched :=
  ⟨⟨List.Pairwise.nil, nofun⟩, fun _ _ hm => (nomatch hm), fun _ _ _ hp => (nomatch hp),
    fun _ _ _ _ _ hp => (nomatch hp)⟩

/-- Every operation keeps enrichers and standings in agreement. -/
theorem enriched_next (hs : w.Sound left) (h : w.program.Enriched) (o : Operation) :
    (o.next w).program.Enriched := by
  cases o with
  | ensureInstalled g id =>
    exact ensureInstalled_preserves g id h (h.ensureInstalled hs.program g id)
  | setUp i =>
    exact setUp_preserves w i h (h.newInstaller hs.program)
      (fun config id he => he.ensureInstalled (hs.program.newInstaller config) _ id)
      fun _ integrations he => he.of_integrations integrations
  | forgetGone g =>
    exact forgetGone_preserves g h (h.forgetGone hs.program g)
  | newInstaller config => exact h.newInstaller hs.program config
  | newIntegration config => exact h.of_integrations _
  | _ => exact h.idle (idle_next rfl)

theorem enriched_perform (hs : w.Sound left) (h : w.program.Enriched) (ops : List Operation) :
    (perform ops w).program.Enriched := by
  induction ops generalizing w left with
  | nil => exact h
  | cons o rest ih => exact ih (hs.next o) (enriched_next hs h o)

end World

end SessionTrail
