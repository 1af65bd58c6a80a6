import SessionTrail.Proofs.Registered

/-!
# Whose number it is

The number of a processor is never given to another one. So what is registered under the number that an
installer has written down for a session is the enricher that it made for that session, whatever else is
registered or removed in a run.
-/
namespace SessionTrail

open Program World

namespace Program

/-- What is registered under the number that an installer has written down for a session is the enricher
that it made for that. -/
def Assigned (s : Program) (g : InstallerId) (id : SessionId) : Prop :=
  ∀ p q, s.standing? g id = some (.installed p) → (p, q) ∈ s.reporter.processors →
    ∃ name, s.integrationOf? g = some name ∧ q = .enricher ⟨id, name, false⟩

/-- From `s` to `t` nothing is registered under a number that was given before. -/
def Recalls (s t : Program) : Prop :=
  ∀ p q, (p, q) ∈ t.reporter.processors →
    (p, q) ∈ s.reporter.processors ∨ s.reporter.registrations ≤ p.val

variable {s t u : Program} {left : InstallerId → SessionId → Nat} {g : InstallerId} {id : SessionId}

/-! ## Submissions -/

namespace Recalls

theorem of_steady (h : Steady s t) : Recalls s t := fun p q hm => by
  rw [show t.reporter.processors = s.reporter.processors from h] at hm
  exact .inl hm

theorem trans (h : Recalls s t) (hn : s.reporter.registrations ≤ t.reporter.registrations)
    (h' : Recalls t u) : Recalls s u := fun p q hm => by
  rcases h' p q hm with hm | hle
  · exact h p q hm
  · exact .inr (Nat.le_trans hn hle)

theorem register (s : Program) (q : Processor) : Recalls s (s.register q).2 := fun p q' hm => by
  rcases List.mem_append.mp hm with hm | hm
  · exact .inl hm
  · right
    rw [List.mem_singleton, Prod.mk.injEq] at hm
    rw [hm.1]

theorem unregister (s : Program) (p : ProcessorId) : Recalls s (s.unregister p).2 :=
  fun _ _ hm => .inl (List.mem_filter.mp hm).1

theorem runProcessor (hint : Hint) (p : Processor) (report : Report) (s : Program) :
    Recalls s (Program.runProcessor hint p report s).2 := by
  cases p with
  | enricher e => exact .of_steady (.of_core_eq (runEnricher_core e report s))
  | rule r =>
    change Recalls s (runRule hint r report s).2
    unfold runRule
    split
    · exact .of_steady (.refl _)
    · exact .register s _
    · exact .unregister s _
    · exact .of_steady (.refl _)

theorem submit (report : Report) (hint : Hint) (s : Program) :
    Recalls s (Program.submit report hint s).2 := by
  have h := submit_preserves (P := fun t => Recalls s t ∧ s.reporter.registrations ≤ t.reporter.registrations) hint
    (fun p report t h => ⟨h.1.trans h.2 (runProcessor hint p report t),
      Nat.le_trans h.2 (runProcessor_thins hint p report t).registrations⟩)
    (fun _ _ h => h) report (s := s) ⟨.of_steady (.refl _), Nat.le_refl _⟩
  exact h.1

end Recalls

/-! ## Steps -/

namespace Assigned

/-- Where the installers do not change, it is enough that no number is given again. -/
theorem of_installers_eq (h : s.Assigned g id) (he : s.Enriched) (hi : t.installers = s.installers)
    (hr : Recalls s t) : t.Assigned g id := by
  intro p q hp hm
  rw [standing?_of_installers_eq hi] at hp
  have hname : t.integrationOf? g = s.integrationOf? g := by simp only [integrationOf?, installer?, hi]
  rw [hname]
  rcases hr p q hm with hm | hle
  · exact h p q hp hm
  · exact absurd (he.fresh g id p hp) (Nat.not_lt_of_le hle)

theorem newInstaller (h : s.Assigned g id) (hs : Sound left s) (config : Config) :
    (s.newInstaller config).2.Assigned g id := by
  intro p q hp hm
  rw [hs.standing?_newInstaller] at hp
  have hne : g ≠ (s.newInstaller config).1 := fun he => by
    rw [he, standing?, hs.installer?_fresh] at hp
    cases hp
  rw [integrationOf?, installer?_newInstaller, if_neg hne]
  exact h p q hp hm

theorem forgetGone (h : s.Assigned g id) (hs : Sound left s) (g' : InstallerId) :
    (Program.forgetGone g' s).2.Assigned g id := by
  intro p q hp hm
  rw [integrationOf?_forgetGone]
  refine h p q ?_ ?_
  · rw [forgetGone_standing? fun i hi => hs.standings_distinct g' i hi] at hp
    split at hp
    · rename_i hg
      rw [hg]
      exact (Option.filter_eq_some_iff.mp hp).1
    · exact hp
  · cases hi : s.installer? g' with
    | none =>
      rw [forgetGone_of_none hi] at hm
      exact hm
    | some i =>
      rw [forgetGone_eq hi] at hm
      exact (List.mem_filter.mp hm).1

/-- A completed installation registers its own enricher under a new number, which it writes down. -/
theorem installed {g' : InstallerId} {id' : SessionId} {l : Listener} {i : Installer}
    {r : Outcome InstallFailure ProcessorId} (h : t.Assigned g id) (he : t.Enriched)
    (hin : Installs id' l (nextEnricher i id') (reserved t g' id') r u)
    (hi : t.installer? g' = some i) :
    (setStanding g' id' (standingAfter r) u).Assigned g id := by
  have hst := standing?_after hin (by rw [hi]; rfl) g id
  have hname : (setStanding g' id' (standingAfter r) u).integrationOf? g = t.integrationOf? g := by
    rw [integrationOf?_setStanding, integrationOf?, installer?_of_installs hin]
    exact integrationOf?_setStanding t g' id' _ g
  intro p q hp hm
  rw [hst] at hp
  rw [hname]
  change (p, q) ∈ u.reporter.processors at hm
  obtain ⟨hr, hrep⟩ | ⟨hr, hrep⟩ := hin.reporter_cases
  · have hrep' : u.reporter.processors = t.reporter.processors ++
        [(⟨t.reporter.registrations⟩, .enricher (nextEnricher i id'))] := by
      rw [hrep]
      rfl
    rw [hrep'] at hm
    split at hp
    · rename_i hc
      rw [hr] at hp
      obtain rfl : ⟨t.reporter.registrations⟩ = p := Standing.installed.inj (Option.some.inj hp)
      -- Nothing was registered under the new number before.
      have hnew : (⟨t.reporter.registrations⟩, q) ∉ t.reporter.processors := fun hold =>
        Nat.lt_irrefl _ (he.numbered.bounded _ hold)
      have hq := List.mem_singleton.mp ((List.mem_append.mp hm).resolve_left hnew)
      refine ⟨i.config.integration, ?_, ?_⟩
      · rw [hc.1, integrationOf?, hi, Option.map_some]
      · rw [(Prod.mk.inj hq).2, hc.2]
        rfl
    · refine h p q hp ((List.mem_append.mp hm).resolve_right fun hnew => ?_)
      have hlt := he.fresh g id p hp
      rw [(Prod.mk.inj (List.mem_singleton.mp hnew)).1] at hlt
      exact Nat.lt_irrefl _ hlt
  · rw [show u.reporter.processors = t.reporter.processors from congrArg Reporter.processors hrep] at hm
    split at hp
    · exact absurd hp (standingAfter_ne_installed hr p)
    · exact h p q hp hm

theorem ensureInstalled (h : s.Assigned g id) (he : s.Enriched) (hs : Sound left s)
    (g' : InstallerId) (id' : SessionId) :
    ((Program.ensureInstalled g' id').run s).2.Assigned g id := by
  have hf := h.forgetGone hs g'
  obtain ⟨r, _, hrun, _⟩ | ⟨i, r, u, hi, _, hin, _, hrun⟩ :=
    ensureInstalled_cases g' id' s (hs.listener_lt id')
  · rw [hrun]
    exact hf
  · rw [hrun]
    exact hf.installed (he.forgetGone hs g') hin hi

end Assigned

end Program

/-! ## Runs -/

namespace World

variable {w : World} {left : InstallerId → SessionId → Nat}

/-- No operation gives a number again. -/
theorem recalls_next {o : Operation} (ho : o.isIdle = true) : Recalls w.program (o.next w).program := by
  cases o with
  | submit report hint => exact .submit report hint _
  | register rule => exact .register _ _
  | unregister p => exact .unregister _ p
  | newInstaller | ensureInstalled | forgetGone | newIntegration | setUp => cases ho
  | _ => exact .of_steady (steady_next (fun _ _ hs => nomatch hs) rfl rfl)

theorem assigned_next (hs : w.Sound left) (he : w.program.Enriched) {g : InstallerId} {id : SessionId}
    (h : w.program.Assigned g id) (o : Operation) : (o.next w).program.Assigned g id := by
  cases o with
  | ensureInstalled g' id' =>
    exact ensureInstalled_preserves (P := fun s => s.Assigned g id) g' id' h
      (h.ensureInstalled he hs.program g' id')
  | setUp i =>
    exact setUp_preserves (P := fun s => s.Assigned g id) w i h (h.newInstaller hs.program)
      (fun config id' hr => hr.ensureInstalled (he.newInstaller hs.program config)
        (hs.program.newInstaller config) _ id')
      fun _ _ hr => hr
  | forgetGone g' =>
    exact forgetGone_preserves (P := fun s => s.Assigned g id) g' h (h.forgetGone hs.program g')
  | newInstaller config => exact h.newInstaller hs.program config
  | newIntegration config => exact h
  | _ => exact h.of_installers_eq he (idle_next rfl).installers_eq (recalls_next rfl)

theorem assigned_perform (hs : w.Sound left) (he : w.program.Enriched)
    (h : ∀ g id, w.program.Assigned g id) (ops : List Operation) (g : InstallerId) (id : SessionId) :
    (perform ops w).program.Assigned g id := by
  induction ops generalizing w left with
  | nil => exact h g id
  | cons o rest ih =>
    exact ih (hs.next o) (enriched_next hs he o) fun g id => assigned_next hs he (h g id) o

theorem assigned_initial (now : Timestamp) (retention : Retention) (g : InstallerId) (id : SessionId) :
    (initial now retention).program.Assigned g id := fun _ _ hp => nomatch hp

end World

end SessionTrail
