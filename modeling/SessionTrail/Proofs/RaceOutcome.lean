import SessionTrail.Proofs.Orderly
import SessionTrail.Proofs.RollBack

/-!
# The outcome of a race

A race may start in any program that a run without crashes has reached, at a session that runs and never
crashes, with which the installer does not stand. However its steps fall, at most one caller installs.
-/
namespace SessionTrail

open Program World

variable {n : Nat} {g : InstallerId} {id : SessionId} {s : Program}

/-! ## What an orderly race tells -/

/-- The listeners and the enrichers are counted by what the race stands on. -/
theorem Program.Footing.counts {st : Option Standing} {l? : Option Listener} {p? : Option ProcessorId}
    (h : s.Footing n g id st l? p?) : ∃ y, s.session? id = some y ∧ y.stopped = false ∧
      y.attachedBy g = l?.toList.length ∧ (s.enrichersSince n id).length = p?.toList.length := by
  obtain ⟨y, hy, hh⟩ := h.hosting.session
  refine ⟨y, hy, hh.running, hh.attachedBy_eq, ?_⟩
  rw [← h.ledger.enrichers, List.length_map]

/-- Only an installer that has the trail on the session tells a caller that it is there already. -/
theorem Caller.installed_of_alreadyInstalled {c : Caller}
    (hc : c ≠ .returned (.done .alreadyInstalled))
    (h : (c.step g id s).1 = .returned (.done .alreadyInstalled)) :
    ∃ p, s.standing? g id = some (.installed p) := by
  cases c with
  | asking removals =>
    cases removals with
    | nil =>
      cases hst : s.standing? g id with
      | none =>
        cases hi : s.installer? g with
        | none => simp only [step, reserve, hi, reduceCtorEq] at h
        | some i =>
          have hs : i.standings.get? id = none := by
            rw [standing?, hi, Option.bind_some] at hst
            exact hst
          simp only [step, reserve_of_free hi hs, reduceCtorEq] at h
      | some st =>
        cases st with
        | installed p => exact ⟨p, rfl⟩
        | installing | stranded =>
          simp only [step, reserve_of_standing hst, reservationFor, reduceCtorEq, returned.injEq] at h
    | cons => cases h
  | reserved | stamping =>
    simp only [step] at h
    split at h <;> cases h
  | settling r => rcases r with _ | _ | _ <;> cases h
  | returned r => exact absurd h hc
  | arriving | undoing | registering => cases h

namespace Race

variable {r : Race}

/-- A race may start at a session with which the installer does not stand. -/
theorem orderly_start {x : Session} (hs : Program.Sound (fun _ _ => 0) s) (he : s.Enriched)
    (made : (s.installer? g).isSome = true) (hx : s.session? id = some x) (running : x.stopped = false)
    (calm : x.backend.Calm) (reach : s.isReachable id = true) (free : s.standing? g id = none)
    (callers : Nat) : (start s callers).Orderly s.reporter.registrations g id := by
  have harriving : ∀ c ∈ List.replicate callers Caller.arriving, c = .arriving := fun c hc =>
    List.eq_of_mem_replicate hc
  have hnew : s.enrichersSince s.reporter.registrations id = [] := by
    refine List.filter_eq_nil_iff.mpr fun row hm => ?_
    rcases row with ⟨p, e | r⟩
    · have hlt : p.val < s.reporter.registrations := he.numbered.bounded _ hm
      simp only [Bool.and_eq_true, decide_eq_true_eq, not_and]
      omega
    · nofun
  refine ⟨fun c hc => ?_, ?_, ?_, fun _ => .inl ⟨⟨made, hs.standings_distinct g, free, ?_, ?_, ?_⟩, ?_, reach⟩⟩
  · rw [harriving c hc]
    trivial
  · rw [start, free, if_neg nofun, List.countP_eq_zero]
    intro c hc
    rw [harriving c hc]
    nofun
  · rw [start, free, if_neg nofun, List.countP_eq_zero]
    intro c hc
    rw [harriving c hc]
    decide
  · exact fun id' p _ hp => he.fresh g id' p hp
  · exact Nat.le_refl _
  · exact congrArg (List.map (·.1)) hnew
  · refine ⟨x, hx, running, calm, hs.listener_lt id x hx, x, rfl, ?_, nofun⟩
    exact (hs.balance g id x hx running).free free reach

namespace Orderly

/-- While the trail is installed, one caller has been told so, and the installation is complete. -/
theorem complete (h : r.Orderly n g id) {p : ProcessorId}
    (hp : r.program.standing? g id = some (.installed p)) :
    (∃ c ∈ r.callers, c.hasInstalled = true) ∧ ∃ y, r.program.session? id = some y ∧
      y.attachedBy g = 1 ∧ (r.program.enrichersSince n id).length = 1 := by
  have hone := h.installed
  rw [hp] at hone
  refine ⟨List.countP_pos_iff.mp (Nat.lt_of_lt_of_eq Nat.zero_lt_one hone.symm), ?_⟩
  rcases h.rests (by rw [hp]; nofun) with hf | ⟨q, l, hf⟩ | ⟨l, hf⟩
  · exact absurd (hp.symm.trans hf.ledger.standing) nofun
  · obtain ⟨y, hy, _, hl, hq⟩ := hf.counts
    exact ⟨y, hy, hl, hq⟩
  · exact absurd (hp.symm.trans hf.ledger.standing) nofun

/-- A caller is told that the trail is there only while the installation is complete. -/
theorem told (h : r.Orderly n g id) {k : Nat}
    (hk : r.callers[k]? ≠ some (.returned (.done .alreadyInstalled)))
    (hnext : (r.advance g id k).callers[k]? = some (.returned (.done .alreadyInstalled))) :
    (∃ c ∈ r.callers, c.hasInstalled = true) ∧ ∃ y, r.program.session? id = some y ∧
      y.attachedBy g = 1 ∧ (r.program.enrichersSince n id).length = 1 := by
  cases hc : r.callers[k]? with
  | none => simp only [Race.advance, hc, reduceCtorEq] at hnext
  | some c =>
    have hlt := (List.getElem?_eq_some_iff.mp hc).1
    have hstep : (c.step g id r.program).1 = .returned (.done .alreadyInstalled) := by
      simp only [Race.advance, hc] at hnext
      rw [List.getElem?_set_self hlt] at hnext
      exact Option.some.inj hnext
    obtain ⟨p, hp⟩ := c.installed_of_alreadyInstalled (fun he => hk (he ▸ hc)) hstep
    exact h.complete hp

/-- When nobody holds the session, the standing, what is there and what the callers were told agree. -/
theorem settled (h : r.Orderly n g id) (hdone : ∀ c ∈ r.callers, c.hasReturned = true) :
    r.program.standing? g id ≠ some .installing ∧ ∃ y, r.program.session? id = some y ∧
      ((y.attachedBy g = 1 ∧ (r.program.enrichersSince n id).length = 1) ↔
        ∃ c ∈ r.callers, c.hasInstalled = true) ∧
      ((y.attachedBy g = 1 ∧ (r.program.enrichersSince n id).length = 0) ↔
        r.program.standing? g id = some .stranded) ∧
      ((y.attachedBy g = 0 ∧ (r.program.enrichersSince n id).length = 0) ↔
        r.program.standing? g id = none) := by
  have hne : r.program.standing? g id ≠ some .installing := fun hst => by
    have hone := h.holders
    rw [if_pos hst] at hone
    obtain ⟨c, hm, hc⟩ := List.countP_pos_iff.mp (Nat.lt_of_lt_of_eq Nat.zero_lt_one hone.symm)
    have hret := hdone c hm
    cases c with
    | returned => cases hc
    | _ => cases hret
  have hinst : (∃ c ∈ r.callers, c.hasInstalled = true) ↔
      (r.program.standing? g id).any (·.isInstalled) = true := by
    rw [← List.countP_pos_iff, h.installed]
    split <;> simp_all
  refine ⟨hne, ?_⟩
  rw [hinst]
  rcases h.rests hne with hf | ⟨p, l, hf⟩ | ⟨l, hf⟩ <;> obtain ⟨y, hy, _, hl, hp⟩ := hf.counts <;>
    refine ⟨y, hy, ?_⟩ <;> rw [hl, hp, hf.ledger.standing] <;> simp [Standing.isInstalled]

end Orderly

end Race

/-- Racing callers install once. From any program that a run without crashes has reached, at a session
that runs, can be reached and never crashes, and with which the installer does not stand yet, any number
of callers take their steps in any order. At every moment at most one of them holds the session, the
installer has at most one listener at it and has registered at most one enricher for it, and at most one
caller has been told that it installed. One is told that the trail is there already only if another one
had installed by then, listener and enricher included. When all have returned, nobody is waited for; one
listener and one enricher are there exactly if somebody installed, one listener alone if the session is
stranded, and nothing otherwise. -/
theorem racing_callers_install_once (now : Timestamp) (retention : Retention) (cs : List Command)
    (served : ∀ a ∈ along Operation.activations (Command.allOperations cs (initial now retention))
      (initial now retention), a.run.1 ≠ .crashed) (g : InstallerId) (id : SessionId) {x : Session}
    (made : ((Command.runAll cs (initial now retention)).program.installer? g).isSome = true)
    (here : (Command.runAll cs (initial now retention)).program.session? id = some x)
    (running : x.stopped = false) (calm : x.backend.Calm)
    (reach : (Command.runAll cs (initial now retention)).program.isReachable id = true)
    (free : (Command.runAll cs (initial now retention)).program.standing? g id = none)
    (callers : Nat) (schedule : List Nat) :
    let s := (Command.runAll cs (initial now retention)).program
    let n := s.reporter.registrations
    let r := Race.perform g id schedule (Race.start s callers)
    r.callers.countP (·.holds) ≤ 1 ∧
    (∃ y, r.program.session? id = some y ∧ y.attachedBy g ≤ 1 ∧
      (r.program.enrichersSince n id).length ≤ 1) ∧
    r.callers.countP (·.hasInstalled) ≤ 1 ∧
    (∀ k, r.callers[k]? ≠ some (.returned (.done .alreadyInstalled)) →
      (r.advance g id k).callers[k]? = some (.returned (.done .alreadyInstalled)) →
        (∃ c ∈ r.callers, c.hasInstalled = true) ∧ ∃ y, r.program.session? id = some y ∧
          y.attachedBy g = 1 ∧ (r.program.enrichersSince n id).length = 1) ∧
    ((∀ c ∈ r.callers, c.hasReturned = true) →
      r.program.standing? g id ≠ some .installing ∧ ∃ y, r.program.session? id = some y ∧
        ((y.attachedBy g = 1 ∧ (r.program.enrichersSince n id).length = 1) ↔
          ∃ c ∈ r.callers, c.hasInstalled = true) ∧
        ((y.attachedBy g = 1 ∧ (r.program.enrichersSince n id).length = 0) ↔
          r.program.standing? g id = some .stranded) ∧
        ((y.attachedBy g = 0 ∧ (r.program.enrichersSince n id).length = 0) ↔
          r.program.standing? g id = none)) := by
  intro s n r
  have hinit := sound_initial now retention
  have hrun : s = (perform (Command.allOperations cs (initial now retention))
      (initial now retention)).program := by
    rw [← Command.runAll_eq_perform]
  have hs : Program.Sound (fun _ _ => 0) s := by
    have h := (hinit.perform (Command.allOperations cs (initial now retention))).program
    simp only [leaks_of_not_crashed served, Nat.add_zero] at h
    rw [hrun]
    exact h
  have he : s.Enriched := by
    rw [hrun]
    exact enriched_perform hinit (enriched_initial now retention) _
  have h : r.Orderly n g id := Race.perform_preserves (fun _ k hr => hr.advance k) schedule
    (Race.orderly_start hs he made here running calm reach free callers)
  refine ⟨?_, ?_, ?_, fun _ => h.told, h.settled⟩
  · rw [h.holders]
    split <;> omega
  · obtain ⟨_, _, _, hf⟩ := h.footing
    obtain ⟨y, hy, _, hl, hp⟩ := hf.counts
    exact ⟨y, hy, hl ▸ Option.length_toList_le, hp ▸ Option.length_toList_le⟩
  · rw [h.installed]
    split <;> omega

theorem Backend.busy_calm : Backend.busy.Calm := by
  intro history c
  cases c with
  | read a => nofun
  | write | attach | detach =>
    simp only [Backend.busy, Outages.backend, Outages.trouble]
    split <;> nofun

/-- The steps of three callers. The first one is refused its first write while the others wait, the second
one installs, and the third one asks last. -/
def contendedSchedule : List Nat :=
  [0, 1, 2, 0, 1, 2, 0, 0, 1, 0, 0, 2, 0, 1, 1, 2, 1, 1, 1, 1, 2, 1, 1, 2]

/-- One of the three fails, one installs, and one finds the trail there. -/
theorem contended_callers_install_once :
    let s := (Command.runAll (retakenRun.take 2) (initial .epoch .standard)).program
    let r := Race.perform ⟨0⟩ ⟨⟨0⟩⟩ contendedSchedule (Race.start s 3)
    r.callers = [.returned (.failed (.session (.unavailable "property store busy"))),
      .returned (.done .installed), .returned (.done .alreadyInstalled)] ∧
    ∃ y, r.program.session? ⟨⟨0⟩⟩ = some y ∧ y.attachedBy ⟨0⟩ = 1 ∧
      (r.program.enrichersSince 0 ⟨⟨0⟩⟩).length = 1 := by
  intro s r
  have hsession : (s.session? ⟨⟨0⟩⟩).map (·.backend) = some .busy := rfl
  have hrunning : (s.session? ⟨⟨0⟩⟩).map (·.stopped) = some false := rfl
  obtain ⟨x, hx, hb⟩ := Option.map_eq_some_iff.mp hsession
  have hstop : x.stopped = false := by
    rw [hx] at hrunning
    exact Option.some.inj hrunning
  have hcallers : r.callers = [.returned (.failed (.session (.unavailable "property store busy"))),
      .returned (.done .installed), .returned (.done .alreadyInstalled)] := by decide
  obtain ⟨_, _, _, _, hend⟩ := racing_callers_install_once .epoch .standard (retakenRun.take 2) (by decide)
    ⟨0⟩ ⟨⟨0⟩⟩ (by decide) hx hstop (hb ▸ Backend.busy_calm) (by decide) (by decide) 3 contendedSchedule
  obtain ⟨_, y, hy, hone, _, _⟩ := hend (by rw [show _ = r.callers from rfl, hcallers]; decide)
  have hinstalled : ∃ c ∈ r.callers, c.hasInstalled = true := by
    rw [hcallers]
    decide
  exact ⟨hcallers, y, hy, hone.mpr hinstalled⟩

end SessionTrail
