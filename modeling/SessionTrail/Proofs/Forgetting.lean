import SessionTrail.Proofs.Assigned
import SessionTrail.Proofs.Between
import SessionTrail.Proofs.Silence

/-!
# What is forgotten

An installer that forgets what is gone forgets exactly the sessions that have stopped or cannot be reached
any more, and removes exactly the enrichers that it has installed for them. Of all else nothing changes,
and to forget again changes nothing. Every activation begins in this way, so what becomes of one session
does not disturb what is installed on another one.
-/
namespace SessionTrail

open Program World

namespace Program

/-- The sessions that an installer stands with. -/
def sessionsOf (s : Program) (g : InstallerId) : List SessionId :=
  ((s.installer? g).map (·.standings.keys)).getD []

/-- Whether a number is one that an installer has written down for a session that is over. -/
def isSpent (s : Program) (g : InstallerId) (p : ProcessorId) : Bool :=
  (s.sessionsOf g).any fun id => s.isOver id && s.standing? g id = some (.installed p)

/-- An installer without the sessions that are over. -/
def withoutOver (s : Program) (i : Installer) : Installer :=
  { i with standings := ⟨i.standings.rows.filter fun row => !s.isOver row.1⟩ }

/-- An installer has forgotten `n` sessions on the way from `s` to `t`: all that were over, and these
only. -/
structure Forgets (g : InstallerId) (s : Program) (n : Nat) (t : Program) : Prop where
  program_eq : t = { s with
    installers := s.installers.modify g s.withoutOver
    reporter := { s.reporter with
      processors := s.reporter.processors.filter fun row => !s.isSpent g row.1 } }
  standing : ∀ id, t.standing? g id = if s.isOver id then none else s.standing? g id
  /-- A session is counted once, if the installer stands with it and it is over. -/
  count : n = ((s.sessionsOf g).filter s.isOver).length
  distinct : (s.sessionsOf g).Nodup
  known : ∀ id, id ∈ s.sessionsOf g ↔ (s.standing? g id).isSome = true
  /-- What is removed is the installer's own enricher for a session that is over. -/
  removed : ∀ p q, (p, q) ∈ s.reporter.processors → s.isSpent g p = true →
    ∃ id name, s.standing? g id = some (.installed p) ∧ s.isOver id = true ∧
      s.integrationOf? g = some name ∧ q = .enricher ⟨id, name, false⟩
  /-- The enricher of any other installation is not removed. -/
  spared : ∀ g' id p, s.standing? g' id = some (.installed p) → ¬ (g' = g ∧ s.isOver id = true) →
    s.isSpent g p = false

/-- From `s` to `t` an installation is left as it is: how its installer stands with the session, the
enricher if it is registered, and the workers of the session. -/
structure LeavesAlone (g : InstallerId) (id : SessionId) (s t : Program) : Prop where
  standing : t.standing? g id = s.standing? g id
  enricher : ∀ p q, s.standing? g id = some (.installed p) → (p, q) ∈ s.reporter.processors →
    (p, q) ∈ t.reporter.processors
  workers : ∀ x, s.session? id = some x → ∃ y, t.session? id = some y ∧ ∀ v ∈ x.workers, v ∈ y.workers

variable {s t u : Program} {left : InstallerId → SessionId → Nat} {g g' : InstallerId} {id : SessionId}

/-! ## What is over -/

theorem mem_sessionsOf : id ∈ s.sessionsOf g ↔ (s.standing? g id).isSome = true := by
  rw [sessionsOf, standing?]
  cases s.installer? g with
  | none => simp
  | some i =>
    simp only [Option.map_some, Option.getD_some, Option.bind_some, Table.keys, List.mem_map]
    constructor
    · rintro ⟨row, hm, rfl⟩
      rw [Table.get?, Option.isSome_map, List.find?_isSome]
      exact ⟨row, hm, decide_eq_true rfl⟩
    · intro h
      obtain ⟨st, hst⟩ := Option.isSome_iff_exists.mp h
      exact ⟨_, Table.mem_of_get? hst, rfl⟩

theorem sessionsOf_nodup (h : Sound left s) (g : InstallerId) : (s.sessionsOf g).Nodup := by
  rw [sessionsOf]
  cases hi : s.installer? g with
  | none => exact List.nodup_nil
  | some i => exact h.standings_distinct g i hi

theorem isSpent_iff {p : ProcessorId} :
    s.isSpent g p = true ↔ ∃ id, s.standing? g id = some (.installed p) ∧ s.isOver id = true := by
  simp only [isSpent, List.any_eq_true, Bool.and_eq_true, decide_eq_true_eq]
  constructor
  · rintro ⟨id, _, hover, hst⟩
    exact ⟨id, hst, hover⟩
  · rintro ⟨id, hst, hover⟩
    exact ⟨id, mem_sessionsOf.mpr (by rw [hst]; rfl), hover, hst⟩

/-- Nobody is at an installation, so what is gone is what is over. -/
theorem isGone_of_row (h : Sound left s) {i : Installer} (hi : s.installer? g = some i)
    {row : SessionId × Standing} (hm : row ∈ i.standings.rows) :
    s.isGone row.1 row.2 = s.isOver row.1 := by
  refine isGone_eq s row.1 fun hinst => h.settled g row.1 ?_
  rw [standing?, hi, Option.bind_some, ← hinst]
  exact Table.get?_of_mem (h.standings_distinct g i hi) hm

/-! ## Forgetting -/

/-- The numbers of the rows that are forgotten are the spent ones. -/
theorem mem_goneNumbers (h : Sound left s) {i : Installer} (hi : s.installer? g = some i)
    {p : ProcessorId} :
    p ∈ (s.goneRows i).filterMap (·.2.processor?) ↔ s.isSpent g p = true := by
  rw [mem_rowNumbers, isSpent_iff]
  refine exists_congr fun id => ?_
  rw [goneRows, List.mem_filter, standing?, hi, Option.bind_some]
  constructor
  · rintro ⟨hm, hgone⟩
    rw [isGone_of_row h hi hm] at hgone
    exact ⟨Table.get?_of_mem (h.standings_distinct g i hi) hm, hgone⟩
  · rintro ⟨hst, hover⟩
    have hm := Table.mem_of_get? hst
    exact ⟨hm, by rw [isGone_of_row h hi hm]; exact hover⟩

theorem forgetGone_program (h : Sound left s) (g : InstallerId) :
    (forgetGone g s).2 = { s with
      installers := s.installers.modify g s.withoutOver
      reporter := { s.reporter with
        processors := s.reporter.processors.filter fun row => !s.isSpent g row.1 } } := by
  cases hi : s.installer? g with
  | none =>
    have hm : s.installers.modify g s.withoutOver = s.installers := by
      rw [installer?] at hi
      simp only [Table.modify, hi]
    have hp : (s.reporter.processors.filter fun row => !s.isSpent g row.1) = s.reporter.processors := by
      refine List.filter_eq_self.mpr fun row _ => ?_
      simp only [isSpent, sessionsOf, hi, Option.map_none, Option.getD_none, List.any_nil, Bool.not_false]
    rw [forgetGone_of_none hi, hm, hp]
  | some i =>
    have hkeep : s.keepRows i = s.withoutOver i := by
      rw [keepRows, withoutOver, List.filter_congr fun row hm => by rw [isGone_of_row h hi hm]]
    have hm : s.installers.modify g s.keepRows = s.installers.modify g s.withoutOver := by
      rw [installer?] at hi
      simp only [Table.modify, hi, hkeep]
    have hp : s.reporter.processors.filter
        (fun row => decide (row.1 ∉ (s.goneRows i).filterMap (·.2.processor?))) =
          s.reporter.processors.filter fun row => !s.isSpent g row.1 := by
      refine List.filter_congr fun row _ => ?_
      rw [Bool.eq_iff_iff, decide_eq_true_eq, mem_goneNumbers h hi, Bool.not_eq_true', Bool.not_eq_true]
    rw [forgetGone_eq hi, hm, hp]

theorem forgetGone_count (h : Sound left s) (g : InstallerId) :
    (forgetGone g s).1 = ((s.sessionsOf g).filter s.isOver).length := by
  rw [sessionsOf]
  cases hi : s.installer? g with
  | none =>
    simp only [forgetGone, hi]
    rfl
  | some i =>
    have hrows : i.standings.rows.filter (fun row => s.isGone row.1 row.2) =
        i.standings.rows.filter fun row => s.isOver row.1 :=
      List.filter_congr fun row hm => isGone_of_row h hi hm
    simp only [forgetGone, hi, hrows, Option.map_some, Option.getD_some, Table.keys, List.filter_map,
      List.length_map]
    rfl

theorem forgets_forgetGone (h : Sound left s) (he : s.Enriched) (ha : ∀ g id, s.Assigned g id)
    (g : InstallerId) : Forgets g s (forgetGone g s).1 (forgetGone g s).2 where
  program_eq := forgetGone_program h g
  standing := standing?_forgetGone h g
  count := forgetGone_count h g
  distinct := sessionsOf_nodup h g
  known _ := mem_sessionsOf
  removed p q hm hspent := by
    obtain ⟨id, hst, hover⟩ := isSpent_iff.mp hspent
    obtain ⟨name, hname, hq⟩ := ha g id p q hst hm
    exact ⟨id, name, hst, hover, hname, hq⟩
  spared g' id p hst hno := by
    rw [← Bool.not_eq_true, isSpent_iff]
    rintro ⟨id', hst', hover⟩
    obtain ⟨rfl, rfl⟩ := he.single g' id g id' p hst hst'
    exact hno ⟨rfl, hover⟩

/-- Where nothing is over that an installer stands with, nothing is forgotten. -/
theorem forgetGone_of_none_over (h : Sound left s)
    (hnone : ∀ id, (s.standing? g id).isSome = true → s.isOver id = false) : forgetGone g s = (0, s) := by
  have hcount : (forgetGone g s).1 = 0 := by
    rw [forgetGone_count h g, List.length_eq_zero_iff, List.filter_eq_nil_iff]
    intro id hm
    rw [hnone id (mem_sessionsOf.mp hm)]
    nofun
  have hspent : ∀ p, s.isSpent g p = false := fun p => by
    rw [← Bool.not_eq_true, isSpent_iff]
    rintro ⟨id, hst, hover⟩
    rw [hnone id (by rw [hst]; rfl)] at hover
    cases hover
  have hp : (s.reporter.processors.filter fun row => !s.isSpent g row.1) = s.reporter.processors :=
    List.filter_eq_self.mpr fun row _ => by rw [hspent, Bool.not_false]
  have hm : s.installers.modify g s.withoutOver = s.installers := by
    cases hi : s.installer? g with
    | none =>
      rw [installer?] at hi
      simp only [Table.modify, hi]
    | some i =>
      refine Table.modify_of_get? hi ?_
      rw [withoutOver, List.filter_eq_self.mpr fun row hrow => ?_]
      rw [hnone row.1 (mem_sessionsOf.mp ?_), Bool.not_false]
      rw [sessionsOf, hi]
      exact List.mem_map_of_mem hrow
  refine Prod.ext hcount ?_
  rw [forgetGone_program h g, hm, hp]

theorem isOver_forgetGone (g : InstallerId) (s : Program) (id : SessionId) :
    (forgetGone g s).2.isOver id = s.isOver id := by
  obtain ⟨hs, ha, _⟩ := forgetGone_fields g s
  exact isOver_of_sessions_eq hs ha id

/-- To forget again changes nothing. -/
theorem forgetGone_forgetGone (h : Sound left s) (g : InstallerId) :
    forgetGone g (forgetGone g s).2 = (0, (forgetGone g s).2) := by
  refine forgetGone_of_none_over (h.forgetGone g) fun id hst => ?_
  rw [isOver_forgetGone]
  obtain ⟨st, hst⟩ := Option.isSome_iff_exists.mp hst
  exact (standing?_of_forgetGone h hst).1

/-- An activation begins by forgetting. -/
theorem run_ensureInstalled_forgetGone (h : Sound left s) (g : InstallerId) (id : SessionId) :
    (ensureInstalled g id).run (forgetGone g s).2 = (ensureInstalled g id).run s := by
  change ensureInstalled g id (forgetGone g s).2 = ensureInstalled g id s
  simp only [ensureInstalled, forgetGone_forgetGone h g]

/-! ## What is left alone -/

namespace LeavesAlone

theorem refl (g : InstallerId) (id : SessionId) (s : Program) : LeavesAlone g id s s :=
  ⟨rfl, fun _ _ _ hm => hm, fun x hx => ⟨x, hx, fun _ hv => hv⟩⟩

theorem trans (h : LeavesAlone g id s t) (h' : LeavesAlone g id t u) : LeavesAlone g id s u := by
  refine ⟨h'.standing.trans h.standing, fun p q hst hm => ?_, fun x hx => ?_⟩
  · exact h'.enricher p q (h.standing.trans hst) (h.enricher p q hst hm)
  · obtain ⟨y, hy, hxy⟩ := h.workers x hx
    obtain ⟨z, hz, hyz⟩ := h'.workers y hy
    exact ⟨z, hz, fun v hv => hyz v (hxy v hv)⟩

theorem forgetGone (h : Sound left s) (he : s.Enriched) (hover : s.isOver id = false)
    (g' : InstallerId) : LeavesAlone g id s (Program.forgetGone g' s).2 where
  standing := by
    by_cases hg : g = g'
    · rw [hg, standing?_forgetGone h, if_neg (by rw [hover]; nofun)]
    · rw [forgetGone_standing? fun i hi => h.standings_distinct g' i hi, if_neg hg]
  enricher p q hst hm := by
    rw [forgetGone_program h]
    refine List.mem_filter.mpr ⟨hm, ?_⟩
    rw [Bool.not_eq_true', ← Bool.not_eq_true, isSpent_iff]
    rintro ⟨id', hst', hover'⟩
    rw [(he.single g id g' id' p hst hst').2, hover'] at hover
    cases hover
  workers x hx := by
    refine ⟨x, ?_, fun _ hv => hv⟩
    rw [session?, (forgetGone_fields g' s).1]
    exact hx

/-- An activation adds to what is installed, and leaves alone what its installer stands with. -/
theorem ensureInstalled (h : Sound left s) (he : s.Enriched) (hover : s.isOver id = false)
    (hst : (s.standing? g id).isSome = true) (g' : InstallerId) (id' : SessionId) :
    LeavesAlone g id s ((Program.ensureInstalled g' id').run s).2 := by
  have hf := LeavesAlone.forgetGone h he hover g' (g := g)
  obtain ⟨r, _, hrun, _⟩ | ⟨i, r, u, hi, hfree, hin, heffect, hrun, _⟩ :=
    ensureInstalled_cases g' id' s (h.listener_lt id')
  · rw [hrun]
    exact hf
  · have hne : ¬ (g = g' ∧ id = id') := by
      rintro ⟨rfl, rfl⟩
      rw [← hf.standing, standing?, hi, Option.bind_some, hfree] at hst
      cases hst
    rw [hrun]
    refine ⟨?_, fun p q hp hm => ?_, fun x hx => ?_⟩
    · rw [standing?_after hin (by rw [hi]; rfl), if_neg hne, hf.standing]
    · have hm := hf.enricher p q hp hm
      change (p, q) ∈ u.reporter.processors
      obtain ⟨_, hrep⟩ | ⟨_, hrep⟩ := hin.reporter_cases <;> rw [hrep]
      · exact List.mem_append_left _ hm
      · exact hm
    · obtain ⟨z, hz, _⟩ := hf.workers x hx
      have hz' : (reserved (Program.forgetGone g' s).2 g' id').session? id = some z := hz
      obtain ⟨y, hy⟩ := Option.isSome_iff_exists.mp ((hin.known id).trans (by rw [hz']; rfl))
      obtain ⟨x', hx', hother, hown⟩ := heffect id y hy
      obtain rfl : x' = x := Option.some.inj (hx'.symm.trans hx)
      refine ⟨y, hy, fun v hv => ?_⟩
      by_cases hid : id = id'
      · rw [(hown hid).workers]
        exact List.mem_append_left _ hv
      · rw [show y.workers = x'.workers from (congrArg Session.workers (hother hid) :)]
        exact hv

end LeavesAlone

/-- From `s` to `t` nothing changes but what belongs to one session, and what its workers do. -/
structure SparesOthers (a : SessionId) (s t : Program) : Prop where
  installers_eq : t.installers = s.installers
  processors_eq : t.reporter.processors = s.reporter.processors
  active : ∀ id, id ≠ a → (t.active = some id ↔ s.active = some id)
  session : ∀ id, id ≠ a → (t.session? id).map Session.outline = (s.session? id).map Session.outline

namespace SparesOthers

variable {a : SessionId}

theorem leavesAlone (h : SparesOthers a s t) (hne : id ≠ a) (g : InstallerId) :
    LeavesAlone g id s t where
  standing := standing?_of_installers_eq h.installers_eq g id
  enricher p q _ hm := by
    rw [h.processors_eq]
    exact hm
  workers x hx := by
    have hs := h.session id hne
    rw [hx, Option.map_some, Option.map_eq_some_iff] at hs
    obtain ⟨y, hy, hxy⟩ := hs
    refine ⟨y, hy, fun v hv => ?_⟩
    rw [show y.workers = x.workers from (congrArg Session.workers hxy :)]
    exact hv

theorem isOver_eq (h : SparesOthers a s t) (hne : id ≠ a) : t.isOver id = s.isOver id := by
  have hs := h.session id hne
  have hactive : decide (t.active = some id) = decide (s.active = some id) :=
    decide_eq_decide.mpr (h.active id hne)
  simp only [isOver, isReachable, hasStopped, hactive]
  cases hx : s.session? id with
  | none =>
    rw [hx, Option.map_none, Option.map_eq_none_iff] at hs
    rw [hs]
  | some x =>
    rw [hx, Option.map_some, Option.map_eq_some_iff] at hs
    obtain ⟨y, hy, hxy⟩ := hs
    have hheld : y.held = x.held := (congrArg Session.held hxy :)
    have hhome : y.home = x.home := (congrArg Session.home hxy :)
    have hstopped : y.stopped = x.stopped := (congrArg Session.stopped hxy :)
    simp only [hy, hheld, hhome, hstopped, Option.any_some]

theorem release (a : SessionId) (s : Program) : SparesOthers a s (s.release a).2 := by
  refine ⟨rfl, rfl, fun _ _ => Iff.rfl, fun id hne => ?_⟩
  change ((s.modifySession a _).session? id).map Session.outline = _
  rw [session?_modifySession, if_neg hne]

theorem active_clearActive (s : Program) (hne : id ≠ a) :
    (s.clearActive a).2.active = some id ↔ s.active = some id := by
  unfold clearActive
  split
  · rename_i ha
    rw [ha]
    exact ⟨nofun, fun he => absurd (Option.some.inj he).symm hne⟩
  · exact Iff.rfl

theorem active_markStopped (s : Program) (hne : id ≠ a) :
    (markStopped a s).active = some id ↔ s.active = some id := by
  unfold markStopped
  split
  · exact Iff.rfl
  · split
    · exact Iff.rfl
    · simp only
      split
      · exact active_clearActive _ hne
      · exact Iff.rfl

theorem stop (a : SessionId) (s : Program) : SparesOthers a s (Program.stop a s).2 := by
  have hout := settle_outline a s
  refine ⟨(Narrows.stop a s).installers_eq, Steady.stop a s, fun id hne => ?_, fun id hne => ?_⟩
  · have hactive : (settle a s).2.active = s.active := (congrArg Program.active hout :)
    rw [← hactive]
    exact active_markStopped _ hne
  · change ((markStopped a _).session? id).map Session.outline = _
    rw [session?_markStopped_of_ne _ hne, session?_modifySession, if_neg hne]
    have hs := congrArg (fun u : Program => u.sessions.get? id) hout
    simp only [outline, Table.get?_map] at hs
    exact hs

end SparesOthers

end Program

namespace World

variable {w : World} {left : InstallerId → SessionId → Nat}

/-- What becomes of one session does not matter to an installation on another one that is not over,
whoever forgets or installs next. -/
theorem leavesAlone_next (hs : w.Sound left) (he : w.program.Enriched) {a id : SessionId} {g : InstallerId}
    {o : Operation} (ho : o = .stop a ∨ o = .release a) (hne : id ≠ a)
    (hover : w.program.isOver id = false) (hst : (w.program.standing? g id).isSome = true)
    {later : Operation} (hl : (∃ g', later = .forgetGone g') ∨ ∃ g' id', later = .ensureInstalled g' id') :
    LeavesAlone g id w.program (later.next (o.next w)).program := by
  have hspares : SparesOthers a w.program (o.next w).program := by
    obtain rfl | rfl := ho
    · simp only [Operation.next, through]
      split
      · exact .stop a _
      · exact ⟨rfl, rfl, fun _ _ => Iff.rfl, fun _ _ => rfl⟩
    · exact .release a _
  have hfirst := hspares.leavesAlone hne g
  have hover' : (o.next w).program.isOver id = false := by rw [hspares.isOver_eq hne, hover]
  have hst' : ((o.next w).program.standing? g id).isSome = true := by rw [hfirst.standing, hst]
  have hs' := hs.next o
  have he' := enriched_next hs he o
  obtain ⟨g', rfl⟩ | ⟨g', id', rfl⟩ := hl
  · exact forgetGone_preserves (P := LeavesAlone g id w.program) g' hfirst
      (hfirst.trans (.forgetGone hs'.program he' hover' g'))
  · exact ensureInstalled_preserves (P := LeavesAlone g id w.program) g' id' hfirst
      (hfirst.trans (.ensureInstalled hs'.program he' hover' hst' g' id'))

end World

/-- In every state that a run reaches, an installer that forgets what is gone forgets exactly the sessions
that have stopped or cannot be reached, whether it has installed on them or left them stranded, and tells
how many they were. It removes exactly the enrichers that it has installed for them; every other processor
keeps its place, and nothing else changes. A second time nothing is forgotten. An activation first does
the same. So what becomes of one session does not disturb what is installed on another one. -/
theorem forgetting_is_exact (now : Timestamp) (retention : Retention) (cs : List Command)
    (g : InstallerId) :
    let w := Command.runAll cs (initial now retention)
    let s := w.program
    let t := (forgetGone g s).2
    Forgets g s (forgetGone g s).1 t ∧ forgetGone g t = (0, t) ∧
    (∀ id, (ensureInstalled g id).run s = (ensureInstalled g id).run t ∧
      ∀ st, t.standing? g id = some st → (ensureInstalled g id).run s = (answerFor id st, t)) ∧
    ∀ (a : SessionId) (o : Operation), o = .stop a ∨ o = .release a →
      ∀ (g' : InstallerId) (id : SessionId), id ≠ a → s.isOver id = false →
        (s.standing? g' id).isSome = true → ∀ later : Operation,
          ((∃ g, later = .forgetGone g) ∨ ∃ g id, later = .ensureInstalled g id) →
            LeavesAlone g' id s (later.next (o.next w)).program := by
  intro w s t
  have hrun : w = perform (Command.allOperations cs (initial now retention)) (initial now retention) :=
    Command.runAll_eq_perform cs _
  have hinit := sound_initial now retention
  have hs := hinit.perform (Command.allOperations cs (initial now retention))
  have he := enriched_perform hinit (enriched_initial now retention)
    (Command.allOperations cs (initial now retention))
  have ha := assigned_perform hinit (enriched_initial now retention) (assigned_initial now retention)
    (Command.allOperations cs (initial now retention))
  rw [← hrun] at hs he ha
  refine ⟨forgets_forgetGone hs.program he ha g, forgetGone_forgetGone hs.program g, fun id => ⟨?_, ?_⟩, ?_⟩
  · exact (run_ensureInstalled_forgetGone hs.program g id).symm
  · exact fun st hst => run_ensureInstalled_of_standing hst
  · intro a o ho g' id hne hover hst later hl
    exact leavesAlone_next hs he ho hne hover hst hl

/-- Two installers, and five sessions: the first installer has installed on three of them, of which one has
stopped and one cannot be reached any more, and has left two stranded, of which one has stopped. -/
def mixedRun : List Command :=
  [.operation (.newInstaller .standard), .operation (.newInstaller .standard),
    .operation (.start ⟨⟨0⟩⟩ (.standard none) .sound false),
    .operation (.start ⟨⟨1⟩⟩ (.standard none) .sound false),
    .operation (.start ⟨⟨2⟩⟩ (.standard none) .sound false),
    .operation (.start ⟨⟨3⟩⟩ (.standard none) .stuck false),
    .operation (.start ⟨⟨4⟩⟩ (.standard none) .stuck false),
    .operation (.ensureInstalled ⟨0⟩ ⟨⟨0⟩⟩), .operation (.ensureInstalled ⟨0⟩ ⟨⟨1⟩⟩),
    .operation (.ensureInstalled ⟨1⟩ ⟨⟨1⟩⟩), .operation (.ensureInstalled ⟨0⟩ ⟨⟨2⟩⟩),
    .operation (.ensureInstalled ⟨1⟩ ⟨⟨0⟩⟩), .operation (.ensureInstalled ⟨0⟩ ⟨⟨3⟩⟩),
    .operation (.ensureInstalled ⟨0⟩ ⟨⟨4⟩⟩), .operation (.stop ⟨⟨1⟩⟩), .operation (.stop ⟨⟨3⟩⟩),
    .operation (.release ⟨⟨2⟩⟩)]

/-- Three sessions are forgotten and two enrichers removed. The stranded session that runs stays stranded,
and stopping it leaves alone what the second installer has installed. -/
theorem mixed_sessions_are_forgotten :
    let w := Command.runAll mixedRun (initial .epoch .standard)
    let s := w.program
    let t := (forgetGone ⟨0⟩ s).2
    s.standing? ⟨0⟩ ⟨⟨1⟩⟩ = some (.installed ⟨1⟩) ∧ s.hasStopped ⟨⟨1⟩⟩ = true ∧
      s.standing? ⟨0⟩ ⟨⟨2⟩⟩ = some (.installed ⟨3⟩) ∧ s.isReachable ⟨⟨2⟩⟩ = false ∧
      s.standing? ⟨0⟩ ⟨⟨3⟩⟩ = some .stranded ∧ s.hasStopped ⟨⟨3⟩⟩ = true ∧
      Forgets ⟨0⟩ s 3 t ∧ t.reporter.processors.map (·.1.val) = [0, 2, 4] ∧ forgetGone ⟨0⟩ t = (0, t) ∧
      (ensureInstalled ⟨0⟩ ⟨⟨4⟩⟩).run s = (.failed (.stranded ⟨⟨4⟩⟩), t) ∧
      LeavesAlone ⟨1⟩ ⟨⟨0⟩⟩ s
        ((Operation.ensureInstalled ⟨0⟩ ⟨⟨0⟩⟩).next ((Operation.stop ⟨⟨4⟩⟩).next w)).program := by
  intro w s t
  have hstopped : s.standing? ⟨0⟩ ⟨⟨1⟩⟩ = some (.installed ⟨1⟩) ∧ s.hasStopped ⟨⟨1⟩⟩ = true := by decide
  have hlost : s.standing? ⟨0⟩ ⟨⟨2⟩⟩ = some (.installed ⟨3⟩) ∧ s.isReachable ⟨⟨2⟩⟩ = false := by decide
  have hstuck : s.standing? ⟨0⟩ ⟨⟨3⟩⟩ = some .stranded ∧ s.hasStopped ⟨⟨3⟩⟩ = true := by decide
  have hcount : (forgetGone ⟨0⟩ s).1 = 3 := by decide
  have hleft : t.reporter.processors.map (·.1.val) = [0, 2, 4] := by decide
  have hstranded : t.standing? ⟨0⟩ ⟨⟨4⟩⟩ = some .stranded := by decide
  have hover : s.isOver ⟨⟨0⟩⟩ = false := by decide
  have hother : (s.standing? ⟨1⟩ ⟨⟨0⟩⟩).isSome = true := by decide
  obtain ⟨hforgets, hagain, hactivation, halone⟩ := forgetting_is_exact .epoch .standard mixedRun ⟨0⟩
  rw [hcount] at hforgets
  refine ⟨hstopped.1, hstopped.2, hlost.1, hlost.2, hstuck.1, hstuck.2, hforgets, hleft, hagain, ?_, ?_⟩
  · exact (hactivation ⟨⟨4⟩⟩).2 .stranded hstranded
  · exact halone ⟨⟨4⟩⟩ _ (.inl rfl) ⟨1⟩ ⟨⟨0⟩⟩ (by decide) hover hother _ (.inr ⟨⟨0⟩, ⟨⟨0⟩⟩, rfl⟩)

end SessionTrail
