import SessionTrail.Proofs.Attempt

/-!
# How installers stand with sessions

What forgetting and installing do to the standings, and to all else.
-/
namespace SessionTrail.Program

/-- How an installer stands with a session. -/
def standing? (s : Program) (g : InstallerId) (id : SessionId) : Option Standing :=
  (s.installer? g).bind (·.standings.get? id)

/-- Whether a session has stopped or cannot be reached any more. -/
def isOver (s : Program) (id : SessionId) : Bool := !s.isReachable id || s.hasStopped id

/-! ## Forgetting -/

/-- The rows that an installer forgets. -/
def goneRows (s : Program) (i : Installer) : List (SessionId × Standing) :=
  i.standings.rows.filter fun row => s.isGone row.1 row.2

/-- An installer without the rows that it forgets. -/
def keepRows (s : Program) (i : Installer) : Installer :=
  { i with standings := ⟨i.standings.rows.filter fun row => !s.isGone row.1 row.2⟩ }

theorem foldl_unregister (ps : List ProcessorId) (s : Program) :
    ps.foldl (fun s p => (s.unregister p).2) s =
      { s with reporter := { s.reporter with
        processors := s.reporter.processors.filter (·.1 ∉ ps) } } := by
  induction ps generalizing s with
  | nil =>
    have h : s.reporter.processors.filter (·.1 ∉ ([] : List ProcessorId)) = s.reporter.processors := by
      simp
    rw [List.foldl_nil, h]
  | cons p rest ih =>
    rw [List.foldl_cons, ih]
    simp only [unregister, Reporter.unregister, List.filter_filter, List.mem_cons, not_or]
    congr 3
    funext row
    simp [Bool.and_comm]

/-- Forgetting changes the standings of one installer and removes the enrichers that go with them. -/
theorem forgetGone_eq {g : InstallerId} {s : Program} {i : Installer} (hi : s.installer? g = some i) :
    (forgetGone g s).2 =
      { s with
        installers := s.installers.modify g s.keepRows
        reporter := { s.reporter with
          processors := s.reporter.processors.filter
            (·.1 ∉ (s.goneRows i).filterMap (·.2.processor?)) } } := by
  have hk : s.installers.modify g s.keepRows = s.installers.modify g fun j =>
      { j with standings := ⟨i.standings.rows.filter fun row => !s.isGone row.1 row.2⟩ } := by
    simp only [installer?] at hi
    simp only [Table.modify, hi, keepRows]
  unfold forgetGone
  simp only [hi, foldl_unregister, modifyInstaller, hk, goneRows]
  rfl

theorem forgetGone_of_none {g : InstallerId} {s : Program} (hi : s.installer? g = none) :
    (forgetGone g s).2 = s := by
  simp only [forgetGone, hi]

theorem forgetGone_fields (g : InstallerId) (s : Program) :
    (forgetGone g s).2.sessions = s.sessions ∧ (forgetGone g s).2.active = s.active ∧
      (forgetGone g s).2.listeners = s.listeners ∧ (forgetGone g s).2.now = s.now ∧
      (forgetGone g s).2.integrations = s.integrations ∧ (forgetGone g s).2.recorded = s.recorded := by
  cases hi : s.installer? g with
  | none =>
    rw [forgetGone_of_none hi]
    exact ⟨rfl, rfl, rfl, rfl, rfl, rfl⟩
  | some i =>
    rw [forgetGone_eq hi]
    exact ⟨rfl, rfl, rfl, rfl, rfl, rfl⟩

theorem standing?_of_installers_eq {s t : Program} (h : s.installers = t.installers)
    (g : InstallerId) (id : SessionId) : s.standing? g id = t.standing? g id := by
  simp only [standing?, installer?, h]

theorem forgetGone_standing? {s : Program} {g : InstallerId}
    (hd : ∀ i, s.installer? g = some i → i.standings.Distinct) (g' : InstallerId) (id : SessionId) :
    (forgetGone g s).2.standing? g' id =
      if g' = g then (s.standing? g id).filter fun st => !s.isGone id st else s.standing? g' id := by
  cases hi : s.installer? g with
  | none =>
    rw [forgetGone_of_none hi]
    split
    · rename_i h
      rw [h, standing?, hi, Option.bind_none, Option.filter_none]
    · rfl
  | some i =>
    have hg := hi
    simp only [installer?] at hg
    rw [forgetGone_eq hi]
    simp only [standing?, installer?, Table.get?_modify]
    split
    · rename_i h
      rw [h, hg, Option.map_some, Option.bind_some, Option.bind_some]
      exact Table.get?_filter (hd i hi) _ id
    · rfl

theorem isGone_eq (s : Program) (id : SessionId) {st : Standing} (h : st ≠ .installing) :
    s.isGone id st = s.isOver id := by
  simp only [isGone, isOver, bne_iff_ne.mpr h, Bool.true_and]

theorem forgetGone_installers_length (g : InstallerId) (s : Program) :
    (forgetGone g s).2.installers.rows.length = s.installers.rows.length := by
  cases hi : s.installer? g with
  | none => rw [forgetGone_of_none hi]
  | some i =>
    rw [forgetGone_eq hi]
    exact Table.length_modify _ _ _

theorem installer?_forgetGone_of_ne {g g' : InstallerId} (h : g' ≠ g) (s : Program) :
    (forgetGone g s).2.installer? g' = s.installer? g' := by
  cases hi : s.installer? g with
  | none => rw [forgetGone_of_none hi]
  | some i =>
    rw [forgetGone_eq hi]
    simp only [installer?, Table.get?_modify, if_neg h]

theorem installer?_forgetGone_self {g : InstallerId} {s : Program} {i : Installer}
    (hi : s.installer? g = some i) : (forgetGone g s).2.installer? g = some (s.keepRows i) := by
  rw [forgetGone_eq hi, installer?, Table.get?_modify, if_pos rfl]
  exact congrArg (Option.map s.keepRows) hi

theorem isSome_installer?_forgetGone (g g' : InstallerId) (s : Program) :
    ((forgetGone g s).2.installer? g').isSome = (s.installer? g').isSome := by
  cases hi : s.installer? g with
  | none => rw [forgetGone_of_none hi]
  | some i =>
    rw [forgetGone_eq hi]
    simp only [installer?, Table.get?_modify]
    split
    · rw [Option.isSome_map]
    · rfl

theorem installer?_newInstaller (s : Program) (config : Config) (g : InstallerId) :
    (s.newInstaller config).2.installer? g =
      if g = (s.newInstaller config).1 then some { config } else s.installer? g :=
  Table.get?_set s.installers _ g _

/-! ## Installing -/

/-- How an installer stands with a session behind an installation. -/
def standingAfter : Outcome InstallFailure ProcessorId → Option Standing
  | .done p => some (.installed p)
  | .failed f => if f.stranded then some .stranded else none
  | .crashed => none

/-- What a caller is told behind an installation. -/
def replyAfter : Outcome InstallFailure ProcessorId → Outcome InstallError InstallReply
  | .done _ => .done .installed
  | .failed f => .failed (.session f.error)
  | .crashed => .crashed

/-- What a caller is told of a session that an installer stands with. -/
def answerFor (id : SessionId) : Standing → Outcome InstallError InstallReply
  | .installing => .done .waiting
  | .installed _ => .done .alreadyInstalled
  | .stranded => .failed (.stranded id)

theorem run_ensureInstalled_of_none {g : InstallerId} {s : Program} (id : SessionId)
    (hi : s.installer? g = none) : (ensureInstalled g id).run s = (.done .waiting, s) := by
  have hf := forgetGone_of_none hi
  change ensureInstalled g id s = _
  simp only [ensureInstalled, hf, reserve, hi]

/-- What is answered to a caller that wants to reserve a session with which an installer stands. -/
def reservationFor : Standing → Reservation
  | .installing => .waiting
  | .installed _ => .installed
  | .stranded => .stranded

theorem reserve_of_standing {g : InstallerId} {id : SessionId} {s : Program} {st : Standing}
    (h : s.standing? g id = some st) : reserve g id s = (reservationFor st, s) := by
  simp only [standing?, Option.bind_eq_some_iff] at h
  obtain ⟨i, hi, hs⟩ := h
  cases st <;> simp only [reserve, hi, hs, reservationFor]

theorem reserve_of_free {g : InstallerId} {id : SessionId} {s : Program} {i : Installer}
    (hi : s.installer? g = some i) (hs : i.standings.get? id = none) :
    reserve g id s = (.granted i.config, setStanding g id (some .installing) s) := by
  simp only [reserve, hi, hs, setStanding]

/-- A session that an installer stands with is left alone. -/
theorem run_ensureInstalled_of_standing {g : InstallerId} {id : SessionId} {s : Program}
    {st : Standing} (h : (forgetGone g s).2.standing? g id = some st) :
    (ensureInstalled g id).run s = (answerFor id st, (forgetGone g s).2) := by
  have hr := reserve_of_standing h
  change ensureInstalled g id s = _
  cases st <;> simp only [ensureInstalled, hr, reservationFor, answerFor]

/-- What becomes of an installation is written down. -/
theorem run_installReserved (g : InstallerId) (config : Config) (id : SessionId) (s : Program) :
    let r := (install g config id).run s
    (installReserved g config id).run s =
      (replyAfter r.1, setStanding g id (standingAfter r.1) r.2) := by
  intro r
  change installReserved g config id s = _
  unfold installReserved
  simp only [r]
  rcases (install g config id).run s with ⟨_ | _ | _, t⟩ <;> rfl

/-- Any other session is reserved, and what becomes of the installation is written down. -/
theorem run_ensureInstalled_of_free {g : InstallerId} {id : SessionId} {s : Program} {i : Installer}
    (hi : (forgetGone g s).2.installer? g = some i) (hs : i.standings.get? id = none) :
    let r := (install g i.config id).run (setStanding g id (some .installing) (forgetGone g s).2)
    (ensureInstalled g id).run s = (replyAfter r.1, setStanding g id (standingAfter r.1) r.2) := by
  intro r
  change ensureInstalled g id s = _
  simp only [ensureInstalled, reserve_of_free hi hs]
  exact run_installReserved g i.config id _

/-! ## Writing standings down -/

theorem installer?_setStanding (s : Program) (g g' : InstallerId) (id : SessionId)
    (st : Option Standing) :
    (setStanding g id st s).installer? g' =
      if g' = g then
        (s.installer? g').map fun i =>
          { i with standings := match st with
            | some st => i.standings.set id st
            | none => i.standings.erase id }
      else s.installer? g' :=
  Table.get?_modify s.installers g g' _

theorem isSome_installer?_setStanding (s : Program) (g g' : InstallerId) (id : SessionId)
    (st : Option Standing) :
    ((setStanding g id st s).installer? g').isSome = (s.installer? g').isSome := by
  rw [installer?_setStanding]
  split
  · rw [Option.isSome_map]
  · rfl

theorem setStanding_installers_length (s : Program) (g : InstallerId) (id : SessionId)
    (st : Option Standing) :
    (setStanding g id st s).installers.rows.length = s.installers.rows.length :=
  Table.length_modify _ _ _

theorem standing?_setStanding {s : Program} {g : InstallerId}
    (hi : (s.installer? g).isSome = true) (id : SessionId) (st : Option Standing)
    (g' : InstallerId) (id' : SessionId) :
    (setStanding g id st s).standing? g' id' =
      if g' = g ∧ id' = id then st else s.standing? g' id' := by
  simp only [standing?, installer?_setStanding]
  by_cases hg : g' = g
  · obtain ⟨i, hi⟩ := Option.isSome_iff_exists.mp hi
    rw [hg, if_pos rfl, hi, Option.map_some, Option.bind_some, Option.bind_some]
    by_cases hid : id' = id
    · rw [if_pos ⟨rfl, hid⟩, hid]
      cases st with
      | none => simp only [Table.get?_erase, if_true]
      | some st => exact Table.get?_set_self i.standings id st
    · rw [if_neg fun h => hid h.2]
      cases st with
      | none => simp only [Table.get?_erase, hid, if_false]
      | some st => exact Table.get?_set_of_ne i.standings st hid
  · rw [if_neg hg, if_neg fun h => hg h.1]

/-- Only what is written down last counts. -/
theorem setStanding_setStanding (s : Program) (g : InstallerId) (id : SessionId) (first : Standing)
    (st : Option Standing) :
    setStanding g id st (setStanding g id (some first) s) = setStanding g id st s := by
  cases st with
  | none => simp only [setStanding, modifyInstaller, Table.modify_modify, Table.erase_set]
  | some st => simp only [setStanding, modifyInstaller, Table.modify_modify, Table.set_set]

theorem setStanding_of_reserved (t : Program) (g : InstallerId) (id : SessionId)
    (st : Option Standing) (sessions : Table SessionId Session) (listeners : Nat) :
    setStanding g id st { setStanding g id (some .installing) t with sessions, listeners } =
      { setStanding g id st t with sessions, listeners } := by
  rw [← setStanding_setStanding t g id .installing st]
  rfl

theorem setStanding_of_free {s : Program} {g : InstallerId} {id : SessionId} {i : Installer}
    (hi : s.installer? g = some i) (hs : i.standings.get? id = none) :
    setStanding g id none s = s := by
  have hm : s.installers.modify g (fun j => { j with standings := j.standings.erase id }) =
      s.installers := by
    refine Table.modify_of_get? hi ?_
    rw [Table.erase_of_get?_eq_none hs]
  simp only [setStanding, modifyInstaller, hm]

theorem distinct_setStanding {s : Program} {g' : InstallerId}
    (hd : ∀ i, s.installer? g' = some i → i.standings.Distinct) (g : InstallerId) (id : SessionId)
    (st : Option Standing) (i : Installer) (hi : (setStanding g id st s).installer? g' = some i) :
    i.standings.Distinct := by
  rw [installer?_setStanding] at hi
  split at hi
  · obtain ⟨j, hj, rfl⟩ := Option.map_eq_some_iff.mp hi
    cases st with
    | none => exact (hd j hj).erase id
    | some st => exact (hd j hj).set id st
  · exact hd i hi

/-! ## The whole attempt -/

/-- The program in which an installation on a reserved session has made its listener. -/
def reserved (s : Program) (g : InstallerId) (id : SessionId) : Program :=
  { setStanding g id (some .installing) s with listeners := s.listeners + 1 }

/-- The listener that an installer makes for a session. -/
def nextListener (s : Program) (g : InstallerId) (i : Installer) : Listener :=
  ⟨⟨s.listeners⟩, .trail i.config.keyPrefix, some g⟩

/-- The enricher that an installer registers for a session. -/
def nextEnricher (i : Installer) (id : SessionId) : Enricher := ⟨id, i.config.integration, false⟩

/-- What is known of an attempt that installs: its installer did not stand with the session, the
installation ended as `r` says in `u`, and what came of it is written down. -/
structure Attempted (g : InstallerId) (id : SessionId) (s : Program) (i : Installer)
    (r : Outcome InstallFailure ProcessorId) (u : Program) : Prop where
  installer_eq : (forgetGone g s).2.installer? g = some i
  free : i.standings.get? id = none
  installs : Installs id (nextListener (forgetGone g s).2 g i) (nextEnricher i id)
    (reserved (forgetGone g s).2 g id) r u
  effect : ∀ id' y, u.session? id' = some y → ∃ x, s.session? id' = some x ∧
    (id' ≠ id → y.core = x.core) ∧
    (id' = id → InstallEffect (nextListener (forgetGone g s).2 g i) r x y)
  run_eq : (ensureInstalled g id).run s = (replyAfter r, setStanding g id (standingAfter r) u)
  install_eq : (install g i.config id).run (setStanding g id (some .installing) (forgetGone g s).2) =
    (r, u)

theorem attempted_of_free {g : InstallerId} {id : SessionId} {s : Program} {i : Installer}
    (hfresh : ∀ x, s.session? id = some x → ∀ w ∈ x.workers, w.listener.id.val < s.listeners)
    (hi : (forgetGone g s).2.installer? g = some i) (hs : i.standings.get? id = none) :
    ∃ r u, Attempted g id s i r u := by
  obtain ⟨hsess, _, hl, _⟩ := forgetGone_fields g s
  have hq : ∀ id', (reserved (forgetGone g s).2 g id).session? id' = s.session? id' :=
    fun id' => congrArg (Table.get? · id') hsess
  have hin := install_ends g i.config id
    (setStanding g id (some .installing) (forgetGone g s).2) fun x hx w hw => by
      have hlt := hfresh x ((hq id).symm.trans hx) w hw
      simpa only [setStanding, modifyInstaller, hl] using hlt
  refine ⟨_, _, hi, hs, hin, fun id' y hy => ?_, run_ensureInstalled_of_free hi hs, rfl⟩
  rw [← hq]
  refine hin.effect (fun x hx w hw he => ?_) hy
  have hlt := hfresh x ((hq id).symm.trans hx) w hw
  rw [he] at hlt
  exact absurd hl (Nat.ne_of_lt hlt)

/-- An attempt forgets what is gone. Then it finds no installer, or one that stands with the session
already, or it installs and writes down what came of it. -/
theorem ensureInstalled_ends (g : InstallerId) (id : SessionId) (s : Program)
    (hfresh : ∀ x, s.session? id = some x → ∀ w ∈ x.workers, w.listener.id.val < s.listeners) :
    (s.installer? g = none ∧ (ensureInstalled g id).run s = (.done .waiting, s)) ∨
    (∃ st, (forgetGone g s).2.standing? g id = some st ∧
      (ensureInstalled g id).run s = (answerFor id st, (forgetGone g s).2)) ∨
    ∃ i r u, Attempted g id s i r u := by
  cases hi : (forgetGone g s).2.installer? g with
  | none =>
    have hn : s.installer? g = none := by
      rw [← Option.isNone_iff_eq_none, ← Option.not_isSome, ← isSome_installer?_forgetGone g g, hi]
      rfl
    exact .inl ⟨hn, run_ensureInstalled_of_none id hn⟩
  | some i =>
    right
    cases hs : i.standings.get? id with
    | some st =>
      have hst : (forgetGone g s).2.standing? g id = some st := by
        simp only [standing?, hi, Option.bind_some, hs]
      exact .inl ⟨st, hst, run_ensureInstalled_of_standing hst⟩
    | none => exact .inr ⟨i, attempted_of_free hfresh hi hs⟩

/-- An attempt that has forgotten what is gone leaves a session alone, or it installs and writes down
what came of it. -/
theorem ensureInstalled_cases (g : InstallerId) (id : SessionId) (s : Program)
    (hfresh : ∀ x, s.session? id = some x → ∀ w ∈ x.workers, w.listener.id.val < s.listeners) :
    (∃ r, r ≠ .crashed ∧ (ensureInstalled g id).run s = (r, (forgetGone g s).2) ∧
      ((forgetGone g s).2.installer? g = none ∨
        ((forgetGone g s).2.standing? g id).isSome = true)) ∨
    ∃ i r u, Attempted g id s i r u := by
  obtain ⟨hn, hrun⟩ | ⟨st, hst, hrun⟩ | h := ensureInstalled_ends g id s hfresh
  · left
    refine ⟨.done .waiting, by decide, ?_, .inl ?_⟩
    · rw [hrun, forgetGone_of_none hn]
    · rw [forgetGone_of_none hn, hn]
  · left
    refine ⟨_, ?_, hrun, .inr ?_⟩
    · cases st <;> nofun
    · rw [hst, Option.isSome_some]
  · exact .inr h

/-! ## What an installation leaves of the standings -/

section

variable {t u : Program} {g : InstallerId} {id : SessionId} {l : Listener} {e : Enricher}
  {r : Outcome InstallFailure ProcessorId}

theorem installer?_reserved (t : Program) (g g' : InstallerId) (id : SessionId) :
    (reserved t g id).installer? g' = (setStanding g id (some .installing) t).installer? g' := rfl

theorem installer?_of_installs (h : Installs id l e (reserved t g id) r u) (g' : InstallerId) :
    u.installer? g' = (setStanding g id (some .installing) t).installer? g' := by
  rw [← installer?_reserved]
  simp only [installer?, h.fields.1]

theorem isSome_installer?_after (h : Installs id l e (reserved t g id) r u) (g' : InstallerId) :
    ((setStanding g id (standingAfter r) u).installer? g').isSome = (t.installer? g').isSome := by
  rw [isSome_installer?_setStanding, installer?_of_installs h, isSome_installer?_setStanding]

theorem installers_length_after (h : Installs id l e (reserved t g id) r u) :
    (setStanding g id (standingAfter r) u).installers.rows.length = t.installers.rows.length := by
  have hr : (reserved t g id).installers.rows.length = t.installers.rows.length :=
    setStanding_installers_length t g id (some .installing)
  rw [setStanding_installers_length, h.fields.1, hr]

theorem distinct_after (h : Installs id l e (reserved t g id) r u)
    (hd : ∀ g i, t.installer? g = some i → i.standings.Distinct) (g' : InstallerId) (i : Installer)
    (hi : (setStanding g id (standingAfter r) u).installer? g' = some i) : i.standings.Distinct := by
  refine distinct_setStanding (fun j hj => ?_) g id _ i hi
  rw [installer?_of_installs h] at hj
  exact distinct_setStanding (hd g') g id _ j hj

/-- Only how the installer stands with its session has changed behind an installation. -/
theorem standing?_after (h : Installs id l e (reserved t g id) r u)
    (hi : (t.installer? g).isSome = true) (g' : InstallerId) (id' : SessionId) :
    (setStanding g id (standingAfter r) u).standing? g' id' =
      if g' = g ∧ id' = id then standingAfter r else t.standing? g' id' := by
  have hu : (u.installer? g).isSome = true := by
    rw [installer?_of_installs h, isSome_installer?_setStanding]
    exact hi
  rw [standing?_setStanding hu]
  split
  · rfl
  · rename_i hne
    have hs : u.standing? g' id' = (setStanding g id (some .installing) t).standing? g' id' := by
      simp only [standing?, installer?_of_installs h]
    rw [hs, standing?_setStanding hi, if_neg hne]

end

end SessionTrail.Program
