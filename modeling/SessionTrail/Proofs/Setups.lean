import Mathlib.Algebra.Ring.Nat
import SessionTrail.Proofs.Calm
import SessionTrail.Proofs.Enrichers

/-!
# Set-ups of an integration

Every set-up that has none to keep makes an installer. One that fails throws its installer away, and
with it what that has written down: of a session that it has left stranded the next installer knows
nothing.
-/
namespace SessionTrail

open Program World

/-- Whether an activation ends with an error or a crash. -/
def Activation.fails (a : Activation) : Bool :=
  match a.run.1 with
  | .done _ => false
  | .failed _ | .crashed => true

/-- Whether an activation leaves its session stranded. -/
def Activation.strands (a : Activation) : Bool :=
  a.run.2.standing? a.installer a.session = some .stranded

/-- The set-ups of an integration that fail. -/
def Operation.failures (i : IntegrationId) : Operation → World → List Activation
  | .setUp j, w => if j = i then ((Operation.setUp j).activations w).filter Activation.fails else []
  | _, _ => []

/-- The installer that an integration keeps. -/
def Program.kept? (s : Program) (i : IntegrationId) : Option InstallerId :=
  (s.integrations.get? i).bind (·.installer)

/-- The installers that an integration has had: those of its set-ups that failed, and the one that it
keeps. -/
def hadInstallers (failures : List Activation) (kept : Option InstallerId) : List InstallerId :=
  failures.map (·.installer) ++ kept.toList

/-- The number of a session's workers whose listeners some installers made. -/
def Session.attachedByAny (x : Session) (gs : List InstallerId) : Nat :=
  x.workers.countP fun v => gs.any fun g => v.listener.owner = some g

/-- The enrichers of a session that some installers have registered. -/
def Program.enrichersOf (s : Program) (gs : List InstallerId) (id : SessionId) :
    List (ProcessorId × Processor) :=
  s.reporter.processors.filter fun row =>
    match row.2 with
    | .enricher e => e.session = id && gs.any fun g => s.standing? g id = some (.installed row.1)
    | .rule _ => false

/-! ## Counting -/

/-- No two processors have the same number. -/
theorem Program.length_enrichersOf_of_number {s : Program} (hn : s.reporter.Numbered)
    {gs : List InstallerId} {id : SessionId}
    (h : ∀ a ∈ s.enrichersOf gs id, ∀ b ∈ s.enrichersOf gs id, a.1 = b.1) :
    (s.enrichersOf gs id).length ≤ 1 := by
  have hd : ((s.enrichersOf gs id).map (·.1)).Nodup := hn.distinct.sublist (List.filter_sublist.map _)
  rcases hl : s.enrichersOf gs id with _ | ⟨a, _ | ⟨b, rest⟩⟩
  · exact Nat.zero_le _
  · exact Nat.le_refl _
  · rw [hl] at h hd
    have hab := h a List.mem_cons_self b (List.mem_cons_of_mem _ List.mem_cons_self)
    simp [hab] at hd

theorem Program.mem_enrichersOf {s : Program} {g : InstallerId} {p : ProcessorId} {e : Enricher}
    (hm : (p, .enricher e) ∈ s.reporter.processors)
    (hst : s.standing? g e.session = some (.installed p)) :
    (p, .enricher e) ∈ s.enrichersOf [g] e.session :=
  List.mem_filter.mpr ⟨hm, by simp [hst]⟩

/-- An installer that stands with a session has the one enricher that it has registered for it. -/
theorem Program.length_enrichersOf_of_installed {s : Program} (hn : s.reporter.Numbered)
    {g : InstallerId} {p : ProcessorId} {e : Enricher} (hm : (p, .enricher e) ∈ s.reporter.processors)
    (hst : s.standing? g e.session = some (.installed p)) :
    (s.enrichersOf [g] e.session).length = 1 := by
  have hrow : ∀ row ∈ s.enrichersOf [g] e.session, row.1 = p := by
    intro row hrow
    obtain ⟨_, hrow⟩ := List.mem_filter.mp hrow
    rcases hq : row.2 with e' | r <;> simp only [hq] at hrow
    · simp only [List.any_cons, List.any_nil, Bool.or_false, Bool.and_eq_true, decide_eq_true_eq] at hrow
      have hp := hst.symm.trans hrow.2
      simp only [Option.some.injEq, Standing.installed.injEq] at hp
      exact hp.symm
    · cases hrow
  have hle := length_enrichersOf_of_number hn fun a ha b hb => (hrow a ha).trans (hrow b hb).symm
  have hpos := List.length_pos_of_mem (mem_enrichersOf hm hst)
  omega

theorem Session.attachedByAny_cons (x : Session) {g : InstallerId} {gs : List InstallerId}
    (hg : g ∉ gs) : x.attachedByAny (g :: gs) = x.attachedBy g + x.attachedByAny gs := by
  simp only [attachedByAny, attachedBy, List.any_cons]
  induction x.workers with
  | nil => rfl
  | cons v rest ih =>
    rw [List.countP_cons, List.countP_cons, List.countP_cons, ih]
    by_cases hv : v.listener.owner = some g
    · have hno : (gs.any fun g' => decide (v.listener.owner = some g')) = false := by
        rw [List.any_eq_false]
        intro g' hg' he
        rw [decide_eq_true_eq, hv, Option.some.injEq] at he
        exact hg (he ▸ hg')
      simp only [hv] at hno ⊢
      simp only [hno, decide_true, Bool.true_or, if_true, Bool.false_eq_true, if_false]
      omega
    · simp only [hv, decide_false, Bool.false_or, Bool.false_eq_true, if_false]
      omega

/-- Listeners of different installers are counted one installer after another. -/
theorem Session.attachedByAny_eq_sum (x : Session) {gs : List InstallerId} (h : gs.Nodup) :
    x.attachedByAny gs = (gs.map x.attachedBy).sum := by
  induction gs with
  | nil => simp [attachedByAny]
  | cons g rest ih =>
    obtain ⟨hg, hr⟩ := List.nodup_cons.mp h
    rw [x.attachedByAny_cons hg, ih hr, List.map_cons, List.sum_cons]

theorem sum_indicator {α : Type} (p : α → Prop) [DecidablePred p] (l : List α) :
    (l.map fun a => if p a then 1 else 0).sum = l.countP (p ·) := by
  induction l with
  | nil => rfl
  | cons a rest ih =>
    rw [List.map_cons, List.sum_cons, ih, List.countP_cons]
    simp only [decide_eq_true_eq]
    omega

/-! ## Installers that nobody holds -/

namespace World

/-- From `w` to `v` nothing happens to the installers that nobody holds, nobody gets hold of one, and
integrations keep only installers that somebody holds. -/
structure Spares (w v : World) : Prop where
  unheld : ∀ g, (w.program.installer? g).isSome = true → g ∉ w.installers →
    v.program.installer? g = w.program.installer? g ∧ g ∉ v.installers
  made : ∀ g, (w.program.installer? g).isSome = true → (v.program.installer? g).isSome = true
  grows : ∀ g ∈ w.installers, g ∈ v.installers
  held : ∀ g ∈ v.installers, g ∈ w.installers ∨ (v.program.installer? g).isSome = true
  kept : ∀ j g, v.program.kept? j = some g → w.program.kept? j = some g ∨ g ∈ v.installers

namespace Spares

variable {w v : World} {left : InstallerId → SessionId → Nat}

/-- Only an installer that somebody holds changes. -/
theorem of_modify (g : InstallerId) (hg : g ∈ w.installers) (hv : v.installers = w.installers)
    (hi : ∀ g', (v.program.installer? g').isSome = (w.program.installer? g').isSome)
    (hne : ∀ g', g' ≠ g → v.program.installer? g' = w.program.installer? g')
    (hj : v.program.integrations = w.program.integrations) : Spares w v := by
  refine ⟨fun g' _ hn => ⟨hne g' fun he => hn (he ▸ hg), hv ▸ hn⟩, fun g' hs => (hi g').trans hs,
    fun g' h => hv ▸ h, fun g' h => .inl (hv ▸ h), fun j g' hk => .inl ?_⟩
  simpa only [kept?, hj] using hk

theorem of_eq (hv : v.installers = w.installers) (hi : v.program.installers = w.program.installers)
    (hj : v.program.integrations = w.program.integrations) : Spares w v := by
  have hq : ∀ g, v.program.installer? g = w.program.installer? g := fun g => by
    simp only [installer?, hi]
  refine ⟨fun g _ hn => ⟨hq g, hv ▸ hn⟩, fun g hs => hq g ▸ hs, fun g h => hv ▸ h,
    fun g h => .inl (hv ▸ h), fun j g hk => .inl ?_⟩
  simpa only [kept?, hj] using hk

end Spares

end World

namespace Program

variable {left : InstallerId → SessionId → Nat} {s : Program}

/-- An activation is the business of its own installer, and of no integration. -/
theorem ensureInstalled_spares (hs : Sound left s) (g : InstallerId) (id : SessionId) :
    (∀ g', (((ensureInstalled g id).run s).2.installer? g').isSome = (s.installer? g').isSome) ∧
      (∀ g', g' ≠ g → ((ensureInstalled g id).run s).2.installer? g' = s.installer? g') ∧
        ((ensureInstalled g id).run s).2.integrations = s.integrations := by
  obtain ⟨_, _, _, _, hj, _⟩ := forgetGone_fields g s
  obtain ⟨r, _, hrun, _⟩ | ⟨i, r, u, _, _, hin, _, hrun⟩ :=
    ensureInstalled_cases g id s (hs.listener_lt id)
  · rw [hrun]
    exact ⟨fun g' => isSome_installer?_forgetGone g g' s,
      fun g' hne => installer?_forgetGone_of_ne hne s, hj⟩
  · rw [hrun]
    refine ⟨fun g' => ?_, fun g' hne => ?_, hin.fields.2.2.2.trans hj⟩
    · exact (isSome_installer?_after hin g').trans (isSome_installer?_forgetGone g g' s)
    · rw [installer?_setStanding, if_neg hne, installer?_of_installs hin, installer?_setStanding,
        if_neg hne, installer?_forgetGone_of_ne hne]

end Program

namespace World

variable {w : World} {left : InstallerId → SessionId → Nat}

theorem installers_next_of_idle {o : Operation} (ho : o.isIdle = true) :
    (o.next w).installers = w.installers := by
  cases o with
  | stop | read | write | post | makeActive => exact installers_through w _ _
  | turn =>
    simp only [Operation.next]
    split <;> rfl
  | attach | detach =>
    simp only [Operation.next]
    split
    · exact installers_through w _ _
    · rfl
  | newInstaller | ensureInstalled | forgetGone | newIntegration | setUp => cases ho
  | _ => rfl

/-- A new installer is made, and perhaps somebody gets hold of it. -/
theorem Spares.of_fresh {v : World} {g : InstallerId} (hfresh : w.program.installer? g = none)
    (hg : (v.program.installer? g).isSome = true)
    (hne : ∀ g', g' ≠ g → v.program.installer? g' = w.program.installer? g')
    (hgrow : ∀ g' ∈ w.installers, g' ∈ v.installers)
    (hfew : ∀ g' ∈ v.installers, g' ∈ w.installers ∨ g' = g)
    (hkept : ∀ j g', v.program.kept? j = some g' → w.program.kept? j = some g' ∨ g' ∈ v.installers) :
    Spares w v := by
  have hother : ∀ g', (w.program.installer? g').isSome = true → g' ≠ g := fun g' hs he => by
    rw [he, hfresh] at hs
    cases hs
  refine ⟨fun g' hs hn => ⟨hne g' (hother g' hs), fun hm => ?_⟩, fun g' hs => ?_, hgrow,
    fun g' hm => ?_, hkept⟩
  · exact (hfew g' hm).elim hn (hother g' hs)
  · rw [hne g' (hother g' hs)]
    exact hs
  · rcases hfew g' hm with hm | rfl
    · exact .inl hm
    · exact .inr hg

theorem spares_newInstaller (hs : w.Sound left) (config : Config) :
    Spares w ((Operation.newInstaller config).next w) := by
  have hq := installer?_newInstaller w.program config
  refine .of_fresh (hs.program.installer?_fresh config) ?_ (fun g' hne => (hq g').trans (if_neg hne))
    (fun g' hm => List.mem_cons_of_mem _ hm) (fun g' hm => (List.mem_cons.mp hm).symm)
    fun j g' hk => .inl hk
  exact (congrArg Option.isSome (hq _)).trans (by rw [if_pos rfl]; rfl)

/-- Every operation but a set-up spares the installers that nobody holds. -/
theorem spares_next (hs : w.Sound left) {o : Operation} (ho : ∀ i, o ≠ .setUp i) :
    Spares w (o.next w) := by
  cases o with
  | setUp i => exact absurd rfl (ho i)
  | newInstaller config => exact spares_newInstaller hs config
  | ensureInstalled g id =>
    simp only [Operation.next]
    split
    · rename_i hg
      unfold through
      split
      · obtain ⟨hi, hne, hj⟩ := ensureInstalled_spares hs.program g id
        exact .of_modify g hg rfl hi hne hj
      · exact .of_eq rfl rfl rfl
    · exact .of_eq rfl rfl rfl
  | forgetGone g =>
    simp only [Operation.next]
    split
    · rename_i hg
      exact .of_modify g hg rfl (fun g' => isSome_installer?_forgetGone g g' _)
        (fun g' hne => installer?_forgetGone_of_ne hne _) (forgetGone_fields g w.program).2.2.2.2.1
    · exact .of_eq rfl rfl rfl
  | newIntegration config =>
    refine ⟨fun g hg hn => ⟨rfl, hn⟩, fun g hg => hg, fun g hg => hg, fun g hg => .inl hg,
      fun j g hk => .inl ?_⟩
    have hq : (w.program.newIntegration config).2.integrations.get? j =
        if j = (w.program.newIntegration config).1 then some { config }
        else w.program.integrations.get? j := Table.get?_set w.program.integrations _ j _
    change ((w.program.newIntegration config).2.integrations.get? j).bind (·.installer) = some g at hk
    rw [hq] at hk
    split at hk
    · cases hk
    · exact hk
  | _ =>
    exact .of_eq (installers_next_of_idle rfl) (idle_next rfl).installers_eq (idle_next rfl).integrations_eq

/-! ## What a set-up leaves -/

/-- What is known of an integration in a world to which some of its set-ups have failed. The installers
of those are held by nobody, so they stand for good with the sessions that they have left stranded. -/
structure SetUps (i : IntegrationId) (failures : List Activation) (w : World) : Prop where
  held_made : ∀ g ∈ w.installers, (w.program.installer? g).isSome = true
  kept_held : ∀ j g, w.program.kept? j = some g → g ∈ w.installers
  made : ∀ a ∈ failures, (w.program.installer? a.installer).isSome = true
  unheld : ∀ a ∈ failures, a.installer ∉ w.installers
  distinct : (failures.map (·.installer)).Nodup
  standing : ∀ a ∈ failures, ∀ id, w.program.standing? a.installer id =
    if a.session = id ∧ a.strands = true then some .stranded else none

namespace SetUps

variable {i : IntegrationId} {failures : List Activation} {v : World}

theorem of_spares (h : SetUps i failures w) (hv : Spares w v) : SetUps i failures v := by
  constructor
  · intro g hg
    exact (hv.held g hg).elim (fun hg => hv.made g (h.held_made g hg)) id
  · intro j g hk
    exact (hv.kept j g hk).elim (fun hk => hv.grows g (h.kept_held j g hk)) id
  · exact fun a ha => hv.made _ (h.made a ha)
  · intro a ha
    exact (hv.unheld _ (h.made a ha) (h.unheld a ha)).2
  · exact h.distinct
  · intro a ha id
    rw [← h.standing a ha id]
    simp only [standing?, (hv.unheld _ (h.made a ha) (h.unheld a ha)).1]

end SetUps

end World

/-- An activation by an installer that stood with no session, and that fails, leaves it standing with
none but the session that it strands. -/
theorem Activation.standing_of_fails {left : InstallerId → SessionId → Nat} {a : Activation}
    (h : a.before.Sound left) (hi : (a.before.installer? a.installer).isSome = true)
    (hno : ∀ id, a.before.standing? a.installer id = none) (hf : a.fails = true) (id : SessionId) :
    a.run.2.standing? a.installer id =
      if a.session = id ∧ a.strands = true then some .stranded else none := by
  have hgone : ∀ id, (forgetGone a.installer a.before).2.standing? a.installer id = none :=
    fun id => by
      rw [forgetGone_standing? fun j hj => h.standings_distinct a.installer j hj, if_pos rfl, hno,
        Option.filter_none]
  have hsome : ((forgetGone a.installer a.before).2.installer? a.installer).isSome = true := by
    rw [isSome_installer?_forgetGone]
    exact hi
  obtain ⟨_, _, _, hnone | hst⟩ | ⟨i, r, u, _, _, hin, _, hrun⟩ :=
    ensureInstalled_cases a.installer a.session a.before (h.listener_lt a.session)
  · rw [hnone] at hsome
    cases hsome
  · rw [hgone] at hst
    cases hst
  · have hstand : ∀ id, a.run.2.standing? a.installer id =
        if id = a.session then standingAfter r else none := fun id => by
      rw [Activation.run, hrun, standing?_after hin hsome, hgone]
      simp only [true_and]
    have hend : a.run.1 = replyAfter r := by rw [Activation.run, hrun]
    rw [Activation.strands, hstand, hstand, if_pos rfl]
    rw [Activation.fails, hend] at hf
    rcases r with p | ⟨e, _ | _⟩ | _
    · cases hf
    · simp [standingAfter]
    · simp [standingAfter, eq_comm]
    · simp [standingAfter]

namespace World

variable {w : World} {left : InstallerId → SessionId → Nat}

theorem kept?_keepInstaller {i : IntegrationId} {g : InstallerId} {s : Program} {j : IntegrationId}
    {g' : InstallerId} (h : (keepInstaller i g s).kept? j = some g') : s.kept? j = some g' ∨ g' = g := by
  simp only [kept?, keepInstaller, Table.get?_modify] at h
  split at h
  · cases hj : s.integrations.get? j with
    | none =>
      rw [hj] at h
      cases h
    | some k =>
      rw [hj] at h
      exact .inr (Option.some.inj h).symm
  · exact .inl h

theorem failures_setUp {j : IntegrationId} {as : List Activation}
    (ha : (Operation.setUp j).activations w = as) (i : IntegrationId) :
    (Operation.setUp j).failures i w = if j = i then as.filter Activation.fails else [] := by
  rw [Operation.failures, ha]

namespace SetUps

variable {i : IntegrationId} {failures : List Activation} {v : World} {config : Config}

theorem add (h : SetUps i failures v) {a : Activation} (hm : (v.program.installer? a.installer).isSome = true)
    (hu : a.installer ∉ v.installers) (hd : ∀ b ∈ failures, a.installer ≠ b.installer)
    (hst : ∀ id, v.program.standing? a.installer id =
      if a.session = id ∧ a.strands = true then some .stranded else none) :
    SetUps i (failures ++ [a]) v := by
  have hall : ∀ {P : Activation → Prop}, (∀ b ∈ failures, P b) → P a → ∀ b ∈ failures ++ [a], P b := by
    intro P hb ha b hm
    rcases List.mem_append.mp hm with hm | hm
    · exact hb b hm
    · rw [List.mem_singleton.mp hm]
      exact ha
  refine ⟨h.held_made, h.kept_held, hall h.made hm, hall h.unheld hu, ?_, hall h.standing hst⟩
  rw [List.map_append]
  refine List.nodup_append.mpr ⟨h.distinct, List.pairwise_singleton _ _, fun g hg g' hg' he => ?_⟩
  obtain ⟨b, hb, rfl⟩ := List.mem_map.mp hg
  exact hd b hb ((List.mem_singleton.mp hg').symm.trans he.symm)

/-- A set-up that fails: nobody gets its installer. -/
theorem fail (h : SetUps i failures w) {a : Activation} (ha : a.before.Sound left)
    (hfresh : w.program.installer? a.installer = none)
    (hq : ∀ g, a.before.installer? g =
      if g = a.installer then some ⟨config, {}⟩ else w.program.installer? g)
    (hint : a.before.integrations = w.program.integrations) (hf : a.fails = true) :
    SetUps i failures { w with program := a.run.2 } ∧
      SetUps i (failures ++ [a]) { w with program := a.run.2 } := by
  obtain ⟨hmade, hother, hj⟩ := ensureInstalled_spares ha a.installer a.session
  have hthere : (a.before.installer? a.installer).isSome = true := by
    rw [hq, if_pos rfl]
    rfl
  have hv : SetUps i failures { w with program := a.run.2 } := by
    refine h.of_spares (.of_fresh hfresh ((hmade _).trans hthere) (fun g hne => ?_) (fun _ hm => hm)
      (fun _ hm => .inl hm) fun k g hk => .inl ?_)
    · exact (hother g hne).trans ((hq g).trans (if_neg hne))
    · simpa only [kept?, show a.run.2.integrations = _ from hj.trans hint] using hk
  have hne : ∀ g, (w.program.installer? g).isSome = true → a.installer ≠ g := fun g hg he => by
    rw [← he, hfresh] at hg
    cases hg
  refine ⟨hv, hv.add ((hmade _).trans hthere) (fun hm => ?_) (fun b hb => hne _ (h.made b hb)) ?_⟩
  · exact hne _ (h.held_made _ hm) rfl
  · refine Activation.standing_of_fails ha hthere (fun id => ?_) hf
    simp only [standing?, hq, if_true, Option.bind_some]
    rfl

/-- A set-up that succeeds: the integration keeps its installer. -/
theorem keep (h : SetUps i failures w) {j : IntegrationId} {g : InstallerId} {u : Program}
    (hfresh : w.program.installer? g = none) (hg : (u.installer? g).isSome = true)
    (hne : ∀ g', g' ≠ g → u.installer? g' = w.program.installer? g')
    (hint : u.integrations = w.program.integrations) :
    SetUps i failures { w with program := keepInstaller j g u, installers := g :: w.installers } := by
  refine h.of_spares (.of_fresh hfresh hg hne (fun _ hm => List.mem_cons_of_mem _ hm)
    (fun g' hm => (List.mem_cons.mp hm).symm) fun k g' hk => ?_)
  rcases kept?_keepInstaller hk with hk | rfl
  · left
    simpa only [kept?, hint] using hk
  · exact .inr List.mem_cons_self

/-- What a set-up of an integration that keeps no installer leaves. -/
theorem setUp (h : SetUps i failures w) (hs : w.Sound left) {j : IntegrationId}
    (hj : w.program.integrations.get? j = some ⟨config, none⟩) :
    SetUps i (failures ++ (Operation.setUp j).failures i w) ((Operation.setUp j).next w) := by
  have ht := hs.program.newInstaller config
  have hfresh := hs.program.installer?_fresh config
  have hq := installer?_newInstaller w.program config
  have hthere : ((w.program.newInstaller config).2.installer? (w.program.newInstaller config).1).isSome
      = true := by
    rw [hq, if_pos rfl]
    rfl
  have hcontains : w.program.integrations.contains j = true := by
    rw [Table.contains, hj]
    rfl
  have hacts := activations_setUp hj
  simp only [Operation.next, hcontains, if_true]
  obtain ⟨id, r, hon, hact, hfail, hr, hrun⟩ | ⟨id, reply, hon, hact, hdone, hrun⟩ | ⟨hoff, hrun⟩ :=
    setUp_ends hj
  · -- Where another integration is set up, the installer that is lost is none of this one's.
    rw [hon, hact] at hacts
    have hf : Activation.fails ⟨(w.program.newInstaller config).1, id,
        (w.program.newInstaller config).2⟩ = true := by
      simp only [Activation.fails, Activation.run]
      split
      · rename_i reply he
        exact absurd he (hfail reply)
      · rfl
      · rfl
    obtain ⟨hother, hown⟩ := h.fail ht hfresh hq rfl hf
    rw [failures_setUp hacts, hrun, List.filter_cons, if_pos hf, List.filter_nil]
    rcases r with g | e | _
    · exact absurd rfl (hr g)
    · split
      · exact hown
      · rw [List.append_nil]
        exact hother
    · split
      · exact hown
      · rw [List.append_nil]
        exact hother
  · obtain ⟨hmade, hother, hint⟩ := ensureInstalled_spares ht (w.program.newInstaller config).1 id
    rw [hon, hact] at hacts
    have hf : Activation.fails ⟨(w.program.newInstaller config).1, id,
        (w.program.newInstaller config).2⟩ = false := by
      simp only [Activation.fails, Activation.run, hdone]
    rw [failures_setUp hacts, hrun, List.filter_cons, hf, List.filter_nil]
    simp only [Bool.false_eq_true, if_false, ite_self, List.append_nil]
    exact h.keep hfresh ((hmade _).trans hthere)
      (fun g hne => (hother g hne).trans ((hq g).trans (if_neg hne))) hint
  · have hnil : (Operation.setUp j).activations w = [] := by
      rw [hacts]
      split
      · rename_i id hon hact
        exact absurd hact (hoff id hon)
      · rfl
    rw [failures_setUp hnil, hrun]
    simp only [List.filter_nil, ite_self, List.append_nil]
    exact h.keep hfresh hthere (fun g hne => (hq g).trans (if_neg hne)) rfl

theorem next (h : SetUps i failures w) (hs : w.Sound left) (o : Operation) :
    SetUps i (failures ++ o.failures i w) (o.next w) := by
  cases o with
  | setUp j =>
    rcases hj : w.program.integrations.get? j with _ | ⟨config, _ | g⟩
    · have hnil : (Operation.setUp j).activations w = [] := by simp only [Operation.activations, hj]
      rw [failures_setUp hnil]
      simp only [List.filter_nil, ite_self, List.append_nil, Operation.next, Table.contains, hj,
        Option.isSome_none, Bool.false_eq_true, if_false]
      exact h
    · exact h.setUp hs hj
    · have hnil : (Operation.setUp j).activations w = [] := by simp only [Operation.activations, hj]
      have hheld : g ∈ w.installers := h.kept_held j g (by rw [kept?, hj]; rfl)
      rw [failures_setUp hnil]
      simp only [List.filter_nil, ite_self, List.append_nil, Operation.next, Table.contains, hj,
        Option.isSome_some, if_true, setUp_of_kept hj]
      refine ⟨fun g' hm => h.held_made g' ?_, fun k g' hk => List.mem_cons_of_mem _ (h.kept_held k g' hk),
        h.made, fun a ha hm => h.unheld a ha ?_, h.distinct, h.standing⟩
      · exact (List.mem_cons.mp hm).elim (fun he => he ▸ hheld) fun hm => hm
      · exact (List.mem_cons.mp hm).elim (fun he => he ▸ hheld) fun hm => hm
  | _ =>
    simp only [Operation.failures, List.append_nil]
    refine h.of_spares (spares_next hs fun _ he => ?_)
    cases he

theorem perform (h : SetUps i failures w) (hs : w.Sound left) (ops : List Operation) :
    SetUps i (failures ++ along (Operation.failures i) ops w) (World.perform ops w) := by
  induction ops generalizing w left failures with
  | nil =>
    simp only [along, List.append_nil]
    exact h
  | cons o rest ih =>
    have hr := ih (h.next hs o) (hs.next o)
    rw [List.append_assoc] at hr
    exact hr

theorem hadInstallers_nodup (h : SetUps i failures w) :
    (hadInstallers failures (w.program.kept? i)).Nodup := by
  refine List.nodup_append.mpr ⟨h.distinct, ?_, fun g hg g' hg' he => ?_⟩
  · cases w.program.kept? i with
    | none => exact List.Pairwise.nil
    | some g => exact List.pairwise_singleton _ _
  · obtain ⟨a, ha, rfl⟩ := List.mem_map.mp hg
    have hkept : w.program.kept? i = some a.installer := by
      rw [he]
      exact Option.mem_toList.mp hg'
    exact h.unheld a ha (h.kept_held i _ hkept)

end SetUps

theorem setUps_initial (i : IntegrationId) (now : Timestamp) (retention : Retention) :
    SetUps i [] (initial now retention) :=
  ⟨fun _ hm => (nomatch hm), fun _ _ hk => (nomatch hk), fun _ hm => (nomatch hm),
    fun _ hm => (nomatch hm), List.Pairwise.nil, fun _ hm => (nomatch hm)⟩

/-- Where no installer has left a listener by crashing, the standings tell how many there are. -/
theorem attachedBy_eq (h : w.Sound fun _ _ => 0) {id : SessionId} {x : Session}
    (hx : w.program.session? id = some x) (hs : x.stopped = false)
    (hr : w.program.isReachable id = true) (g : InstallerId) :
    x.attachedBy g = if (w.program.standing? g id).isSome then 1 else 0 := by
  have hb := h.program.balance g id x hx hs
  cases hst : w.program.standing? g id with
  | none => exact hb.free hst hr
  | some st => exact hb.stands (by rw [hst]; rfl)

/-- An integration registers at most one enricher for a session: only the installer that it keeps has
registered any. -/
theorem length_enrichersOf_le_one {i : IntegrationId} {failures : List Activation}
    (h : SetUps i failures w) (he : w.program.Enriched) (id : SessionId) :
    (w.program.enrichersOf (hadInstallers failures (w.program.kept? i)) id).length ≤ 1 := by
  have hnumber : ∀ row ∈ w.program.enrichersOf (hadInstallers failures (w.program.kept? i)) id,
      ∃ g, w.program.kept? i = some g ∧ w.program.standing? g id = some (.installed row.1) := by
    intro row hm
    obtain ⟨_, hrow⟩ := List.mem_filter.mp hm
    rcases hp : row.2 with e | r <;> simp only [hp] at hrow
    · simp only [Bool.and_eq_true, List.any_eq_true, decide_eq_true_eq] at hrow
      obtain ⟨_, g, hg, hst⟩ := hrow
      rcases List.mem_append.mp hg with hg | hg
      · obtain ⟨a, ha, rfl⟩ := List.mem_map.mp hg
        rw [h.standing a ha] at hst
        split at hst <;> cases hst
      · exact ⟨g, Option.mem_toList.mp hg, hst⟩
    · cases hrow
  refine length_enrichersOf_of_number he.numbered fun a ha b hb => ?_
  obtain ⟨g, hg, hga⟩ := hnumber a ha
  obtain ⟨g', hg', hgb⟩ := hnumber b hb
  rw [hg, Option.some.injEq] at hg'
  rw [← hg', hga, Option.some.injEq, Standing.installed.injEq] at hgb
  exact hgb

end World

/-- What set-ups leave, in every run without crashes: at a running session that can be reached an
integration has one listener for each of its failed set-ups that left the session stranded, and one
more if the installer that it keeps stands with it. Of enrichers it has one at most. -/
theorem listeners_of_setUps (now : Timestamp) (retention : Retention) (cs : List Command)
    (calm : ∀ o ∈ Command.allOperations cs (initial now retention), o.Calm) (i : IntegrationId)
    (id : SessionId) :
    let s := (Command.runAll cs (initial now retention)).program
    let failures := along (Operation.failures i) (Command.allOperations cs (initial now retention))
      (initial now retention)
    (∀ x, s.session? id = some x → x.stopped = false → s.isReachable id = true →
      x.attachedByAny (hadInstallers failures (s.kept? i)) =
        failures.countP (fun a => a.session = id ∧ a.strands = true) +
          if (s.kept? i).any (fun g => (s.standing? g id).isSome) then 1 else 0) ∧
    (s.enrichersOf (hadInstallers failures (s.kept? i)) id).length ≤ 1 := by
  intro s failures
  have hinit := sound_initial now retention
  have hrun : s = (perform (Command.allOperations cs (initial now retention))
      (initial now retention)).program := by
    rw [← Command.runAll_eq_perform]
  obtain ⟨hs, _⟩ := hinit.perform_calm (calm_initial now retention) calm
  have hset := (setUps_initial i now retention).perform hinit
    (Command.allOperations cs (initial now retention))
  rw [List.nil_append] at hset
  have hen := enriched_perform hinit (enriched_initial now retention)
    (Command.allOperations cs (initial now retention))
  rw [hrun]
  refine ⟨fun x hx hstop hr => ?_, length_enrichersOf_le_one hset hen id⟩
  have hfailed : (failures.map (·.installer)).map x.attachedBy =
      failures.map fun a => if a.session = id ∧ a.strands = true then 1 else 0 := by
    rw [List.map_map]
    refine List.map_congr_left fun a ha => ?_
    rw [Function.comp_apply, attachedBy_eq hs hx hstop hr, hset.standing a ha]
    split <;> rfl
  rw [x.attachedByAny_eq_sum hset.hadInstallers_nodup, hadInstallers, List.map_append,
    List.sum_append, hfailed, sum_indicator]
  congr 1
  cases hk : (perform (Command.allOperations cs (initial now retention))
      (initial now retention)).program.kept? i with
  | none => rfl
  | some g =>
    simp only [Option.toList_some, List.map_cons, List.map_nil, List.sum_cons, List.sum_nil,
      Nat.add_zero, Option.any_some]
    exact attachedBy_eq hs hx hstop hr g

/-- A run in which a set-up fails and leaves the active session stranded, and is tried again. -/
def retriedRun : List Command :=
  [.operation (.enable Config.standard.integration),
    .operation (.start ⟨⟨0⟩⟩ (.standard none) .stuck false), .operation (.newIntegration .standard),
    .operation (.setUp ⟨0⟩), .operation (.setBackend ⟨⟨0⟩⟩ .sound), .operation (.setUp ⟨0⟩),
    .operation (.post ⟨⟨0⟩⟩ (.jobEnd ⟨7⟩ .epoch .succeeded)), .operation (.turn ⟨⟨0⟩⟩ 0),
    .operation (.turn ⟨⟨0⟩⟩ 1)]

theorem retriedRun_calm : ∀ o ∈ Command.allOperations retriedRun (initial .epoch .standard), o.Calm := by
  have ho : Command.allOperations retriedRun (initial .epoch .standard) =
      [.enable Config.standard.integration, .start ⟨⟨0⟩⟩ (.standard none) .stuck false,
        .newIntegration .standard, .setUp ⟨0⟩, .setBackend ⟨⟨0⟩⟩ .sound, .setUp ⟨0⟩,
        .post ⟨⟨0⟩⟩ (.jobEnd ⟨7⟩ .epoch .succeeded), .turn ⟨⟨0⟩⟩ 0, .turn ⟨⟨0⟩⟩ 1] := rfl
  rw [ho]
  intro o hm
  simp only [List.mem_cons, List.not_mem_nil, or_false] at hm
  rcases hm with rfl | rfl | rfl | rfl | rfl | rfl | rfl | rfl | rfl
  · trivial
  · exact Backend.stuck_calm
  · trivial
  · trivial
  · exact fun _ _ => nofun
  all_goals trivial

/-- The integration has two listeners at the session in the end, one for each of its set-ups. -/
theorem listeners_of_retried_setUp :
    let s := (Command.runAll retriedRun (initial .epoch .standard)).program
    let failures := along (Operation.failures ⟨0⟩)
      (Command.allOperations retriedRun (initial .epoch .standard)) (initial .epoch .standard)
    (∀ o ∈ Command.allOperations retriedRun (initial .epoch .standard), o.Calm) ∧
      ∀ x, s.session? ⟨⟨0⟩⟩ = some x → x.stopped = false →
        x.attachedByAny (hadInstallers failures (s.kept? ⟨0⟩)) = 2 := by
  intro s failures
  have hr : s.isReachable ⟨⟨0⟩⟩ = true := by decide
  have hcount : failures.countP (fun a => a.session = ⟨⟨0⟩⟩ ∧ a.strands = true) = 1 := by decide
  have hkept : (s.kept? ⟨0⟩).any (fun g => (s.standing? g ⟨⟨0⟩⟩).isSome) = true := by decide
  refine ⟨retriedRun_calm, fun x hx hs => ?_⟩
  rw [(listeners_of_setUps .epoch .standard retriedRun retriedRun_calm ⟨0⟩ ⟨⟨0⟩⟩).1 x hx hs hr, hcount,
    if_pos hkept]

/-- A session that a failed set-up has left stranded is instrumented again by the next one, and the
reporter is told twice of its event. -/
theorem setUp_instruments_stranded :
    let s := (Command.runAll retriedRun (initial .epoch .standard)).program
    let failures := along (Operation.failures ⟨0⟩)
      (Command.allOperations retriedRun (initial .epoch .standard)) (initial .epoch .standard)
    failures.map (fun a => (a.session, a.strands)) = [(⟨⟨0⟩⟩, true)] ∧
    (s.session? ⟨⟨0⟩⟩).map (fun x => (x.stopped, x.attachedByAny (hadInstallers failures (s.kept? ⟨0⟩)))) =
      some (false, 2) ∧
    s.reporter.breadcrumbs.map (·.message) = ["Job 7 Ended", "Job 7 Ended"] :=
  ⟨by decide, by decide, by decide⟩

end SessionTrail
