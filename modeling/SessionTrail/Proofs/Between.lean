import SessionTrail.Proofs.Calm
import SessionTrail.Proofs.Enrichers
import SessionTrail.Proofs.Gone

/-!
# Between two activations

An operation makes at most one activation, and then it does what that does. Whatever else is done in the
meantime, an installer stands with a session as before when it is asked for it the next time, unless the
session is over and has been forgotten.
-/
namespace SessionTrail

open Program World

/-- Whether an activation asks an installer for a session. -/
def Activation.asks (a : Activation) (g : InstallerId) (id : SessionId) : Bool :=
  a.installer = g && a.session = id

theorem Activation.asks_iff {a : Activation} {g : InstallerId} {id : SessionId} :
    a.asks g id = true ↔ a.installer = g ∧ a.session = id := by
  simp only [asks, Bool.and_eq_true, decide_eq_true_eq]

namespace Program

variable {left : InstallerId → SessionId → Nat} {s t u : Program}

/-- From `s` to `t` an installer goes on to stand with a session as it did, unless the session is over
and is forgotten. -/
def StandsBy (s t : Program) (g : InstallerId) (id : SessionId) : Prop :=
  t.standing? g id = s.standing? g id ∨ t.standing? g id = none ∧ s.isOver id = true

theorem StandsBy.of_installers_eq (h : t.installers = s.installers) (g : InstallerId)
    (id : SessionId) : StandsBy s t g id := .inl (standing?_of_installers_eq h g id)

theorem StandsBy.none {g : InstallerId} {id : SessionId} (h : StandsBy s t g id)
    (hn : s.standing? g id = none) : t.standing? g id = none := by
  rcases h with h | h
  · rw [h, hn]
  · exact h.1

theorem isOver_of_sessions_eq (hs : t.sessions = s.sessions) (ha : t.active = s.active)
    (id : SessionId) : t.isOver id = s.isOver id := by
  have hq : t.session? id = s.session? id := by simp only [session?, hs]
  simp only [isOver, isReachable, hasStopped, hq, ha]

theorem standing?_forgetGone (h : Sound left s) (g : InstallerId) (id : SessionId) :
    (forgetGone g s).2.standing? g id = if s.isOver id then none else s.standing? g id := by
  rw [forgetGone_standing? fun i hi => h.standings_distinct g i hi, if_pos rfl]
  cases hst : s.standing? g id with
  | none => simp
  | some st =>
    have hne : st ≠ .installing := fun he => h.settled g id (he ▸ hst)
    rw [Option.filter_some, isGone_eq s id hne]
    cases s.isOver id <;> rfl

/-- An installer goes on to stand with sessions that are not over. -/
theorem standing?_of_forgetGone (h : Sound left s) {g : InstallerId} {id : SessionId} {st : Standing}
    (hst : (forgetGone g s).2.standing? g id = some st) :
    s.isOver id = false ∧ s.standing? g id = some st := by
  rw [standing?_forgetGone h] at hst
  split at hst
  · cases hst
  · rename_i hover
    exact ⟨Bool.eq_false_iff.mpr hover, hst⟩

/-- An installer that no longer stands with a session did not do so before, or the session is over. -/
theorem isOver_or_free (h : Sound left s) {g : InstallerId} {id : SessionId}
    (hst : (forgetGone g s).2.standing? g id = none) :
    s.isOver id = true ∨ s.standing? g id = none := by
  rw [standing?_forgetGone h] at hst
  split at hst
  · rename_i hover
    exact .inl hover
  · exact .inr hst

theorem standsBy_forgetGone (h : Sound left s) (g' g : InstallerId) (id : SessionId) :
    StandsBy s (forgetGone g' s).2 g id := by
  by_cases hg : g = g'
  · rw [StandsBy, hg, standing?_forgetGone h]
    split
    · rename_i ho
      exact .inr ⟨rfl, ho⟩
    · exact .inl rfl
  · left
    rw [forgetGone_standing? fun i hi => h.standings_distinct g' i hi, if_neg hg]

/-- An activation is the business of its own installer and its own session. -/
theorem standsBy_ensureInstalled (h : Sound left s) {g g' : InstallerId} {id id' : SessionId}
    (hne : ¬ (g' = g ∧ id' = id)) : StandsBy s ((ensureInstalled g' id').run s).2 g id := by
  have hf := standsBy_forgetGone h g' g id
  obtain ⟨r, _, hrun, _⟩ | ⟨i, r, u, hi, _, hin, _, hrun⟩ :=
    ensureInstalled_cases g' id' s (h.listener_lt id')
  · rw [hrun]
    exact hf
  · have hst := standing?_after hin (by rw [hi]; rfl) g id
    rw [if_neg fun hc => hne ⟨hc.1.symm, hc.2.symm⟩] at hst
    rw [hrun, StandsBy, hst]
    exact hf

end Program

namespace World

variable {w : World} {left : InstallerId → SessionId → Nat} {o : Operation} {a : Activation}

/-- The activation of an operation is made in the world that this finds, or by an installer that a
set-up makes for it. -/
theorem activation_cases (ha : a ∈ o.activations w) : o.activations w = [a] ∧
    ((a.before = w.program ∧ a.installer ∈ w.installers ∧ w.program.isReachable a.session = true ∧
      (o.next w).program = a.run.2) ∨
    ∃ config integrations, a.before = (w.program.newInstaller config).2 ∧
      a.installer = (w.program.newInstaller config).1 ∧ w.program.active = some a.session ∧
      (o.next w).program = { a.run.2 with integrations }) := by
  cases o with
  | ensureInstalled g id =>
    simp only [Operation.activations] at ha ⊢
    split at ha
    · rename_i hc
      rw [List.mem_singleton.mp ha, if_pos hc]
      refine ⟨rfl, .inl ⟨rfl, hc.1, hc.2, ?_⟩⟩
      simp only [Operation.next, through, hc.1, hc.2, if_true]
      rfl
    · cases ha
  | setUp i =>
    rcases hi : w.program.integrations.get? i with _ | ⟨config, _ | g⟩
    · simp only [Operation.activations, hi] at ha
      cases ha
    · rw [activations_setUp hi] at ha ⊢
      obtain ⟨installers, hn⟩ := setUp_next w i
      have hcontains : w.program.integrations.contains i = true := by
        rw [Table.contains, hi]
        rfl
      rw [hn, if_pos hcontains]
      obtain ⟨id, integrations, hon, hact, hp⟩ | ⟨integrations, hoff, hp⟩ := setUp_cases hi
      · rw [hon, hact] at ha ⊢
        rw [List.mem_singleton.mp ha]
        exact ⟨rfl, .inr ⟨config, integrations, rfl, rfl, rfl, hp⟩⟩
      · split at ha
        · rename_i id hon hact
          exact absurd hact (hoff id hon)
        · cases ha
    · simp only [Operation.activations, hi] at ha
      cases ha
  | _ => cases ha

theorem activations_length_le (o : Operation) (w : World) : (o.activations w).length ≤ 1 := by
  rcases h : o.activations w with _ | ⟨a, rest⟩
  · exact Nat.zero_le _
  · rw [← h, (activation_cases (h ▸ List.mem_cons_self)).1]
    exact Nat.le_refl _

/-- How installers stand with sessions when an activation begins. -/
theorem standing?_before (h : w.Sound left) (ha : a ∈ o.activations w) (g : InstallerId)
    (id : SessionId) : a.before.standing? g id = w.program.standing? g id := by
  obtain ⟨_, ⟨hb, _⟩ | ⟨config, _, hb, _⟩⟩ := activation_cases ha
  · rw [hb]
  · rw [hb, h.program.standing?_newInstaller]

/-- An operation leaves the installers and the reporter as its activation has left them. -/
theorem activation_next (ha : a ∈ o.activations w) :
    a.run.2.installers = (o.next w).program.installers ∧
      a.run.2.reporter = (o.next w).program.reporter := by
  obtain ⟨_, ⟨_, _, _, hn⟩ | ⟨_, _, _, _, _, hn⟩⟩ := activation_cases ha <;> rw [hn] <;>
    exact ⟨rfl, rfl⟩

/-- How installers stand with sessions when an activation has ended. -/
theorem standing?_next (ha : a ∈ o.activations w) (g : InstallerId) (id : SessionId) :
    (o.next w).program.standing? g id = a.run.2.standing? g id :=
  (standing?_of_installers_eq (activation_next ha).1 g id).symm

/-- Which sessions are over when an activation begins. -/
theorem isOver_before (h : w.Sound left) (ha : a ∈ o.activations w) (id : SessionId) :
    a.before.isOver id = w.program.isOver id := by
  refine isOver_of_sessions_eq (activation_before h.program ha).2.1 ?_ id
  obtain ⟨_, ⟨hb, _⟩ | ⟨_, _, hb, _⟩⟩ := activation_cases ha <;> rw [hb]
  rfl

theorem standsBy_of_activation (h : w.Sound left) (ha : a ∈ o.activations w) {g : InstallerId}
    {id : SessionId} (hno : a.asks g id = false) : StandsBy w.program (o.next w).program g id := by
  have hne : ¬ (a.installer = g ∧ a.session = id) := fun he => by
    rw [Activation.asks_iff.mpr he] at hno
    cases hno
  have hk : StandsBy a.before a.run.2 g id :=
    standsBy_ensureInstalled (activation_before h.program ha).1 hne
  rw [StandsBy, standing?_before h ha, isOver_before h ha] at hk
  rw [StandsBy, standing?_next ha]
  exact hk

/-- An operation that does not ask the installer for the session leaves it standing with that. -/
theorem standsBy_next (h : w.Sound left) (o : Operation) {g : InstallerId} {id : SessionId}
    (hno : ∀ a ∈ o.activations w, a.asks g id = false) :
    StandsBy w.program (o.next w).program g id := by
  rcases ha : o.activations w with _ | ⟨a, rest⟩
  · cases o with
    | ensureInstalled g' id' =>
      simp only [Operation.activations] at ha
      simp only [Operation.next, through]
      split
      · split
        · rename_i hg hr
          rw [if_pos ⟨hg, hr⟩] at ha
          cases ha
        · exact .inl rfl
      · exact .inl rfl
    | setUp i =>
      obtain ⟨installers, hn⟩ := setUp_next w i
      rw [hn]
      rcases hi : w.program.integrations.get? i with _ | ⟨config, _ | g'⟩
      · simp only [Table.contains, hi, Option.isSome_none, Bool.false_eq_true, if_false]
        exact .inl rfl
      · simp only [Table.contains, hi, Option.isSome_some, if_true]
        obtain ⟨id', integrations, hon, hact, hp⟩ | ⟨integrations, hoff, hp⟩ := setUp_cases hi
        · rw [activations_setUp hi, hon, hact] at ha
          cases ha
        · rw [hp]
          exact .inl (h.program.standing?_newInstaller config g id)
      · simp only [Table.contains, hi, Option.isSome_some, if_true, setUp_of_kept hi]
        exact .inl rfl
    | newInstaller config => exact .inl (h.program.standing?_newInstaller config g id)
    | forgetGone g' =>
      exact forgetGone_preserves (P := fun t => StandsBy w.program t g id) g' (.inl rfl)
        (standsBy_forgetGone h.program g' g id)
    | newIntegration config => exact .inl rfl
    | _ => exact .of_installers_eq (idle_next rfl).installers_eq g id
  · have hm : a ∈ o.activations w := ha ▸ List.mem_cons_self
    exact standsBy_of_activation h hm (hno a hm)

/-- Whatever else is done, an installer that does not stand with a session still does not. -/
theorem standing?_perform_of_none (h : w.Sound left) {ops : List Operation} {g : InstallerId}
    {id : SessionId} (hno : ∀ a ∈ along Operation.activations ops w, a.asks g id = false)
    (hn : w.program.standing? g id = none) : (perform ops w).program.standing? g id = none := by
  induction ops generalizing w left with
  | nil => exact hn
  | cons o rest ih =>
    exact ih (h.next o) (fun a ha => hno a (List.mem_append_right _ ha))
      ((standsBy_next h o fun a ha => hno a (List.mem_append_left _ ha)).none hn)

theorem along_append {α : Type} (show? : Operation → World → List α) (first rest : List Operation)
    (w : World) :
    along show? (first ++ rest) w = along show? first w ++ along show? rest (perform first w) := by
  induction first generalizing w with
  | nil => rfl
  | cons o first ih =>
    rw [List.cons_append, along, along, ih, List.append_assoc]
    rfl

/-- What a run shows before and behind one of its activations, it shows in the operations before and
behind the one that makes it. -/
theorem along_activations_split {ops : List Operation} {before after : List Activation}
    (h : along Operation.activations ops w = before ++ a :: after) :
    ∃ first o rest, ops = first ++ o :: rest ∧ along Operation.activations first w = before ∧
      a ∈ o.activations (perform first w) ∧
      along Operation.activations rest (o.next (perform first w)) = after := by
  induction ops generalizing w before with
  | nil => cases before <;> cases h
  | cons o rest ih =>
    rw [along] at h
    have hle := activations_length_le o w
    rcases ho : o.activations w with _ | ⟨b, _ | ⟨c, more⟩⟩
    · rw [ho, List.nil_append] at h
      obtain ⟨first, p, others, rfl, hb, ha, hr⟩ := ih h
      refine ⟨o :: first, p, others, rfl, ?_, ha, hr⟩
      rw [along, ho, hb, List.nil_append]
    · rw [ho, List.singleton_append] at h
      cases before with
      | nil =>
        obtain ⟨rfl, hr⟩ := List.cons.inj h
        exact ⟨[], o, rest, rfl, rfl, ho ▸ List.mem_singleton_self _, hr⟩
      | cons d before =>
        obtain ⟨rfl, hr⟩ := List.cons.inj h
        obtain ⟨first, p, others, rfl, hb, ha, hr⟩ := ih hr
        refine ⟨o :: first, p, others, rfl, ?_, ha, hr⟩
        rw [along, ho, hb, List.singleton_append]
    · rw [ho] at hle
      simp only [List.length_cons] at hle
      omega

/-- Where an activation leaves no standing, the next one that asks for the same finds none. -/
theorem standing?_between (h : w.Sound left) {ops : List Operation} {b : Activation}
    {earlier between later : List Activation} {g : InstallerId} {id : SessionId}
    (hsplit : along Operation.activations ops w = earlier ++ a :: (between ++ b :: later))
    (hn : a.run.2.standing? g id = none) (hbetween : ∀ c ∈ between, c.asks g id = false) :
    ∃ (first : List Operation) (o : Operation),
      along Operation.activations first w = earlier ++ a :: between ∧
      b ∈ o.activations (perform first w) ∧ b.before.standing? g id = none := by
  obtain ⟨first, o, rest, _, hfirst, ha, hrest⟩ := along_activations_split hsplit
  obtain ⟨second, p, _, _, hsecond, hb, _⟩ := along_activations_split hrest
  have hw := (h.perform first).next o
  have hfree : (perform second (o.next (perform first w))).program.standing? g id = none := by
    refine standing?_perform_of_none hw (fun c hc => hbetween c (hsecond ▸ hc)) ?_
    rw [standing?_next ha, hn]
  have hp : perform (first ++ o :: second) w = perform second (o.next (perform first w)) :=
    perform_append first (o :: second) w
  refine ⟨first ++ o :: second, p, ?_, ?_, ?_⟩
  · rw [along_append, along, hfirst, hsecond, (activation_cases ha).1, List.singleton_append]
  · rw [hp]
    exact hb
  · rw [standing?_before (hw.perform second) hb, hfree]

end World

end SessionTrail
