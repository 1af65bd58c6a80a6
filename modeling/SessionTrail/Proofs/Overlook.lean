import SessionTrail.Proofs.Frame

/-!
# What listeners overlook

An action overlooks a change of its state if it neither sees it nor undoes it: the change may as well be made
behind the action. Whatever a listener does with an event, it overlooks all that it has no business with, such
as the state of the buses.
-/
namespace SessionTrail

namespace Action

variable {σ ε α β : Type}

/-- The action runs on a changed state as on the unchanged one, and the change stays. -/
def Overlooks (m : Action σ ε α) (change : σ → σ) : Prop :=
  ∀ s, m.run (change s) = ((m.run s).1, change (m.run s).2)

variable {change : σ → σ}

theorem overlooks_pure (a : α) : (pure a : Action σ ε α).Overlooks change := fun _ => rfl

theorem overlooks_fail (e : ε) : (fail e : Action σ ε α).Overlooks change := fun _ => rfl

theorem overlooks_modify {f : σ → σ} (h : ∀ s, f (change s) = change (f s)) :
    (modify f : Action σ ε Unit).Overlooks change := fun s => by
  rw [run_modify, run_modify, h]

theorem Overlooks.bind {m : Action σ ε α} {next : α → Action σ ε β} (hm : m.Overlooks change)
    (hnext : ∀ a, (next a).Overlooks change) : (m >>= next).Overlooks change := by
  intro s
  rw [run_bind, run_bind, hm s]
  rcases m.run s with ⟨a | e | _, t⟩
  · exact hnext a t
  · rfl
  · rfl

/-- What an action looks at in its state does not depend on the change. -/
theorem overlooks_get {next : σ → Action σ ε β} (hsame : ∀ s, next (change s) = next s)
    (hnext : ∀ s, (next s).Overlooks change) : (get >>= next).Overlooks change := by
  intro s
  rw [run_bind, run_bind]
  simp only [run_get, hsame]
  exact hnext s s

end Action

open SessionTrail.Action (Overlooks)

namespace Session

theorem consult_overlooks (c : Call) (bus : Bus Event) : (consult c).Overlooks (·.withBus bus) := by
  intro x
  change consult c (x.withBus bus) = ((consult c x).1, (consult c x).2.withBus bus)
  have hsame : (x.withBus bus).backend.trouble (x.withBus bus).history c =
      x.backend.trouble x.history c := rfl
  simp only [consult, hsame]
  rcases x.backend.trouble x.history c with _ | _ | _ <;> rfl

theorem attempt_overlooks (c : Call) (bus : Bus Event) : (attempt c).Overlooks (·.withBus bus) := by
  refine (consult_overlooks c bus).bind fun _ => Action.overlooks_get (fun _ => rfl) fun x => ?_
  split
  · exact Action.overlooks_fail _
  · exact Action.overlooks_pure _

theorem readFact_overlooks (f : Fact) (bus : Bus Event) : (readFact f).Overlooks (·.withBus bus) :=
  (attempt_overlooks _ bus).bind fun _ =>
    Action.overlooks_get (fun x => by cases f <;> rfl) fun _ => Action.overlooks_pure _

theorem write_overlooks (key value : String) (bus : Bus Event) :
    (write key value).Overlooks (·.withBus bus) :=
  (attempt_overlooks _ bus).bind fun _ => Action.overlooks_modify fun _ => rfl

theorem writeIdentity_overlooks (keyPrefix : String) (bus : Bus Event) :
    (writeIdentity keyPrefix).Overlooks (·.withBus bus) :=
  (readFact_overlooks _ bus).bind fun _ => (write_overlooks _ _ bus).bind fun _ =>
    (readFact_overlooks _ bus).bind fun _ => write_overlooks _ _ bus

end Session

namespace Program

/-- A program with another bus for a session. -/
def withBus (id : SessionId) (bus : Bus Event) (s : Program) : Program :=
  s.modifySession id (·.withBus bus)

theorem onSession_overlooks {α : Type} {m : Action Session CallError α} {bus : Bus Event}
    (hm : m.Overlooks (·.withBus bus)) (id' id : SessionId) :
    (onSession id' m).Overlooks (withBus id bus) := by
  intro s
  cases hx : s.session? id' with
  | none =>
    have hx' : (s.withBus id bus).session? id' = none := by
      rw [withBus, session?_modifySession, hx, Option.map_none, ite_self]
    rw [run_onSession_of_none hx, run_onSession_of_none hx']
  | some x =>
    by_cases he : id' = id
    · subst he
      have hx' : (s.withBus id' bus).session? id' = some (x.withBus bus) := by
        rw [withBus, session?_modifySession, if_pos rfl, hx, Option.map_some]
      have hset : ∀ y : Session, (s.sessions.modify id' (·.withBus bus)).set id' (y.withBus bus) =
          (s.sessions.set id' y).modify id' (·.withBus bus) := fun y => by
        simp only [Table.modify, show s.sessions.get? id' = some x from hx, Table.set_set,
          Table.get?_set_self]
      rw [run_onSession hx, run_onSession hx', hm x]
      simp only [withBus, modifySession, hset]
    · have hx' : (s.withBus id bus).session? id' = some x := by
        rw [withBus, session?_modifySession, if_neg he, hx]
      have hc : s.sessions.contains id' = true := by
        rw [Table.contains, show s.sessions.get? id' = some x from hx, Option.isSome_some]
      rw [run_onSession hx, run_onSession hx']
      simp only [withBus, modifySession, Table.modify_set_comm he _ _ hc]

theorem writeIdentity_overlooks (keyPrefix : String) (id' : Option SessionId) (id : SessionId)
    (bus : Bus Event) : (writeIdentity keyPrefix id').Overlooks (withBus id bus) := by
  cases id' with
  | none => exact Action.overlooks_pure _
  | some id' => exact onSession_overlooks (Session.writeIdentity_overlooks keyPrefix bus) id' id

/-- A change of a program that does not show in anything that listeners look at. -/
structure Unseen (change : Program → Program) : Prop where
  now_eq : ∀ s, (change s).now = s.now
  active_eq : ∀ s, (change s).active = s.active
  leave_eq : ∀ s crumb, (change s).leave crumb = change (s.leave crumb)
  record_eq : ∀ s id kind, (change s).record id kind = change (s.record id kind)
  writes : ∀ keyPrefix id, (writeIdentity keyPrefix id).Overlooks change

namespace Unseen

variable {change : Program → Program}

theorem refreshIdentity (h : Unseen change) (keyPrefix : String) :
    (refreshIdentity keyPrefix).Overlooks change := by
  intro s
  have hw := h.writes keyPrefix s.active s
  change Program.refreshIdentity keyPrefix (change s) =
    ((Program.refreshIdentity keyPrefix s).1, change (Program.refreshIdentity keyPrefix s).2)
  simp only [Program.refreshIdentity, h.active_eq]
  rw [hw]
  rcases (writeIdentity keyPrefix s.active).run s with ⟨_ | ⟨_ | _⟩ | _, t⟩ <;> rfl

theorem trail (h : Unseen change) (keyPrefix : String) (e : Event) :
    (trail keyPrefix e).Overlooks change := by
  intro s
  change Program.trail keyPrefix e (change s) =
    ((Program.trail keyPrefix e s).1, change (Program.trail keyPrefix e s).2)
  unfold Program.trail
  rw [h.now_eq]
  split
  · rfl
  · rfl
  · rw [h.leave_eq]
    split
    · exact h.refreshIdentity keyPrefix _
    · rfl

/-- Whatever a listener does with an event, it overlooks what is unseen. -/
theorem notify (h : Unseen change) (l : Listener) (e : Event) : (notify l e).Overlooks change := by
  unfold Program.notify
  split
  · exact Action.overlooks_pure _
  · exact h.trail _ e
  · refine Overlooks.bind (Action.overlooks_modify fun s => h.record_eq s _ _) fun _ => ?_
    split
    · exact Action.overlooks_fail _
    · exact Action.overlooks_pure _

end Unseen

/-- Listeners do not look at what is queued. -/
theorem unseen_withBus (id : SessionId) (bus : Bus Event) : Unseen (withBus id bus) where
  now_eq _ := rfl
  active_eq _ := rfl
  leave_eq _ _ := rfl
  record_eq _ _ _ := rfl
  writes keyPrefix id' := writeIdentity_overlooks keyPrefix id' id bus

end Program

end SessionTrail
