/-!
# Actions that can fail

An action runs on a state. It ends with a value, with an error that its caller is told, or by a crash
of the code that it called. The state that it has reached by then is kept, however it ends.
-/
namespace SessionTrail

/-- How an action ends. -/
inductive Outcome (ε α : Type) where
  | done (value : α)
  | failed (error : ε)
  | crashed
deriving DecidableEq, Repr

namespace Outcome

variable {ε δ α β : Type}

def map (f : α → β) : Outcome ε α → Outcome ε β
  | .done a => .done (f a)
  | .failed e => .failed e
  | .crashed => .crashed

def mapError (f : ε → δ) : Outcome ε α → Outcome δ α
  | .done a => .done a
  | .failed e => .failed (f e)
  | .crashed => .crashed

end Outcome

/-- A computation on a state `σ` that can fail with `ε` or crash. -/
def Action (σ ε α : Type) : Type := σ → Outcome ε α × σ

namespace Action

variable {σ τ ε δ α β : Type}

def run (m : Action σ ε α) (s : σ) : Outcome ε α × σ := m s

protected def pure (a : α) : Action σ ε α := fun s => (.done a, s)

/-- Go on with the value of an action, if it has one. -/
protected def bind (m : Action σ ε α) (f : α → Action σ ε β) : Action σ ε β := fun s =>
  match m s with
  | (.done a, t) => f a t
  | (.failed e, t) => (.failed e, t)
  | (.crashed, t) => (.crashed, t)

instance : Monad (Action σ ε) where
  pure := Action.pure
  bind := Action.bind

instance : LawfulMonad (Action σ ε) :=
  LawfulMonad.mk' (Action σ ε)
    (fun m => by
      funext s
      simp only [Functor.map, Action.bind, Function.comp]
      rcases m s with ⟨_ | _ | _, t⟩ <;> rfl)
    (fun _ _ => rfl)
    (fun m f g => by
      funext s
      simp only [bind, Action.bind]
      rcases m s with ⟨_ | _ | _, t⟩ <;> rfl)

def fail (e : ε) : Action σ ε α := fun s => (.failed e, s)

/-- End by a crash. -/
def crash : Action σ ε α := fun s => (.crashed, s)

def get : Action σ ε σ := fun s => (.done s, s)

def modify (f : σ → σ) : Action σ ε Unit := fun s => (.done (), f s)

def mapError (f : ε → δ) (m : Action σ ε α) : Action σ δ α := fun s =>
  ((m s).1.mapError f, (m s).2)

@[simp] theorem run_pure (a : α) (s : σ) : (pure a : Action σ ε α).run s = (.done a, s) := rfl

theorem run_bind (m : Action σ ε α) (f : α → Action σ ε β) (s : σ) :
    (m >>= f).run s = match m.run s with
      | (.done a, t) => (f a).run t
      | (.failed e, t) => (.failed e, t)
      | (.crashed, t) => (.crashed, t) := rfl

@[simp] theorem run_fail (e : ε) (s : σ) : (fail e : Action σ ε α).run s = (.failed e, s) := rfl

@[simp] theorem run_crash (s : σ) : (crash : Action σ ε α).run s = (.crashed, s) := rfl

@[simp] theorem run_get (s : σ) : (get : Action σ ε σ).run s = (.done s, s) := rfl

@[simp] theorem run_modify (f : σ → σ) (s : σ) :
    (modify f : Action σ ε Unit).run s = (.done (), f s) := rfl

@[simp] theorem run_mapError (f : ε → δ) (m : Action σ ε α) (s : σ) :
    (m.mapError f).run s = ((m.run s).1.mapError f, (m.run s).2) := rfl

end Action

end SessionTrail
