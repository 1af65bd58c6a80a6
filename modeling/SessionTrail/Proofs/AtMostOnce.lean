import SessionTrail.Proofs.Calm
import SessionTrail.Proofs.Gone

/-!
# At most one listener

In a run without crashes an installer has at most one listener at a session: one if it stands with the
session, else none. It is the standing and nothing else that tells whether a listener is there, however
sessions are stopped, forgotten or refuse calls.
-/
namespace SessionTrail

open Program World

/-- Between the operations of a run without crashes, listeners and standings agree. Where a standing is
missing there is no listener, unless nobody can reach the session: then nobody ever will, whatever the
run goes on with, and its listeners are gone with it. -/
theorem listeners_agree_with_standings (now : Timestamp) (retention : Retention) (cs : List Command)
    (calm : ∀ o ∈ Command.allOperations cs (initial now retention), o.Calm) (g : InstallerId)
    (id : SessionId) :
    let s := (Command.runAll cs (initial now retention)).program
    s.standing? g id ≠ some .installing ∧
      ∀ x, s.session? id = some x →
        x.attachedBy g ≤ 1 ∧
        (s.standing? g id = none → x.attachedBy g = 0 ∨
          ∀ more, (Command.runAll (cs ++ more) (initial now retention)).program.isReachable id = false) ∧
        (x.stopped = false → (s.standing? g id).isSome = true → x.attachedBy g = 1) := by
  intro s
  have hw : (Command.runAll cs (initial now retention)).Sound fun _ _ => 0 := by
    rw [Command.runAll_eq_perform]
    exact ((sound_initial now retention).perform_calm (calm_initial now retention) calm).1
  have hs : s.Sound fun _ _ => 0 := hw.program
  refine ⟨hs.settled g id, fun x hx => ?_⟩
  cases hst : x.stopped with
  | true =>
    have hz := Session.attachedBy_of_nil (hs.stopped_empty id x hx hst) g
    exact ⟨by omega, fun _ => .inl hz, nofun⟩
  | false =>
    have hb := hs.balance g id x hx hst
    refine ⟨hb.at_most, fun hn => ?_, fun _ => hb.stands⟩
    cases hr : s.isReachable id with
    | true => exact .inl (hb.free hn hr)
    | false =>
      right
      intro more
      rw [Command.runAll_append, Command.runAll_eq_perform more]
      exact gone_for_good hw _ (by rw [hx]; rfl) hr

/-- A run in which an installation leaves its session stranded, and is tried again. -/
def strandedRun : List Command :=
  [.operation (.start ⟨⟨0⟩⟩ (.standard none) .stuck false), .operation (.newInstaller .standard),
    .operation (.ensureInstalled ⟨0⟩ ⟨⟨0⟩⟩), .operation (.ensureInstalled ⟨0⟩ ⟨⟨0⟩⟩)]

theorem strandedRun_calm :
    ∀ o ∈ Command.allOperations strandedRun (initial .epoch .standard), o.Calm := by
  have ho : Command.allOperations strandedRun (initial .epoch .standard) =
      [.start ⟨⟨0⟩⟩ (.standard none) .stuck false, .newInstaller .standard,
        .ensureInstalled ⟨0⟩ ⟨⟨0⟩⟩, .ensureInstalled ⟨0⟩ ⟨⟨0⟩⟩] := rfl
  rw [ho]
  intro o hm
  simp only [List.mem_cons, List.not_mem_nil, or_false] at hm
  rcases hm with rfl | rfl | rfl | rfl
  · exact Backend.stuck_calm
  · trivial
  · trivial
  · trivial

/-- The stranded session has the one listener that could not be detached, also behind a second try. -/
theorem listeners_agree_when_stranded :
    (∀ o ∈ Command.allOperations strandedRun (initial .epoch .standard), o.Calm) ∧
      (Command.runAll strandedRun (initial .epoch .standard)).program.standing? ⟨0⟩ ⟨⟨0⟩⟩ =
        some .stranded ∧
      ∀ x, (Command.runAll strandedRun (initial .epoch .standard)).program.session? ⟨⟨0⟩⟩ = some x →
        x.stopped = false → x.attachedBy ⟨0⟩ = 1 := by
  have hs : (Command.runAll strandedRun (initial .epoch .standard)).program.standing? ⟨0⟩ ⟨⟨0⟩⟩ =
      some .stranded := by decide
  refine ⟨strandedRun_calm, hs, fun x hx hrun => ?_⟩
  have h := listeners_agree_with_standings .epoch .standard strandedRun strandedRun_calm ⟨0⟩ ⟨⟨0⟩⟩
  exact (h.2 x hx).2.2 hrun (by rw [hs]; rfl)

end SessionTrail
