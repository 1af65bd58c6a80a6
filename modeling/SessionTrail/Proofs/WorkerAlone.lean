import SessionTrail.Proofs.Attempt
import SessionTrail.Proofs.Overlook
import SessionTrail.Proofs.WorkerLoop

/-!
# Workers that are left alone

A worker that has been told to stop, and that nobody disturbs, takes what is queued and lets go of its
subscription, within two steps for each message and a few more. The worker of a listener that is detached
is such a worker: what the program delivers for it, and what it leaves, is what the loop does.
-/
namespace SessionTrail

namespace WorkerLoop

variable {σ ε μ : Type} {take : μ → Action σ ε Unit} {s t : WorkerLoop σ ε μ}

/-- The worker takes some steps, and nothing else happens. -/
def alone (take : μ → Action σ ε Unit) (n : Nat) (s : WorkerLoop σ ε μ) : WorkerLoop σ ε μ :=
  s.run take (List.replicate n .work)

theorem alone_succ (take : μ → Action σ ε Unit) (n : Nat) (s : WorkerLoop σ ε μ) :
    s.alone take (n + 1) = (s.work take).alone take n := rfl

theorem alone_add (take : μ → Action σ ε Unit) (m n : Nat) (s : WorkerLoop σ ε μ) :
    s.alone take (m + n) = (s.alone take m).alone take n := by
  rw [alone, List.replicate_add, run_append]
  rfl

/-! ## Stopping -/

/-- How many steps a worker that has been told to stop may still take. -/
def remaining (s : WorkerLoop σ ε μ) : Nat :=
  match s.position with
  | .left _ => 0
  | .leaving _ => 1
  | .flushing => 2 + 2 * (s.bus.queue s.subscription).length
  | .asking | .handling _ true => 3 + 2 * (s.bus.queue s.subscription).length
  | .handling _ false => 4 + 2 * (s.bus.queue s.subscription).length
  | .polling => 5 + 2 * (s.bus.queue s.subscription).length

theorem remaining_le (s : WorkerLoop σ ε μ) :
    s.remaining ≤ 5 + 2 * (s.bus.queue s.subscription).length := by
  rw [remaining]
  split <;> omega

theorem hasLeft_of_remaining (h : s.remaining = 0) : s.position.hasLeft = true := by
  rw [remaining] at h
  split at h
  · rename_i hp
    rw [hp]
    rfl
  all_goals omega

/-- Every step brings a worker that has been told to stop nearer to its end. -/
theorem remaining_work (h : s.InOrder) (hs : s.signalled = true) (take : μ → Action σ ε Unit) :
    (s.work take).remaining ≤ s.remaining - 1 := by
  cases hp : s.position with
  | polling =>
    have hq := (Bus.Takes.receive (h.live (hp ▸ rfl))).queue_eq
    simp only [work, remaining, hp]
    generalize s.bus.receive s.subscription = r at hq ⊢
    obtain ⟨m | _ | _, b⟩ := r <;>
      simp only [Bus.Answer.messages, List.nil_append, List.cons_append] at hq <;>
      simp only [goTo, did, hq, List.length_cons] <;> omega
  | handling m seen =>
    simp only [work, remaining, hp]
    cases ((take m).run s.surroundings).1 <;> cases seen <;>
      simp only [Position.after, if_true, Bool.false_eq_true, if_false] <;> omega
  | asking =>
    simp only [work, remaining, hp, hs, if_true, goTo]
    omega
  | flushing =>
    have hq := (Bus.Takes.next (h.live (hp ▸ rfl))).queue_eq
    simp only [work, remaining, hp]
    generalize s.bus.next? s.subscription = r at hq ⊢
    obtain ⟨_ | m, b⟩ := r <;>
      simp only [Option.toList_none, Option.toList_some, List.nil_append, List.cons_append] at hq <;>
      simp only [goTo, did, hq, List.length_cons] <;> omega
  | leaving why =>
    simp only [work, remaining, hp, goTo]
    omega
  | left why =>
    simp only [work, remaining, hp]
    omega

theorem remaining_alone (h : s.InOrder) (hs : s.signalled = true) (take : μ → Action σ ε Unit) (n : Nat) :
    (s.alone take n).remaining ≤ s.remaining - n := by
  induction n generalizing s with
  | zero => exact Nat.le_refl _
  | succ n ih =>
    have hstep : (s.advance take .work).remaining ≤ s.remaining - 1 := remaining_work h hs take
    have hrest := ih (h.advance take .work) ((signalled_work take s).trans hs)
    rw [alone_succ]
    exact hrest.trans (by omega)

/-- A worker that has been told to stop, and that is left alone, is gone after two steps for each message
that is queued and five more, whatever its listener does. -/
theorem signalled_workers_stop (h : s.InOrder) (hs : s.signalled = true)
    (take : μ → Action σ ε Unit) :
    (s.alone take (5 + 2 * (s.bus.queue s.subscription).length)).position.hasLeft = true := by
  have hrest := remaining_alone h hs take (5 + 2 * (s.bus.queue s.subscription).length)
  have hle := s.remaining_le
  exact hasLeft_of_remaining (by omega)

end WorkerLoop

theorem Bus.drop_drop {μ : Type} (b : Bus μ) (id : SubscriptionId) : (b.drop id).drop id = b.drop id := by
  have hnone : (b.queues.erase id).get? id = none := by rw [Table.get?_erase, if_pos rfl]
  simp only [Bus.drop, Table.erase_of_get?_eq_none hnone]

theorem Bus.queue_drop {μ : Type} (b : Bus μ) (id : SubscriptionId) : (b.drop id).queue id = [] := by
  have hnone : (b.queues.erase id).get? id = none := by rw [Table.get?_erase, if_pos rfl]
  simp only [Bus.queue, Bus.drop, hnone, Option.getD_none]

/-! ## The workers of a program -/

open Program WorkerLoop

variable (id : SessionId) {w : Worker}

/-- A worker that has been told to stop, with the bus of its session, in a program. -/
def Worker.told (w : Worker) (bus : Bus Event) (s : Program) : WorkerLoop Program HandlingError Event :=
  { subscription := w.subscription, bus, history := [], position := .asking, signalled := true,
    surroundings := s }

/-- The program that a worker works on, where the session has the worker's bus. -/
def WorkerLoop.program (id : SessionId) (l : WorkerLoop Program HandlingError Event) : Program :=
  l.surroundings.withBus id l.bus

theorem session?_program {l : WorkerLoop Program HandlingError Event} :
    (l.program id).session? id = (l.surroundings.session? id).map (·.withBus l.bus) := by
  rw [WorkerLoop.program, Program.withBus, session?_modifySession, if_pos rfl]

/-- A turn of a worker in the program is what its loop does in two steps where it flushes. -/
theorem turn_eq_alone {l : WorkerLoop Program HandlingError Event} {e : Event} {rest : List Event}
    (hp : l.position = .flushing) (hw : l.subscription = w.subscription) {x : Session}
    (hx : l.surroundings.session? id = some x) (hq : l.bus.queue l.subscription = e :: rest) :
    let r := (notify w.listener e).run l.surroundings
    let b := (l.bus.receive l.subscription).2
    l.alone (notify w.listener) 2 =
      { l with
        bus := b
        history := l.history ++ [⟨.next l.subscription, .next (some e)⟩]
        handled := l.handled ++ [(e, r.1)]
        position := .after true r.1
        surroundings := r.2 } ∧
      turn id w (l.program id) = ([⟨w.number, e, r.1⟩],
        if r.1 = .crashed then (r.2.withBus id b).modifySession id (·.silence w) else r.2.withBus id b) := by
  intro r b
  have hnext : l.bus.next? l.subscription = (some e, b) := by
    simp only [Bus.next?, b, Bus.receive, hq]
  refine ⟨?_, ?_⟩
  · rw [alone_succ, alone_succ]
    simp only [work, hp, hnext, goTo, did]
    rfl
  · have hx' : (l.program id).session? id = some (x.withBus l.bus) := by
      rw [session?_program, hx, Option.map_some]
    have hprogram : (l.program id).modifySession id (·.withBus b) = l.surroundings.withBus id b := by
      rw [WorkerLoop.program, Program.withBus, modifySession_modifySession]
      rfl
    have hturn := turn_of_queue hx' (hw ▸ hq)
    simp only [← hw] at hturn
    rw [hturn]
    have hn := (unseen_withBus id b).notify w.listener e l.surroundings
    change (_, _) = _
    rw [show (x.withBus l.bus).bus = l.bus from rfl, show (l.bus.receive l.subscription).2 = b from rfl,
      hprogram, hn]

theorem rounds_of_empty (n : Nat) {s : Program}
    (h : ∀ x, s.session? id = some x → x.bus.queue w.subscription = []) :
    rounds id [w] n s = ([], s) := by
  induction n with
  | zero => rfl
  | succ n ih => simp only [rounds, Program.round, turn_of_empty h, ih, List.append_nil]

/-- The loop of a worker has let go of its subscription, and has left what the program has that has ended
the worker after it had handled some events. -/
structure Ends (id : SessionId) (w : Worker) (l : WorkerLoop Program HandlingError Event)
    (handled : List (Event × Outcome HandlingError Unit)) (s : Program) : Prop where
  gone : l.position.hasLeft = true
  handled_eq : l.handled = handled
  program_eq : s.modifySession id (·.endWorker w) =
    (l.program id).modifySession id fun x => { x with workers := x.workers.erase w }

/-- The worker goes when it finds nothing queued. -/
theorem ends_of_empty {l : WorkerLoop Program HandlingError Event} (hp : l.position = .flushing)
    (hw : l.subscription = w.subscription) (hq : l.bus.queue l.subscription = []) :
    Ends id w (l.alone (notify w.listener) 2) l.handled (l.program id) := by
  have hnext : l.bus.next? l.subscription = (none, l.bus) := by
    simp only [Bus.next?, Bus.receive, hq]
    split
    · rename_i hr
      split at hr <;> cases hr
    · rename_i hr
      exact congrArg (none, ·) (congrArg Prod.snd hr).symm
  rw [alone_succ, alone_succ]
  simp only [work, hp, hnext, goTo, did]
  refine ⟨rfl, rfl, ?_⟩
  simp only [WorkerLoop.program, Program.withBus, alone, run, List.replicate_zero, List.foldl_nil,
    modifySession_modifySession, hw]
  rfl

/-- After a crash of its listener the worker goes with what is queued. -/
theorem ends_of_crashed {l : WorkerLoop Program HandlingError Event} (hp : l.position = .leaving .crashed)
    (hw : l.subscription = w.subscription) :
    Ends id w (l.alone (notify w.listener) 1) l.handled
      ((l.program id).modifySession id (·.silence w)) := by
  rw [alone_succ]
  simp only [work, hp, goTo, did]
  refine ⟨rfl, rfl, ?_⟩
  simp only [WorkerLoop.program, Program.withBus, alone, run, List.replicate_zero, List.foldl_nil,
    modifySession_modifySession, hw]
  congr 1
  funext x
  simp only [Session.endWorker, Session.silence, Session.withBus, Bus.drop_drop]

theorem rounds_eq_alone (n : Nat) {l : WorkerLoop Program HandlingError Event}
    (hp : l.position = .flushing) (hw : l.subscription = w.subscription)
    (hx : (l.surroundings.session? id).isSome = true) (hn : (l.bus.queue l.subscription).length = n) :
    ∃ k, Ends id w (l.alone (notify w.listener) k)
      (l.handled ++ (rounds id [w] n (l.program id)).1.map fun h => (h.event, h.result))
      (rounds id [w] n (l.program id)).2 := by
  induction n generalizing l with
  | zero =>
    have hends := ends_of_empty id hp hw (List.eq_nil_of_length_eq_zero hn)
    exact ⟨2, by simpa only [rounds, List.map_nil, List.append_nil] using hends⟩
  | succ n ih =>
    obtain ⟨e, rest, hq⟩ := List.exists_cons_of_length_eq_add_one hn
    obtain ⟨x, hx⟩ := Option.isSome_iff_exists.mp hx
    obtain ⟨hloop, hturn⟩ := turn_eq_alone id hp hw hx hq
    have hround : rounds id [w] (n + 1) (l.program id) =
        ((turn id w (l.program id)).1 ++ (rounds id [w] n (turn id w (l.program id)).2).1,
          (rounds id [w] n (turn id w (l.program id)).2).2) := by
      simp only [rounds, Program.round, List.append_nil]
    have hadd : ∀ k, l.alone (notify w.listener) (2 + k) =
        (l.alone (notify w.listener) 2).alone (notify w.listener) k := fun k => alone_add _ 2 k l
    have hkept : ∀ r, r = (notify w.listener e).run l.surroundings →
        (r.2.session? id).isSome = true := fun r hr => by
      have hsame := congrArg Program.sessions (notify_keeps_bare w.listener e l.surroundings)
      rw [hr, isSome_session?_of_map_eq hsame, hx, Option.isSome_some]
    generalize (notify w.listener e).run l.surroundings = r at hloop hturn hkept
    rw [hround, hturn]
    by_cases hc : r.1 = .crashed
    · -- What is queued is lost with the subscription, so the turns that are left find nothing.
      have hpos : (l.alone (notify w.listener) 2).position = .leaving .crashed := by rw [hloop, hc]; rfl
      have hends := ends_of_crashed id hpos (by rw [hloop]; exact hw)
      rw [← hadd 1] at hends
      have hempty : ∀ y, ((r.2.withBus id (l.bus.receive l.subscription).2).modifySession id
          (·.silence w)).session? id = some y → y.bus.queue w.subscription = [] := by
        intro y hy
        obtain ⟨z, -, ⟨-, rfl⟩ | ⟨hne, -⟩⟩ := modifySession_cases hy
        · exact z.bus.queue_drop w.subscription
        · exact absurd rfl hne
      rw [if_pos hc, rounds_of_empty id n hempty]
      refine ⟨3, ?_⟩
      rw [hloop] at hends
      exact hends
    · have hpos : (l.alone (notify w.listener) 2).position = .flushing := by
        rw [hloop]
        exact Position.after_of_returned hc true
      have hrest : ((l.bus.receive l.subscription).2.queue l.subscription).length = n := by
        have htaken : (l.bus.receive l.subscription).2.queue l.subscription = rest := by
          simp only [Bus.receive, hq]
          exact Bus.queue_of_get? (Table.get?_set_self ..)
        rw [htaken]
        rw [hq, List.length_cons] at hn
        omega
      obtain ⟨k, hends⟩ := ih hpos (by rw [hloop]; exact hw) (by rw [hloop]; exact hkept r rfl)
        (by rw [hloop]; exact hrest)
      rw [← hadd k, hloop] at hends
      rw [if_neg hc]
      refine ⟨2 + k, ?_⟩
      rw [List.map_append, ← List.append_assoc]
      exact hends

/-- To detach a listener is to tell its worker to stop and to wait until it is gone. -/
theorem endWorkerOf_eq_alone {s : Program} {x : Session} {l : ListenerId} (hx : s.session? id = some x)
    (hw : x.workerOf? l = some w) :
    ∃ k, let alone := (w.told x.bus s).alone (notify w.listener) k
      alone.position.hasLeft = true ∧
      alone.handled = (flush id [w] s).1.map (fun h => (h.event, h.result)) ∧
      (endWorkerOf id l s).2 =
        (alone.program id).modifySession id fun x => { x with workers := x.workers.erase w } := by
  let flushing := (w.told x.bus s).alone (notify w.listener) 1
  have hs : flushing.program id = s := by
    have hsame : s.sessions.modify id (·.withBus x.bus) = s.sessions := Table.modify_of_get? hx rfl
    change { s with sessions := s.sessions.modify id (·.withBus x.bus) } = s
    rw [hsame]
  have hflush : flush id [w] s = rounds id [w] (x.bus.queue w.subscription).length s := by
    simp only [flush, hx, backlog, List.foldl_cons, List.foldl_nil, Nat.zero_max]
  have hend : (endWorkerOf id l s).2 = (flush id [w] s).2.modifySession id (·.endWorker w) := by
    simp only [endWorkerOf, hx, Option.bind_some, hw]
  obtain ⟨k, hgone, hhandled, hprogram⟩ := rounds_eq_alone id (w := w)
    (x.bus.queue w.subscription).length (l := flushing) rfl rfl (Option.isSome_of_mem hx) rfl
  rw [hs, ← hflush] at hhandled hprogram
  exact ⟨k + 1, hgone, hhandled, hend.trans hprogram⟩

end SessionTrail
