import SessionTrail.Proofs.Callbacks
import SessionTrail.Proofs.Profile
import SessionTrail.Proofs.Reads
import SessionTrail.Proofs.Windows

/-!
# How many writes a session serves

Where the backend of a session has no trouble, each activation that installs the trail there has it serve two
writes, and so does each refresh that finds it as the active session and running. Whatever else happens to
the program, it serves no write but those that are asked of it directly.
-/
namespace SessionTrail

open Program World

/-- A session as far as the number of its writes is concerned. -/
def Session.tally (x : Session) : Backend × Nat := (x.backend, x.writes)

namespace Session

theorem attach_keeps_tally (l : Listener) : (attach l).Keeps tally := by
  intro x
  rw [run_attach]
  cases x.troubleWith .attach <;> rfl

theorem post_keeps_tally (e : Event) : (post e).Keeps tally := by
  intro x
  cases hx : x.stopped with
  | true => rw [run_post_of_stopped e hx]
  | false =>
    rw [run_post_of_running e hx]
    rfl

/-- A session whose backend has no trouble serves a write that is asked of it if it runs. -/
theorem run_write_untroubled {x : Session} (hb : x.backend.Untroubled) (key value : String) :
    ∃ y, (write key value).run x = (if x.stopped then .failed .stopped else .done (), y) ∧
      y.backend = x.backend ∧ y.writes = x.writes + if x.stopped then 0 else 1 := by
  have ht : x.troubleWith (.write key value) = if x.stopped then some (.refusal .stopped) else none := by
    rw [troubleWith, Backend.troubleWith, hb]
    rfl
  rw [makes_write, makeCalls, ht]
  cases x.stopped with
  | true => exact ⟨x.note (.write key value), rfl, rfl, rfl⟩
  | false => exact ⟨x.served (.write key value), rfl, rfl, rfl⟩

end Session

namespace Program

variable {s t u : Program} {a id : SessionId} {n : Nat}

/-! ## Where no writes are served -/

/-- From `s` to `t` no session is gained or lost, none gets another backend, and none serves a write. -/
def SameTallies (s t : Program) : Prop := t.sessions.map Session.tally = s.sessions.map Session.tally

namespace SameTallies

theorem refl (s : Program) : SameTallies s s := rfl

theorem trans (h : SameTallies s t) (h' : SameTallies t u) : SameTallies s u := Eq.trans h' h

theorem of_sessions_eq (h : t.sessions = s.sessions) : SameTallies s t := congrArg (Table.map _) h

theorem modifySession {f : Session → Session} (hf : ∀ x, (f x).tally = x.tally) :
    SameTallies s (s.modifySession id f) := Table.map_modify _ _ hf

theorem set {x y : Session} (hx : s.session? id = some x) (hy : y.tally = x.tally) :
    SameTallies s { s with sessions := s.sessions.set id y } := Table.map_set_of_get? hx hy

theorem onSession {α : Type} {m : Action Session CallError α} (hm : m.Keeps Session.tally) :
    SameTallies s ((Program.onSession id m).run s).2 := by
  cases hx : s.session? id with
  | none =>
    rw [run_onSession_of_none hx]
    exact refl s
  | some x =>
    rw [run_onSession hx]
    exact set hx (hm x)

theorem runProcessor (hint : Hint) (p : Processor) (report : Report) (s : Program) :
    SameTallies s (Program.runProcessor hint p report s).2 := by
  cases p with
  | enricher e =>
    simp only [Program.runProcessor, runEnricher]
    split
    · obtain ⟨reads, outcome, final, t, _, hr, ht, _⟩ :=
        Report.filledBy_fillByPlan (fun a => Program.onSession e.session (Session.read a)) report s
      rw [foldl_onSession_read] at ht
      simp only [fillReport, hr, ht]
      exact modifySession fun _ => rfl
    · exact refl s
  | rule r =>
    simp only [Program.runProcessor, runRule]
    split <;> exact of_sessions_eq rfl

theorem submit (report : Report) (hint : Hint) (s : Program) :
    SameTallies s (Program.submit report hint s).2 :=
  submit_preserves hint (fun p report t h => h.trans (runProcessor hint p report t)) (fun _ _ h => h) report
    (refl s)

theorem counts (h : SameTallies s t) (hc : s.Counts a n) : t.Counts a n := by
  cases hy : t.session? a with
  | none =>
    have hx : s.session? a = none := by
      have hk := isSome_session?_of_map_eq h a
      rw [hy] at hk
      exact Option.not_isSome_iff_eq_none.mp (by rw [← hk]; exact Bool.false_ne_true)
    exact hc.of_session?_eq (hy.trans hx.symm)
  | some y =>
    obtain ⟨x, hx, hxy⟩ := session?_of_map_eq h hy
    exact hc.of_session? hx hy (congrArg Prod.fst hxy).symm (congrArg Prod.snd hxy).symm

end SameTallies

/-! ## Installations -/

theorem run_install_of_none (g : InstallerId) (config : Config) (hx : s.session? id = none) :
    (install g config id).run s =
      (.failed ⟨.stopped, false⟩, (s.newListener (.trail config.keyPrefix) (some g)).2) := by
  have hx' : (s.newListener (.trail config.keyPrefix) (some g)).2.session? id = none := hx
  rw [run_install]
  simp only [attach, run_onSession_of_none hx']

/-- An installation changes only its own session. -/
theorem sessions_install {x : Session} (g : InstallerId) (config : Config) (hx : s.session? id = some x)
    (hfresh : ∀ w ∈ x.workers, w.listener.id.val < s.listeners) :
    ∃ y, ((install g config id).run s).2.sessions = s.sessions.set id y := by
  cases ht : x.troubleWith .attach with
  | some t =>
    rw [install_of_refused hx ht]
    exact ⟨_, rfl⟩
  | none =>
    rw [run_install_of_attached hx ht]
    obtain ⟨l, hl⟩ : ∃ l, l = (s.newListener (.trail config.keyPrefix) (some g)).1 := ⟨_, rfl⟩
    have hnew : ∀ w ∈ x.workers, w.listener.id ≠ l.id := fun w hw he => by
      have hlt := hfresh w hw
      rw [he, hl] at hlt
      exact Nat.lt_irrefl _ hlt
    rw [← hl]
    have hcore := (Session.called_makeCalls (x.identityCalls config.keyPrefix)
      ((x.note .attach).addWorker l)).core
    rcases hm : Session.makeCalls (x.identityCalls config.keyPrefix) ((x.note .attach).addWorker l)
      with ⟨_ | e | _, z⟩ <;> rw [hm] at hcore
    · exact ⟨z, rfl⟩
    · have hz : ({ s with sessions := s.sessions.set id z, listeners := s.listeners + 1 } :
          Program).session? id = some z := Table.get?_set_self ..
      simp only [run_rollBack_of_attached e hz hcore hnew]
      rcases z.backend.trouble z.history .detach with _ | _ | _ <;> exact ⟨_, Table.set_set ..⟩
    · exact ⟨z, rfl⟩

/-- On a session whose backend has no trouble, an installation is completed if the session runs, and has it
serve two writes then. Else it is refused at once. -/
theorem run_install_untroubled {x : Session} (g : InstallerId) (config : Config) (hx : s.session? id = some x)
    (hb : x.backend.Untroubled) :
    ∃ y, ((install g config id).run s).2.session? id = some y ∧ y.backend = x.backend ∧
      y.writes = x.writes + if replyAfter ((install g config id).run s).1 = .done .installed then 2 else 0 := by
  have ht : x.troubleWith .attach = if x.stopped then some (.refusal .stopped) else none := by
    rw [Session.troubleWith, Backend.troubleWith, hb]
    rfl
  cases hs : x.stopped with
  | true =>
    rw [hs, if_pos rfl] at ht
    rw [install_of_refused hx ht]
    exact ⟨_, Table.get?_set_self .., rfl, rfl⟩
  | false =>
    rw [hs, if_neg Bool.false_ne_true] at ht
    obtain ⟨z, hz⟩ : ∃ z, z = (x.note .attach).addWorker
        (s.newListener (.trail config.keyPrefix) (some g)).1 := ⟨_, rfl⟩
    have hzb : z.backend = x.backend := by rw [hz]; rfl
    have hcalls : x.identityCalls config.keyPrefix = z.identityCalls config.keyPrefix := by rw [hz]; rfl
    have hzs : z.stopped = false := by rw [hz]; exact hs
    have hzn : z.writes = x.writes := by rw [hz]; rfl
    obtain ⟨y, hm, hcore, hwrites⟩ :=
      Session.identityCalls_untroubled (hzb ▸ hb : z.backend.Untroubled) config.keyPrefix
    have hyb : y.backend = z.backend := (congrArg Session.backend hcore :)
    rw [run_install_of_attached hx ht, ← hz, hcalls, hm, hzs]
    refine ⟨y, Table.get?_set_self .., hyb.trans hzb, ?_⟩
    rw [hwrites, hzs, hzn]
    rfl

theorem counts_install (g : InstallerId) (config : Config) (h : s.Counts a n)
    (hfresh : ∀ x, s.session? id = some x → ∀ w ∈ x.workers, w.listener.id.val < s.listeners) :
    ((install g config id).run s).2.Counts a
      (n + if id = a ∧ replyAfter ((install g config id).run s).1 = .done .installed then 2 else 0) := by
  cases hx : s.session? id with
  | none =>
    rw [run_install_of_none g config hx, if_neg fun hand => nomatch hand.2]
    exact h.of_session?_eq rfl
  | some x =>
    by_cases he : id = a
    · subst he
      have hb := h.untroubled x hx
      obtain ⟨y, hy, hyb, hwrites⟩ := run_install_untroubled g config hx hb
      simp only [true_and]
      refine ⟨fun z hz => ?_, ?_⟩
      · rw [hy] at hz
        cases hz
        rw [hyb]
        exact hb
      · rw [writesOf_of_session? hy, hwrites, ← writesOf_of_session? hx, h.writes_eq]
    · obtain ⟨y, hy⟩ := sessions_install g config hx (hfresh x hx)
      rw [if_neg fun hand => he hand.1]
      refine h.of_session?_eq ?_
      rw [session?, hy]
      exact Table.get?_set_of_ne _ _ (Ne.symm he)

/-- An activation that installs the trail on a session has it serve two writes. -/
theorem counts_ensureInstalled {left : InstallerId → SessionId → Nat} (hs : Sound left s) (h : s.Counts a n)
    (g : InstallerId) (id : SessionId) : ((ensureInstalled g id).run s).2.Counts a
      (n + if id = a ∧ ((ensureInstalled g id).run s).1 = .done .installed then 2 else 0) := by
  obtain ⟨hsessions, _, hlisteners, _⟩ := forgetGone_fields g s
  obtain ⟨_, hrun⟩ | ⟨st, _, hrun⟩ | ⟨i, r, u, hr⟩ := ensureInstalled_ends g id s (hs.listener_lt id)
  · rw [hrun, if_neg fun hand => nomatch hand.2]
    exact h
  · rw [hrun, if_neg fun hand => by cases st <;> cases hand.2]
    exact h.of_session?_eq (congrArg (Table.get? · a) hsessions)
  · obtain ⟨t, ht⟩ : ∃ t, t = setStanding g id (some .installing) (forgetGone g s).2 := ⟨_, rfl⟩
    have hts : ∀ id', t.session? id' = s.session? id' := fun id' => by
      rw [ht]
      exact congrArg (Table.get? · id') hsessions
    have htl : t.listeners = s.listeners := by
      rw [ht]
      exact hlisteners
    have hinstall := hr.install_eq
    rw [← ht] at hinstall
    have hcounts := counts_install g i.config (h.of_session?_eq (hts a)) fun x hx w hw => by
      rw [htl]
      exact hs.listener_lt id x ((hts id).symm.trans hx) w hw
    rw [hinstall] at hcounts
    rw [hr.run_eq]
    exact hcounts.of_session?_eq rfl

theorem counts_start (h : s.Counts a n) (id : SessionId) (settings : Settings) {backend : Backend}
    (hb : id = a → backend.Untroubled) (home : Home) : (s.start id settings backend home).Counts a n := by
  cases hc : s.sessions.contains id with
  | true =>
    simp only [start, hc, if_true]
    exact h
  | false =>
    simp only [start, hc, Bool.false_eq_true, if_false]
    by_cases he : id = a
    · subst he
      have hnone : s.session? id = none := by simpa [Table.contains, session?] using hc
      have hn : 0 = n := by rw [← h.writes_eq, writesOf, hnone]; rfl
      refine ⟨fun x hx => ?_, ?_⟩
      · rw [session?, Table.get?_set_self, Option.some.injEq] at hx
        subst hx
        exact hb rfl
      · rw [← hn, writesOf, session?, Table.get?_set_self]
        rfl
    · exact h.of_session?_eq (Table.get?_set_of_ne _ _ (Ne.symm he))

theorem counts_setBackend (h : s.Counts a n) (id : SessionId) {backend : Backend}
    (hb : id = a → backend.Untroubled) : (s.setBackend id backend).Counts a n := by
  by_cases he : id = a
  · subst he
    have hy : ∀ y, (s.setBackend id backend).session? id = some y →
        ∃ x, s.session? id = some x ∧ y = x.withBackend backend := fun y hy => by
      obtain ⟨x, hx, ⟨_, rfl⟩ | ⟨hne, _⟩⟩ := modifySession_cases hy
      · exact ⟨x, hx, rfl⟩
      · exact absurd rfl hne
    refine ⟨fun y hy' => ?_, ?_⟩
    · obtain ⟨x, _, rfl⟩ := hy y hy'
      exact hb rfl
    · rw [← h.writes_eq, writesOf, writesOf, setBackend, session?_modifySession, if_pos rfl]
      cases s.session? id <;> rfl
  · refine h.of_session?_eq ?_
    rw [setBackend, session?_modifySession, if_neg (Ne.symm he)]

theorem counts_write (h : s.Counts a n) (id : SessionId) (key value : String) :
    ((onSession id (Session.write key value)).run s).2.Counts a
      (n + if id = a ∧ ((onSession id (Session.write key value)).run s).1 = .done () then 1 else 0) := by
  cases hx : s.session? id with
  | none =>
    rw [run_onSession_of_none hx, if_neg fun hand => nomatch hand.2]
    exact h
  | some x =>
    rw [run_onSession hx]
    by_cases he : id = a
    · subst he
      have hb := h.untroubled x hx
      obtain ⟨y, hr, hyb, hwrites⟩ := Session.run_write_untroubled hb key value
      have hy : ({ s with sessions := s.sessions.set id y } : Program).session? id = some y :=
        Table.get?_set_self ..
      rw [hr]
      simp only [true_and]
      refine ⟨fun z hz => ?_, ?_⟩
      · rw [hy] at hz
        cases hz
        rw [hyb]
        exact hb
      · rw [writesOf_of_session? hy, hwrites, ← h.writes_eq, writesOf_of_session? hx]
        cases x.stopped <;> rfl
    · rw [if_neg fun hand => he hand.1]
      exact h.of_session?_eq (Table.get?_set_of_ne _ _ (Ne.symm he))

end Program

/-! ## Operations -/

namespace Operation

/-- An operation that brings in no backend for a session that may have trouble. -/
def Untroubles (a : SessionId) : Operation → Prop
  | .start id _ backend _ => id = a → backend.Untroubled
  | .setBackend id backend => id = a → backend.Untroubled
  | _ => True

/-- What an operation itself writes to a session, if that serves it. -/
def writesTo (a : SessionId) : Operation → World → List (String × String)
  | .write id key value, w =>
    if w.program.isReachable id ∧ id = a ∧
        ((onSession id (Session.write key value)).run w.program).1 = .done () then
      [(key, value)]
    else []
  | _, _ => []

/-- The activations that put the trail on a session. -/
def installsOn (a : SessionId) (o : Operation) (w : World) : List Activation :=
  (o.activations w).filter fun activation => activation.session = a ∧ activation.run.1 = .done .installed

/-- The deliveries at which the properties are refreshed while a session is the active one: a job starts or an
attempt is submitted, and the listener leaves a trail. -/
def refreshesOn (a : SessionId) (o : Operation) (w : World) : List Delivery :=
  if w.program.active = some a then (o.deliveries w).filter Delivery.refreshes else []

/-- Those of these refreshes that come to nothing since the session does not run. -/
def refusedOn (a : SessionId) (o : Operation) (w : World) : List Delivery :=
  if w.program.isRefreshed a then [] else o.refreshesOn a w

end Operation

namespace World

variable {w : World} {left : InstallerId → SessionId → Nat} {a id : SessionId} {n : Nat} {o : Operation}
  {t : Program}

/-- From `n` writes of a session to those that it has served after an operation. -/
def CountsOn (w : World) (a : SessionId) (n : Nat) (o : Operation) (t : Program) : Prop :=
  ∃ m, t.Counts a m ∧ m + 2 * (o.refusedOn a w).length =
    n + (o.writesTo a w).length + 2 * ((o.installsOn a w).length + (o.refreshesOn a w).length)

namespace CountsOn

/-- An operation that activates and delivers nothing, and does not write itself. -/
theorem of_counts (h : t.Counts a n) (hw : o.writesTo a w = []) (ha : o.activations w = [])
    (hd : o.deliveries w = []) : CountsOn w a n o t := by
  have hrefreshes : o.refreshesOn a w = [] := by
    rw [Operation.refreshesOn, hd, List.filter_nil, ite_self]
  refine ⟨n, h, ?_⟩
  rw [hw, Operation.installsOn, ha, Operation.refusedOn, hrefreshes, ite_self]
  rfl

/-- An operation that activates once and delivers nothing, and does not write itself. -/
theorem of_activation (activation : Activation)
    (h : t.Counts a (n + if activation.session = a ∧ activation.run.1 = .done .installed then 2 else 0))
    (hw : o.writesTo a w = []) (ha : o.activations w = [activation]) (hd : o.deliveries w = []) :
    CountsOn w a n o t := by
  have hrefreshes : o.refreshesOn a w = [] := by
    rw [Operation.refreshesOn, hd, List.filter_nil, ite_self]
  refine ⟨_, h, ?_⟩
  rw [hw, Operation.installsOn, ha, Operation.refusedOn, hrefreshes, ite_self, List.filter_singleton]
  by_cases hand : activation.session = a ∧ activation.run.1 = .done .installed
  · simp only [hand, and_self, decide_true, if_true]
    rfl
  · simp only [hand, decide_false, if_false]
    rfl

/-- An operation that delivers what the workers of a session handle. -/
theorem of_tallies {x : Session} {handled : List Handled} {u : Program}
    (hx : w.program.session? id = some x) (hw : x.Wired)
    (hknown : ∀ k ∈ handled, ∃ v ∈ x.workers, v.number = k.worker)
    (h : Tallies x.workers a (w.program.isRefreshed a) n handled u) (ht : SameTallies u t)
    (hwrites : o.writesTo a w = []) (ha : o.activations w = [])
    (hd : o.deliveries w = w.deliveries id handled) : CountsOn w a n o t := by
  refine ⟨_, ht.counts h.tallied.toCounts, ?_⟩
  have hcount : ((w.deliveries id handled).filter Delivery.refreshes).length =
      handled.countP (·.refreshes x.workers) := by
    rw [← List.countP_eq_length_filter, countP_deliveries hx hw hknown]
  rw [hwrites, Operation.installsOn, ha, Operation.refusedOn, Operation.refreshesOn, hd]
  cases hon : w.program.isRefreshed a with
  | true =>
    have hactive : w.program.active = some a := by
      rw [isRefreshed, Bool.and_eq_true, decide_eq_true_eq] at hon
      exact hon.1
    simp only [hactive, if_true, hcount, List.length_nil, List.filter_nil]
    omega
  | false =>
    simp only [Bool.false_eq_true, if_false, List.length_nil, List.filter_nil]
    omega

end CountsOn

theorem counts_turn (hw : w.program.Wired) (h : w.program.Counts a n) (id : SessionId) (number : Nat) :
    CountsOn w a n (.turn id number) ((Operation.turn id number).next w).program := by
  cases hv : w.worker? id number with
  | none =>
    have hd : (Operation.turn id number).deliveries w = [] := by simp only [Operation.deliveries, hv]
    have hn : (Operation.turn id number).next w = w := by simp only [Operation.next, hv]
    rw [hn]
    exact .of_counts h rfl rfl hd
  | some v =>
    have hd : (Operation.turn id number).deliveries w =
        w.deliveries id (Program.turn id v w.program).1 := by simp only [Operation.deliveries, hv]
    have hn : ((Operation.turn id number).next w).program = (Program.turn id v w.program).2 := by
      simp only [Operation.next, hv, update]
    obtain ⟨x, hx, hf⟩ := Option.bind_eq_some_iff.mp hv
    have hm : v ∈ x.workers := List.mem_of_find?_eq_some hf
    have hwx := hw id x hx
    obtain ⟨y, _, hxy⟩ := (turn_delivered hx hwx hm).1.here x hx
    rw [hn]
    exact .of_tallies hx hwx hxy.known (.turn ⟨h, rfl⟩ hwx hm) (.refl _) rfl rfl hd

theorem counts_stop (hw : w.program.Wired) (h : w.program.Counts a n) (id : SessionId) :
    CountsOn w a n (.stop id) ((Operation.stop id).next w).program := by
  by_cases hr : w.program.isReachable id = true
  · obtain ⟨hn, hd⟩ := stop_of_reachable hr
    obtain ⟨x, hx, _⟩ := isReachable_iff.mp hr
    have hwx := hw id x hx
    obtain ⟨z, hz, hxz⟩ := (flush_delivered hx hwx x.workers fun _ hv => hv).1.here x hx
    rw [← settle_of_session? hx] at hz hxz
    obtain ⟨bus, hstop⟩ := stop_program hz
    have hsame : SameTallies (settle id w.program).2 (Program.stop id w.program).2 := by
      rw [hstop]
      exact Table.map_set_of_get? hz rfl
    rw [hn]
    exact .of_tallies hx hwx hxz.known (.settle ⟨h, rfl⟩ hx hwx) hsame rfl rfl hd
  · have hd : (Operation.stop id).deliveries w = [] := if_neg hr
    have hn : (Operation.stop id).next w = w := if_neg hr
    rw [hn]
    exact .of_counts h rfl rfl hd

/-- To detach a listener from a session is to ask, and if that is served and the listener has a worker, to let
its first one take what is queued and to end it. -/
theorem detach_of_reachable {x : Session} {l : Listener}
    (h : l ∈ w.listeners ∧ w.program.isReachable id = true) (hx : w.program.session? id = some x) :
    let asked := w.program.modifySession id (·.note .detach)
    ((Operation.detach id l).next w).program = asked ∧ (Operation.detach id l).deliveries w = [] ∨
      ∃ v ∈ x.workers, ((Operation.detach id l).next w).program =
          (flush id [v] asked).2.modifySession id (·.endWorker v) ∧
        (Operation.detach id l).deliveries w = w.deliveries id (flush id [v] asked).1 := by
  intro asked
  have hasked : asked.session? id = some (x.note .detach) := by
    rw [session?_modifySession, if_pos rfl, hx, Option.map_some]
  have hrun : (onSession id (Session.consult .detach)).run w.program =
      ((x.backend.trouble x.history .detach).elim (.done ()) Trouble.outcome, asked) := by
    rw [run_onSession hx, Session.run_consult]
    exact congrArg (Prod.mk _) (modifySession_of_some hx (·.note .detach)).symm
  have hn : ((Operation.detach id l).next w).program = ((Program.detach id l).run w.program).2 := by
    simp only [Operation.next, through, h, if_true, update]
  rw [hn, run_detach]
  simp only [Operation.deliveries, h, and_self, if_true, hrun]
  rcases x.backend.trouble x.history .detach with _ | (e | _)
  · simp only [Option.elim_none, endWorkerOf, hasked, Option.bind_some]
    cases hv : (x.note .detach).workerOf? l.id with
    | none => exact .inl ⟨rfl, rfl⟩
    | some v => exact .inr ⟨v, List.mem_of_find?_eq_some hv, rfl, rfl⟩
  · exact .inl ⟨rfl, rfl⟩
  · exact .inl ⟨rfl, rfl⟩

theorem counts_detach (hw : w.program.Wired) (h : w.program.Counts a n) (id : SessionId) (l : Listener) :
    CountsOn w a n (.detach id l) ((Operation.detach id l).next w).program := by
  by_cases hand : l ∈ w.listeners ∧ w.program.isReachable id = true
  · obtain ⟨x, hx, _⟩ := isReachable_iff.mp hand.2
    have hwx := hw id x hx
    have hasked : (w.program.modifySession id (·.note .detach)).Tallied a (w.program.isRefreshed a) n :=
      (⟨h, rfl⟩ : w.program.Tallied a _ n).modifySession id fun _ => ⟨rfl, rfl, rfl⟩
    obtain ⟨hn, hd⟩ | ⟨v, hv, hn, hd⟩ := detach_of_reachable hand hx <;> rw [hn]
    · exact .of_counts hasked.toCounts rfl rfl hd
    · exact .of_tallies hx hwx (fun k hk => ⟨v, hv, (flush_own hk).symm⟩)
        (.flush hasked hwx fun u hu => List.mem_singleton.mp hu ▸ hv) (.modifySession fun _ => rfl) rfl rfl hd
  · have hd : (Operation.detach id l).deliveries w = [] := if_neg hand
    have hn : (Operation.detach id l).next w = w := by
      simp only [Operation.next, through]
      split
      · exact if_neg fun hr => hand ⟨‹_›, hr⟩
      · rfl
    rw [hn]
    exact .of_counts h rfl rfl hd

theorem counts_ensureInstalled (hs : w.Sound left) (h : w.program.Counts a n) (g : InstallerId)
    (id : SessionId) :
    CountsOn w a n (.ensureInstalled g id) ((Operation.ensureInstalled g id).next w).program := by
  by_cases hand : g ∈ w.installers ∧ w.program.isReachable id = true
  · have hn : ((Operation.ensureInstalled g id).next w).program =
        ((Program.ensureInstalled g id).run w.program).2 := by
      simp only [Operation.next, through, hand, if_true, update]
    rw [hn]
    exact .of_activation ⟨g, id, w.program⟩ (Program.counts_ensureInstalled hs.program h g id) rfl
      (if_pos hand) rfl
  · have hn : (Operation.ensureInstalled g id).next w = w := by
      simp only [Operation.next, through]
      split
      · exact if_neg fun hr => hand ⟨‹_›, hr⟩
      · rfl
    rw [hn]
    exact .of_counts h rfl (if_neg hand) rfl

theorem counts_setUp (hs : w.Sound left) (h : w.program.Counts a n) (i : IntegrationId) :
    CountsOn w a n (.setUp i) ((Operation.setUp i).next w).program := by
  obtain ⟨installers, hn⟩ := setUp_next w i
  rw [hn]
  rcases hi : w.program.integrations.get? i with _ | ⟨config, _ | g⟩
  · simp only [Table.contains, hi, Option.isSome_none, Bool.false_eq_true, if_false]
    exact .of_counts h rfl (by simp only [Operation.activations, hi]) rfl
  · simp only [Table.contains, hi, Option.isSome_some, if_true]
    have hactivations := activations_setUp hi
    have hnew : (w.program.newInstaller config).2.Counts a n := h.of_session?_eq rfl
    obtain ⟨id, integrations, hon, hactive, hp⟩ | ⟨integrations, hoff, hp⟩ := setUp_cases hi
    · rw [hon, hactive] at hactivations
      have hcounts := Program.counts_ensureInstalled (hs.program.newInstaller config) hnew
        (w.program.newInstaller config).1 id
      rw [hp]
      exact .of_activation ⟨(w.program.newInstaller config).1, id, (w.program.newInstaller config).2⟩
        (hcounts.of_session?_eq rfl) rfl hactivations rfl
    · rw [hp]
      refine .of_counts (hnew.of_session?_eq rfl) rfl (hactivations.trans ?_) rfl
      split
      · exact absurd ‹_› (hoff _ ‹_›)
      · rfl
  · simp only [Table.contains, hi, Option.isSome_some, if_true, setUp_of_kept hi]
    exact .of_counts h rfl (by simp only [Operation.activations, hi]) rfl

/-- Whatever is done, a session serves two writes for each activation that puts the trail there and for each
refresh that finds it running, and else only what is written to it directly. -/
theorem counts_next (hs : w.Sound left) (hw : w.program.Wired) (h : w.program.Counts a n) (o : Operation)
    (ho : o.Untroubles a) : CountsOn w a n o (o.next w).program := by
  have same : ∀ {t : Program}, SameTallies w.program t → o.writesTo a w = [] → o.activations w = [] →
      o.deliveries w = [] → CountsOn w a n o t := fun ht hwrites ha hd => .of_counts (ht.counts h) hwrites ha hd
  cases o with
  | turn id number => exact counts_turn hw h id number
  | stop id => exact counts_stop hw h id
  | detach id l => exact counts_detach hw h id l
  | ensureInstalled g id => exact counts_ensureInstalled hs h g id
  | setUp i => exact counts_setUp hs h i
  | start id settings backend detached => exact .of_counts (counts_start h id settings ho _) rfl rfl rfl
  | setBackend id backend => exact .of_counts (counts_setBackend h id ho) rfl rfl rfl
  | write id key value =>
    have hwrite := counts_write h id key value
    by_cases hr : w.program.isReachable id = true
    · simp only [Operation.next, through, hr, if_true, update]
      refine ⟨_, hwrite, ?_⟩
      simp only [Operation.writesTo, Operation.installsOn, Operation.refusedOn, Operation.refreshesOn,
        Operation.activations, Operation.deliveries, List.filter_nil, ite_self, hr, true_and]
      split <;> rfl
    · simp only [Operation.next, through, hr]
      exact .of_counts h (if_neg fun hand => hr hand.1) rfl rfl
  | read id subject =>
    refine same (through_preserves (.refl _) ?_) rfl rfl rfl
    rw [run_onSession_read]
    exact .modifySession fun _ => rfl
  | post id e =>
    exact same (through_preserves (.refl _) (.onSession (Session.post_keeps_tally e))) rfl rfl rfl
  | attach id l =>
    refine same ?_ rfl rfl rfl
    simp only [Operation.next]
    split
    · exact through_preserves (.refl _) (.onSession (Session.attach_keeps_tally l))
    · exact .refl _
  | release id => exact same (.modifySession fun _ => rfl) rfl rfl rfl
  | makeActive id => exact same (through_preserves (.refl _) (.of_sessions_eq rfl)) rfl rfl rfl
  | clearActive id =>
    refine same (.of_sessions_eq ?_) rfl rfl rfl
    simp only [Operation.next, update, clearActive_program]
  | submit report hint => exact same (.submit report hint _) rfl rfl rfl
  | forgetGone g =>
    exact same (forgetGone_preserves g (.refl _) (.of_sessions_eq (forgetGone_fields g _).1)) rfl rfl rfl
  | tick | newListener | enable | disable | leave | clearCrumbs | register | unregister | newInstaller
  | newIntegration => exact same (.of_sessions_eq rfl) rfl rfl rfl

/-- So it is over a whole run. -/
theorem counts_perform (hs : w.Sound left) (hw : w.program.Wired) (h : w.program.Counts a n)
    {ops : List Operation} (hops : ∀ o ∈ ops, o.Untroubles a) :
    ∃ m, (perform ops w).program.Counts a m ∧ m + 2 * (along (Operation.refusedOn a) ops w).length =
      n + (along (Operation.writesTo a) ops w).length + 2 * ((along (Operation.installsOn a) ops w).length +
        (along (Operation.refreshesOn a) ops w).length) := by
  induction ops generalizing w left n with
  | nil => exact ⟨n, h, rfl⟩
  | cons o rest ih =>
    obtain ⟨k, hk, hstep⟩ := counts_next hs hw h o (hops o List.mem_cons_self)
    obtain ⟨m, hm, hrest⟩ := ih (hs.next o) ((mails_next hs o).wired hw) hk
      fun p hp => hops p (List.mem_cons_of_mem _ hp)
    refine ⟨m, hm, ?_⟩
    simp only [along, List.length_append]
    omega

end World

/-- Whatever happens to a program while a trail is handed events: when a job starts or an attempt at a stage is
submitted, it leaves its breadcrumb and then calls the session that is active at that moment, and no other one,
up to the first call that is not served, by which it is told how the event ends. At all other events no session
is called. Hence, over a whole run in which its backend has no trouble, a session serves two writes for each
activation that puts the trail there and two for each of those events that a trail is handed while the session is
the active one, unless it has stopped by then, besides what is written to it directly. -/
theorem refreshes_go_to_the_active_session (now : Timestamp) (retention : Retention) :
    (∀ (l : Listener) (keyPrefix : String), l.behaviour = .trail keyPrefix →
      ∀ (events : List ((Program → Program) × Event)) (s : Program), ∀ k ∈ callbacks l events s,
        if k.event.kind = .jobStart ∨ k.event.kind = .stageSubmitted then k.Refreshes keyPrefix
        else k.after.sessions = k.before.sessions) ∧
    ∀ (cs : List Command) (a : SessionId),
      let start := initial now retention
      let ops := Command.allOperations cs start
      let installs := along (Operation.installsOn a) ops start
      let refreshes := along (Operation.refreshesOn a) ops start
      let refused := along (Operation.refusedOn a) ops start
      let direct := along (Operation.writesTo a) ops start
      (∀ o ∈ ops, o.Untroubles a) →
        (Command.runAll cs start).program.writesOf a + 2 * refused.length =
            direct.length + 2 * (installs.length + refreshes.length) ∧
          (refused = [] → direct = [] → (Command.runAll cs start).program.writesOf a =
            2 * (installs.length + refreshes.length)) := by
  refine ⟨fun l keyPrefix hl events s => callbacks_refresh hl events s, ?_⟩
  intro cs a start ops installs refreshes refused direct hops
  have hnothing : start.program.Counts a 0 := ⟨nofun, rfl⟩
  obtain ⟨m, hm, hcount⟩ := counts_perform (sound_initial now retention) (wired_initial now retention)
    hnothing hops
  rw [Nat.zero_add] at hcount
  rw [Command.runAll_eq_perform, hm.writes_eq]
  refine ⟨hcount, fun hrefused hdirect => ?_⟩
  have hr : (along (Operation.refusedOn a) ops start).length = 0 := congrArg List.length hrefused
  have hd : (along (Operation.writesTo a) ops start).length = 0 := congrArg List.length hdirect
  rw [hr, hd, Nat.mul_zero, Nat.add_zero, Nat.zero_add] at hcount
  exact hcount

/-- An attempt at a stage that is about to run. -/
def firstAttempt : StageAttempt := ⟨⟨3⟩, 0, "map", .unset⟩

/-- A session gets the trail, a job starts there and an attempt is submitted, but by then another session is the
active one. -/
def supersededRun : List Command :=
  [.operation (.start ⟨⟨0⟩⟩ (.standard none) .sound false), .operation (.newInstaller .standard),
    .operation (.ensureInstalled ⟨0⟩ ⟨⟨0⟩⟩), .operation (.start ⟨⟨1⟩⟩ (.standard none) .sound false),
    .operation (.post ⟨⟨0⟩⟩ (.jobStart ⟨1⟩ .epoch [])), .operation (.post ⟨⟨0⟩⟩ (.stageSubmitted firstAttempt)),
    .operation (.turn ⟨⟨0⟩⟩ 0), .operation (.turn ⟨⟨0⟩⟩ 0)]

/-- The refreshes go to the other session. A session that refuses to be written to sees two calls when a job
starts and two when an attempt is submitted, and the listener is told why. -/
theorem refresh_goes_to_the_replacement :
    let s := (initial .epoch .standard).program.start ⟨⟨0⟩⟩ (.standard none) .stuck .shared
    let job := callback ⟨⟨0⟩, .trail "", none⟩ (.jobStart ⟨1⟩ .epoch []) s
    let stage := callback ⟨⟨0⟩, .trail "", none⟩ (.stageSubmitted firstAttempt) s
    (∀ k ∈ [job, stage], k.outcome = .failed (.other (.unavailable "out of reach")) ∧
      ∃ y, k.after.session? ⟨⟨0⟩⟩ = some y ∧
        y.log = [.read (.fact .appName), .write "app_name" "sparkcrumbs"]) ∧
    (Command.runAll supersededRun (initial .epoch .standard)).program.writesOf ⟨⟨0⟩⟩ = 2 ∧
    (Command.runAll supersededRun (initial .epoch .standard)).program.writesOf ⟨⟨1⟩⟩ = 4 := by
  intro s job stage
  obtain ⟨hcallbacks, hruns⟩ := refreshes_go_to_the_active_session .epoch .standard
  have huntroubled : ∀ a, ∀ o ∈ Command.allOperations supersededRun (initial .epoch .standard),
      o.Untroubles a := by
    intro a o ho
    have hops : Command.allOperations supersededRun (initial .epoch .standard) =
        [.start ⟨⟨0⟩⟩ (.standard none) .sound false, .newInstaller .standard, .ensureInstalled ⟨0⟩ ⟨⟨0⟩⟩,
          .start ⟨⟨1⟩⟩ (.standard none) .sound false, .post ⟨⟨0⟩⟩ (.jobStart ⟨1⟩ .epoch []),
          .post ⟨⟨0⟩⟩ (.stageSubmitted firstAttempt), .turn ⟨⟨0⟩⟩ 0, .turn ⟨⟨0⟩⟩ 0] := rfl
    rw [hops] at ho
    simp only [List.mem_cons, List.not_mem_nil, or_false] at ho
    rcases ho with rfl | rfl | rfl | rfl | rfl | rfl | rfl | rfl
    · exact fun _ => Backend.untroubled_sound
    · trivial
    · trivial
    · exact fun _ => Backend.untroubled_sound
    all_goals trivial
  -- The same events are handed to the listener one after the other, each to the same program.
  have hevents := hcallbacks ⟨⟨0⟩, .trail "", none⟩ "" rfl
    [(fun _ => s, .jobStart ⟨1⟩ .epoch []), (fun _ => s, .stageSubmitted firstAttempt)] s
  have hjob : job.Refreshes "" := hevents job List.mem_cons_self
  have hstage : stage.Refreshes "" := hevents stage (List.mem_cons_of_mem _ List.mem_cons_self)
  have refused : ∀ k : Callback, k.before = s → k.Refreshes "" →
      k.outcome = .failed (.other (.unavailable "out of reach")) ∧
        ∃ y, k.after.session? ⟨⟨0⟩⟩ = some y ∧
          y.log = [.read (.fact .appName), .write "app_name" "sparkcrumbs"] := by
    intro k hbefore hk
    have hx : s.session? ⟨⟨0⟩⟩ = some _ := rfl
    obtain ⟨⟨y, hy, hcalled⟩, hend⟩ :=
      hk.called ⟨⟨0⟩⟩ _ (congrArg active hbefore) ((congrArg (session? · ⟨⟨0⟩⟩) hbefore).trans hx)
    exact ⟨hend, y, hy, hcalled.log⟩
  refine ⟨List.forall_mem_cons.mpr ⟨refused job rfl hjob, List.forall_mem_singleton.mpr
    (refused stage rfl hstage)⟩, ?_, ?_⟩
  · exact ((hruns supersededRun ⟨⟨0⟩⟩ (huntroubled _)).2 (by decide) rfl).trans (by decide)
  · exact ((hruns supersededRun ⟨⟨1⟩⟩ (huntroubled _)).2 (by decide) rfl).trans (by decide)

end SessionTrail
