import SessionTrail.Proofs.RollBack

/-!
# The course of activations

What an installer answers when it is asked for a session again and again and never crashes.
While the session runs it may fail a number of times without a trace. Then it installs, or leaves the
session stranded, and from then on gives one answer. Once the session has stopped, every activation is
refused.
-/
namespace SessionTrail

open Program World

/-! ## Courses -/

/-- Activations of a session that has stopped: it refuses them. -/
def Late (as : List Activation) : Prop :=
  ∀ a ∈ as, a.before.hasStopped a.session = true ∧ ∃ e, a.run.1 = .failed (.session e)

/-- Activations that get one answer as long as their session runs. -/
def Answered (r : Outcome InstallError InstallReply) (as : List Activation) : Prop :=
  ∃ again late, as = again ++ late ∧
    (∀ a ∈ again, a.before.hasStopped a.session = false ∧ a.run.1 = r) ∧ Late late

/-- The first of the activations installs or leaves its session stranded, and those behind it are told
so. -/
def Decided (as : List Activation) : Prop :=
  ∃ first more, as = first :: more ∧ first.before.hasStopped first.session = false ∧
    (first.run.1 = .done .installed ∧ Answered (.done .alreadyInstalled) more ∨
      (∃ e, first.run.1 = .failed (.session e)) ∧
        first.run.2.standing? first.installer first.session = some .stranded ∧
        Answered (.failed (.stranded first.session)) more)

/-- Some activations fail without leaving a standing. Then there is one that decides, or the session has
stopped. -/
def Course (as : List Activation) : Prop :=
  ∃ failures rest, as = failures ++ rest ∧
    (∀ a ∈ failures, a.before.hasStopped a.session = false ∧
      (∃ e, a.run.1 = .failed (.session e)) ∧
      a.run.2.standing? a.installer a.session = none) ∧
    (Decided rest ∨ Late rest)

theorem Late.nil : Late [] := List.forall_mem_nil _

theorem Late.cons {a : Activation} {as : List Activation} (h : Late as)
    (hs : a.before.hasStopped a.session = true) (hr : ∃ e, a.run.1 = .failed (.session e)) :
    Late (a :: as) := by
  intro b hb
  rcases List.mem_cons.mp hb with rfl | hb
  · exact ⟨hs, hr⟩
  · exact h b hb

theorem Late.answered {as : List Activation} (h : Late as) (r : Outcome InstallError InstallReply) :
    Answered r as := ⟨[], as, rfl, List.forall_mem_nil _, h⟩

theorem Late.course {as : List Activation} (h : Late as) : Course as :=
  ⟨[], as, rfl, List.forall_mem_nil _, .inr h⟩

theorem Answered.cons {r : Outcome InstallError InstallReply} {a : Activation} {as : List Activation}
    (h : Answered r as) (hs : a.before.hasStopped a.session = false) (hr : a.run.1 = r) :
    Answered r (a :: as) := by
  obtain ⟨again, late, rfl, hagain, hlate⟩ := h
  refine ⟨a :: again, late, rfl, fun b hb => ?_, hlate⟩
  rcases List.mem_cons.mp hb with rfl | hb
  · exact ⟨hs, hr⟩
  · exact hagain b hb

theorem Course.cons {a : Activation} {as : List Activation} (h : Course as)
    (hs : a.before.hasStopped a.session = false) (hr : ∃ e, a.run.1 = .failed (.session e))
    (hn : a.run.2.standing? a.installer a.session = none) : Course (a :: as) := by
  obtain ⟨failures, rest, rfl, hfailures, hrest⟩ := h
  refine ⟨a :: failures, rest, rfl, fun b hb => ?_, hrest⟩
  rcases List.mem_cons.mp hb with rfl | hb
  · exact ⟨hs, hr, hn⟩
  · exact hfailures b hb

theorem countP_installed {as : List Activation} (h : ∀ a ∈ as, a.run.1 ≠ .done .installed) :
    as.countP (fun a => a.run.1 = .done .installed) = 0 := by
  rw [List.countP_eq_zero]
  intro a ha
  rw [decide_eq_true_eq]
  exact h a ha

theorem Late.not_installed {as : List Activation} (h : Late as) :
    ∀ a ∈ as, a.run.1 ≠ .done .installed := by
  intro a ha
  obtain ⟨_, e, he⟩ := h a ha
  rw [he]
  nofun

theorem Answered.not_installed {r : Outcome InstallError InstallReply} {as : List Activation}
    (h : Answered r as) (hr : r ≠ .done .installed) : ∀ a ∈ as, a.run.1 ≠ .done .installed := by
  obtain ⟨again, late, rfl, hagain, hlate⟩ := h
  intro a ha
  rcases List.mem_append.mp ha with ha | ha
  · rw [(hagain a ha).2]
    exact hr
  · exact hlate.not_installed a ha

/-- At most one activation of a course installs. -/
theorem Course.countP_installed_le {as : List Activation} (h : Course as) :
    as.countP (fun a => a.run.1 = .done .installed) ≤ 1 := by
  obtain ⟨failures, rest, rfl, hfailures, hrest⟩ := h
  have hz : failures.countP (fun a => a.run.1 = .done .installed) = 0 := by
    refine countP_installed fun a ha => ?_
    obtain ⟨_, ⟨e, he⟩, _⟩ := hfailures a ha
    rw [he]
    nofun
  rw [List.countP_append, hz, Nat.zero_add]
  rcases hrest with ⟨first, more, rfl, _, hfirst⟩ | hlate
  · have hmore : more.countP (fun a => a.run.1 = .done .installed) = 0 := by
      rcases hfirst with ⟨_, hmore⟩ | ⟨_, _, hmore⟩
      · exact countP_installed (hmore.not_installed (by decide))
      · exact countP_installed (hmore.not_installed nofun)
    rw [List.countP_cons, hmore, Nat.zero_add]
    split <;> omega
  · rw [countP_installed hlate.not_installed]
    omega

/-! ## What one activation answers -/

namespace Program

/-- Whether an installer has the trail on a session. -/
def hasInstalled (s : Program) (g : InstallerId) (id : SessionId) : Bool :=
  (s.installer? g).any (·.hasInstalled id)

theorem hasInstalled_iff {s : Program} {g : InstallerId} {id : SessionId} :
    s.hasInstalled g id = true ↔ ∃ p, s.standing? g id = some (.installed p) := by
  rw [hasInstalled, standing?]
  cases s.installer? g with
  | none => simp
  | some i =>
    rw [Option.any_some, Option.bind_some, Installer.hasInstalled]
    rcases i.standings.get? id with _ | _ | p | _ <;> simp [Standing.isInstalled]

end Program

namespace Activation

variable {a : Activation}

/-- What is known of an activation in a run in which none crashes. -/
structure Ready (a : Activation) : Prop where
  sound : a.before.Sound fun _ _ => 0
  served : a.run.1 ≠ .crashed
  made : (a.before.installer? a.installer).isSome = true
  reachable : ∀ x, a.before.session? a.session = some x → a.before.isReachable a.session = true

/-- A session that the installer goes on to stand with runs, and the answer and what is left are told by
the standing. -/
theorem of_standing (h : a.before.Sound fun _ _ => 0) {st : Standing}
    (hst : (forgetGone a.installer a.before).2.standing? a.installer a.session = some st)
    (hrun : a.run = (answerFor a.session st, (forgetGone a.installer a.before).2)) :
    a.before.hasStopped a.session = false ∧
      a.before.standing? a.installer a.session = some st ∧ a.run.1 = answerFor a.session st ∧
      a.run.2.standing? a.installer a.session = some st := by
  obtain ⟨hover, hbefore⟩ := standing?_of_forgetGone h hst
  have hstop := (Bool.or_eq_false_iff.mp hover).2
  rw [hrun]
  exact ⟨hstop, hbefore, rfl, hst⟩

/-- An installer that no longer stands with a running session did not do so before. -/
theorem free_before (h : a.Ready) (running : a.before.hasStopped a.session = false)
    (hst : (forgetGone a.installer a.before).2.standing? a.installer a.session = none) :
    a.before.standing? a.installer a.session = none := by
  rcases isOver_or_free h.sound hst with hover | hfree
  · rw [isOver, running, Bool.or_false, Bool.not_eq_true'] at hover
    cases hx : a.before.session? a.session with
    | none => exact (h.sound.known a.installer a.session hx).1
    | some x =>
      rw [h.reachable x hx] at hover
      cases hover
  · exact hfree

/-- A session that has stopped refuses the listener. -/
theorem refused_of_stopped {i : Installer} {r : Outcome InstallFailure ProcessorId} {u : Program}
    (h : Attempted a.installer a.session a.before i r u)
    (stopped : a.before.hasStopped a.session = true) (served : r ≠ .crashed) :
    ∃ e, r = .failed ⟨e, false⟩ := by
  have hno : ∀ x, (reserved (forgetGone a.installer a.before).2 a.installer a.session).session?
      a.session = some x → x.stopped ≠ false := fun x hx hf => by
    have hx' : a.before.session? a.session = some x :=
      (congrArg (Table.get? · a.session) (forgetGone_fields a.installer a.before).1).symm.trans hx
    rw [hasStopped, hx', Option.any_some, hf] at stopped
    cases stopped
  cases h.installs with
  | refused error => exact ⟨error, rfl⟩
  | takenBack _ _ x here running | stuck _ _ x here running | completed _ x here running =>
    exact absurd running (hno x here)
  | lostAtFirst | lostLater => exact absurd rfl served

/-- How the answer to an activation and the standing that it leaves depend on the standing before. -/
theorem answers (h : a.Ready) :
    (a.before.hasStopped a.session = true ∧ (∃ e, a.run.1 = .failed (.session e)) ∧
      a.run.2.standing? a.installer a.session = none) ∨
    a.before.hasStopped a.session = false ∧
      ((∃ p, a.before.standing? a.installer a.session = some (.installed p) ∧
        a.run.1 = .done .alreadyInstalled ∧
        a.run.2.standing? a.installer a.session = some (.installed p)) ∨
      (a.before.standing? a.installer a.session = some .stranded ∧
        a.run.1 = .failed (.stranded a.session) ∧
        a.run.2.standing? a.installer a.session = some .stranded) ∨
      (a.before.standing? a.installer a.session = none ∧
        ((∃ p, a.run.1 = .done .installed ∧
          a.run.2.standing? a.installer a.session = some (.installed p)) ∨
        (∃ e, a.run.1 = .failed (.session e)) ∧
          (a.run.2.standing? a.installer a.session = none ∨
            a.run.2.standing? a.installer a.session = some .stranded)))) := by
  have hserved := h.served
  obtain ⟨hn, _⟩ | ⟨st, hst, hrun⟩ | ⟨i, r, u, hatt⟩ :=
    ensureInstalled_ends a.installer a.session a.before (h.sound.listener_lt a.session)
  · have hmade := h.made
    rw [hn] at hmade
    cases hmade
  · obtain ⟨running, hbefore, hanswer, hafter⟩ := of_standing h.sound hst hrun
    refine .inr ⟨running, ?_⟩
    cases st with
    | installing => exact absurd hbefore (h.sound.settled a.installer a.session)
    | installed p => exact .inl ⟨p, hbefore, hanswer, hafter⟩
    | stranded => exact .inr (.inl ⟨hbefore, hanswer, hafter⟩)
  · have hi := hatt.installer_eq
    have hafter := standing?_after hatt.installs (by rw [hi]; rfl) a.installer a.session
    rw [if_pos ⟨rfl, rfl⟩] at hafter
    rw [run, hatt.run_eq] at hserved ⊢
    have hr : r ≠ .crashed := fun he => hserved (by rw [he]; rfl)
    cases hstop : a.before.hasStopped a.session with
    | true =>
      obtain ⟨e, rfl⟩ := refused_of_stopped hatt hstop hr
      exact .inl ⟨rfl, ⟨e, rfl⟩, hafter⟩
    | false =>
      have hfree : a.before.standing? a.installer a.session = none := by
        refine free_before h hstop ?_
        rw [standing?, hi, Option.bind_some, hatt.free]
      refine .inr ⟨rfl, .inr (.inr ⟨hfree, ?_⟩)⟩
      rcases r with p | ⟨e, stranded⟩ | _
      · exact .inl ⟨p, rfl, hafter⟩
      · refine .inr ⟨⟨e, rfl⟩, ?_⟩
        cases stranded
        · exact .inl hafter
        · exact .inr hafter
      · exact absurd rfl hr

/-- An activation that finds the trail installed leaves it so, with one listener at the session. -/
theorem of_alreadyInstalled (h : a.before.Sound fun _ _ => 0) (hr : a.run.1 = .done .alreadyInstalled) :
    ∃ p y, a.run.2.standing? a.installer a.session = some (.installed p) ∧
      a.run.2.session? a.session = some y ∧ y.attachedBy a.installer = 1 := by
  obtain ⟨_, hrun⟩ | ⟨st, hst, hrun⟩ | ⟨i, r, u, hatt⟩ :=
    ensureInstalled_ends a.installer a.session a.before (h.listener_lt a.session)
  · rw [run, hrun] at hr
    cases hr
  · obtain ⟨hstop, hbefore, hanswer, hafter⟩ := of_standing h hst hrun
    rw [hr] at hanswer
    cases st <;> cases hanswer
    rename_i p
    cases hx : a.before.session? a.session with
    | none =>
      rw [(h.known a.installer a.session hx).1] at hbefore
      cases hbefore
    | some x =>
      have running : x.stopped = false := by
        rw [hasStopped, hx, Option.any_some] at hstop
        exact hstop
      refine ⟨p, x, hafter, ?_, ?_⟩
      · rw [run, hrun]
        exact (congrArg (Table.get? · a.session) (forgetGone_fields a.installer a.before).1).trans hx
      · exact (h.balance a.installer a.session x hx running).stands (by rw [hbefore]; rfl)
  · rw [run, hatt.run_eq] at hr
    cases r <;> cases hr

/-- An activation succeeds exactly when the trail is installed then, and there is one listener. -/
theorem done_iff (h : a.Ready) : (∃ reply, a.run.1 = .done reply) ↔
    a.run.2.hasInstalled a.installer a.session = true ∧
      ∃ y, a.run.2.session? a.session = some y ∧ y.attachedBy a.installer = 1 := by
  rw [hasInstalled_iff]
  constructor
  · rintro ⟨reply, hr⟩
    cases reply with
    | installed =>
      obtain ⟨p, e, y, hst, he, _, hy, hcount⟩ := of_installed h.sound h.reachable hr
      rw [he] at hst
      exact ⟨⟨p, hst⟩, y, hy, hcount⟩
    | alreadyInstalled =>
      obtain ⟨p, y, hst, hy, hcount⟩ := of_alreadyInstalled h.sound hr
      exact ⟨⟨p, hst⟩, y, hy, hcount⟩
    | waiting =>
      obtain ⟨_, ⟨e, he⟩, _⟩ | ⟨_, ⟨_, _, he, _⟩ | ⟨_, he, _⟩ | ⟨_, ⟨_, he, _⟩ | ⟨⟨e, he⟩, _⟩⟩⟩ := answers h <;>
        rw [hr] at he <;> cases he
  · rintro ⟨⟨p, hst⟩, _⟩
    obtain ⟨_, _, hno⟩ | ⟨_, ⟨_, _, he, _⟩ | ⟨_, _, hno⟩ | ⟨_, ⟨_, he, _⟩ | ⟨_, hno | hno⟩⟩⟩ := answers h
    · rw [hst] at hno
      cases hno
    · exact ⟨_, he⟩
    · rw [hst] at hno
      cases hno
    · exact ⟨_, he⟩
    all_goals
      rw [hst] at hno
      cases hno

end Activation

/-! ## What the activations of a run answer -/

/-- The enrichers of an installer for a session that an operation takes off the reporter although it is
none of the installers'. -/
def Operation.strips (g : InstallerId) (id : SessionId) (o : Operation) (w : World) :
    List (ProcessorId × Processor) :=
  if o.isIdle then
    (w.program.enrichersOf [g] id).filter (· ∉ (o.next w).program.reporter.processors)
  else []

/-- What an installer answers about a session from a program on. -/
structure Prospect (s : Program) (g : InstallerId) (id : SessionId) (as : List Activation) : Prop where
  ended : (s.session? id).isSome = true → s.isOver id = true → Late as
  installed : ∀ p, s.standing? g id = some (.installed p) → Answered (.done .alreadyInstalled) as
  stranded : s.standing? g id = some .stranded → Answered (.failed (.stranded id)) as
  free : s.standing? g id = none → Course as

namespace Prospect

variable {s t : Program} {g : InstallerId} {id : SessionId} {as : List Activation}

theorem of_late (h : Late as) : Prospect s g id as :=
  ⟨fun _ _ => h, fun _ _ => h.answered _, fun _ => h.answered _, fun _ => h.course⟩

theorem nil : Prospect s g id [] := of_late .nil

/-- What does not ask the installer for the session does not change the prospect. -/
theorem skip (h : Prospect t g id as) (hk : KeepsGone s t) (hst : StandsBy s t g id)
    (hknown : s.session? id = none → s.standing? g id = none) : Prospect s g id as := by
  have hover : (s.session? id).isSome = true → s.isOver id = true → Late as := fun hx ho => by
    refine h.ended (hk.stays id hx) ?_
    rw [isOver, Bool.or_eq_true, Bool.not_eq_true'] at ho ⊢
    rcases ho with ho | ho
    · left
      rw [Bool.eq_false_iff]
      intro hr
      rw [hk.gone id hx hr] at ho
      cases ho
    · exact .inr (hk.stopped id ho)
  have hstands : ∀ st, s.standing? g id = some st → t.standing? g id = some st ∨ Late as :=
    fun st hs => by
      rcases hst with hst | ⟨_, ho⟩
      · exact .inl (hst.trans hs)
      · refine .inr (hover ?_ ho)
        cases hx : s.session? id with
        | none =>
          rw [hknown hx] at hs
          cases hs
        | some x => rfl
  refine ⟨hover, fun p hs => ?_, fun hs => ?_, fun hs => h.free (hst.none hs)⟩
  · exact (hstands _ hs).elim (h.installed p) fun hl => hl.answered _
  · exact (hstands _ hs).elim h.stranded fun hl => hl.answered _

/-- An activation that asks the installer for the session comes before what is to be expected of the
standing that it leaves. -/
theorem ask {a : Activation} (ha : a.Ready) (hg : a.installer = g) (hid : a.session = id)
    (hst : t.standing? g id = a.run.2.standing? g id)
    (hstop : a.before.hasStopped id = true → t.hasStopped id = true)
    (h : Prospect t g id as) : Prospect a.before g id (a :: as) := by
  subst hg hid
  obtain ⟨hs, hr, _⟩ | ⟨hs, hcase⟩ := a.answers ha
  · refine of_late (Late.cons (h.ended ?_ ?_) hs hr)
    · obtain ⟨y, hy, _⟩ := hasStopped_iff.mp (hstop hs)
      rw [hy, Option.isSome_some]
    · rw [isOver, hstop hs, Bool.or_true]
  · have hover : (a.before.session? a.session).isSome = true → a.before.isOver a.session = false :=
      fun hx => by
        obtain ⟨x, hx⟩ := Option.isSome_iff_exists.mp hx
        rw [isOver, ha.reachable x hx, hs]
        rfl
    refine ⟨fun hx ho => ?_, fun p hp => ?_, fun hp => ?_, fun hp => ?_⟩
    · rw [hover hx] at ho
      cases ho
    · obtain ⟨q, _, hr, ht⟩ | ⟨hn, _⟩ | ⟨hn, _⟩ := hcase
      · exact (h.installed q (hst.trans ht)).cons hs hr
      all_goals
        rw [hp] at hn
        cases hn
    · obtain ⟨_, hn, _⟩ | ⟨_, hr, ht⟩ | ⟨hn, _⟩ := hcase
      · rw [hp] at hn
        cases hn
      · exact (h.stranded (hst.trans ht)).cons hs hr
      · rw [hp] at hn
        cases hn
    · obtain ⟨_, hn, _⟩ | ⟨hn, _⟩ | ⟨_, ⟨p, hr, ht⟩ | ⟨hr, ht | ht⟩⟩ := hcase
      · rw [hp] at hn
        cases hn
      · rw [hp] at hn
        cases hn
      · refine ⟨[], a :: as, rfl, List.forall_mem_nil _, .inl ⟨a, as, rfl, hs, .inl ⟨hr, ?_⟩⟩⟩
        exact h.installed p (hst.trans ht)
      · exact (h.free (hst.trans ht)).cons hs hr ht
      · refine ⟨[], a :: as, rfl, List.forall_mem_nil _, .inl ⟨a, as, rfl, hs, .inr ⟨hr, ht, ?_⟩⟩⟩
        exact h.stranded (hst.trans ht)

end Prospect

namespace World

variable {w : World} {o : Operation} {a : Activation}

/-- An operation that strips nobody of an enricher keeps the one of an installation registered. -/
theorem registers_next_of_strips {left : InstallerId → SessionId → Nat} (hs : w.Sound left)
    (he : w.program.Enriched) {g : InstallerId} {id : SessionId} (h : w.program.Registers g id)
    (ho : o.strips g id w = []) : (o.next w).program.Registers g id := by
  refine registers_next hs he h fun hidle p q hst hm => ?_
  -- The processor of an installation is its enricher: no two processors have the same number.
  obtain ⟨_, _, hown⟩ := h p hst
  obtain rfl := processor_inj he hm hown
  rw [Operation.strips, if_pos hidle, List.filter_eq_nil_iff] at ho
  have hrow := ho _ (mem_enrichersOf hm hst)
  rw [decide_eq_true_eq, not_not] at hrow
  exact hrow

theorem registers_perform {left : InstallerId → SessionId → Nat} (hs : w.Sound left)
    (he : w.program.Enriched) {g : InstallerId} {id : SessionId} (h : w.program.Registers g id)
    {ops : List Operation} (ho : along (Operation.strips g id) ops w = []) :
    (perform ops w).program.Registers g id := by
  induction ops generalizing w left with
  | nil => exact h
  | cons o rest ih =>
    obtain ⟨hfirst, hrest⟩ := List.append_eq_nil_iff.mp ho
    exact ih (hs.next o) (enriched_next hs he o) (registers_next_of_strips hs he h hfirst) hrest

/-- What is known of a world in a run in which no activation crashes. -/
structure Tame (w : World) : Prop where
  sound : w.Sound fun _ _ => 0
  setUps : ∃ i failures, SetUps i failures w

theorem tame_initial (now : Timestamp) (retention : Retention) : (initial now retention).Tame :=
  ⟨sound_initial now retention, ⟨0⟩, [], setUps_initial ⟨0⟩ now retention⟩

namespace Tame

theorem next (h : w.Tame) (ho : ∀ a ∈ o.activations w, a.run.1 ≠ .crashed) : (o.next w).Tame := by
  have hn := h.sound.next o
  simp only [leaks_of_not_crashed ho, Nat.add_zero] at hn
  obtain ⟨i, _, hs⟩ := h.setUps
  exact ⟨hn, i, _, hs.next h.sound o⟩

theorem perform {ops : List Operation} (h : w.Tame)
    (ho : ∀ a ∈ along Operation.activations ops w, a.run.1 ≠ .crashed) : (perform ops w).Tame := by
  induction ops generalizing w with
  | nil => exact h
  | cons o rest ih =>
    exact ih (h.next fun a ha => ho a (List.mem_append_left _ ha)) fun a ha =>
      ho a (List.mem_append_right _ ha)

theorem ready (h : w.Tame) (ha : a ∈ o.activations w) (hserved : a.run.1 ≠ .crashed) : a.Ready := by
  obtain ⟨hs, _, hreach⟩ := activation_before h.sound.program ha
  refine ⟨hs, hserved, ?_, hreach⟩
  obtain ⟨_, ⟨hb, hg, _⟩ | ⟨config, _, hb, hg, _⟩⟩ := activation_cases ha
  · obtain ⟨_, _, hset⟩ := h.setUps
    rw [hb]
    exact hset.held_made _ hg
  · rw [hb, hg, installer?_newInstaller, if_pos rfl]
    rfl

/-- What an installer answers about a session along a run follows from how it stands with that at
first. -/
theorem prospect (h : w.Tame) {ops : List Operation}
    (ho : ∀ a ∈ along Operation.activations ops w, a.run.1 ≠ .crashed) (g : InstallerId)
    (id : SessionId) :
    Prospect w.program g id ((along Operation.activations ops w).filter (·.asks g id)) := by
  induction ops generalizing w with
  | nil => exact .nil
  | cons o rest ih =>
    have hserved : ∀ a ∈ o.activations w, a.run.1 ≠ .crashed := fun a ha =>
      ho a (List.mem_append_left _ ha)
    have hrest := ih (h.next hserved) fun a ha => ho a (List.mem_append_right _ ha)
    have hk := keepsGone_next h.sound o
    rw [along, List.filter_append]
    by_cases hasks : ∃ a ∈ o.activations w, a.asks g id = true
    · obtain ⟨a, ha, hag⟩ := hasks
      obtain ⟨hg, hid⟩ := Activation.asks_iff.mp hag
      have hsess : a.before.sessions = w.program.sessions := (activation_before h.sound.program ha).2.1
      have hq : a.before.session? id = w.program.session? id := congrArg (Table.get? · id) hsess
      have hask := Prospect.ask (h.ready ha (hserved a ha)) hg hid (standing?_next ha g id)
        (fun hs => hk.stopped id (by rw [hasStopped, ← hq]; exact hs)) hrest
      rw [(activation_cases ha).1, List.filter_singleton, hag, cond_true, List.singleton_append]
      constructor
      · rw [← hq, ← isOver_before h.sound ha]
        exact hask.ended
      all_goals rw [← standing?_before h.sound ha]
      · exact hask.installed
      · exact hask.stranded
      · exact hask.free
    · have hno : ∀ a ∈ o.activations w, a.asks g id = false := fun a ha =>
        Bool.eq_false_iff.mpr fun hag => hasks ⟨a, ha, hag⟩
      rw [List.filter_eq_nil_iff.mpr fun a ha => by rw [hno a ha]; decide, List.nil_append]
      exact hrest.skip hk (standsBy_next h.sound o hno) fun hx => (h.sound.program.known g id hx).1

end Tame

end World

/-- What an installer answers about a session, in every run in which no activation crashes. While the
session runs they take their course: some fail without a trace, then one installs and all others find the
trail installed, or one leaves the session stranded and all others are told so; once the session has
stopped, all are refused. At most one installs. One succeeds exactly when the trail is installed then
and the installer has one listener at the session. Where nobody else strips the installer of
its enricher, that goes with one enricher on the reporter; the activation that installs leaves it there in
any case. -/
theorem activations_take_their_course (now : Timestamp) (retention : Retention) (cs : List Command)
    (served : ∀ a ∈ along Operation.activations (Command.allOperations cs (initial now retention))
      (initial now retention), a.run.1 ≠ .crashed) (g : InstallerId) (id : SessionId) :
    let ops := Command.allOperations cs (initial now retention)
    let asked := (along Operation.activations ops (initial now retention)).filter (·.asks g id)
    Course asked ∧ asked.countP (fun a => a.run.1 = .done .installed) ≤ 1 ∧
    ∀ a ∈ asked,
      ((∃ reply, a.run.1 = .done reply) ↔ a.run.2.hasInstalled g id = true ∧
        ∃ y, a.run.2.session? id = some y ∧ y.attachedBy g = 1) ∧
      (a.run.1 = .done .installed → (a.run.2.enrichersOf [g] id).length = 1) ∧
      (along (Operation.strips g id) ops (initial now retention) = [] →
        ((∃ reply, a.run.1 = .done reply) ↔ a.run.2.hasInstalled g id = true ∧
          (∃ y, a.run.2.session? id = some y ∧ y.attachedBy g = 1) ∧
          (a.run.2.enrichersOf [g] id).length = 1)) := by
  intro ops asked
  have htame := tame_initial now retention
  have hcourse : Course asked := (htame.prospect served g id).free rfl
  refine ⟨hcourse, hcourse.countP_installed_le, fun a ha => ?_⟩
  obtain ⟨hmem, hag⟩ := List.mem_filter.mp ha
  obtain ⟨rfl, rfl⟩ := Activation.asks_iff.mp hag
  obtain ⟨first, o, rest, hops, ho⟩ := mem_along hmem
  have hops' : ops = first ++ [o] ++ rest := by
    rw [List.append_assoc]
    exact hops
  have hserved : ∀ b ∈ along Operation.activations first (initial now retention), b.run.1 ≠ .crashed :=
    fun b hb => served b (by
      rw [show Command.allOperations cs (initial now retention) = _ from hops, along_append]
      exact List.mem_append_left _ hb)
  have hready := (htame.perform hserved).ready ho (served a hmem)
  have hdone := a.done_iff hready
  obtain ⟨hinstallers, hreporter⟩ := activation_next ho
  have hen := enriched_perform htame.sound (enriched_initial now retention) (first ++ [o])
  have hnumbered : a.run.2.reporter.Numbered := by
    rw [hreporter]
    rw [perform_append] at hen
    exact hen.numbered
  refine ⟨hdone, fun hr => ?_, fun alone => ?_⟩
  · obtain ⟨p, e, y, hst, he, hm, _, _⟩ := a.of_installed hready.sound hready.reachable hr
    rw [← he]
    exact length_enrichersOf_of_installed hnumbered hm hst
  · rw [hdone]
    refine ⟨fun ⟨hin, hy⟩ => ⟨hin, hy, ?_⟩, fun ⟨hin, hy, _⟩ => ⟨hin, hy⟩⟩
    rw [hops', along_append] at alone
    have hinit : (initial now retention).program.Registers a.installer a.session :=
      (registered_initial now retention).enricher _ _
    have hreg := registers_perform htame.sound (enriched_initial now retention) hinit
      (List.append_eq_nil_iff.mp alone).1
    rw [perform_append] at hreg
    obtain ⟨p, hst⟩ := hasInstalled_iff.mp hin
    obtain ⟨_, _, hm⟩ := hreg.of_installers_eq hinstallers (fun _ _ _ hm => hreporter ▸ hm) p hst
    exact length_enrichersOf_of_installed hnumbered hm hst

/-- A run in which an installation is refused its first write and tried again, twice while the session
runs and once behind its end. -/
def fullRun : List Command :=
  retakenRun ++ [.operation (.ensureInstalled ⟨0⟩ ⟨⟨0⟩⟩), .operation (.stop ⟨⟨0⟩⟩),
    .operation (.ensureInstalled ⟨0⟩ ⟨⟨0⟩⟩)]

/-- The four activations of the run show every answer but that of a stranded session. -/
theorem course_of_full_run :
    let asked := (along Operation.activations
      (Command.allOperations fullRun (initial .epoch .standard)) (initial .epoch .standard)).filter
        (·.asks ⟨0⟩ ⟨⟨0⟩⟩)
    Course asked ∧ asked.countP (fun a => a.run.1 = .done .installed) = 1 ∧
    asked.map (·.run.1) = [.failed (.session (.unavailable "property store busy")),
      .done .installed, .done .alreadyInstalled, .failed (.session .stopped)] := by
  intro asked
  obtain ⟨hcourse, hle, _⟩ := activations_take_their_course .epoch .standard fullRun (by decide) ⟨0⟩ ⟨⟨0⟩⟩
  have hanswers : asked.map (·.run.1) = [.failed (.session (.unavailable "property store busy")),
      .done .installed, .done .alreadyInstalled, .failed (.session .stopped)] := by decide
  have hone : 1 ≤ asked.countP (fun a => a.run.1 = .done .installed) := by decide
  exact ⟨hcourse, Nat.le_antisymm hle hone, hanswers⟩

/-- A run in which somebody else removes the enricher of an installation. -/
def strippedRun : List Command :=
  [.operation (.start ⟨⟨0⟩⟩ (.standard none) .sound false), .operation (.newInstaller .standard),
    .operation (.ensureInstalled ⟨0⟩ ⟨⟨0⟩⟩), .operation (.unregister ⟨0⟩),
    .operation (.ensureInstalled ⟨0⟩ ⟨⟨0⟩⟩)]

/-- The last activation succeeds although the reporter holds no enricher: an installer does not look for
the one that it has written down. -/
theorem alreadyInstalled_without_enricher :
    let ops := Command.allOperations strippedRun (initial .epoch .standard)
    let asked := (along Operation.activations ops (initial .epoch .standard)).filter
      (·.asks ⟨0⟩ ⟨⟨0⟩⟩)
    (∀ a ∈ along Operation.activations ops (initial .epoch .standard), a.run.1 ≠ .crashed) ∧
    asked.map (·.run.1) = [.done .installed, .done .alreadyInstalled] ∧
    asked.map (fun a => (a.run.2.hasInstalled ⟨0⟩ ⟨⟨0⟩⟩, (a.run.2.enrichersOf [⟨0⟩] ⟨⟨0⟩⟩).length)) =
      [(true, 1), (true, 0)] := by
  intro ops asked
  exact ⟨by decide, by decide, by decide⟩

end SessionTrail
