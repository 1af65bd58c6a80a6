import Mathlib.Data.List.Induction
import Mathlib.Data.List.Nodup
import SessionTrail.Proofs.World

/-!
# The pipeline of processors

A reporter is asked to register and to remove processors, to keep and to forget breadcrumbs, and to take
reports, in any order. What a processor does to a report and a hint is any function. Whatever was asked
so far, the processors that are registered are those that were registered and not removed since, in the
order in which they came, under ids of which none is ever given twice. A report goes through all of them,
from the first to the last, until one drops it.

A program whose rules look only at the report and the hint runs its reporter in the same way.
-/
namespace SessionTrail

namespace Reporter

variable {π : Type}

/-- What can be asked of a reporter. -/
inductive Request (π : Type) where
  | register (p : π)
  | unregister (id : ProcessorId)
  | leave (crumb : Breadcrumb)
  | clearCrumbs
  | submit (report : Report) (hint : Hint)

section Requests

variable (run : π → Hint → Report → Option Report)

/-- The reporter after a request. -/
def Request.next : Request π → Reporter π → Reporter π
  | .register p, r => (r.register p).2
  | .unregister id, r => (r.unregister id).2
  | .leave crumb, r => r.pushCrumb crumb
  | .clearCrumbs, r => r.clearCrumbs
  | .submit report hint, r => (r.submit (run · hint) report).2

def perform (requests : List (Request π)) (r : Reporter π) : Reporter π :=
  requests.foldl (fun r q => q.next run r) r

/-- What requests show, one after another. -/
def along {α : Type} (show? : Request π → Reporter π → List α) : List (Request π) → Reporter π → List α
  | [], _ => []
  | q :: rest, r => show? q r ++ along show? rest (q.next run r)

/-- What the processors make of a report, from the first to the last. -/
def final? (r : Reporter π) (report : Report) (hint : Hint) : Option Report :=
  (r.processors.map (·.2)).foldlM (fun report p => run p hint report)
    { report with breadcrumbs := report.breadcrumbs ++ r.breadcrumbs }

/-- The id that a request gives. -/
def Request.given : Request π → Reporter π → List ProcessorId
  | .register p, r => [(r.register p).1]
  | _, _ => []

/-- The report that a request leaves behind. -/
def Request.final : Request π → Reporter π → List Report
  | .submit report hint, r => (r.final? run report hint).toList
  | _, _ => []

/-- A processor was registered under an id, and that id was not removed since. -/
def Stands (past : List (Request π)) (start : Reporter π) (id : ProcessorId) (p : π) : Prop :=
  ∃ before after, past = before ++ .register p :: after ∧
    id = ((perform run before start).register p).1 ∧ .unregister id ∉ after

/-- How a reporter that has nothing at first does what it is asked after some requests. -/
structure Follows (past : List (Request π)) (start r : Reporter π) : Prop where
  /-- The processors are those that were registered and not removed since. -/
  registered : ∀ id p, (id, p) ∈ r.processors ↔ Stands run past start id p
  /-- Their ids stand in the order in which they were given. -/
  ordered : (r.processors.map (·.1)).Sublist (along run Request.given past start)
  /-- No id is given twice, also not one that was removed. -/
  unique : (along run Request.given past start).Nodup
  fresh : ∀ p, (r.register p).1 ∉ along run Request.given past start
  /-- Removing tells whether the id was there. -/
  unregister_iff : ∀ id, (r.unregister id).1 = true ↔ ∃ p, (id, p) ∈ r.processors
  unregister_standing : ∀ before id p after, r.processors = before ++ (id, p) :: after →
    (r.unregister id).2 = { r with processors := before ++ after }
  unregister_other : ∀ id, (r.unregister id).1 = false → (r.unregister id).2 = r
  /-- A report is kept if no processor drops it, and nothing but that is changed. -/
  submit_eq : ∀ report hint, r.submit (run · hint) report =
    match r.final? run report hint with
    | some final => (some final, { r with kept := r.kept ++ [final] })
    | none => (none, r)
  /-- Who submits a report learns under which event id it was kept. -/
  answer_eq : ∀ report hint, (r.submit (run · hint) report).1.map (·.eventId) =
    (r.final? run report hint).map (·.eventId)
  /-- What is kept is what came out of the submissions. -/
  kept_eq : r.kept = start.kept ++ along run (Request.final run) past start

end Requests

variable {run : π → Hint → Report → Option Report}

theorem perform_append (first rest : List (Request π)) (r : Reporter π) :
    perform run (first ++ rest) r = perform run rest (perform run first r) :=
  List.foldl_append

theorem along_append {α : Type} (show? : Request π → Reporter π → List α)
    (first rest : List (Request π)) (r : Reporter π) :
    along run show? (first ++ rest) r =
      along run show? first r ++ along run show? rest (perform run first r) := by
  induction first generalizing r with
  | nil => rfl
  | cons q first ih =>
    rw [List.cons_append, along, ih (q.next run r), along, List.append_assoc]
    rfl

/-! ## Submissions -/

theorem process_pure (step : π → Report → Option Report) (ps : List π) (report : Report) :
    process (fun p report (_ : Unit) => (step p report, ())) ps report () =
      (ps.foldlM (fun report p => step p report) report, ()) := by
  induction ps generalizing report with
  | nil => rfl
  | cons p rest ih =>
    rw [process, List.foldlM_cons]
    cases step p report with
    | none => rfl
    | some next => exact ih next

theorem submit_eq_final? (r : Reporter π) (report : Report) (hint : Hint) :
    r.submit (run · hint) report =
      match r.final? run report hint with
      | some final => (some final, { r with kept := r.kept ++ [final] })
      | none => (none, r) := by
  have hprocess : process (fun p report (_ : Unit) => (run p hint report, ()))
      (r.processors.map (·.2)) (r.withCrumbs report) () = (r.final? run report hint, ()) :=
    process_pure _ _ _
  rw [submit, hprocess]
  cases r.final? run report hint <;> rfl

theorem fst_submit (r : Reporter π) (report : Report) (hint : Hint) :
    (r.submit (run · hint) report).1 = r.final? run report hint := by
  rw [submit_eq_final?]
  cases r.final? run report hint <;> rfl

theorem submit_keeps (r : Reporter π) (report : Report) (hint : Hint) :
    (r.submit (run · hint) report).2 =
      { r with kept := r.kept ++ (r.final? run report hint).toList } := by
  rw [submit_eq_final?]
  cases r.final? run report hint with
  | some final => rfl
  | none => simp only [Option.toList_none, List.append_nil]

theorem kept_next (q : Request π) (r : Reporter π) :
    (q.next run r).kept = r.kept ++ q.final run r := by
  cases q with
  | submit report hint => exact congrArg Reporter.kept (submit_keeps r report hint)
  | register | unregister | leave | clearCrumbs => exact (List.append_nil _).symm

/-! ## Ids -/

theorem registrations_next (q : Request π) (r : Reporter π) :
    (q.next run r).registrations = r.registrations + (q.given r).length := by
  cases q with
  | submit report hint =>
    rw [Request.next, submit_keeps]
    rfl
  | register | unregister | leave | clearCrumbs => rfl

/-- The ids are given in the order of the numbers. -/
theorem along_given (run : π → Hint → Report → Option Report) (requests : List (Request π)) (r : Reporter π) :
    along run Request.given requests r =
      (List.range' r.registrations (along run Request.given requests r).length).map ProcessorId.mk ∧
    (perform run requests r).registrations =
      r.registrations + (along run Request.given requests r).length := by
  induction requests generalizing r with
  | nil => exact ⟨rfl, rfl⟩
  | cons q rest ih =>
    obtain ⟨hids, hcount⟩ := ih (q.next run r)
    rw [registrations_next] at hids hcount
    have hnow : q.given r = (List.range' r.registrations (q.given r).length).map ProcessorId.mk := by
      cases q <;> rfl
    have hstep : perform run (q :: rest) r = perform run rest (q.next run r) := rfl
    rw [hstep, hcount, along, List.length_append, List.range'_append_1.symm, List.map_append, ← hnow,
      ← hids]
    exact ⟨rfl, by omega⟩

theorem mem_along_given {requests : List (Request π)} {r : Reporter π} {id : ProcessorId} :
    id ∈ along run Request.given requests r ↔
      r.registrations ≤ id.val ∧ id.val < (perform run requests r).registrations := by
  obtain ⟨hids, hcount⟩ := along_given run requests r
  rw [hids, hcount]
  simp only [List.mem_map, List.mem_range'_1]
  constructor
  · rintro ⟨n, hn, rfl⟩
    exact hn
  · intro h
    exact ⟨id.val, h, rfl⟩

theorem nodup_along_given (requests : List (Request π)) (r : Reporter π) :
    (along run Request.given requests r).Nodup := by
  rw [(along_given _ requests r).1]
  exact List.Nodup.map (fun a b h => congrArg ProcessorId.val h) List.nodup_range'

theorem fresh_register (requests : List (Request π)) (r : Reporter π) (p : π) :
    ((perform run requests r).register p).1 ∉ along run Request.given requests r := by
  intro h
  exact Nat.lt_irrefl _ (mem_along_given.mp h).2

/-! ## What is registered -/

/-- What stands after one more request stood before and was not removed, or was just registered. -/
theorem stands_concat {past : List (Request π)} {start : Reporter π} {q : Request π}
    {id : ProcessorId} {p : π} :
    Stands run (past ++ [q]) start id p ↔
      Stands run past start id p ∧ q ≠ .unregister id ∨
        q = .register p ∧ id = ((perform run past start).register p).1 := by
  constructor
  · rintro ⟨before, after, he, hid, hnot⟩
    rcases List.eq_nil_or_concat after with rfl | ⟨after, last, rfl⟩
    · obtain ⟨rfl, hq⟩ := List.append_inj' he rfl
      exact .inr ⟨List.head_eq_of_cons_eq hq, hid⟩
    · rw [List.concat_eq_append] at he hnot
      rw [← List.cons_append, ← List.append_assoc] at he
      obtain ⟨rfl, hq⟩ := List.append_inj' he rfl
      obtain rfl := List.head_eq_of_cons_eq hq
      refine .inl ⟨⟨before, after, rfl, hid, fun h => hnot (List.mem_append_left _ h)⟩, fun h => ?_⟩
      exact hnot (List.mem_append_right _ (h ▸ List.mem_singleton_self _))
  · rintro (⟨⟨before, after, rfl, hid, hnot⟩, hq⟩ | ⟨rfl, hid⟩)
    · refine ⟨before, after ++ [q], by rw [List.append_assoc, List.cons_append], hid, fun h => ?_⟩
      rcases List.mem_append.mp h with h | h
      · exact hnot h
      · exact hq (List.mem_singleton.mp h).symm
    · exact ⟨past, [], rfl, hid, List.not_mem_nil⟩

/-- What one more request makes of the processors. -/
theorem mem_processors_next (q : Request π) (r : Reporter π) (id : ProcessorId) (p : π) :
    (id, p) ∈ (q.next run r).processors ↔
      (id, p) ∈ r.processors ∧ q ≠ .unregister id ∨ q = .register p ∧ id = (r.register p).1 := by
  cases q with
  | register new =>
    rw [Request.next, register, List.mem_append, List.mem_singleton, Prod.mk.injEq]
    constructor
    · rintro (h | ⟨rfl, rfl⟩)
      · exact .inl ⟨h, nofun⟩
      · exact .inr ⟨rfl, rfl⟩
    · rintro (⟨h, -⟩ | ⟨hq, rfl⟩)
      · exact .inl h
      · cases hq
        exact .inr ⟨rfl, rfl⟩
  | unregister gone =>
    rw [Request.next, unregister, List.mem_filter, decide_eq_true_iff]
    constructor
    · rintro ⟨h, hne⟩
      exact .inl ⟨h, fun he => hne (Request.unregister.inj he).symm⟩
    · rintro (⟨h, hne⟩ | ⟨hq, -⟩)
      · exact ⟨h, fun he => hne (congrArg Request.unregister he.symm)⟩
      · cases hq
  | submit report hint =>
    rw [Request.next, submit_keeps]
    simp
  | leave | clearCrumbs => simp [Request.next, pushCrumb, clearCrumbs]

theorem ids_next (q : Request π) (r : Reporter π) :
    ((q.next run r).processors.map (·.1)).Sublist (r.processors.map (·.1) ++ q.given r) := by
  cases q with
  | register p =>
    rw [Request.next, register, List.map_append]
    exact .refl _
  | unregister id =>
    simp only [Request.given, List.append_nil]
    exact List.filter_sublist.map _
  | submit report hint =>
    simp only [Request.next, submit_keeps, Request.given, List.append_nil]
    exact .refl _
  | leave | clearCrumbs =>
    simp only [Request.given, List.append_nil]
    exact .refl _

theorem mem_processors_perform (past : List (Request π)) {start : Reporter π}
    (h : start.processors = []) (id : ProcessorId) (p : π) :
    (id, p) ∈ (perform run past start).processors ↔ Stands run past start id p := by
  induction past using List.reverseRecOn with
  | nil =>
    rw [perform, List.foldl_nil, h]
    refine ⟨nofun, ?_⟩
    rintro ⟨before, after, he, -⟩
    cases before <;> cases he
  | append_singleton past q ih =>
    rw [perform_append, stands_concat, ← ih]
    exact mem_processors_next q _ id p

theorem ids_perform (past : List (Request π)) {start : Reporter π} (h : start.processors = []) :
    ((perform run past start).processors.map (·.1)).Sublist (along run Request.given past start) := by
  induction past using List.reverseRecOn with
  | nil =>
    rw [perform, List.foldl_nil, h]
    exact .refl _
  | append_singleton past q ih =>
    rw [perform_append, along_append, along, along, List.append_nil]
    exact (ids_next q _).trans (ih.append_right _)

theorem kept_perform (past : List (Request π)) (start : Reporter π) :
    (perform run past start).kept = start.kept ++ along run (Request.final run) past start := by
  induction past generalizing start with
  | nil => exact (List.append_nil _).symm
  | cons q rest ih =>
    rw [along, ← List.append_assoc, ← kept_next]
    exact ih (q.next run start)

/-! ## Removals -/

theorem isRegistered_iff {r : Reporter π} {id : ProcessorId} :
    r.isRegistered id = true ↔ ∃ p, (id, p) ∈ r.processors := by
  simp only [isRegistered, List.any_eq_true, decide_eq_true_eq, Prod.exists]
  constructor
  · rintro ⟨_, p, hm, rfl⟩
    exact ⟨p, hm⟩
  · rintro ⟨p, hm⟩
    exact ⟨id, p, hm, rfl⟩

theorem unregister_of_standing {r : Reporter π} (hids : (r.processors.map (·.1)).Nodup)
    {before after : List (ProcessorId × π)} {id : ProcessorId} {p : π}
    (h : r.processors = before ++ (id, p) :: after) :
    (r.unregister id).2 = { r with processors := before ++ after } := by
  rw [h, List.map_append, List.map_cons, List.nodup_append, List.nodup_cons] at hids
  obtain ⟨-, ⟨hafter, -⟩, hbefore⟩ := hids
  have keeps : ∀ rows : List (ProcessorId × π), id ∉ rows.map (·.1) →
      rows.filter (fun row => decide (row.1 ≠ id)) = rows := by
    intro rows hn
    refine List.filter_eq_self.mpr fun row hm => decide_eq_true fun he => hn ?_
    exact he ▸ List.mem_map_of_mem hm
  have hb := keeps before fun hm => hbefore id hm id List.mem_cons_self rfl
  rw [unregister, h, List.filter_append, List.filter_cons_of_neg (by simp), hb, keeps after hafter]

theorem unregister_of_missing {r : Reporter π} {id : ProcessorId} (h : (r.unregister id).1 = false) :
    (r.unregister id).2 = r := by
  have hall : r.processors.filter (fun row => decide (row.1 ≠ id)) = r.processors := by
    refine List.filter_eq_self.mpr fun row hm => decide_eq_true fun he => ?_
    have hreg : r.isRegistered id = true := isRegistered_iff.mpr ⟨row.2, he ▸ hm⟩
    rw [unregister, hreg] at h
    cases h
  rw [unregister, hall]

/-- A reporter that has nothing at first follows whatever it is asked. -/
theorem follows_perform (run : π → Hint → Report → Option Report) (past : List (Request π))
    {start : Reporter π} (h : start.processors = []) :
    Follows run past start (perform run past start) where
  registered := mem_processors_perform past h
  ordered := ids_perform past h
  unique := nodup_along_given past start
  fresh := fresh_register past start
  unregister_iff _ := isRegistered_iff
  unregister_standing _ _ _ _ he :=
    unregister_of_standing ((nodup_along_given past start).sublist (ids_perform past h)) he
  unregister_other _ := unregister_of_missing
  submit_eq report hint := submit_eq_final? _ report hint
  answer_eq report hint := congrArg _ (fst_submit _ report hint)
  kept_eq := kept_perform past start

/-- A reporter with processors of another form. -/
def map {ρ : Type} (f : π → ρ) (r : Reporter π) : Reporter ρ :=
  { r with processors := r.processors.map fun row => (row.1, f row.2) }

end Reporter

/-! ## Rules that only look at the report and the hint -/

open Reporter

/-- A rule that does nothing to the reporter. -/
def Rule.isPlain : Rule → Bool
  | .crumb _ | .register _ | .unregister _ => false
  | _ => true

/-- What a rule makes of a hint and a report. -/
def Rule.make (r : Rule) (hint : Hint) (report : Report) : Option Report := r.apply hint report

/-- A request as an operation on a program with its reporter. -/
def Reporter.Request.operation : Request Rule → Operation
  | .register r => .register r
  | .unregister id => .unregister id
  | .leave crumb => .leave crumb
  | .clearCrumbs => .clearCrumbs
  | .submit report hint => .submit report hint

namespace Program

theorem runRule_of_plain {r : Rule} (h : r.isPlain = true) (hint : Hint) (report : Report)
    (s : Program) : runRule hint r report s = (r.make hint report, s) := by
  cases r with
  | crumb | register | unregister => cases h
  | put | putIfAbsent | untag | drop | dropLevel | hint | count => rfl

theorem process_of_plain {rules : List Rule} (h : ∀ r ∈ rules, r.isPlain = true) (hint : Hint)
    (report : Report) (s : Program) :
    Reporter.process (runProcessor hint) (rules.map .rule) report s =
      (rules.foldlM (fun report r => r.make hint report) report, s) := by
  induction rules generalizing report with
  | nil => rfl
  | cons r rest ih =>
    have hr := runRule_of_plain (h r List.mem_cons_self) hint report s
    rw [List.map_cons, Reporter.process, List.foldlM_cons, runProcessor, hr]
    cases r.make hint report with
    | none => rfl
    | some next => exact ih (fun r hr => h r (List.mem_cons_of_mem _ hr)) next

/-- Where only such rules are registered, a program takes a report as its reporter does. -/
theorem submit_of_plain {s : Program} {r : Reporter Rule} (hr : s.reporter = r.map .rule)
    (h : ∀ row ∈ r.processors, row.2.isPlain = true) (report : Report) (hint : Hint) :
    submit report hint s = ((r.submit (Rule.make · hint) report).1,
      { s with reporter := (r.submit (Rule.make · hint) report).2.map .rule }) := by
  have hps : s.reporter.processors.map (·.2) = (r.processors.map (·.2)).map .rule := by
    rw [hr, Reporter.map, List.map_map, List.map_map]
    rfl
  have hplain : ∀ rule ∈ r.processors.map (·.2), rule.isPlain = true := by
    intro rule hm
    obtain ⟨row, hrow, rfl⟩ := List.mem_map.mp hm
    exact h row hrow
  have hcrumbs : s.reporter.withCrumbs report = r.withCrumbs report := by
    rw [hr]
    rfl
  have hprocess : Reporter.process (runProcessor hint) ((r.processors.map (·.2)).map .rule)
      (r.withCrumbs report) s = (r.final? Rule.make report hint, s) :=
    process_of_plain hplain hint _ s
  rw [submit, hps, hcrumbs, hprocess, submit_eq_final?]
  cases r.final? Rule.make report hint with
  | none => simp only [← hr]
  | some final =>
    simp only [hr]
    rfl

end Program

theorem reporter_next {w : World} {r : Reporter Rule} (hr : w.program.reporter = r.map .rule)
    (h : ∀ row ∈ r.processors, row.2.isPlain = true) (q : Request Rule) :
    (q.operation.next w).program.reporter = (q.next Rule.make r).map .rule := by
  cases q with
  | register rule =>
    simp only [Request.operation, Operation.next, World.update, Program.register, Request.next, hr,
      Reporter.register, Reporter.map, List.map_append, List.map_cons, List.map_nil]
  | unregister id =>
    simp only [Request.operation, Operation.next, World.update, Program.unregister, Request.next, hr,
      Reporter.unregister, Reporter.map, List.filter_map]
    rfl
  | submit report hint =>
    simp only [Request.operation, Operation.next, World.update, Program.submit_of_plain hr h]
    rfl
  | leave crumb =>
    simp only [Request.operation, Operation.next, World.update, Program.leave, Request.next, hr]
    rfl
  | clearCrumbs =>
    simp only [Request.operation, Operation.next, World.update, Request.next, hr]
    rfl

theorem plain_next {r : Reporter Rule} (h : ∀ row ∈ r.processors, row.2.isPlain = true)
    {q : Request Rule} (hq : ∀ rule, q = .register rule → rule.isPlain = true) :
    ∀ row ∈ (q.next Rule.make r).processors, row.2.isPlain = true := by
  rintro ⟨id, rule⟩ hm
  rcases (mem_processors_next q r id rule).mp hm with ⟨hm, -⟩ | ⟨he, -⟩
  · exact h _ hm
  · exact hq rule he

/-- A program whose rules only look at reports and hints does to its reporter what it is asked. -/
theorem reporter_perform {requests : List (Request Rule)}
    (hq : ∀ rule, .register rule ∈ requests → rule.isPlain = true) {w : World} {r : Reporter Rule}
    (hr : w.program.reporter = r.map .rule) (h : ∀ row ∈ r.processors, row.2.isPlain = true) :
    (World.perform (requests.map Request.operation) w).program.reporter =
      (Reporter.perform Rule.make requests r).map .rule := by
  induction requests generalizing w r with
  | nil => exact hr
  | cons q rest ih =>
    have hplain : ∀ rule, q = .register rule → rule.isPlain = true := by
      rintro rule rfl
      exact hq rule List.mem_cons_self
    exact ih (fun rule hm => hq rule (List.mem_cons_of_mem _ hm)) (reporter_next hr h q)
      (plain_next h hplain)

/-- Whatever is asked of a reporter, with whatever processors: those that are registered are those that
were registered and not removed since, in that order and under ids that are never given again; a removal
takes away exactly the one with the id and tells whether there was one; a report goes through all of them
with the breadcrumbs behind its own, is kept as the last one hands it on, and nowhere if one drops it.
A program with rules that only look at the report and the hint does just this to its reporter. -/
theorem reports_go_through_the_registered_processors {π : Type}
    (run : π → Hint → Report → Option Report) (retention : Retention) (requests : List (Request π)) :
    Follows run requests { retention } (Reporter.perform run requests { retention }) ∧
      ∀ (now : Timestamp) (rules : List (Request Rule)),
        (∀ rule, .register rule ∈ rules → rule.isPlain = true) →
          (World.perform (rules.map Request.operation) (World.initial now retention)).program.reporter =
            (Reporter.perform Rule.make rules { retention }).map .rule :=
  ⟨follows_perform run requests rfl, fun _ _ h => reporter_perform h rfl nofun⟩

/-- Two rules are registered and the first is removed; a third one comes behind the second and not in the
place of the first. A warning is dropped, and an error is kept with its tag. -/
def twoRules : List (Request Rule) :=
  [.register .drop, .register (.dropLevel .warning), .unregister ⟨0⟩,
    .register (.put "trail" (.tag "kind")), .submit (.new ⟨1⟩ .epoch .warning) .empty,
    .submit (.new ⟨2⟩ .epoch .error) .empty]

theorem error_goes_through_two_rules :
    let r := (World.perform (twoRules.map Request.operation) (World.initial .epoch .standard)).program.reporter
    (∀ rule, Request.register rule ∈ twoRules → rule.isPlain = true) ∧
      r.processors = [(⟨1⟩, .rule (.dropLevel .warning)), (⟨2⟩, .rule (.put "trail" (.tag "kind")))] ∧
      r.kept = [(Report.new ⟨2⟩ .epoch .error).put "trail" (.tag "kind")] := by
  intro r
  have plain : ∀ rule, Request.register rule ∈ twoRules → rule.isPlain = true := by
    simp [twoRules, Rule.isPlain]
  have hr := (reports_go_through_the_registered_processors Rule.make .standard twoRules).2 .epoch _ plain
  rw [show r = _ from hr]
  exact ⟨plain, by decide, by decide⟩

end SessionTrail
