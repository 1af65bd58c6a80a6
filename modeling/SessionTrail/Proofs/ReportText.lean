import Mathlib.Data.List.Forall2
import SessionTrail.Proofs.Omission
import SessionTrail.Proofs.Parts
import SessionTrail.Proofs.Slots
import SessionTrail.Report
import SessionTrail.Settings

/-!
# Reports, breadcrumbs and settings and their texts

A report may be written in several ways, because a part that is empty may be left out or spelled out: in the
report itself, in its user and in each of its breadcrumbs. Whichever way is taken, the text is read as the
report, unless one of its times is a leap second in the midst of a minute; a user without an id is never read
as an absent one. In a document of any kind, too, it makes no difference whether an empty part is there
(`json_forms_round_trip`).
-/
namespace SessionTrail

open Json Doc

/-- A part is written in one of its forms, or left out where it is empty. -/
def OptionalPart (isEmpty : Prop) (IsForm : Value → Prop) (v? : Option Value) : Prop :=
  (isEmpty ∧ v? = none) ∨ ∃ v, v? = some v ∧ IsForm v

theorem OptionalPart.fills {α : Type} {decode : Decoder α} {default a : α} {isEmpty : Prop}
    {IsForm : Value → Prop} {v? : Option Value} (h : OptionalPart isEmpty IsForm v?)
    (hempty : isEmpty → a = default) (hform : ∀ v, IsForm v → Stands decode a v) :
    Fills decode default a v? := by
  rcases h with ⟨he, rfl⟩ | ⟨v, rfl, hv⟩
  · exact hempty he
  · exact hform v hv

theorem OptionalPart.map {α : Type} (encode : α → Value) (m : SortedMap α) :
    OptionalPart (m = .empty) (· = .ofMap encode m)
      (if m.isEmpty then none else some (.ofMap encode m)) := by
  split
  · rename_i h
    exact .inl ⟨SortedMap.ext (List.isEmpty_iff.mp h), rfl⟩
  · exact .inr ⟨_, rfl, rfl⟩

theorem stands_string (s : String) : Stands decodeString s (.string s) :=
  reads_string.stands (fun _ => rfl) s

theorem stands_time (t : Timestamp) : Stands Timestamp.decode t.reread t.encode := ⟨rfl, t.decode_encode⟩

theorem stands_level (level : Level) (reading : Reading) : Stands (Level.decode reading) level level.encode :=
  (Level.reads reading).stands (fun _ => rfl) level

theorem stands_option (o : Option String) : Stands (decodeOption decodeString) o (.ofOption .string o) :=
  (reads_string.option nofun).stands (Value.isIntegral_ofOption fun _ => rfl) o

theorem stands_map (m : SortedMap String) : Stands (decodeMap decodeString) m (.ofMap .string m) :=
  reads_string.map.stands (Value.isIntegral_ofMap fun _ => rfl) m

/-! ## Users -/

namespace User

def slots (id : Option Value) : List (String × Option Value) := [("id", id)]

/-- The forms of a user: an id that is not there is null or left out. -/
def IsForm (user : User) (v : Value) : Prop :=
  ∃ id, v = .object (Value.written (slots id)) ∧
    OptionalPart (user.id = none) (· = .ofOption .string user.id) id

theorem stands {user : User} {v : Value} (h : user.IsForm v) (reading : Reading) :
    Stands (User.decode reading) user v := by
  obtain ⟨id, rfl, hid⟩ := h
  have hid : Fills (decodeOption decodeString) none user.id id :=
    hid.fills (fun h => h) fun _ h => h ▸ stands_option user.id
  have hnodup : ((slots id).map (·.1)).Nodup := by simp [slots]
  have hfits : ∀ s ∈ slots id, Fits shape s := List.forall_mem_singleton.mpr (hid.fits rfl rfl)
  refine ⟨isIntegral_written hfits, ?_⟩
  rw [decode, decodeFields_written hnodup hfits (by simp [shape, Field.defaulted]), ok_bind,
    getD_written hnodup (by simp [slots]) hid]
  rfl

theorem omits_id (reading : Reading) : Omits (User.decode reading) "id" .null :=
  omits_of (fun _ => rfl) rfl (by simp [shape, Field.defaulted]) rfl fun _ _ h => by
    rw [h.getD_self (decodeOption decodeString) none rfl]

theorem isForm_encode (user : User) : user.IsForm user.encode := by
  obtain ⟨_ | id⟩ := user
  · exact ⟨none, rfl, .inl ⟨rfl, rfl⟩⟩
  · exact ⟨some (.string id), rfl, .inr ⟨_, rfl, rfl⟩⟩

end User

/-! ## Breadcrumbs -/

namespace Breadcrumb

def slots (crumb : Breadcrumb) (data : Option Value) : List (String × Option Value) :=
  [("timestamp", some crumb.timestamp.encode), ("level", some crumb.level.encode),
    ("message", some (.string crumb.message)), ("data", data)]

/-- The breadcrumb as which a breadcrumb is read. -/
def reread (crumb : Breadcrumb) : Breadcrumb := { crumb with timestamp := crumb.timestamp.reread }

theorem reread_eq_self {crumb : Breadcrumb} : crumb.reread = crumb ↔ crumb.timestamp.IsRegular := by
  rw [← Timestamp.reread_eq_self]
  constructor
  · exact fun h => congrArg timestamp h
  · exact fun h => by rw [reread, h]

theorem encode_reread (crumb : Breadcrumb) : crumb.reread.encode = crumb.encode := by
  simp only [encode, reread, Timestamp.encode_reread]

/-- The forms of a breadcrumb: empty data are an empty object or left out. -/
def IsForm (crumb : Breadcrumb) (v : Value) : Prop :=
  ∃ data, v = .object (Value.written (crumb.slots data)) ∧
    OptionalPart (crumb.data = .empty) (· = .ofMap .string crumb.data) data

theorem stands {crumb : Breadcrumb} {v : Value} (h : crumb.IsForm v) (reading : Reading) :
    Stands (Breadcrumb.decode reading) crumb.reread v := by
  obtain ⟨data, rfl, hdata⟩ := h
  have hdata : Fills (decodeMap decodeString) .empty crumb.data data :=
    hdata.fills (fun h => h) fun _ h => h ▸ stands_map crumb.data
  have htime := stands_time crumb.timestamp
  have hlevel := stands_level crumb.level reading
  have hmessage := stands_string crumb.message
  have hnodup : ((crumb.slots data).map (·.1)).Nodup := by simp [slots]
  have hfits : ∀ s ∈ crumb.slots data, Fits (shape reading) s := by
    simp only [slots, List.forall_mem_cons]
    exact ⟨htime.fits rfl rfl, hlevel.fits rfl rfl, hmessage.fits rfl rfl, hdata.fits rfl rfl, nofun⟩
  refine ⟨isIntegral_written hfits, ?_⟩
  rw [decode, decodeFields_written hnodup hfits (by simp [shape, slots, Field.required, Field.defaulted]),
    ok_bind, get_written hnodup (by simp [slots]) htime, ok_bind, get_written hnodup (by simp [slots]) hlevel,
    ok_bind, get_written hnodup (by simp [slots]) hmessage, ok_bind,
    getD_written hnodup (by simp [slots]) hdata]
  rfl

theorem omits_data (reading : Reading) : Omits (Breadcrumb.decode reading) "data" (.object []) :=
  omits_of (fun _ => rfl) rfl (by simp [shape, Field.required, Field.defaulted]) rfl fun _ _ h => by
    rw [h.get (by decide), h.get (by decide), h.get (by decide),
      h.getD_self (decodeMap decodeString) .empty rfl]

theorem isForm_encode (crumb : Breadcrumb) : crumb.IsForm crumb.encode := by
  refine ⟨_, ?_, .map .string crumb.data⟩
  rw [encode, memberOfMap_eq]
  rfl

end Breadcrumb

/-! ## Reports -/

namespace Report

def slots (r : Report) (message user tags extra breadcrumbs : Option Value) :
    List (String × Option Value) :=
  [("event_id", some r.eventId.encode), ("timestamp", some r.timestamp.encode),
    ("level", some r.level.encode), ("message", message), ("user", user), ("tags", tags), ("extra", extra),
    ("breadcrumbs", breadcrumbs)]

/-- The points in time that a report tells of. -/
def times (r : Report) : List Timestamp := r.timestamp :: r.breadcrumbs.map (·.timestamp)

/-- The report as which a report is read. -/
def reread (r : Report) : Report :=
  { r with timestamp := r.timestamp.reread, breadcrumbs := r.breadcrumbs.map Breadcrumb.reread }

theorem reread_eq_self {r : Report} : r.reread = r ↔ ∀ t ∈ r.times, t.IsRegular := by
  have hcrumbs : r.breadcrumbs.map Breadcrumb.reread = r.breadcrumbs ↔
      ∀ c ∈ r.breadcrumbs, c.timestamp.IsRegular := by
    have hinj := @List.map_inj_left _ _ r.breadcrumbs Breadcrumb.reread id
    rw [List.map_id] at hinj
    simp only [hinj, id, Breadcrumb.reread_eq_self]
  rw [times, List.forall_mem_cons, List.forall_mem_map, ← hcrumbs, ← Timestamp.reread_eq_self]
  constructor
  · exact fun h => ⟨congrArg timestamp h, congrArg breadcrumbs h⟩
  · rintro ⟨htime, hcrumbs⟩
    rw [reread, htime, hcrumbs]

theorem encode_reread (r : Report) : r.reread.encode = r.encode := by
  have hitems : ∀ crumbs : List Breadcrumb,
      Value.memberOfList "breadcrumbs" Breadcrumb.encode (crumbs.map Breadcrumb.reread) =
        Value.memberOfList "breadcrumbs" Breadcrumb.encode crumbs := fun crumbs => by
    simp only [memberOfList_eq, Value.ofList, List.isEmpty_map, List.map_map, Function.comp_def,
      Breadcrumb.encode_reread]
  simp only [encode, reread, Timestamp.encode_reread, hitems]

/-- The forms of a user that may be absent: an absent one is null. -/
def IsUserForm : Option User → Value → Prop
  | none, v => v = .null
  | some user, v => user.IsForm v

/-- The forms of breadcrumbs: an array with a form of each. -/
def AreForms (crumbs : List Breadcrumb) (v : Value) : Prop :=
  ∃ items, v = .array items ∧ List.Forall₂ Breadcrumb.IsForm crumbs items

/-- The forms of a report: each empty part is null, an empty object or an empty array, or left out. -/
def IsForm (r : Report) (v : Value) : Prop :=
  ∃ message user tags extra breadcrumbs,
    v = .object (Value.written (r.slots message user tags extra breadcrumbs)) ∧
    OptionalPart (r.message = none) (· = .ofOption .string r.message) message ∧
    OptionalPart (r.user = none) (IsUserForm r.user) user ∧
    OptionalPart (r.tags = .empty) (· = .ofMap .string r.tags) tags ∧
    OptionalPart (r.extra = .empty) (· = .ofMap .string r.extra) extra ∧
    OptionalPart (r.breadcrumbs = []) (AreForms r.breadcrumbs) breadcrumbs

theorem stands_user {user : Option User} {v : Value} (h : IsUserForm user v) (reading : Reading) :
    Stands (decodeOption (User.decode reading)) user v := by
  cases user with
  | none => cases h; exact ⟨rfl, rfl⟩
  | some user =>
    have hs := User.stands h reading
    obtain ⟨id, rfl, _⟩ := h
    refine ⟨hs.integral, ?_⟩
    change (User.decode reading _).map some = _
    rw [hs.read]
    rfl

theorem stands_crumbs {crumbs : List Breadcrumb} {v : Value} (h : AreForms crumbs v) (reading : Reading) :
    Stands (decodeList (Breadcrumb.decode reading)) (crumbs.map Breadcrumb.reread) v := by
  obtain ⟨items, rfl, hitems⟩ := h
  induction hitems with
  | nil => exact ⟨rfl, rfl⟩
  | cons hitem _ ih =>
    have hs := Breadcrumb.stands hitem reading
    refine ⟨?_, ?_⟩
    · have hrest := ih.integral
      simp only [Value.isIntegral, Value.isIntegralItems, Bool.and_eq_true] at hrest ⊢
      exact ⟨hs.integral, hrest⟩
    · have hrest := ih.read
      simp only [ofValue, ofItems, decodeList, decodeItems, hs.read, ok_bind] at hrest ⊢
      rw [hrest]
      rfl

theorem stands {r : Report} {v : Value} (h : r.IsForm v) (reading : Reading) :
    Stands (Report.decode reading) r.reread v := by
  obtain ⟨message, user, tags, extra, breadcrumbs, rfl, hmessage, huser, htags, hextra, hcrumbs⟩ := h
  have hmessage : Fills (decodeOption decodeString) none r.message message :=
    hmessage.fills (fun h => h) fun _ h => h ▸ stands_option r.message
  have huser : Fills (decodeOption (User.decode reading)) none r.user user :=
    huser.fills (fun h => h) fun _ h => stands_user h reading
  have htags : Fills (decodeMap decodeString) .empty r.tags tags :=
    htags.fills (fun h => h) fun _ h => h ▸ stands_map r.tags
  have hextra : Fills (decodeMap decodeString) .empty r.extra extra :=
    hextra.fills (fun h => h) fun _ h => h ▸ stands_map r.extra
  have hcrumbs : Fills (decodeList (Breadcrumb.decode reading)) [] (r.breadcrumbs.map Breadcrumb.reread)
      breadcrumbs := hcrumbs.fills List.map_eq_nil_iff.mpr fun _ h => stands_crumbs h reading
  have hid := Uuid.reads.stands (fun _ => rfl) r.eventId
  have htime := stands_time r.timestamp
  have hlevel := stands_level r.level reading
  have hnodup : ((r.slots message user tags extra breadcrumbs).map (·.1)).Nodup := by simp [slots]
  have hfits : ∀ s ∈ r.slots message user tags extra breadcrumbs, Fits (shape reading) s := by
    simp only [slots, List.forall_mem_cons]
    exact ⟨hid.fits rfl rfl, htime.fits rfl rfl, hlevel.fits rfl rfl, hmessage.fits rfl rfl,
      huser.fits rfl rfl, htags.fits rfl rfl, hextra.fits rfl rfl, hcrumbs.fits rfl rfl, nofun⟩
  refine ⟨isIntegral_written hfits, ?_⟩
  rw [decode, decodeFields_written hnodup hfits (by simp [shape, slots, Field.required, Field.defaulted]),
    ok_bind, get_written hnodup (by simp [slots]) hid, ok_bind, get_written hnodup (by simp [slots]) htime,
    ok_bind, get_written hnodup (by simp [slots]) hlevel, ok_bind,
    getD_written hnodup (by simp [slots]) hmessage, ok_bind, getD_written hnodup (by simp [slots]) huser,
    ok_bind, getD_written hnodup (by simp [slots]) htags, ok_bind,
    getD_written hnodup (by simp [slots]) hextra, ok_bind, getD_written hnodup (by simp [slots]) hcrumbs]
  rfl

/-- The parts of a report that may be left out, each as it is written when it is empty. -/
def emptyParts : List (String × Value) :=
  [("message", .null), ("user", .null), ("tags", .object []), ("extra", .object []), ("breadcrumbs", .array [])]

theorem omits_emptyParts (reading : Reading) :
    ∀ part ∈ emptyParts, Omits (Report.decode reading) part.1 part.2 := by
  have hrequired : ∀ name, name ∉ ["event_id", "timestamp", "level"] →
      ∀ f ∈ shape reading, f.presence = .required → f.name ≠ name := by
    intro name hname
    simp only [List.mem_cons, List.not_mem_nil, or_false, not_or] at hname
    simp [shape, Field.required, Field.defaulted, Ne.symm hname.1, Ne.symm hname.2.1, Ne.symm hname.2.2]
  simp only [emptyParts, List.forall_mem_cons]
  refine ⟨?message, ?user, ?tags, ?extra, ?breadcrumbs, List.forall_mem_nil _⟩
  case message =>
    refine omits_of (fun _ => rfl) rfl (hrequired _ (by decide)) rfl fun _ _ h => ?_
    rw [h.get (by decide), h.get (by decide), h.get (by decide),
      h.getD_self (decodeOption decodeString) none rfl, h.getD_of_ne (by decide),
      h.getD_of_ne (by decide), h.getD_of_ne (by decide), h.getD_of_ne (by decide)]
  case user =>
    refine omits_of (fun _ => rfl) rfl (hrequired _ (by decide)) rfl fun _ _ h => ?_
    rw [h.get (by decide), h.get (by decide), h.get (by decide), h.getD_of_ne (by decide),
      h.getD_self (decodeOption (User.decode reading)) none rfl,
      h.getD_of_ne (by decide), h.getD_of_ne (by decide), h.getD_of_ne (by decide)]
  case tags =>
    refine omits_of (fun _ => rfl) rfl (hrequired _ (by decide)) rfl fun _ _ h => ?_
    rw [h.get (by decide), h.get (by decide), h.get (by decide), h.getD_of_ne (by decide),
      h.getD_of_ne (by decide), h.getD_self (decodeMap decodeString) .empty rfl,
      h.getD_of_ne (by decide), h.getD_of_ne (by decide)]
  case extra =>
    refine omits_of (fun _ => rfl) rfl (hrequired _ (by decide)) rfl fun _ _ h => ?_
    rw [h.get (by decide), h.get (by decide), h.get (by decide), h.getD_of_ne (by decide),
      h.getD_of_ne (by decide), h.getD_of_ne (by decide),
      h.getD_self (decodeMap decodeString) .empty rfl, h.getD_of_ne (by decide)]
  case breadcrumbs =>
    refine omits_of (fun _ => rfl) rfl (hrequired _ (by decide)) rfl fun _ _ h => ?_
    rw [h.get (by decide), h.get (by decide), h.get (by decide), h.getD_of_ne (by decide),
      h.getD_of_ne (by decide), h.getD_of_ne (by decide), h.getD_of_ne (by decide),
      h.getD_self (decodeList (Breadcrumb.decode reading)) [] rfl]

theorem areForms_encode (crumbs : List Breadcrumb) :
    AreForms crumbs (.ofList Breadcrumb.encode crumbs) :=
  ⟨_, rfl, List.forall₂_map_right_iff.mpr (List.forall₂_same.mpr fun c _ => c.isForm_encode)⟩

theorem written_slots (r : Report) (message user tags extra breadcrumbs : Option Value) :
    Value.written (r.slots message user tags extra breadcrumbs) =
      [("event_id", r.eventId.encode), ("timestamp", r.timestamp.encode), ("level", r.level.encode)] ++
        Value.written [("message", message)] ++ Value.written [("user", user)] ++
        Value.written [("tags", tags)] ++ Value.written [("extra", extra)] ++
        Value.written [("breadcrumbs", breadcrumbs)] := by
  have hsplit : r.slots message user tags extra breadcrumbs =
      [("event_id", some r.eventId.encode), ("timestamp", some r.timestamp.encode),
        ("level", some r.level.encode)] ++ [("message", message)] ++ [("user", user)] ++ [("tags", tags)] ++
        [("extra", extra)] ++ [("breadcrumbs", breadcrumbs)] := rfl
  simp only [hsplit, written_append]
  rfl

theorem isForm_encode (r : Report) : r.IsForm r.encode := by
  refine ⟨r.message.map .string, r.user.map User.encode, _, _,
    if r.breadcrumbs.isEmpty then none else some (.ofList Breadcrumb.encode r.breadcrumbs), ?_, ?_, ?_,
    .map .string r.tags, .map .string r.extra, ?_⟩
  · rw [encode, memberOfOption_eq, memberOfOption_eq, memberOfMap_eq, memberOfMap_eq, memberOfList_eq,
      written_slots]
  · cases r.message with
    | none => exact .inl ⟨rfl, rfl⟩
    | some message => exact .inr ⟨_, rfl, rfl⟩
  · cases r.user with
    | none => exact .inl ⟨rfl, rfl⟩
    | some user => exact .inr ⟨_, rfl, user.isForm_encode⟩
  · split
    · rename_i h
      exact .inl ⟨List.isEmpty_iff.mp h, rfl⟩
    · exact .inr ⟨_, rfl, areForms_encode r.breadcrumbs⟩

end Report

/-! ## Settings -/

namespace Settings

theorem reads (environment : Option String) (reading : Reading) :
    Reads (Settings.decode environment reading) Settings.encode := fun s => by
  have hoption := reads_string.option (fun _ h => by cases h)
  have hfields := decodeFields_ofValue shape
    [("app_name", .string s.appName), ("master", .string s.master), ("version", .string s.version),
      ("spark_user", .string s.user), ("spark_home", .ofOption .string s.home),
      ("ui_web_url", .ofOption .string s.webUrl), ("conf", .ofMap .string s.conf)]
    (by
      simp only [List.forall_mem_cons]
      exact ⟨reads_string.takes rfl rfl _, reads_string.takes rfl rfl _, reads_string.takes rfl rfl _,
        reads_string.takes rfl rfl _, hoption.takes rfl rfl _, hoption.takes rfl rfl _,
        reads_string.map.takes rfl rfl _, List.forall_mem_nil _⟩)
    (by simp) (by simp [shape, Field.defaulted]) reading
  rw [decode, encode, hfields, ok_bind]
  dsimp only
  rw [reads_string.getD (a := s.appName) rfl, ok_bind, reads_string.getD (a := s.master) rfl, ok_bind,
    reads_string.getD (a := s.version) rfl, ok_bind, reads_string.getD (a := s.user) rfl, ok_bind,
    hoption.getD (a := s.home) rfl, ok_bind, hoption.getD (a := s.webUrl) rfl, ok_bind,
    reads_string.map.getD (a := s.conf) rfl]
  rfl

theorem isIntegral_encode (s : Settings) : s.encode.isIntegral = true := by
  refine Value.isIntegralMembers_iff.mpr ?_
  simp only [List.forall_mem_cons]
  exact ⟨rfl, rfl, rfl, rfl, Value.isIntegral_ofOption (fun _ => rfl) _,
    Value.isIntegral_ofOption (fun _ => rfl) _, Value.isIntegral_ofMap (fun _ => rfl) _, nofun⟩

end Settings

/-! ## Texts -/

/-- What becomes of a text when it is read and written again. -/
def rewritten {α : Type} (decode : Reading → Decoder α) (encode : α → Value) (text : String) :
    Except DecodeError String :=
  (decodeText decode text).map fun a => (encode a).text

/-- Where the text of a value is read as a value with that text, a text that was rewritten stays as it is. -/
theorem rewritten_rewritten {α : Type} {decode : Reading → Decoder α} {encode : α → Value} {reread : α → α}
    (h : ∀ a, decodeText decode (encode a).text = .ok (reread a)) (hsame : ∀ a, encode (reread a) = encode a)
    {text text' : String} (hr : rewritten decode encode text = .ok text') :
    rewritten decode encode text' = .ok text' := by
  rw [rewritten] at hr
  cases hd : decodeText decode text <;> rw [hd] at hr <;> cases hr
  rw [rewritten, h, ok_map, hsame]

theorem decodeText_of_stands {α : Type} {decode : Reading → Decoder α} {a : α} {v : Value}
    (h : Stands (decode .direct) a v) : decodeText decode v.text = .ok a := by
  rw [decodeText_text decode h.integral, h.read]

theorem Settings.decodeText_encode (environment : Option String) (s : Settings) :
    decodeText (Settings.decode environment) s.encode.text = .ok s :=
  decodeText_of_stands ((Settings.reads environment .direct).stands Settings.isIntegral_encode s)

/-- Reports and breadcrumbs are read back from each of their forms, exactly if none of their times is a leap
second in the midst of a minute, and settings from theirs, for which it does not matter what the environment
says. Every part that may be left out is read alike when it is left out and when it is there and empty. An
absent user and one without an id are told apart. What has been read and written again stays as it is. -/
theorem json_forms_round_trip :
    (∀ (r : Report) v, r.IsForm v → (decodeText Report.decode v.text = .ok r ↔ ∀ t ∈ r.times, t.IsRegular)) ∧
    (∀ r : Report, r.IsForm r.encode) ∧
    (∀ (c : Breadcrumb) v, c.IsForm v →
      (decodeText Breadcrumb.decode v.text = .ok c ↔ c.timestamp.IsRegular)) ∧
    (∀ c : Breadcrumb, c.IsForm c.encode) ∧
    (∀ environment (s : Settings), decodeText (Settings.decode environment) s.encode.text = .ok s) ∧
    (∀ reading, (∀ part ∈ Report.emptyParts, Omits (Report.decode reading) part.1 part.2) ∧
      Omits (User.decode reading) "id" .null ∧ Omits (Breadcrumb.decode reading) "data" (.object [])) ∧
    (∀ (r : Report) v v', { r with user := none }.IsForm v → { r with user := some ⟨none⟩ }.IsForm v' →
      v.text ≠ v'.text) ∧
    (∀ text text', rewritten Report.decode Report.encode text = .ok text' →
      rewritten Report.decode Report.encode text' = .ok text') ∧
    (∀ text text', rewritten Breadcrumb.decode Breadcrumb.encode text = .ok text' →
      rewritten Breadcrumb.decode Breadcrumb.encode text' = .ok text') ∧
    (∀ environment text text', rewritten (Settings.decode environment) Settings.encode text = .ok text' →
      rewritten (Settings.decode environment) Settings.encode text' = .ok text') := by
  have report : ∀ (r : Report) v, r.IsForm v → decodeText Report.decode v.text = .ok r.reread := fun r v h =>
    decodeText_of_stands (Report.stands h .direct)
  have crumb : ∀ (c : Breadcrumb) v, c.IsForm v → decodeText Breadcrumb.decode v.text = .ok c.reread :=
    fun c v h => decodeText_of_stands (Breadcrumb.stands h .direct)
  refine ⟨fun r v h => ?_, Report.isForm_encode, fun c v h => ?_, Breadcrumb.isForm_encode,
    Settings.decodeText_encode,
    fun reading => ⟨Report.omits_emptyParts reading, User.omits_id reading, Breadcrumb.omits_data reading⟩,
    fun r v v' hv hv' htext => ?_,
    fun _ _ => rewritten_rewritten (fun r => report r _ r.isForm_encode) Report.encode_reread,
    fun _ _ => rewritten_rewritten (fun c => crumb c _ c.isForm_encode) Breadcrumb.encode_reread,
    fun environment _ _ => rewritten_rewritten (Settings.decodeText_encode environment) fun _ => rfl⟩
  · rw [report r v h, Except.ok.injEq, Report.reread_eq_self]
  · rw [crumb c v h, Except.ok.injEq, Breadcrumb.reread_eq_self]
  -- A common text would be read as both reports.
  · have hsame := (report _ v hv).symm.trans (htext ▸ report _ v' hv')
    cases congrArg Report.user (Except.ok.inj hsame)

/-- A breadcrumb without data. -/
def Breadcrumb.plain : Breadcrumb := ⟨.epoch, .info, "ready", .empty⟩

/-- A report with a user who has no id, and two breadcrumbs. -/
def Report.sparse : Report :=
  { Report.new ⟨7⟩ .epoch .error with user := some ⟨none⟩, breadcrumbs := [.plain, .plain] }

/-- A form of it in which some empty parts are spelled out: its message, its tags, the id of the user and the
data of one breadcrumb. -/
def Report.sparseForm : Value :=
  .object [("event_id", .string "00000000-0000-0000-0000-000000000007"),
    ("timestamp", .string "1970-01-01T00:00:00Z"), ("level", .string "error"), ("message", .null),
    ("user", .object [("id", .null)]), ("tags", .object []),
    ("breadcrumbs", .array [
      .object [("timestamp", .string "1970-01-01T00:00:00Z"), ("level", .string "info"),
        ("message", .string "ready"), ("data", .object [])],
      .object [("timestamp", .string "1970-01-01T00:00:00Z"), ("level", .string "info"),
        ("message", .string "ready")]])]

theorem sparse_form_round_trip :
    Report.sparse.IsForm Report.sparseForm ∧ Report.sparseForm ≠ Report.sparse.encode ∧
      decodeText Report.decode Report.sparseForm.text = .ok .sparse ∧
      Report.sparseForm.text ≠ (Report.encode { Report.sparse with user := none }).text ∧
      rewritten Report.decode Report.encode Report.sparse.encode.text = .ok Report.sparse.encode.text := by
  have hcrumb : Breadcrumb.plain.IsForm (.object (Value.written (Breadcrumb.plain.slots none))) :=
    ⟨none, rfl, .inl ⟨rfl, rfl⟩⟩
  have hcrumb' : Breadcrumb.plain.IsForm (.object (Value.written (Breadcrumb.plain.slots (some (.object []))))) :=
    ⟨some (.object []), rfl, .inr ⟨_, rfl, rfl⟩⟩
  have huser : (⟨none⟩ : User).IsForm (.object [("id", .null)]) := ⟨some .null, rfl, .inr ⟨_, rfl, rfl⟩⟩
  have hform : Report.sparse.IsForm Report.sparseForm :=
    ⟨some .null, some _, some (.object []), none, some (.array _), by decide +kernel, .inr ⟨_, rfl, rfl⟩,
      .inr ⟨_, rfl, huser⟩, .inr ⟨_, rfl, rfl⟩, .inl ⟨rfl, rfl⟩,
      .inr ⟨_, rfl, _, rfl, .cons hcrumb' (.cons hcrumb .nil)⟩⟩
  obtain ⟨hread, hencode, _, _, _, _, huserless, hstays, _⟩ := json_forms_round_trip
  have hepoch : Timestamp.epoch.IsRegular := .inl (by decide)
  have hregular : ∀ t ∈ Report.sparse.times, t.IsRegular :=
    List.forall_mem_cons.mpr ⟨hepoch, List.forall_mem_cons.mpr ⟨hepoch, List.forall_mem_singleton.mpr hepoch⟩⟩
  have hsparse := (hread _ _ hform).mpr hregular
  have hrewritten : rewritten Report.decode Report.encode Report.sparseForm.text =
      .ok Report.sparse.encode.text := by
    rw [rewritten, hsparse]
    rfl
  exact ⟨hform, by decide +kernel, hsparse, (huserless .sparse _ _ (hencode _) hform).symm,
    hstays _ _ hrewritten⟩

/-- A breadcrumb that was left in a leap second in the midst of a minute. -/
def Breadcrumb.straying : Breadcrumb := ⟨.midMinute, .info, "ready", .empty⟩

/-- A report that was made in a leap second in the midst of a minute. -/
def Report.straying : Report := .new ⟨7⟩ .midMinute .error

/-- The texts of a report and of a breadcrumb may be those of others, and are read as these. -/
theorem straying_forms_are_read_as_others :
    (decodeText Report.decode Report.straying.encode.text = .ok Report.straying.reread ∧
      decodeText Report.decode Report.straying.encode.text ≠ .ok .straying) ∧
    (decodeText Breadcrumb.decode Breadcrumb.straying.encode.text = .ok Breadcrumb.straying.reread ∧
      decodeText Breadcrumb.decode Breadcrumb.straying.encode.text ≠ .ok .straying) := by
  have hirregular : ¬Timestamp.midMinute.IsRegular := by decide
  have hreport : decodeText Report.decode Report.straying.encode.text = .ok Report.straying.reread :=
    decodeText_of_stands (Report.stands (Report.isForm_encode _) .direct)
  have hcrumb : decodeText Breadcrumb.decode Breadcrumb.straying.encode.text = .ok Breadcrumb.straying.reread :=
    decodeText_of_stands (Breadcrumb.stands (Breadcrumb.isForm_encode _) .direct)
  refine ⟨⟨hreport, fun h => hirregular ?_⟩, hcrumb, fun h => hirregular ?_⟩
  · exact Report.reread_eq_self.mp (Except.ok.inj (hreport.symm.trans h)) _ List.mem_cons_self
  · exact Breadcrumb.reread_eq_self.mp (Except.ok.inj (hcrumb.symm.trans h))

end SessionTrail
