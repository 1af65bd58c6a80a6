import SessionTrail.Json.Decode
import SessionTrail.Json.Encode

/-!
# Decoding what was encoded

A decoder reads an encoder if it answers every value that the encoder has written (`Reads`). Plain values,
options, lists and maps are read like that, and so is a record whose members are fields with documents
that these accept, each at most once and every required one among them (`decodeFields_ofValue`).
-/
namespace SessionTrail.Json

open Doc

/-- A decoder answers every value that an encoder has written. -/
def Reads {α : Type} (decode : Decoder α) (encode : α → Value) : Prop :=
  ∀ a, decode (ofValue (encode a)) = .ok a

theorem ok_bind {ε α β : Type} (a : α) (f : α → Except ε β) : (Except.ok a >>= f) = f a := rfl

theorem ok_map {ε α β : Type} (a : α) (f : α → β) : (Except.ok a : Except ε α).map f = .ok (f a) := rfl

theorem bind_eq_ok {ε α β : Type} {x : Except ε α} {f : α → Except ε β} {b : β} :
    (x >>= f) = .ok b ↔ ∃ a, x = .ok a ∧ f a = .ok b := by
  cases x with
  | error e => exact ⟨nofun, nofun⟩
  | ok a => exact ⟨fun h => ⟨a, rfl, h⟩, fun ⟨_, rfl, h⟩ => h⟩

/-! ## Plain values -/

theorem reads_string : Reads decodeString .string := fun _ => rfl

theorem decodeBelow_ofNat {bound n : Nat} (h : n < 0x10000000000000000) (hn : n < bound) :
    decodeBelow bound (.number (some (.ofNat n h))) = .ok n := by
  simp only [decodeBelow, Number.ofNat]
  rw [if_pos ⟨by omega, by omega⟩, Int.toNat_natCast]

theorem reads_UInt16 : Reads decodeUInt16 .ofUInt16 := fun n => by
  rw [decodeUInt16, Value.ofUInt16, ofValue, decodeBelow_ofNat _ n.toNat_lt, Except.map, UInt16.ofNat_toNat]

theorem reads_UInt32 : Reads decodeUInt32 .ofUInt32 := fun n => by
  rw [decodeUInt32, Value.ofUInt32, ofValue, decodeBelow_ofNat _ n.toNat_lt, Except.map, UInt32.ofNat_toNat]

theorem reads_UInt64 : Reads decodeUInt64 .ofUInt64 := fun n => by
  rw [decodeUInt64, Value.ofUInt64, ofValue, decodeBelow_ofNat _ n.toNat_lt, Except.map, UInt64.ofNat_toNat]

namespace Reads

variable {α : Type} {decode : Decoder α} {encode : α → Value}

/-- A value that is not written as null may be left open. -/
theorem option (h : Reads decode encode) (hnull : ∀ a, encode a ≠ .null) :
    Reads (decodeOption decode) (.ofOption encode) := fun o => by
  cases o with
  | none => rfl
  | some a =>
    have hd : ofValue (encode a) ≠ .null := fun hd => hnull a (by
      rw [← toValue_ofValue (encode a), hd, toValue])
    rw [Value.ofOption, decodeOption.eq_def]
    split
    case h_1 heq => exact absurd heq hd
    case h_2 => rw [h a]; rfl

theorem items (h : Reads decode encode) (as : List α) :
    decodeItems decode none (ofItems (as.map encode)) = .ok as := by
  induction as with
  | nil => rfl
  | cons a rest ih =>
    rw [List.map_cons, ofItems, decodeItems, h a, ih]
    rfl

theorem list (h : Reads decode encode) : Reads (decodeList decode) (.ofList encode) := h.items

/-- Members in key order are put behind the entries that stand before them. -/
theorem entries (h : Reads decode encode) (m : SortedMap α) (es : List (String × α))
    (hasc : Ascending (m.entries ++ es)) :
    decodeEntries decode none m (ofMembers (es.map fun e => (e.1, encode e.2))) =
      .ok ⟨m.entries ++ es, hasc⟩ := by
  induction es generalizing m with
  | nil => exact congrArg Except.ok (SortedMap.ext (List.append_nil _).symm)
  | cons e rest ih =>
    obtain ⟨key, a⟩ := e
    have hput : (m.insert key a).entries = m.entries ++ [(key, a)] :=
      insertEntry_of_all_lt fun e he => (List.pairwise_append.mp hasc).2.2 e he _ List.mem_cons_self
    have hentries : (m.insert key a).entries ++ rest = m.entries ++ (key, a) :: rest := by
      rw [hput, List.append_assoc, List.singleton_append]
    rw [List.map_cons, ofMembers, decodeEntries, h a]
    exact (ih (m.insert key a) (hentries ▸ hasc)).trans (congrArg Except.ok (SortedMap.ext hentries))

theorem map (h : Reads decode encode) : Reads (decodeMap decode) (.ofMap encode) := fun m =>
  h.entries .empty m.entries m.ascending

end Reads

/-! ## Records -/

/-- The fields that written members give. -/
def Fields.ofMembers (members : List (String × Value)) : Fields := members.map fun m => (m.1, ofValue m.2)

@[simp] theorem Fields.names_ofMembers (members : List (String × Value)) :
    (Fields.ofMembers members).map (·.1) = members.map (·.1) := List.map_map

theorem ofMembers_eq (members : List (String × Value)) :
    Doc.ofMembers members = (Fields.ofMembers members).map fun m => (some m.1, m.2) := by
  induction members with
  | nil => rfl
  | cons m rest ih =>
    obtain ⟨key, v⟩ := m
    rw [Doc.ofMembers, ih]
    rfl

theorem ofMembers_append (members more : List (String × Value)) :
    Doc.ofMembers (members ++ more) = Doc.ofMembers members ++ Doc.ofMembers more := by
  simp only [ofMembers_eq, Fields.ofMembers, List.map_append]

/-- A member is a field of a record, with a document that the field accepts. -/
def Field.Takes (shape : List Field) (m : String × Doc) : Prop :=
  ∃ f, shape.find? (·.name = m.1) = some f ∧ f.accepts m.2 = .ok ()

theorem Field.takes_of_ok {α : Type} {decode : Decoder α} {d : Doc} {a : α} (h : decode d = .ok a)
    {shape : List Field} {name : String} {f : Field} (hf : shape.find? (·.name = name) = some f)
    (haccepts : f.accepts = Field.test decode) : Field.Takes shape (name, d) :=
  ⟨f, hf, by rw [haccepts, Field.test, h]; rfl⟩

theorem Reads.takes {α : Type} {decode : Decoder α} {encode : α → Value} (h : Reads decode encode)
    {shape : List Field} {name : String} {f : Field} (hf : shape.find? (·.name = name) = some f)
    (haccepts : f.accepts = Field.test decode) (a : α) : Field.Takes shape (name, ofValue (encode a)) :=
  Field.takes_of_ok (h a) hf haccepts

theorem Reads.get {α : Type} {decode : Decoder α} {encode : α → Value} (h : Reads decode encode) {a : α}
    {fields : Fields} {name : String} (hf : fields.find? name = some (ofValue (encode a))) :
    fields.get name decode = .ok a := by
  rw [Fields.get, hf]
  exact h a

theorem Reads.getD {α : Type} {decode : Decoder α} {encode : α → Value} (h : Reads decode encode) {a : α}
    {fields : Fields} {name : String} (hf : fields.find? name = some (ofValue (encode a))) (default : α) :
    fields.getD name decode default = .ok a := by
  rw [Fields.getD, hf]
  exact h a

theorem Fields.find?_eq_none {fields : Fields} {name : String} :
    fields.find? name = none ↔ name ∉ fields.map (·.1) := by
  simp only [Fields.find?, Option.map_eq_none_iff, List.find?_eq_none, decide_eq_true_eq, List.mem_map,
    not_exists, not_and]

/-- A member is no field of a record and is passed over. -/
def Field.Leaves (shape : List Field) (m : String × Doc) : Prop :=
  shape.find? (·.name = m.1) = none ∧ m.2.skip = .ok ()

/-- The members that are fields. -/
def Fields.known (shape : List Field) (members : Fields) : Fields :=
  members.filter fun m => (shape.find? (·.name = m.1)).isSome

theorem Fields.known_of_takes {shape : List Field} {members : Fields}
    (h : ∀ m ∈ members, Field.Takes shape m) : members.known shape = members :=
  List.filter_eq_self.mpr fun m hm => by
    obtain ⟨f, hf, -⟩ := h m hm
    rw [hf, Option.isSome_some]

theorem Fields.known_of_leaves {shape : List Field} {members : Fields}
    (h : ∀ m ∈ members, Field.Leaves shape m) : members.known shape = [] :=
  List.filter_eq_nil_iff.mpr fun m hm => by
    rw [(h m hm).1]
    exact Bool.false_ne_true

/-- Members that are fields, each at most once, are all found, whatever members there are between them. -/
theorem fieldsOfMembers_eq {shape : List Field} {found members : Fields}
    (hmembers : ∀ m ∈ members, Field.Takes shape m ∨ Field.Leaves shape m)
    (hnodup : ((found ++ members.known shape).map (·.1)).Nodup)
    (hmissing : firstMissing shape (found ++ members.known shape) = none) :
    fieldsOfMembers shape none found (members.map fun m => (some m.1, m.2)) =
      .ok (found ++ members.known shape) := by
  induction members generalizing found with
  | nil =>
    rw [Fields.known, List.filter_nil, List.append_nil] at hmissing ⊢
    simp only [List.map_nil, fieldsOfMembers, hmissing]
  | cons m rest ih =>
    have hrest : ∀ m ∈ rest, Field.Takes shape m ∨ Field.Leaves shape m := fun m hm =>
      hmembers m (List.mem_cons_of_mem _ hm)
    rcases hmembers m List.mem_cons_self with ⟨f, hf, hok⟩ | ⟨hf, hskip⟩
    · have hknown : Fields.known shape (m :: rest) = m :: Fields.known shape rest := by
        simp [Fields.known, hf]
      have happend : found ++ m :: Fields.known shape rest =
          (found ++ [(m.1, m.2)]) ++ Fields.known shape rest := by simp
      rw [hknown] at hnodup hmissing ⊢
      have hfresh : found.find? m.1 = none := by
        rw [Fields.find?_eq_none]
        rw [List.map_append, List.nodup_append] at hnodup
        exact fun hm => hnodup.2.2 _ hm _ List.mem_cons_self rfl
      rw [List.map_cons, fieldsOfMembers, hf]
      simp only [hfresh, Option.isSome_none, Bool.false_eq_true, if_false, hok]
      rw [happend] at hnodup hmissing ⊢
      exact ih hrest hnodup hmissing
    · have hknown : Fields.known shape (m :: rest) = Fields.known shape rest := by
        simp [Fields.known, hf]
      rw [hknown] at hnodup hmissing ⊢
      rw [List.map_cons, fieldsOfMembers, hf]
      simp only [hskip]
      exact ih hrest hnodup hmissing

theorem firstMissing_eq_none {shape : List Field} {fields : Fields} :
    firstMissing shape fields = none ↔
      ∀ f ∈ shape, f.presence = .required → f.name ∈ fields.map (·.1) := by
  simp only [firstMissing, Option.map_eq_none_iff, List.find?_eq_none, decide_eq_true_eq, not_and,
    Option.isNone_iff_eq_none, Fields.find?_eq_none, Decidable.not_not]

/-- The members of a written record are found again: each is a field with a document that this accepts,
none is there twice, and no required field is missing. -/
theorem decodeFields_ofValue (shape : List Field) (members : List (String × Value))
    (htakes : ∀ m ∈ members, Field.Takes shape (m.1, ofValue m.2)) (hnodup : (members.map (·.1)).Nodup)
    (hrequired : ∀ f ∈ shape, f.presence = .required → f.name ∈ members.map (·.1)) (reading : Reading) :
    decodeFields reading shape (ofValue (.object members)) = .ok (Fields.ofMembers members) := by
  have hnames := Fields.names_ofMembers members
  have hfields : ∀ m ∈ Fields.ofMembers members, Field.Takes shape m := List.forall_mem_map.mpr htakes
  have hknown := Fields.known_of_takes hfields
  have hmissing : firstMissing shape ([] ++ (Fields.ofMembers members).known shape) = none := by
    rwa [hknown, List.nil_append, firstMissing_eq_none, hnames]
  rw [ofValue, decodeFields, ofMembers_eq,
    fieldsOfMembers_eq (fun m hm => .inl (hfields m hm)) (hknown.symm ▸ hnames ▸ hnodup) hmissing, hknown,
    List.nil_append]

/-! ## Parts of a record -/

/-- The documents right inside an array or an object. -/
def Doc.parts : Doc → List Doc
  | .array items _ => items
  | .object members _ => members.map (·.2)
  | _ => []

theorem docs_of_fieldsOfMembers {shape : List Field} {stop : Option Break} {found fields : Fields}
    {members : List (Option String × Doc)} (h : fieldsOfMembers shape stop found members = .ok fields) :
    ∀ f ∈ fields, f ∈ found ∨ f.2 ∈ members.map (·.2) := by
  induction members generalizing found with
  | nil =>
    rw [fieldsOfMembers.eq_def] at h
    simp only at h
    split at h
    · cases h
    · split at h
      · cases h
      · cases h
        exact fun f hf => .inl hf
  | cons m rest ih =>
    obtain ⟨_ | key, member⟩ := m
    · cases h
    · rw [fieldsOfMembers] at h
      split at h
      · split at h
        · cases h
        · obtain ⟨_, _, h⟩ := bind_eq_ok.mp h
          intro f hf
          rcases ih h f hf with hf | hf
          · rcases List.mem_append.mp hf with hf | hf
            · exact .inl hf
            · rw [List.mem_singleton.mp hf]
              exact .inr List.mem_cons_self
          · exact .inr (List.mem_cons_of_mem _ hf)
      · split at h
        · cases h
        · exact fun f hf => (ih h f hf).imp_right (List.mem_cons_of_mem _)

theorem docs_of_fieldsOfItems {reading : Reading} {stop : Option Break} {shape : List Field}
    {found fields : Fields} {items : List Doc}
    (h : fieldsOfItems reading stop found shape items = .ok fields) :
    ∀ f ∈ fields, f ∈ found ∨ f.2 ∈ items := by
  induction shape generalizing found items with
  | nil =>
    cases items with
    | nil =>
      rw [fieldsOfItems.eq_def] at h
      simp only at h
      split at h
      · cases h
      · cases h
        exact fun f hf => .inl hf
    | cons item rest => cases reading <;> cases h
  | cons f shape ih =>
    cases items with
    | nil =>
      rw [fieldsOfItems.eq_def] at h
      simp only at h
      split at h
      · cases h
      · split at h
        · exact ih h
        · cases h
    | cons item rest =>
      obtain ⟨_, _, h⟩ := bind_eq_ok.mp h
      intro f hf
      rcases ih h f hf with hf | hf
      · rcases List.mem_append.mp hf with hf | hf
        · exact .inl hf
        · rw [List.mem_singleton.mp hf]
          exact .inr List.mem_cons_self
      · exact .inr (List.mem_cons_of_mem _ hf)

/-- The fields of a record are parts of its document. -/
theorem docs_of_decodeFields {reading : Reading} {shape : List Field} {d : Doc} {fields : Fields}
    (h : decodeFields reading shape d = .ok fields) : ∀ f ∈ fields, f.2 ∈ d.parts := by
  rw [decodeFields.eq_def] at h
  split at h
  · exact fun f hf => (docs_of_fieldsOfMembers h f hf).resolve_left List.not_mem_nil
  · exact fun f hf => (docs_of_fieldsOfItems h f hf).resolve_left List.not_mem_nil
  · cases h

end SessionTrail.Json
