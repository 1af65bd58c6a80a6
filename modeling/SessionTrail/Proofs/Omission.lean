import SessionTrail.Proofs.Records

/-!
# Parts that are left out of a document

Where a field has a default, a member that says the default may be left out of an object, wherever it
stands and whatever else stands there: the record that is read is the same, and so is the fault that is
met first (`omits_of`).
-/
namespace SessionTrail.Json

open Doc

/-- A decoder reads an object with a member of the given name and form as it reads the object without it. -/
def Omits {α : Type} (decode : Decoder α) (name : String) (form : Value) : Prop :=
  ∀ before behind stop, (∀ m ∈ before ++ behind, m.1 ≠ some name) →
    decode (.object (before ++ (some name, ofValue form) :: behind) stop) =
      decode (.object (before ++ behind) stop)

/-- Fields to which one with a new name has been added somewhere. -/
structure Fields.Adds (name : String) (d : Doc) (fields more : Fields) : Prop where
  without : fields.find? name = none
  added : more.find? name = some d
  others : ∀ other, other ≠ name → more.find? other = fields.find? other

theorem Fields.find?_append (fields more : Fields) (name : String) :
    (fields ++ more).find? name = (fields.find? name).or (more.find? name) := by
  simp [Fields.find?, List.find?_append, Option.map_or]

namespace Fields.Adds

variable {name : String} {d : Doc} {fields more : Fields}

/-- A field that is found in both is found behind both. -/
theorem append (h : Fields.Adds name d fields more) {key : String} (hkey : key ≠ name) (member : Doc) :
    Fields.Adds name d (fields ++ [(key, member)]) (more ++ [(key, member)]) := by
  refine ⟨?_, ?_, fun other hne => ?_⟩
  · rw [find?_append, h.without]
    simp [find?, hkey]
  · rw [find?_append, h.added]
    rfl
  · rw [find?_append, find?_append, h.others other hne]

theorem push (h : fields.find? name = none) (d : Doc) : Fields.Adds name d fields (fields ++ [(name, d)]) := by
  refine ⟨h, ?_, fun other hne => ?_⟩
  · rw [find?_append, h]
    simp [find?]
  · rw [find?_append]
    simp [find?, hne.symm]

theorem get {α : Type} (h : Fields.Adds name d fields more) {other : String} (hne : other ≠ name)
    (decode : Decoder α) : more.get other decode = fields.get other decode := by
  rw [Fields.get, Fields.get, h.others other hne]

theorem getD_of_ne {α : Type} (h : Fields.Adds name d fields more) {other : String} (hne : other ≠ name)
    (decode : Decoder α) (default : α) : more.getD other decode default = fields.getD other decode default := by
  rw [Fields.getD, Fields.getD, h.others other hne]

theorem getD_self {α : Type} (h : Fields.Adds name d fields more) (decode : Decoder α) (default : α)
    (hd : decode d = .ok default) : more.getD name decode default = fields.getD name decode default := by
  rw [Fields.getD, Fields.getD, h.without, h.added]
  exact hd

end Fields.Adds

/-- Two readings of fields end in one fault, or both give fields, of which the second have one more. -/
inductive Gains (name : String) (d : Doc) : Except DecodeError Fields → Except DecodeError Fields → Prop where
  | fault (e : DecodeError) : Gains name d (.error e) (.error e)
  | fields {fields more : Fields} (h : fields.Adds name d more) : Gains name d (.ok fields) (.ok more)

section

variable {shape : List Field} {stop : Option Break} {name : String} {d : Doc}

theorem firstMissing_of_adds (hrequired : ∀ f ∈ shape, f.presence = .required → f.name ≠ name)
    {found more : Fields} (h : found.Adds name d more) : firstMissing shape more = firstMissing shape found := by
  rw [firstMissing, firstMissing]
  rw [← List.head?_filter, ← List.head?_filter, List.filter_congr fun f hf => ?_]
  by_cases hp : f.presence = .required
  · simp only [hp, h.others f.name (hrequired f hf hp)]
  · simp only [hp, false_and]

/-- Members behind the one that has been added are read alike. -/
theorem gains_of_adds (hrequired : ∀ f ∈ shape, f.presence = .required → f.name ≠ name)
    {found more : Fields} (h : found.Adds name d more) {members : List (Option String × Doc)}
    (hfresh : ∀ m ∈ members, m.1 ≠ some name) :
    Gains name d (fieldsOfMembers shape stop found members) (fieldsOfMembers shape stop more members) := by
  induction members generalizing found more with
  | nil =>
    rw [fieldsOfMembers.eq_def, fieldsOfMembers.eq_def shape stop more]
    simp only [firstMissing_of_adds hrequired h]
    split
    · exact .fault _
    · split
      · exact .fault _
      · exact .fields h
  | cons m rest ih =>
    obtain ⟨_ | key, member⟩ := m
    · exact .fault _
    · have hkey : key ≠ name := fun heq => hfresh _ List.mem_cons_self (congrArg some heq)
      have hrest : ∀ m ∈ rest, m.1 ≠ some name := fun m hm => hfresh m (List.mem_cons_of_mem _ hm)
      rw [fieldsOfMembers, fieldsOfMembers]
      split
      · rw [h.others key hkey]
        split
        · exact .fault _
        · rename_i f _ _
          cases f.accepts member with
          | error e => exact .fault e
          | ok _ => exact ih (h.append hkey member) hrest
      · split
        · exact .fault _
        · exact ih h hrest

/-- A member that a field accepts may be put in anywhere, if the field is not there yet. -/
theorem gains_insert {f : Field} (hf : shape.find? (·.name = name) = some f)
    (hrequired : ∀ f ∈ shape, f.presence = .required → f.name ≠ name) (haccepts : f.accepts d = .ok ())
    {found : Fields} (hfound : found.find? name = none) {before behind : List (Option String × Doc)}
    (hfresh : ∀ m ∈ before ++ behind, m.1 ≠ some name) :
    Gains name d (fieldsOfMembers shape stop found (before ++ behind))
      (fieldsOfMembers shape stop found (before ++ (some name, d) :: behind)) := by
  induction before generalizing found with
  | nil =>
    rw [List.nil_append, List.nil_append, fieldsOfMembers.eq_def shape stop found (_ :: _)]
    simp only [hf, hfound, Option.isSome_none, Bool.false_eq_true, if_false, haccepts, ok_bind]
    -- From here on the second reading has one field more.
    exact gains_of_adds hrequired (.push hfound d) hfresh
  | cons m rest ih =>
    obtain ⟨_ | key, member⟩ := m
    · exact .fault _
    · have hkey : key ≠ name := fun heq => hfresh _ List.mem_cons_self (congrArg some heq)
      have hrest : ∀ m ∈ rest ++ behind, m.1 ≠ some name := fun m hm => hfresh m (List.mem_cons_of_mem _ hm)
      rw [List.cons_append, List.cons_append, fieldsOfMembers, fieldsOfMembers]
      split
      · split
        · exact .fault _
        · rename_i g _ _
          cases g.accepts member with
          | error e => exact .fault e
          | ok _ =>
            refine ih ?_ hrest
            rw [Fields.find?_append, hfound]
            simp [Fields.find?, hkey]
      · split
        · exact .fault _
        · exact ih hfound hrest

end

/-- A record omits a part if what it makes of its fields is the same with that part and without it. -/
theorem omits_of {α : Type} {decode : Decoder α} {reading : Reading} {shape : List Field}
    {next : Fields → Except DecodeError α} (hdecode : ∀ d, decode d = decodeFields reading shape d >>= next)
    {name : String} {form : Value} {f : Field} (hf : shape.find? (·.name = name) = some f)
    (hrequired : ∀ f ∈ shape, f.presence = .required → f.name ≠ name)
    (haccepts : f.accepts (ofValue form) = .ok ())
    (hnext : ∀ fields more : Fields, fields.Adds name (ofValue form) more → next more = next fields) :
    Omits decode name form := by
  intro before behind stop hfresh
  have hgains : Gains name (ofValue form) (fieldsOfMembers shape stop [] (before ++ behind))
      (fieldsOfMembers shape stop [] (before ++ (some name, ofValue form) :: behind)) :=
    gains_insert hf hrequired haccepts rfl hfresh
  rw [hdecode, hdecode, decodeFields, decodeFields]
  generalize fieldsOfMembers shape stop [] (before ++ behind) = x at hgains ⊢
  generalize fieldsOfMembers shape stop [] (before ++ (some name, ofValue form) :: behind) = y at hgains ⊢
  cases hgains with
  | fault e => rfl
  | fields h => exact hnext _ _ h

end SessionTrail.Json
