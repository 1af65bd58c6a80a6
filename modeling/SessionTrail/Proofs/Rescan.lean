import SessionTrail.Json.Print
import SessionTrail.Proofs.Rendering

/-!
# Reading what was written

The compact text of a value is the text of a rendering of its document (`exists_rendering`), so a decoder
takes it, and it takes every other text that spells the value (`decodeText_of_spells`). This holds as far as
the numbers in the value are read back from their own texts. Every integer is; the reader rounds decimals in
steps, and some real numbers come back as a neighbour.
-/
namespace SessionTrail.Json

open Doc

/-! ## Strings -/

theorem hexNumber?_control :
    ∀ n : Fin 32, hexNumber? ['0', '0', hexDigit (n.val / 16), hexDigit (n.val % 16)] = some n.val := by
  decide

/-- The piece of a character: itself, or its UTF-16 unit if it is a control character. -/
def Piece.IsOf (piece : Piece) (c : Char) : Prop :=
  piece = .char c ∨ (piece = .unit c.toNat ∧ c.toNat < 0x20)

theorem joinPieces_cons {piece : Piece} {c : Char} (h : piece.IsOf c) (pieces : List Piece) :
    joinPieces (piece :: pieces) = (joinPieces pieces).map (c :: ·) := by
  rcases h with rfl | ⟨rfl, hlt⟩
  · rfl
  · have hlead : isLead c.toNat = false := by simp [isLead]; omega
    have htrail : isTrail c.toNat = false := by simp [isTrail]; omega
    rcases pieces with _ | ⟨_ | m, rest⟩ <;> simp [joinPieces, hlead, htrail]

/-- The stroke by which a character is written. -/
def Stroke.of (c : Char) : Stroke :=
  if hquote : c = '"' then .letter '"' '"' rfl
  else if hback : c = '\\' then .letter '\\' '\\' rfl
  else if c = '\x08' then .letter 'b' '\x08' rfl
  else if c = '\x0c' then .letter 'f' '\x0c' rfl
  else if c = '\n' then .letter 'n' '\n' rfl
  else if c = '\r' then .letter 'r' '\r' rfl
  else if c = '\t' then .letter 't' '\t' rfl
  else if hlt : c.toNat < 0x20 then
    .unit '0' '0' (hexDigit (c.toNat / 16)) (hexDigit (c.toNat % 16)) c.toNat
      (hexNumber?_control ⟨c.toNat, hlt⟩)
  else .plain c ⟨hquote, hback, Nat.not_lt.mp hlt⟩

theorem chars_of (c : Char) : (Stroke.of c).chars = escape c := by
  unfold Stroke.of escape
  repeat' split
  all_goals rfl

theorem isOf_piece_of (c : Char) : (Stroke.of c).piece.IsOf c := by
  unfold Stroke.of
  repeat' split
  all_goals first
    | exact .inr ⟨rfl, ‹c.toNat < 0x20›⟩
    | exact .inl (by subst_vars; rfl)

/-- The strokes by which a string is written. -/
def strokesOf (s : String) : List Stroke := s.toList.map Stroke.of

theorem quotedStrokes_strokesOf (s : String) : quotedStrokes (strokesOf s) = quoted s := by
  rw [quotedStrokes, strokesOf, List.flatMap_map, quoted]
  simp only [chars_of]

theorem stringOf_strokesOf (s : String) : stringOf (strokesOf s) = some s := by
  have hpieces : ∀ cs : List Char, joinPieces ((cs.map Stroke.of).map Stroke.piece) = some cs := by
    intro cs
    induction cs with
    | nil => rfl
    | cons c cs ih =>
      rw [List.map_cons, List.map_cons, joinPieces_cons (isOf_piece_of c), ih, Option.map_some]
  rw [stringOf, strokesOf, hpieces, Option.map_some, String.ofList_toList]

/-! ## Numbers -/

/-- A number is read back from its own text. -/
def Number.IsReadBack (n : Number) : Prop := ∃ m : Numeral, m.chars = n.chars ∧ m.value = some n

theorem toDigits_leading_zero {n : Nat} (h : (Nat.toDigits 10 n).head? = some '0') :
    Nat.toDigits 10 n = ['0'] := by
  rcases Nat.eq_zero_or_pos n with rfl | hn
  · rfl
  · exact absurd h (head?_toDigits hn)

/-- A whole number in decimal digits. -/
def Numeral.ofNat (negative : Bool) (n : Nat) : Numeral where
  negative := negative
  whole := Nat.toDigits 10 n
  whole_ne_nil := Nat.toDigits_ne_nil
  isDigit_whole _ h := isDigit_of_mem_toDigits h
  leading_zero := toDigits_leading_zero
  isDigit_fraction := List.forall_mem_nil _

theorem integer_isReadBack (n : Integer) : (Number.integer n).IsReadBack := by
  obtain ⟨n, least, most⟩ := n
  simp only [Number.IsReadBack, Number.chars]
  split
  case isTrue hneg =>
    have hn : -(((-n).toNat : Nat) : Int) = n := by omega
    refine ⟨.ofNat true (-n).toNat, List.append_nil _, ?_⟩
    refine (integerNumber_neg_toDigits (by omega) (by omega)).trans ?_
    simp only [hn]
  case isFalse hpos =>
    have hn : ((n.toNat : Nat) : Int) = n := by omega
    refine ⟨.ofNat false n.toNat, List.append_nil _, ?_⟩
    refine (integerNumber_toDigits (by omega)).trans ?_
    simp only [Number.ofNat, hn]

/-! ## Values -/

namespace Value

mutual

/-- The numbers in a value. -/
def numbers : Value → List Number
  | .number n => [n]
  | .array items => numbersItems items
  | .object members => numbersMembers members
  | .null | .bool _ | .string _ => []

def numbersItems : List Value → List Number
  | [] => []
  | item :: rest => item.numbers ++ numbersItems rest

def numbersMembers : List (String × Value) → List Number
  | [] => []
  | (_, member) :: rest => member.numbers ++ numbersMembers rest

end

mutual

theorem integer_of_isIntegral : (v : Value) → v.isIntegral = true → ∀ n ∈ v.numbers, ∃ i, n = .integer i
  | .null, _ | .bool _, _ | .string _, _ => List.forall_mem_nil _
  | .number (.integer i), _ => List.forall_mem_singleton.mpr ⟨i, rfl⟩
  | .array items, h => integer_of_isIntegralItems items h
  | .object members, h => integer_of_isIntegralMembers members h

theorem integer_of_isIntegralItems : (items : List Value) → isIntegralItems items = true →
    ∀ n ∈ numbersItems items, ∃ i, n = .integer i
  | [], _ => List.forall_mem_nil _
  | item :: rest, h => by
    simp only [isIntegralItems, Bool.and_eq_true] at h
    simp only [numbersItems, List.forall_mem_append]
    exact ⟨integer_of_isIntegral item h.1, integer_of_isIntegralItems rest h.2⟩

theorem integer_of_isIntegralMembers : (members : List (String × Value)) →
    isIntegralMembers members = true → ∀ n ∈ numbersMembers members, ∃ i, n = .integer i
  | [], _ => List.forall_mem_nil _
  | (_, member) :: rest, h => by
    simp only [isIntegralMembers, Bool.and_eq_true] at h
    simp only [numbersMembers, List.forall_mem_append]
    exact ⟨integer_of_isIntegral member h.1, integer_of_isIntegralMembers rest h.2⟩

end

/-- The numbers in a value are read back from their own texts. -/
def IsReadBack (v : Value) : Prop := ∀ n ∈ v.numbers, n.IsReadBack

/-- A value without real numbers is read back. -/
theorem isReadBack_of_isIntegral {v : Value} (h : v.isIntegral = true) : v.IsReadBack := by
  intro n hn
  obtain ⟨i, rfl⟩ := integer_of_isIntegral v h n hn
  exact integer_isReadBack i

end Value

open Value in
mutual

/-- The compact text of a value is the text of a rendering. -/
theorem exists_rendering : (v : Value) → v.IsReadBack →
    ∃ r : Rendering, r.chars = v.chars ∧ r.doc = ofValue v
  | .null, _ => ⟨.null, rfl, rfl⟩
  | .bool true, _ => ⟨.bool true, rfl, rfl⟩
  | .bool false, _ => ⟨.bool false, rfl, rfl⟩
  | .number n, h => by
    obtain ⟨m, hchars, hvalue⟩ := h n List.mem_cons_self
    exact ⟨.number m, hchars, congrArg Doc.number hvalue⟩
  | .string s, _ =>
    ⟨.string (strokesOf s), quotedStrokes_strokesOf s, congrArg Doc.string (stringOf_strokesOf s)⟩
  | .array [], _ => ⟨.array [] [], rfl, rfl⟩
  | .array (item :: items), h => by
    obtain ⟨hitem, hitems⟩ := List.forall_mem_append.mp h
    obtain ⟨r, hchars, hdoc⟩ := exists_rendering item hitem
    obtain ⟨rs, hchars', hdoc'⟩ := exists_rendering_items items hitems
    refine ⟨.array [] (⟨[], r, []⟩ :: rs), ?_, ?_⟩
    · simp [Rendering.chars, Rendering.charsItems, chars, hchars, hchars']
    · rw [Rendering.doc, Rendering.docItems, hdoc, hdoc', ofValue, ofItems]
  | .object [], _ => ⟨.object [] [], rfl, rfl⟩
  | .object ((key, member) :: members), h => by
    obtain ⟨hmember, hmembers⟩ := List.forall_mem_append.mp h
    obtain ⟨r, hchars, hdoc⟩ := exists_rendering member hmember
    obtain ⟨rs, hchars', hdoc'⟩ := exists_rendering_members members hmembers
    refine ⟨.object [] ((⟨[], strokesOf key, []⟩, ⟨[], r, []⟩) :: rs), ?_, ?_⟩
    · simp [Rendering.chars, Rendering.charsMembers, chars, quotedStrokes_strokesOf, hchars, hchars']
    · rw [Rendering.doc, Rendering.docMembers, stringOf_strokesOf, hdoc, hdoc', ofValue, ofMembers]

/-- The text of the items behind the first. -/
theorem exists_rendering_items : (items : List Value) → (∀ n ∈ numbersItems items, n.IsReadBack) →
    ∃ rs : List (Padded Rendering), Rendering.charsItems false rs = charsItems items ∧
      Rendering.docItems rs = ofItems items
  | [], _ => ⟨[], rfl, rfl⟩
  | item :: items, h => by
    obtain ⟨hitem, hitems⟩ := List.forall_mem_append.mp h
    obtain ⟨r, hchars, hdoc⟩ := exists_rendering item hitem
    obtain ⟨rs, hchars', hdoc'⟩ := exists_rendering_items items hitems
    refine ⟨⟨[], r, []⟩ :: rs, ?_, ?_⟩
    · simp [Rendering.charsItems, charsItems, hchars, hchars']
    · rw [Rendering.docItems, hdoc, hdoc', ofItems]

/-- The text of the members behind the first. -/
theorem exists_rendering_members : (members : List (String × Value)) →
    (∀ n ∈ numbersMembers members, n.IsReadBack) →
    ∃ rs : List (Padded (List Stroke) × Padded Rendering),
      Rendering.charsMembers false rs = charsMembers members ∧ Rendering.docMembers rs = ofMembers members
  | [], _ => ⟨[], rfl, rfl⟩
  | (key, member) :: members, h => by
    obtain ⟨hmember, hmembers⟩ := List.forall_mem_append.mp h
    obtain ⟨r, hchars, hdoc⟩ := exists_rendering member hmember
    obtain ⟨rs, hchars', hdoc'⟩ := exists_rendering_members members hmembers
    refine ⟨(⟨[], strokesOf key, []⟩, ⟨[], r, []⟩) :: rs, ?_, ?_⟩
    · simp [Rendering.charsMembers, charsMembers, quotedStrokes_strokesOf, hchars, hchars']
    · rw [Rendering.docMembers, stringOf_strokesOf, hdoc, hdoc', ofMembers]

end

/-- A text spells a value: it holds a rendering of its document between blanks. -/
def Spells (text : String) (v : Value) : Prop :=
  ∃ (before after : List Blank) (r : Rendering),
    text = String.ofList (gap before ++ r.chars ++ gap after) ∧ r.doc = ofValue v

/-- A decoder that takes the document of a value takes every text that spells it. -/
theorem decodeText_of_spells {α : Type} (decode : Reading → Decoder α) {text : String} {v : Value}
    (h : Spells text v) : decodeText decode text = decode .direct (ofValue v) := by
  obtain ⟨before, after, r, rfl, hdoc⟩ := h
  rw [decodeText_rendering, hdoc]

theorem spells_text {v : Value} (h : v.IsReadBack) : Spells v.text v := by
  obtain ⟨r, hchars, hdoc⟩ := exists_rendering v h
  exact ⟨[], [], r, by rw [gap_nil, List.append_nil, List.nil_append, hchars, Value.text], hdoc⟩

/-- The compact text of a value still spells it when blanks are put between its parts. -/
theorem spells_of_squeezed {v : Value} (h : v.IsReadBack) {r : Rendering} (hr : r.squeezed.chars = v.chars)
    (before after : List Blank) : Spells (String.ofList (gap before ++ r.chars ++ gap after)) v := by
  obtain ⟨r', hchars, hdoc⟩ := exists_rendering v h
  have hscan := scan_rendering [] [] r.squeezed
  rw [hr, ← hchars, scan_rendering [] [] r', hdoc, Rendering.doc_squeezed] at hscan
  exact ⟨before, after, r, rfl, (congrArg Prod.fst hscan).symm⟩

/-- A decoder that takes the document of a value takes its text. -/
theorem decodeText_text {α : Type} (decode : Reading → Decoder α) {v : Value} (h : v.isIntegral = true) :
    decodeText decode v.text = decode .direct (ofValue v) :=
  decodeText_of_spells decode (spells_text (Value.isReadBack_of_isIntegral h))

end SessionTrail.Json
