import SessionTrail.Json.Decode
import SessionTrail.Proofs.Numerals

/-!
# Texts of documents

One document has many texts: blanks may stand between its parts, a character of a string may be escaped or
not, and a number may be written with a fraction or an exponent. A `Rendering` is a document together with
all these choices. Its text is read as its document, whatever follows it, as long as that cannot belong to a
number (`scanValue_rendering`), and a text that holds a rendering between blanks is read to its end
(`decodeText_rendering`).
-/
namespace SessionTrail.Json

/-! ## Blanks -/

inductive Blank where
  | space
  | tab
  | lineFeed
  | carriageReturn
deriving DecidableEq, Repr

def Blank.char : Blank → Char
  | .space => ' '
  | .tab => '\t'
  | .lineFeed => '\n'
  | .carriageReturn => '\r'

/-- The text of some blanks. -/
def gap (blanks : List Blank) : List Char := blanks.map Blank.char

@[simp] theorem gap_nil : gap [] = [] := rfl

theorem skipBlanks_cons {c : Char} (h : isBlank c = false) (cs : List Char) :
    skipBlanks (c :: cs) = c :: cs := by
  simp [skipBlanks, h]

theorem skipBlanks_gap (blanks : List Blank) (cs : List Char) :
    skipBlanks (gap blanks ++ cs) = skipBlanks cs := by
  refine List.dropWhile_append_of_pos fun c hc => ?_
  obtain ⟨blank, -, rfl⟩ := List.mem_map.mp hc
  cases blank <;> rfl

/-- What blanks stand before the first character that is none is not seen behind them. -/
theorem skipBlanks_gap_cons {c : Char} (h : isBlank c = false) (blanks : List Blank) (cs : List Char) :
    skipBlanks (gap blanks ++ c :: cs) = c :: cs := by
  rw [skipBlanks_gap, skipBlanks_cons h]

/-! ## Strings -/

/-- A character or a UTF-16 unit of a string, as it may be written. -/
inductive Stroke where
  | plain (c : Char) (h : c ≠ '"' ∧ c ≠ '\\' ∧ 0x20 ≤ c.toNat)
  /-- A backslash and a letter that stands for a character. -/
  | letter (c meaning : Char) (h : unescape? c = some meaning)
  /-- A backslash, `u` and four hexadecimal digits. -/
  | unit (a b c d : Char) (n : Nat) (h : hexNumber? [a, b, c, d] = some n)

namespace Stroke

def chars : Stroke → List Char
  | .plain c _ => [c]
  | .letter c _ _ => ['\\', c]
  | .unit a b c d _ _ => ['\\', 'u', a, b, c, d]

def piece : Stroke → Piece
  | .plain c _ => .char c
  | .letter _ meaning _ => .char meaning
  | .unit _ _ _ _ n _ => .unit n

theorem scanPieces_chars (stroke : Stroke) (cs : List Char) :
    scanPieces (stroke.chars ++ cs) = (stroke.piece :: (scanPieces cs).1, (scanPieces cs).2) := by
  cases stroke with
  | plain c h =>
    have hpos : ¬ c.toNat < 0x20 := Nat.not_lt.mpr h.2.2
    rw [chars, List.cons_append, List.nil_append, scanPieces.eq_def]
    split <;> rename_i heq <;> cases heq
    case h_7 => rw [if_neg hpos]; rfl
    case h_2 => exact absurd rfl h.1
    all_goals exact absurd rfl h.2.1
  | letter c meaning h =>
    have hu : c ≠ 'u' := by rintro rfl; cases h
    rw [chars, List.cons_append, List.cons_append, List.nil_append, scanPieces.eq_def]
    split <;> rename_i heq <;> cases heq
    case h_6 => rw [h]; rfl
    case h_7 hescape => exact absurd rfl (hescape _ _ rfl)
    all_goals exact absurd rfl hu
  | unit a b c d n h =>
    simp only [chars, List.cons_append, List.nil_append]
    rw [scanPieces, h]
    rfl

end Stroke

/-- A string between its quotes. -/
def quotedStrokes (strokes : List Stroke) : List Char := '"' :: strokes.flatMap Stroke.chars ++ ['"']

/-- The string that strokes write; none if a surrogate is unpaired. -/
def stringOf (strokes : List Stroke) : Option String :=
  (joinPieces (strokes.map Stroke.piece)).map String.ofList

theorem scanPieces_strokes (strokes : List Stroke) (rest : List Char) :
    scanPieces (strokes.flatMap Stroke.chars ++ '"' :: rest) = (strokes.map Stroke.piece, .ok rest) := by
  induction strokes with
  | nil => rfl
  | cons stroke more ih =>
    rw [List.flatMap_cons, List.append_assoc, Stroke.scanPieces_chars, ih]
    rfl

/-! ## Numbers -/

/-- An exponent as it may be written. -/
structure Exponent where
  capital : Bool := false
  /-- The sign, if there is one: whether it is a minus. -/
  sign : Option Bool := none
  power : List Char
  power_ne_nil : power ≠ []
  isDigit_power : ∀ c ∈ power, c.isDigit = true

/-- A number as it may be written: no digit follows a zero in front, and an empty fraction has no point. -/
structure Numeral where
  negative : Bool := false
  whole : List Char
  fraction : List Char := []
  exponent : Option Exponent := none
  whole_ne_nil : whole ≠ []
  isDigit_whole : ∀ c ∈ whole, c.isDigit = true
  leading_zero : whole.head? = some '0' → whole = ['0']
  isDigit_fraction : ∀ c ∈ fraction, c.isDigit = true

namespace Exponent

def signChars : Option Bool → List Char
  | none => []
  | some true => ['-']
  | some false => ['+']

def chars (e : Exponent) : List Char :=
  (if e.capital then 'E' else 'e') :: signChars e.sign ++ e.power

end Exponent

namespace Numeral

/-- What stands behind the digits in front. -/
def tail (n : Numeral) : List Char :=
  (if n.fraction.isEmpty then [] else '.' :: n.fraction) ++ n.exponent.elim [] Exponent.chars

def chars (n : Numeral) : List Char := (if n.negative then ['-'] else []) ++ n.whole ++ n.tail

/-- The number that is written; none if it is beyond every real number. -/
def value (n : Numeral) : Option Number :=
  match n.exponent with
  | some e => realNumber n.negative n.whole n.fraction (some (e.sign.getD false, e.power))
  | none =>
    if n.fraction.isEmpty then integerNumber n.negative n.whole
    else realNumber n.negative n.whole n.fraction none

end Numeral

/-- What cannot belong to a number in front of it: the end of the text, a blank, a comma or a closing
bracket. -/
def Stops (cs : List Char) : Prop := ∀ c ∈ cs.head?, isBlank c = true ∨ c = ',' ∨ c = ']' ∨ c = '\x7d'

theorem isBlank_iff {c : Char} : isBlank c = true ↔ c = ' ' ∨ c = '\n' ∨ c = '\t' ∨ c = '\r' := by
  simp [isBlank, or_assoc]

/-- What stands behind a number is no digit, no point and no letter of an exponent. -/
theorem Stops.head {c : Char} {cs : List Char} (h : Stops (c :: cs)) :
    c.isDigit = false ∧ c ≠ '.' ∧ ¬(c = 'e' ∨ c = 'E') := by
  rcases h c rfl with hblank | rfl | rfl | rfl
  · rcases isBlank_iff.mp hblank with rfl | rfl | rfl | rfl <;> decide
  all_goals decide

theorem Stops.noDigit {cs : List Char} (h : Stops cs) : NoDigit cs := by
  cases cs with
  | nil => exact nofun
  | cons c cs =>
    rintro _ ⟨⟩
    exact h.head.1

theorem isBlank_of_isDigit {c : Char} (h : c.isDigit = true) : isBlank c = false := by
  cases hb : isBlank c with
  | false => rfl
  | true => rcases isBlank_iff.mp hb with rfl | rfl | rfl | rfl <;> cases h

/-- A digit at the front is a leading zero only if it stands alone. -/
theorem scanNumber_of_span {cs digits rest : List Char} (hspan : spanDigits cs = (digits, rest))
    (hne : digits ≠ []) (hzero : digits.head? = some '0' → digits = ['0']) (negative : Bool) :
    scanNumber negative cs = scanFraction negative digits rest := by
  rw [scanNumber, hspan]
  split
  case h_1 heq => cases heq; exact absurd rfl hne
  case h_2 heq => cases heq; cases hzero rfl
  case h_3 heq => cases heq; rfl

theorem scanValue_digit {c : Char} (h : c.isDigit = true) (fuel : Nat) (cs : List Char) :
    scanValue (fuel + 1) (c :: cs) = scanNumber false (c :: cs) := by
  rw [scanValue, skipBlanks_cons (isBlank_of_isDigit h)]
  split <;> rename_i heq <;> cases heq
  case h_9 => rw [if_pos h]
  all_goals cases h

/-- A number ends where nothing follows that could belong to it. -/
theorem scanExponent_stops (negative : Bool) (whole fraction : List Char) {rest : List Char}
    (h : Stops rest) : scanExponent negative whole fraction rest =
      (.number (if fraction.isEmpty then integerNumber negative whole
        else realNumber negative whole fraction none), some rest) := by
  cases rest with
  | nil => cases hf : fraction.isEmpty <;> simp [scanExponent, hf]
  | cons c cs =>
    rw [scanExponent.eq_def]
    cases fraction.isEmpty <;> simp only [if_neg h.head.2.2] <;> rfl

theorem scanExponent_chars (negative : Bool) (whole fraction : List Char) (e : Exponent) {rest : List Char}
    (h : Stops rest) :
    scanExponent negative whole fraction (e.chars ++ rest) =
      (.number (realNumber negative whole fraction (some (e.sign.getD false, e.power))), some rest) := by
  obtain ⟨capital, sign, power, hne, hpower⟩ := e
  obtain ⟨c, cs, rfl⟩ := List.exists_cons_of_ne_nil hne
  have hspan : spanDigits (c :: cs ++ rest) = (c :: cs, rest) := spanDigits_append hpower h.noDigit
  have hletter : (if capital then 'E' else 'e') = 'e' ∨ (if capital then 'E' else 'e') = 'E' := by
    cases capital
    · exact .inl rfl
    · exact .inr rfl
  rw [Exponent.chars, List.cons_append, List.cons_append, List.append_assoc]
  rcases sign with _ | _ | _ <;> simp only [Exponent.signChars, List.cons_append, List.nil_append] at hspan ⊢
  case none =>
    have hdigit : c.isDigit = true := hpower c List.mem_cons_self
    have hsign : c ≠ '+' ∧ c ≠ '-' := by
      constructor <;> rintro rfl <;> cases hdigit
    rw [scanExponent, if_pos hletter]
    · simp only [hspan]
      rfl
    · rintro r heq
      exact hsign.1 (List.cons_eq_cons.mp heq).1
    · rintro r heq
      exact hsign.2 (List.cons_eq_cons.mp heq).1
  case false | true =>
    rw [scanExponent, if_pos hletter]
    simp only [hspan]
    rfl

/-- What stands behind the fraction begins with no digit and with no point. -/
theorem exponent_head (exponent : Option Exponent) {rest : List Char} (h : Stops rest) :
    ∀ c ∈ (exponent.elim [] Exponent.chars ++ rest).head?, c.isDigit = false ∧ c ≠ '.' := by
  intro c hc
  cases exponent with
  | some e =>
    have hletter : ∀ capital : Bool, (if capital then 'E' else 'e').isDigit = false ∧
        (if capital then 'E' else 'e') ≠ '.' := by decide
    cases hc
    exact hletter e.capital
  | none =>
    cases rest with
    | nil => cases hc
    | cons _ cs =>
      cases hc
      exact ⟨h.head.1, h.head.2.1⟩

theorem noDigit_tail (n : Numeral) {rest : List Char} (h : Stops rest) : NoDigit (n.tail ++ rest) := by
  intro c hc
  rw [Numeral.tail, List.append_assoc] at hc
  cases hf : n.fraction.isEmpty <;> rw [hf] at hc
  case true => exact (exponent_head n.exponent h c hc).1
  case false => cases hc; rfl

theorem scanFraction_tail (n : Numeral) {rest : List Char} (h : Stops rest) :
    scanFraction n.negative n.whole (n.tail ++ rest) = (.number n.value, some rest) := by
  have hexponent : scanExponent n.negative n.whole n.fraction (n.exponent.elim [] Exponent.chars ++ rest) =
      (.number n.value, some rest) := by
    rw [Numeral.value]
    cases n.exponent with
    | none => exact scanExponent_stops _ _ _ h
    | some e => exact scanExponent_chars _ _ _ e h
  have hhead := exponent_head n.exponent h
  have hfraction := n.isDigit_fraction
  rw [Numeral.tail, List.append_assoc]
  cases hf : n.fraction with
  | nil =>
    rw [hf] at hexponent
    rw [List.isEmpty_nil, if_pos rfl, List.nil_append, scanFraction, hexponent]
    intro cs hcs
    exact (hhead '.' (by rw [hcs]; rfl)).2 rfl
  | cons c cs =>
    rw [hf] at hexponent hfraction
    have hspan := spanDigits_append hfraction fun c hc => (hhead c hc).1
    rw [List.isEmpty_cons, if_neg Bool.false_ne_true, List.cons_append, scanFraction, hspan]
    exact hexponent

theorem scanValue_numeral (n : Numeral) (fuel : Nat) {rest : List Char} (h : Stops rest) :
    scanValue (fuel + 1) (n.chars ++ rest) = (.number n.value, some rest) := by
  have hspan : spanDigits (n.whole ++ (n.tail ++ rest)) = (n.whole, n.tail ++ rest) :=
    spanDigits_append n.isDigit_whole (noDigit_tail n h)
  have hnumber : ∀ negative, scanNumber negative (n.whole ++ (n.tail ++ rest)) =
      scanFraction negative n.whole (n.tail ++ rest) :=
    scanNumber_of_span hspan n.whole_ne_nil n.leading_zero
  refine Eq.trans ?_ (scanFraction_tail n h)
  rw [← hnumber, Numeral.chars, List.append_assoc, List.append_assoc]
  cases hn : n.negative with
  | true =>
    rw [if_pos rfl, List.cons_append, scanValue, skipBlanks_cons rfl]
    rfl
  | false =>
    obtain ⟨c, cs, hc⟩ := List.exists_cons_of_ne_nil n.whole_ne_nil
    have hdigit : c.isDigit = true := n.isDigit_whole c (hc ▸ List.mem_cons_self)
    rw [if_neg Bool.false_ne_true, List.nil_append, hc]
    exact scanValue_digit hdigit fuel _

/-! ## Values -/

/-- Something with blanks around it. -/
structure Padded (α : Type) where
  before : List Blank := []
  inner : α
  after : List Blank := []

/-- A document with all that its text leaves open. The blanks of an array or an object stand behind its
opening bracket. -/
inductive Rendering where
  | null
  | bool (b : Bool)
  | number (n : Numeral)
  | string (strokes : List Stroke)
  | array (start : List Blank) (items : List (Padded Rendering))
  | object (start : List Blank) (members : List (Padded (List Stroke) × Padded Rendering))

namespace Rendering

mutual

/-- The text of a rendering. -/
def chars : Rendering → List Char
  | .null => ['n', 'u', 'l', 'l']
  | .bool true => ['t', 'r', 'u', 'e']
  | .bool false => ['f', 'a', 'l', 's', 'e']
  | .number n => n.chars
  | .string strokes => quotedStrokes strokes
  | .array start items => '[' :: gap start ++ charsItems true items ++ [']']
  | .object start members => '\x7b' :: gap start ++ charsMembers true members ++ ['\x7d']

/-- The text of items, each but the first behind a comma. -/
def charsItems (first : Bool) : List (Padded Rendering) → List Char
  | [] => []
  | ⟨before, item, after⟩ :: rest =>
    (if first then [] else [',']) ++ gap before ++ item.chars ++ gap after ++ charsItems false rest

/-- The text of members, each but the first behind a comma. -/
def charsMembers (first : Bool) : List (Padded (List Stroke) × Padded Rendering) → List Char
  | [] => []
  | (key, ⟨before, member, after⟩) :: rest =>
    (if first then [] else [',']) ++ gap key.before ++ quotedStrokes key.inner ++ gap key.after ++
      ':' :: gap before ++ member.chars ++ gap after ++ charsMembers false rest

end

mutual

/-- The document of a rendering. -/
def doc : Rendering → Doc
  | .null => .null
  | .bool b => .bool b
  | .number n => .number n.value
  | .string strokes => .string (stringOf strokes)
  | .array _ items => .array (docItems items) none
  | .object _ members => .object (docMembers members) none

def docItems : List (Padded Rendering) → List Doc
  | [] => []
  | ⟨_, item, _⟩ :: rest => item.doc :: docItems rest

def docMembers : List (Padded (List Stroke) × Padded Rendering) → List (Option String × Doc)
  | [] => []
  | (key, ⟨_, member, _⟩) :: rest => (stringOf key.inner, member.doc) :: docMembers rest

end

mutual

/-- The rendering with no blanks in it. -/
def squeezed : Rendering → Rendering
  | .null => .null
  | .bool b => .bool b
  | .number n => .number n
  | .string strokes => .string strokes
  | .array _ items => .array [] (squeezedItems items)
  | .object _ members => .object [] (squeezedMembers members)

def squeezedItems : List (Padded Rendering) → List (Padded Rendering)
  | [] => []
  | ⟨_, item, _⟩ :: rest => ⟨[], item.squeezed, []⟩ :: squeezedItems rest

def squeezedMembers :
    List (Padded (List Stroke) × Padded Rendering) → List (Padded (List Stroke) × Padded Rendering)
  | [] => []
  | (key, ⟨_, member, _⟩) :: rest =>
    (⟨[], key.inner, []⟩, ⟨[], member.squeezed, []⟩) :: squeezedMembers rest

end

mutual

/-- Blanks are no part of a document. -/
theorem doc_squeezed : (r : Rendering) → r.squeezed.doc = r.doc
  | .null | .bool _ | .number _ | .string _ => rfl
  | .array _ items => by rw [squeezed, doc, doc, docItems_squeezed items]
  | .object _ members => by rw [squeezed, doc, doc, docMembers_squeezed members]

theorem docItems_squeezed : (items : List (Padded Rendering)) →
    docItems (squeezedItems items) = docItems items
  | [] => rfl
  | ⟨_, item, _⟩ :: rest => by
    rw [squeezedItems, docItems, docItems, doc_squeezed item, docItems_squeezed rest]

theorem docMembers_squeezed : (members : List (Padded (List Stroke) × Padded Rendering)) →
    docMembers (squeezedMembers members) = docMembers members
  | [] => rfl
  | (_, ⟨_, member, _⟩) :: rest => by
    rw [squeezedMembers, docMembers, docMembers, doc_squeezed member, docMembers_squeezed rest]

end

/-- The text of a document does not begin with a blank or a closing bracket. -/
theorem chars_head (r : Rendering) : ∃ c cs, r.chars = c :: cs ∧ isBlank c = false ∧ c ≠ ']' := by
  match r with
  | .null => exact ⟨'n', _, rfl, rfl, by decide⟩
  | .bool true => exact ⟨'t', _, rfl, rfl, by decide⟩
  | .bool false => exact ⟨'f', _, rfl, rfl, by decide⟩
  | .number n =>
    obtain ⟨c, cs, hc⟩ := List.exists_cons_of_ne_nil n.whole_ne_nil
    have hdigit : c.isDigit = true := n.isDigit_whole c (hc ▸ List.mem_cons_self)
    rw [chars, Numeral.chars, hc]
    cases n.negative
    · refine ⟨c, _, rfl, isBlank_of_isDigit hdigit, ?_⟩
      rintro rfl
      cases hdigit
    · exact ⟨'-', _, rfl, rfl, by decide⟩
  | .string _ => exact ⟨'"', _, by rw [chars, quotedStrokes, List.cons_append], rfl, by decide⟩
  | .array _ _ => exact ⟨'[', _, by rw [chars, List.cons_append, List.cons_append], rfl, by decide⟩
  | .object _ _ => exact ⟨'\x7b', _, by rw [chars, List.cons_append, List.cons_append], rfl, by decide⟩

theorem length_chars_pos (r : Rendering) : 0 < r.chars.length := by
  obtain ⟨c, cs, hcs, -⟩ := r.chars_head
  rw [hcs]
  exact Nat.succ_pos _

end Rendering

open Rendering

theorem scanValue_gap (fuel : Nat) (blanks : List Blank) (cs : List Char) :
    scanValue fuel (gap blanks ++ cs) = scanValue fuel cs := by
  cases fuel with
  | zero => rfl
  | succ fuel => rw [scanValue, scanValue, skipBlanks_gap]

theorem stops_gap (blanks : List Blank) {c : Char} (h : c = ',' ∨ c = ']' ∨ c = '\x7d') (cs : List Char) :
    Stops (gap blanks ++ c :: cs) := by
  cases blanks with
  | nil =>
    rintro _ ⟨⟩
    exact .inr h
  | cons blank more =>
    rintro _ ⟨⟩
    exact .inl (by cases blank <;> rfl)

theorem scanItems_close (fuel : Nat) (first : Bool) (blanks : List Blank) (rest : List Char) :
    scanItems (fuel + 1) first (gap blanks ++ ']' :: rest) = ([], none, some rest) := by
  rw [scanItems, skipBlanks_gap_cons rfl]
  rfl

/-- The first item stands behind blanks, and every other one behind a comma too. -/
theorem scanItems_next (fuel : Nat) (first : Bool) (start before : List Blank) (r : Rendering)
    (cs : List Char) :
    scanItems (fuel + 1) first
        (gap start ++ ((if first then [] else [',']) ++ (gap before ++ (r.chars ++ cs)))) =
      scanItem fuel (gap (if first then [] else before) ++ (r.chars ++ cs)) := by
  obtain ⟨c, more, hr, hblank, hc⟩ := r.chars_head
  cases first with
  | true =>
    rw [if_pos rfl, if_pos rfl, List.nil_append, gap_nil, List.nil_append, hr, List.cons_append, scanItems,
      skipBlanks_gap, skipBlanks_gap_cons hblank]
    split
    case h_1 heq => cases heq
    case h_2 heq => cases heq; exact absurd rfl hc
    case h_3 heq => cases heq; rfl
  | false =>
    rw [if_neg Bool.false_ne_true, if_neg Bool.false_ne_true, List.cons_append, scanItems,
      skipBlanks_gap_cons rfl]
    rfl

/-- One item, where it and the items behind it are read. -/
theorem scanItem_of {fuel : Nat} {cs middle : List Char} {item : Doc} {items : List Doc}
    {stop : Option Break} {after : Option (List Char)} (hitem : scanValue fuel cs = (item, some middle))
    (hitems : scanItems fuel false middle = (items, stop, after)) :
    scanItem (fuel + 1) cs = (item :: items, stop, after) := by
  rw [scanItem, hitem]
  simp only [hitems]

theorem scanMembers_close (fuel : Nat) (first : Bool) (blanks : List Blank) (rest : List Char) :
    scanMembers (fuel + 1) first (gap blanks ++ '\x7d' :: rest) = (.object [] none, some rest) := by
  rw [scanMembers, skipBlanks_gap_cons rfl]
  rfl

theorem scanMembers_next (fuel : Nat) (first : Bool) (start before : List Blank) (cs : List Char) :
    scanMembers (fuel + 1) first
        (gap start ++ ((if first then [] else [',']) ++ (gap before ++ '"' :: cs))) =
      scanMember fuel first cs := by
  cases first with
  | true =>
    rw [if_pos rfl, List.nil_append, scanMembers, skipBlanks_gap, skipBlanks_gap_cons rfl]
    rfl
  | false =>
    rw [if_neg Bool.false_ne_true, List.cons_append, scanMembers, skipBlanks_gap_cons rfl]
    have hkey : skipBlanks (gap before ++ '"' :: cs) = '"' :: cs := skipBlanks_gap_cons rfl before cs
    split
    case h_1 heq => cases heq
    case h_2 heq => cases heq
    case h_3 heq =>
      cases heq
      rw [if_neg Bool.false_ne_true, if_pos rfl, List.nil_append, hkey]
      rfl

/-- One member from its opening quote on, where its value and the members behind it are read. -/
theorem scanMember_of {fuel : Nat} {key : List Stroke} {blanks : List Blank} {cs middle : List Char}
    {member : Doc} {members : List (Option String × Doc)} {stop : Option Break}
    {after : Option (List Char)} (hmember : scanValue fuel cs = (member, some middle))
    (hmembers : scanMembers fuel false middle = (.object members stop, after)) (first : Bool) :
    scanMember (fuel + 1) first (key.flatMap Stroke.chars ++ '"' :: (gap blanks ++ ':' :: cs)) =
      (.object ((stringOf key, member) :: members) stop, after) := by
  rw [scanMember, scanPieces_strokes]
  simp only [skipBlanks_gap_cons (show isBlank ':' = false from rfl), hmember, hmembers]
  rfl

-- From a value to one inside it the reader goes three calls deep and past one character at least, so three
-- calls a character are enough.
mutual

/-- The text of a rendering is read as its document, with what follows it left over. -/
theorem scanValue_rendering : (r : Rendering) → ∀ fuel rest, Stops rest → 3 * r.chars.length ≤ fuel →
    scanValue fuel (r.chars ++ rest) = (r.doc, some rest)
  | .null, fuel + 1, _, _, _ => by
    simp only [chars, List.cons_append, List.nil_append]
    rw [scanValue, skipBlanks_cons rfl]
    rfl
  | .bool true, fuel + 1, _, _, _ => by
    simp only [chars, List.cons_append, List.nil_append]
    rw [scanValue, skipBlanks_cons rfl]
    rfl
  | .bool false, fuel + 1, _, _, _ => by
    simp only [chars, List.cons_append, List.nil_append]
    rw [scanValue, skipBlanks_cons rfl]
    rfl
  | .number n, 0, _, _, hf => by
    have hpos := (Rendering.number n).length_chars_pos
    omega
  | .number n, fuel + 1, _, hstops, _ => scanValue_numeral n fuel hstops
  | .string strokes, fuel + 1, rest, _, _ => by
    simp only [chars, quotedStrokes, List.cons_append, List.append_assoc, List.nil_append]
    rw [scanValue, skipBlanks_cons rfl]
    simp only [scanString, scanPieces_strokes]
    rfl
  | .array start items, fuel + 1, rest, _, hf => by
    simp only [chars, List.length_append, List.length_cons, List.length_nil] at hf
    have hitems := scanItems_rendering items true start fuel rest (by omega)
    simp only [chars, List.cons_append, List.append_assoc, List.nil_append]
    rw [scanValue, skipBlanks_cons rfl]
    simp only [hitems, doc]
  | .object start members, fuel + 1, rest, _, hf => by
    simp only [chars, List.length_append, List.length_cons, List.length_nil] at hf
    have hmembers := scanMembers_rendering members true start fuel rest (by omega)
    simp only [chars, List.cons_append, List.append_assoc, List.nil_append]
    rw [scanValue, skipBlanks_cons rfl]
    simp only [hmembers, doc]

/-- Items are read up to the closing bracket. -/
theorem scanItems_rendering : (items : List (Padded Rendering)) → ∀ first start fuel rest,
    3 * (charsItems first items).length + 3 ≤ fuel →
    scanItems fuel first (gap start ++ (charsItems first items ++ ']' :: rest)) =
      (docItems items, none, some rest)
  | [], first, start, fuel + 1, rest, _ => scanItems_close fuel first start rest
  | ⟨before, item, after⟩ :: items, first, start, fuel + 2, rest, hf => by
    have hpos := item.length_chars_pos
    simp only [charsItems, List.length_append] at hf
    have hends : Stops (gap after ++ (charsItems false items ++ ']' :: rest)) := by
      cases items with
      | nil => exact stops_gap after (.inr (.inl rfl)) rest
      | cons next more => exact stops_gap after (.inl rfl) _
    have hitem := scanValue_rendering item fuel _ hends (by omega)
    have hitems := scanItems_rendering items false after fuel rest (by omega)
    simp only [charsItems, List.append_assoc]
    rw [scanItems_next, scanItem_of ((scanValue_gap ..).trans hitem) hitems, docItems]

/-- Members are read up to the closing brace. -/
theorem scanMembers_rendering : (members : List (Padded (List Stroke) × Padded Rendering)) →
    ∀ first start fuel rest, 3 * (charsMembers first members).length + 3 ≤ fuel →
    scanMembers fuel first (gap start ++ (charsMembers first members ++ '\x7d' :: rest)) =
      (.object (docMembers members) none, some rest)
  | [], first, start, fuel + 1, rest, _ => scanMembers_close fuel first start rest
  | (key, ⟨before, member, after⟩) :: members, first, start, fuel + 2, rest, hf => by
    simp only [charsMembers, quotedStrokes, List.length_append, List.length_cons] at hf
    have hends : Stops (gap after ++ (charsMembers false members ++ '\x7d' :: rest)) := by
      cases members with
      | nil => exact stops_gap after (.inr (.inr rfl)) rest
      | cons next more => exact stops_gap after (.inl rfl) _
    have hmember := scanValue_rendering member fuel _ hends (by omega)
    have hmembers := scanMembers_rendering members false after fuel rest (by omega)
    simp only [charsMembers, quotedStrokes, List.append_assoc, List.cons_append, List.nil_append]
    rw [scanMembers_next, scanMember_of ((scanValue_gap ..).trans hmember) hmembers, docMembers]

end

/-- A text that holds one rendering between blanks is read to its end. -/
theorem scan_rendering (before after : List Blank) (r : Rendering) :
    scan (gap before ++ r.chars ++ gap after) = (r.doc, some (gap after)) := by
  have hends : Stops (gap after) := by
    cases after with
    | nil => exact nofun
    | cons blank more =>
      rintro _ ⟨⟩
      exact .inl (by cases blank <;> rfl)
  rw [scan, List.append_assoc, scanValue_gap]
  exact scanValue_rendering r _ _ hends (by simp only [List.length_append]; omega)

/-- A decoder that takes the document of a rendering takes its text. -/
theorem decodeText_rendering {α : Type} (decode : Reading → Decoder α) (before after : List Blank)
    (r : Rendering) :
    decodeText decode (String.ofList (gap before ++ r.chars ++ gap after)) = decode .direct r.doc := by
  have hend : skipBlanks (gap after) = [] := (List.append_nil (gap after)) ▸ skipBlanks_gap after []
  simp only [decodeText, String.toList_ofList, scan_rendering, Option.map_some, hend]
  cases decode .direct r.doc <;> rfl

end SessionTrail.Json
