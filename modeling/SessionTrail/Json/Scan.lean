import SessionTrail.Digits
import SessionTrail.Json.Doc

/-!
# Reading a text as a document

`scan` reads one value from the front of a text and answers its document with the text behind it, or
with nothing where the text stops being JSON. Blanks are space, tab, line feed and carriage return.
`Value.parse` reads a whole text as one value, nested at most 127 levels deep.
-/
namespace SessionTrail.Json

/-- The characters that may stand between the parts of a value. -/
def isBlank (c : Char) : Bool := c = ' ' || c = '\n' || c = '\t' || c = '\r'

def skipBlanks (cs : List Char) : List Char := cs.dropWhile isBlank

/-- A document with the text behind it; none where the text stops being JSON. -/
abbrev Scanned := Doc × Option (List Char)

/-- A break, behind which nothing is read. -/
def Scanned.broken (b : Break) : Scanned := (.broken b, none)

/-! ## Literals -/

/-- Take `word` from the front of a text. -/
def takeWord : List Char → List Char → Except Fault (List Char)
  | [], cs => .ok cs
  | _ :: _, [] => .error .truncated
  | w :: word, c :: cs => if w = c then takeWord word cs else .error .malformed

def scanLiteral (doc : Doc) (word cs : List Char) : Scanned :=
  match takeWord word cs with
  | .ok rest => (doc, some rest)
  | .error f => .broken ⟨f, f, .malformed⟩

/-! ## Strings -/

/-- A part of a string: a character, or a UTF-16 unit given by an escape. -/
inductive Piece where
  | char (c : Char)
  | unit (n : Nat)
deriving DecidableEq, Repr

def unescape? (c : Char) : Option Char :=
  if c = '"' then some '"'
  else if c = '\\' then some '\\'
  else if c = '/' then some '/'
  else if c = 'b' then some '\x08'
  else if c = 'f' then some '\x0c'
  else if c = 'n' then some '\n'
  else if c = 'r' then some '\r'
  else if c = 't' then some '\t'
  else none

/-- The number of bytes that a text takes in UTF-8. -/
def byteCount (cs : List Char) : Nat := cs.foldl (fun n c => n + c.utf8Size) 0

/-- The pieces of a string up to its closing quote, with the text behind it or the fault at which the
string breaks off. An escape with fewer than four bytes left for its digits is truncated. -/
def scanPieces : List Char → List Piece × Except Fault (List Char)
  | [] => ([], .error .truncated)
  | '"' :: rest => ([], .ok rest)
  | ['\\'] => ([], .error .truncated)
  | '\\' :: 'u' :: a :: b :: c :: d :: rest =>
    match hexNumber? [a, b, c, d] with
    | some n => let (pieces, after) := scanPieces rest; (.unit n :: pieces, after)
    | none => ([], .error .malformed)
  | '\\' :: 'u' :: rest =>
    ([], .error (if byteCount rest < 4 then .truncated else .malformed))
  | '\\' :: c :: rest =>
    match unescape? c with
    | some e => let (pieces, after) := scanPieces rest; (.char e :: pieces, after)
    | none => ([], .error .malformed)
  | c :: rest =>
    if c.toNat < 0x20 then ([], .error .malformed)
    else let (pieces, after) := scanPieces rest; (.char c :: pieces, after)

/-- Whether a UTF-16 unit is the first of a surrogate pair. -/
def isLead (n : Nat) : Bool := 0xD800 ≤ n && n ≤ 0xDBFF

/-- Whether a UTF-16 unit is the second of a surrogate pair. -/
def isTrail (n : Nat) : Bool := 0xDC00 ≤ n && n ≤ 0xDFFF

/-- The characters of a string; none if a surrogate is unpaired. -/
def joinPieces : List Piece → Option (List Char)
  | [] => some []
  | .char c :: rest => (joinPieces rest).map (c :: ·)
  | .unit n :: .unit m :: rest =>
    if isLead n then
      if isTrail m then
        (joinPieces rest).map (Char.ofNat ((n - 0xD800) * 0x400 + (m - 0xDC00) + 0x10000) :: ·)
      else none
    else if isTrail n then none
    else (joinPieces (.unit m :: rest)).map (Char.ofNat n :: ·)
  | .unit n :: rest =>
    if isLead n || isTrail n then none else (joinPieces rest).map (Char.ofNat n :: ·)

/-- Whether pieces show an unpaired surrogate whatever follows them. -/
def hasUnpaired : List Piece → Bool
  | [] => false
  | .char _ :: rest => hasUnpaired rest
  | [.unit n] => isTrail n
  | .unit n :: .unit m :: rest =>
    if isLead n then !isTrail m || hasUnpaired rest else isTrail n || hasUnpaired (.unit m :: rest)
  | .unit n :: .char _ :: rest => isLead n || isTrail n || hasUnpaired rest

/-- What breaks a string whose pieces end in a fault. -/
def breakOfPieces (pieces : List Piece) (f : Fault) : Break :=
  let read := if hasUnpaired pieces then .malformed else f
  ⟨read, f, read⟩

def scanString (cs : List Char) : Scanned :=
  match scanPieces cs with
  | (pieces, .ok rest) => (.string ((joinPieces pieces).map String.ofList), some rest)
  | (pieces, .error f) => .broken (breakOfPieces pieces f)

/-! ## Numbers -/

/-- Append digits to a significand as long as it fits 64 bits: the significand, the number of digits
taken and the number of digits left over. -/
def takeDigits (significand taken : Nat) : List Char → Nat × Nat × Nat
  | [] => (significand, taken, 0)
  | c :: rest =>
    let next := significand * 10 + digitValue c
    if next < 0x10000000000000000 then takeDigits next (taken + 1) rest else (significand, taken, rest.length + 1)

/-- The number of an integer literal; `-0` and what does not fit 64 bits are real numbers. -/
def integerNumber (negative : Bool) (digits : List Char) : Option Number :=
  let (significand, _, left) := takeDigits 0 0 digits
  if left = 0 then
    if negative then
      if h : 0 < significand ∧ significand ≤ 0x8000000000000000 then
        some (.integer ⟨-significand, by omega, by omega⟩)
      else (Binary64.ofDecimal true significand 0).map .real
    else if h : significand < 0x10000000000000000 then some (.ofNat significand h)
    else (Binary64.ofDecimal false significand 0).map .real
  else (Binary64.ofDecimal negative significand left).map .real

/-- The exponent that the digits after `e` give; none if it does not fit 32 bits. -/
def exponentOf (digits : List Char) : Option Nat :=
  let n := digits.foldl (fun n c => if n < 0x80000000 then n * 10 + digitValue c else n) 0
  if n < 0x80000000 then some n else none

/-- The number of a literal with a fraction or an exponent; none if it is beyond every real number.
Digits beyond the 64 bits of the significand scale it if they stand before the point and are dropped
if they stand behind it. -/
def realNumber (negative : Bool) (digits fraction : List Char)
    (exponent : Option (Bool × List Char)) : Option Number :=
  let (significand, _, left) := takeDigits 0 0 digits
  let (significand, taken, _) := takeDigits significand 0 fraction
  let start : Int := left - taken
  match exponent with
  | none => (Binary64.ofDecimal negative significand start).map .real
  | some (down, power) =>
    match exponentOf power with
    | some e => (Binary64.ofDecimal negative significand (if down then start - e else start + e)).map .real
    | none => if significand = 0 ∨ down then some (.real (.zero negative)) else none

/-- A number that breaks off: a reader of it sees the text end, one that skips it a missing digit. -/
def cutNumber : List Char → Scanned
  | [] => .broken ⟨.truncated, .malformed, .malformed⟩
  | _ :: _ => .broken ⟨.malformed, .malformed, .malformed⟩

def spanDigits (cs : List Char) : List Char × List Char :=
  (cs.takeWhile Char.isDigit, cs.dropWhile Char.isDigit)

/-- A number whose digits up to the exponent have been read. -/
def scanExponent (negative : Bool) (digits fraction : List Char) (cs : List Char) : Scanned :=
  match cs with
  | e :: rest =>
    if e = 'e' ∨ e = 'E' then
      let (down, rest) := match rest with
        | '+' :: r => (false, r)
        | '-' :: r => (true, r)
        | r => (false, r)
      match spanDigits rest with
      | ([], r) => cutNumber r
      | (power, r) => (.number (realNumber negative digits fraction (some (down, power))), some r)
    else if fraction.isEmpty then (.number (integerNumber negative digits), some cs)
    else (.number (realNumber negative digits fraction none), some cs)
  | [] =>
    if fraction.isEmpty then (.number (integerNumber negative digits), some [])
    else (.number (realNumber negative digits fraction none), some [])

/-- A number whose digits before the point have been read. -/
def scanFraction (negative : Bool) (digits : List Char) : List Char → Scanned
  | '.' :: rest =>
    match spanDigits rest with
    | ([], r) => cutNumber r
    | (fraction, r) => scanExponent negative digits fraction r
  | cs => scanExponent negative digits [] cs

/-- A number whose sign has been read: no digit may follow a leading zero. -/
def scanNumber (negative : Bool) (cs : List Char) : Scanned :=
  match spanDigits cs with
  | ([], r) => cutNumber r
  | ('0' :: _ :: _, _) => .broken ⟨.malformed, .malformed, .malformed⟩
  | (digits, r) => scanFraction negative digits r

/-! ## Values -/

mutual

/-- One value from the front of a text. -/
def scanValue : Nat → List Char → Scanned
  | 0, _ => .broken (.plain .truncated)
  | fuel + 1, cs =>
    match skipBlanks cs with
    | [] => .broken (.plain .truncated)
    | '"' :: rest => scanString rest
    | '[' :: rest =>
      let (items, stop, after) := scanItems fuel true rest
      (.array items stop, after)
    | '\x7b' :: rest => scanMembers fuel true rest
    | 'n' :: rest => scanLiteral .null ['u', 'l', 'l'] rest
    | 't' :: rest => scanLiteral (.bool true) ['r', 'u', 'e'] rest
    | 'f' :: rest => scanLiteral (.bool false) ['a', 'l', 's', 'e'] rest
    | '-' :: rest => scanNumber true rest
    | c :: rest => if c.isDigit then scanNumber false (c :: rest) else .broken (.plain .malformed)

/-- The items of an array from behind its bracket (`first`) or behind an item. -/
def scanItems : Nat → Bool → List Char → List Doc × Option Break × Option (List Char)
  | 0, _, _ => ([], some (.plain .truncated), none)
  | fuel + 1, first, cs =>
    match skipBlanks cs with
    | [] => ([], some (.plain .truncated), none)
    | ']' :: rest => ([], none, some rest)
    | c :: rest =>
      if first then scanItem fuel (c :: rest)
      else if c = ',' then scanItem fuel rest
      else ([], some (.plain .malformed), none)

/-- One item of an array and those behind it. -/
def scanItem : Nat → List Char → List Doc × Option Break × Option (List Char)
  | 0, _ => ([], some (.plain .truncated), none)
  | fuel + 1, cs =>
    match scanValue fuel cs with
    | (item, none) => ([item], none, none)
    | (item, some rest) =>
      let (items, stop, after) := scanItems fuel false rest
      (item :: items, stop, after)

/-- The members of an object from behind its brace (`first`) or behind a member. -/
def scanMembers : Nat → Bool → List Char → Scanned
  | 0, _, _ => (.object [] (some (.plain .truncated)), none)
  | fuel + 1, first, cs =>
    match skipBlanks cs with
    | [] => (.object [] (some (.plain .truncated)), none)
    | '\x7d' :: rest => (.object [] none, some rest)
    | c :: rest =>
      if first then
        if c = '"' then scanMember fuel true rest
        else (.object [] (some (.plain .malformed)), none)
      else if c = ',' then
        match skipBlanks rest with
        | [] => (.object [] (some ⟨.truncated, .truncated, .malformed⟩), none)
        | '"' :: rest => scanMember fuel false rest
        | _ :: _ => (.object [] (some (.plain .malformed)), none)
      else (.object [] (some (.plain .malformed)), none)

/-- One member of an object, whose opening quote has been read, and those behind it. Where one value
with a name is wanted, a second member is refused at its comma. -/
def scanMember : Nat → Bool → List Char → Scanned
  | 0, _, _ => (.object [] (some (.plain .truncated)), none)
  | fuel + 1, first, cs =>
    match scanPieces cs with
    | (pieces, .error f) =>
      let b := breakOfPieces pieces f
      (.object [] (some (if first then b else ⟨b.read, b.skipped, .malformed⟩)), none)
    | (pieces, .ok rest) =>
      let key := (joinPieces pieces).map String.ofList
      match skipBlanks rest with
      | [] => (.object [(key, .broken (.plain .truncated))] none, none)
      | ':' :: rest =>
        match scanValue fuel rest with
        | (member, none) => (.object [(key, member)] none, none)
        | (member, some rest) =>
          match scanMembers fuel false rest with
          | (.object members stop, after) => (.object ((key, member) :: members) stop, after)
          | (doc, after) => (doc, after)
      | _ :: _ => (.object [(key, .broken (.plain .malformed))] none, none)

end

/-- One value from the front of a text. Each level of nesting and each item costs at most three
steps, so the length of the text bounds them. -/
def scan (cs : List Char) : Scanned := scanValue (3 * cs.length + 3) cs

/-- How deep arrays and objects may be nested where a value is read. -/
def maxDepth : Nat := 127

/-- The value of a text that holds one value and nothing else but blanks. -/
def Value.parse (text : String) : Except Fault Value := do
  let (doc, rest) := scan text.toList
  doc.check maxDepth
  match rest.map skipBlanks with
  | some [] => .ok doc.toValue
  | _ => .error .malformed

end SessionTrail.Json
