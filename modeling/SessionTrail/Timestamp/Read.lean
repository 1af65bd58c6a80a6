import SessionTrail.Timestamp
import SessionTrail.Json.Decode
import SessionTrail.Json.Encode

/-!
# Reading points in time

A date with its fields between hyphens, then `T`, `t` or one space, a time with its fields between
colons, and a zone: `Z`, `UTC` or the hours and minutes by which the clock is ahead. Blanks may stand
before each field and each mark, but none before the letter between date and time. A year without a sign
has at most four digits, the other fields have one or two. The fraction of a second has any number of
digits, of which nine count.
-/
namespace SessionTrail

open Json

/-- The characters with the Unicode property White_Space. -/
def isWhiteSpace (c : Char) : Bool :=
  let n := c.toNat
  (9 ≤ n && n ≤ 13) || n = 0x20 || n = 0x85 || n = 0xA0 || n = 0x1680 ||
    (0x2000 ≤ n && n ≤ 0x200A) || n = 0x2028 || n = 0x2029 || n = 0x202F || n = 0x205F || n = 0x3000

namespace Timestamp

def skipSpace (cs : List Char) : List Char := cs.dropWhile isWhiteSpace

/-- A number of one to `most` digits, or of any number of digits where `most` is none. -/
def readDigits? (most : Option Nat) (cs : List Char) : Option (Nat × List Char) :=
  let digits := (most.elim cs cs.take).takeWhile Char.isDigit
  if digits.isEmpty then none else some (decimalNumber digits, cs.drop digits.length)

/-- The text behind `mark`, before which white space may stand. -/
def readMark? (mark : Char) (cs : List Char) : Option (List Char) :=
  match skipSpace cs with
  | c :: rest => if c = mark then some rest else none
  | [] => none

def readYear? (cs : List Char) : Option (Int × List Char) :=
  match skipSpace cs with
  | '-' :: rest => (readDigits? none rest).map fun (n, rest) => (-n, rest)
  | '+' :: rest => (readDigits? none rest).map fun (n, rest) => (n, rest)
  | rest => (readDigits? (some 4) rest).map fun (n, rest) => (n, rest)

def readField? (cs : List Char) : Option (Nat × List Char) := readDigits? (some 2) (skipSpace cs)

/-- The nanoseconds of a fraction, if there is one. -/
def readFraction? : List Char → Option (Nat × List Char)
  | '.' :: rest =>
    let digits := rest.takeWhile Char.isDigit
    let kept := digits.take 9
    if digits.isEmpty then none
    else some (decimalNumber kept * Nat.pow 10 (9 - kept.length), rest.drop digits.length)
  | cs => some (0, cs)

/-- The minutes by which a zone is ahead, from its hours on. -/
def readAhead? : List Char → Option (Nat × List Char)
  | h :: i :: rest =>
    match rest.dropWhile fun c => c = ':' || isWhiteSpace c with
    | m :: n :: rest =>
      if h.isDigit && i.isDigit && m.isDigit && n.isDigit then
        let hours := decimalNumber [h, i]
        let minutes := decimalNumber [m, n]
        if hours < 24 ∧ minutes < 60 then some (hours * 60 + minutes, rest) else none
      else none
    | _ => none
  | _ => none

/-- The minutes by which a zone is ahead, negative if it is behind. -/
def readZone? (cs : List Char) : Option (Int × List Char) :=
  if (cs.take 3).map Char.toUpper = ['U', 'T', 'C'] then some (0, cs.drop 3)
  else
    match cs with
    | c :: rest =>
      if c = 'Z' ∨ c = 'z' then some (0, rest)
      else if c = '+' then (readAhead? rest).map fun (n, rest) => (n, rest)
      else if c = '-' ∨ c = '\u2212' then (readAhead? rest).map fun (n, rest) => (-n, rest)
      else none
    | [] => none

def readDate? (cs : List Char) : Option (Date × List Char) := do
  let (year, cs) ← readYear? cs
  let (month, cs) ← readField? (← readMark? '-' cs)
  let (day, cs) ← readField? (← readMark? '-' cs)
  return (← Date.ofFields? year month day, cs)

/-- The text behind the letter or space between date and time. -/
def readSeparator? : List Char → Option (List Char)
  | 'T' :: rest | 't' :: rest | ' ' :: rest => some rest
  | _ => none

def ofString? (s : String) : Option Timestamp := do
  let (date, cs) ← readDate? s.toList
  let (hour, cs) ← readField? (← readSeparator? cs)
  let (minute, cs) ← readField? (← readMark? ':' cs)
  let (second, cs) ← readField? (← readMark? ':' cs)
  let (nano, cs) ← readFraction? cs
  let (ahead, cs) ← readZone? (skipSpace cs)
  if (skipSpace cs).isEmpty then
    (← ofWritten? date hour minute second nano).minusMinutes? ahead
  else none

def encode (t : Timestamp) : Value := .string t.text

def decode : Decoder Timestamp := fun d => do
  match ofString? (← decodeString d) with
  | some t => return t
  | none => throw (.mismatch .invalidTimestamp)

end Timestamp

end SessionTrail
