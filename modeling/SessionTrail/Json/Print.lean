import SessionTrail.Digits
import SessionTrail.Json.Value

/-!
# Writing JSON

The compact text of a value: no blanks, members in the order of the value. A string is escaped only
where it must be: quote, backslash and the characters below U+0020, the latter by a letter where one
is defined and by four hexadecimal digits otherwise.
-/
namespace SessionTrail.Json

def escape (c : Char) : List Char :=
  if c = '"' then ['\\', '"']
  else if c = '\\' then ['\\', '\\']
  else if c = '\x08' then ['\\', 'b']
  else if c = '\x0c' then ['\\', 'f']
  else if c = '\n' then ['\\', 'n']
  else if c = '\r' then ['\\', 'r']
  else if c = '\t' then ['\\', 't']
  else if c.toNat < 0x20 then
    ['\\', 'u', '0', '0', hexDigit (c.toNat / 16), hexDigit (c.toNat % 16)]
  else [c]

def quoted (s : String) : List Char := '"' :: s.toList.flatMap escape ++ ['"']

/-- A number: an integer in decimal digits, a real number by its shortest text. -/
def Number.chars : Number → List Char
  | .integer n =>
    if n.val < 0 then '-' :: Nat.toDigits 10 (-n.val).toNat else Nat.toDigits 10 n.val.toNat
  | .real x => x.text

namespace Value

mutual

/-- The compact text of a value. -/
def chars : Value → List Char
  | .null => ['n', 'u', 'l', 'l']
  | .bool true => ['t', 'r', 'u', 'e']
  | .bool false => ['f', 'a', 'l', 's', 'e']
  | .number n => n.chars
  | .string s => quoted s
  | .array [] => ['[', ']']
  | .array (item :: rest) => '[' :: item.chars ++ charsItems rest ++ [']']
  | .object [] => ['\x7b', '\x7d']
  | .object ((key, member) :: rest) =>
    '\x7b' :: quoted key ++ ':' :: member.chars ++ charsMembers rest ++ ['\x7d']

/-- The text of the items after the first, each behind a comma. -/
def charsItems : List Value → List Char
  | [] => []
  | item :: rest => ',' :: item.chars ++ charsItems rest

/-- The text of the members after the first, each behind a comma. -/
def charsMembers : List (String × Value) → List Char
  | [] => []
  | (key, member) :: rest => ',' :: quoted key ++ ':' :: member.chars ++ charsMembers rest

end

def text (v : Value) : String := String.ofList v.chars

end Value

end SessionTrail.Json
