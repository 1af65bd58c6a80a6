import SessionTrail.Json.Decode
import SessionTrail.Json.Encode

/-!
# Identifiers of 128 bits

An identifier is written as 32 hexadecimal digits in lower case, in groups of 8, 4, 4, 4 and 12 with
hyphens between them. It is read with digits of either case from that form, from the digits alone,
from that form in braces, and from that form behind `urn:uuid:` in any case.
-/
namespace SessionTrail

open Json

structure Uuid where
  bits : BitVec 128
deriving DecidableEq, Repr

namespace Uuid

/-- The numbers of digits in the groups of the hyphenated form. -/
def groupSizes : List Nat := [8, 4, 4, 4, 12]

/-- Cut digits into groups of the given sizes and put hyphens between them. -/
def hyphenate : List Nat → List Char → List Char
  | [], _ => []
  | [size], digits => digits.take size
  | size :: sizes, digits => digits.take size ++ '-' :: hyphenate sizes (digits.drop size)

/-- The characters of groups of the given sizes with hyphens between them. -/
def unhyphenate? : List Nat → List Char → Option (List Char)
  | [], cs => if cs.isEmpty then some [] else none
  | [size], cs => if cs.length = size then some cs else none
  | size :: sizes, cs =>
    match cs.drop size with
    | '-' :: rest => (unhyphenate? sizes rest).map (cs.take size ++ ·)
    | _ => none

/-- What stands before the hyphenated form in a resource name. -/
def urnLead : List Char := ['u', 'r', 'n', ':', 'u', 'u', 'i', 'd', ':']

/-- The characters at the places of the 32 digits. -/
def digits? (cs : List Char) : Option (List Char) :=
  if cs.length = 32 then some cs
  else
    match cs with
    | '\x7b' :: rest =>
      if rest.getLast? = some '\x7d' then unhyphenate? groupSizes rest.dropLast else none
    | _ =>
      if (cs.take urnLead.length).map Char.toLower = urnLead then
        unhyphenate? groupSizes (cs.drop urnLead.length)
      else unhyphenate? groupSizes cs

def ofString? (s : String) : Option Uuid := do
  let n ← hexNumber? (← digits? s.toList)
  return ⟨.ofNat 128 n⟩

def text (u : Uuid) : String := String.ofList (hyphenate groupSizes (hexDigits 32 u.bits.toNat))

def encode (u : Uuid) : Value := .string u.text

def decode : Decoder Uuid := fun d => do
  match ofString? (← decodeString d) with
  | some u => return u
  | none => throw (.mismatch .invalidUuid)

end Uuid

/-- The identity of a session. -/
structure SessionId where
  uuid : Uuid
deriving DecidableEq, Repr

namespace SessionId

def ofString? (s : String) : Option SessionId := (Uuid.ofString? s).map .mk

def text (id : SessionId) : String := id.uuid.text

def encode (id : SessionId) : Value := id.uuid.encode

def decode : Decoder SessionId := fun d => (Uuid.decode d).map .mk

end SessionId

end SessionTrail
