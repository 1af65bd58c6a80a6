import SessionTrail.Json.Decode
import SessionTrail.Json.Encode

/-!
# Configuration

How the trail is set up, how the program logs, and how much a reporter keeps. Whatever a text leaves
out has its default.
-/
namespace SessionTrail

open Json

/-- How the trail is set up: the integration that a reporter must have enabled for it to do anything,
and what is put before the names of the properties that it writes. -/
structure Config where
  integration : String
  keyPrefix : String
deriving DecidableEq, Repr

namespace Config

/-- The name of the integration, unless it is configured otherwise. -/
def defaultIntegration : String := "spark"

def standard : Config := ⟨defaultIntegration, ""⟩

/-- The environment variable that overrides what is put before the names of properties. -/
def keyPrefixVariable : String := "SPARKCRUMBS_PROPERTY_PREFIX"

/-- The environment variables that are looked up for overrides. -/
def overrideVariables : List String := [keyPrefixVariable]

/-- Take overrides from an environment. -/
def override (config : Config) (lookup : String → Option String) : Config :=
  match lookup keyPrefixVariable with
  | some value => { config with keyPrefix := value }
  | none => config

def shape : List Field :=
  [.defaulted "integration" decodeString, .defaulted "property_prefix" decodeString]

def decode (reading : Reading) : Decoder Config := fun d => do
  let fields ← decodeFields reading shape d
  let integration ← fields.getD "integration" decodeString standard.integration
  let keyPrefix ← fields.getD "property_prefix" decodeString standard.keyPrefix
  return ⟨integration, keyPrefix⟩

end Config

/-- Why a configuration cannot be read. -/
def configRefusal (message : String) : String := "invalid bridge config: " ++ message

/-- How the program logs: the filter that applies unless the environment gives one, and whether
lines are written as JSON. -/
structure LogConfig where
  defaultFilter : String
  json : Bool
deriving DecidableEq, Repr

namespace LogConfig

def standard : LogConfig := ⟨"info", true⟩

def shape : List Field := [.defaulted "default_filter" decodeString, .defaulted "json" decodeBool]

def decode (reading : Reading) : Decoder LogConfig := fun d => do
  let fields ← decodeFields reading shape d
  let filter ← fields.getD "default_filter" decodeString standard.defaultFilter
  let json ← fields.getD "json" decodeBool standard.json
  return ⟨filter, json⟩

end LogConfig

/-- How many breadcrumbs a reporter keeps. -/
structure Retention where
  breadcrumbLimit : UInt64
deriving DecidableEq, Repr

namespace Retention

/-- The default: a hundred breadcrumbs. -/
def standard : Retention := ⟨100⟩

def shape : List Field := [.defaulted "max_breadcrumbs" decodeUInt64]

def decode (reading : Reading) : Decoder Retention := fun d => do
  let fields ← decodeFields reading shape d
  return ⟨← fields.getD "max_breadcrumbs" decodeUInt64 standard.breadcrumbLimit⟩

end Retention

end SessionTrail
