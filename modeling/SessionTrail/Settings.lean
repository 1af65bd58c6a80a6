import SessionTrail.Json.Decode
import SessionTrail.Json.Encode

/-!
# Session settings

What a session is started with. Settings that a text leaves out have their defaults; the user is by
default the one that the environment names.
-/
namespace SessionTrail

open Json

structure Settings where
  appName : String
  master : String
  version : String
  user : String
  home : Option String
  webUrl : Option String
  conf : SortedMap String
deriving DecidableEq, Repr

namespace Settings

/-- The default settings where the environment names `user`, if any. -/
def standard (user : Option String) : Settings :=
  ⟨"sparkcrumbs", "local[*]", "3.5.1", user.getD "unknown", none, none, .empty⟩

def shape : List Field :=
  [.defaulted "app_name" decodeString, .defaulted "master" decodeString,
    .defaulted "version" decodeString, .defaulted "spark_user" decodeString,
    .defaulted "spark_home" (decodeOption decodeString),
    .defaulted "ui_web_url" (decodeOption decodeString),
    .defaulted "conf" (decodeMap decodeString)]

def encode (s : Settings) : Value :=
  .object [("app_name", .string s.appName), ("master", .string s.master),
    ("version", .string s.version), ("spark_user", .string s.user),
    ("spark_home", .ofOption .string s.home), ("ui_web_url", .ofOption .string s.webUrl),
    ("conf", .ofMap .string s.conf)]

/-- Settings from JSON, where the environment names `user`, if any. -/
def decode (user : Option String) (reading : Reading) : Decoder Settings := fun d => do
  let fields ← decodeFields reading shape d
  let standard := standard user
  let appName ← fields.getD "app_name" decodeString standard.appName
  let master ← fields.getD "master" decodeString standard.master
  let version ← fields.getD "version" decodeString standard.version
  let user ← fields.getD "spark_user" decodeString standard.user
  let home ← fields.getD "spark_home" (decodeOption decodeString) standard.home
  let webUrl ← fields.getD "ui_web_url" (decodeOption decodeString) standard.webUrl
  let conf ← fields.getD "conf" (decodeMap decodeString) standard.conf
  return ⟨appName, master, version, user, home, webUrl, conf⟩

def appNameKey : String := "spark.app.name"

def masterKey : String := "spark.master"

def executorIdKey : String := "spark.executor.id"

/-- The configuration that a session shows: name, master and executor have their defaults in it. -/
def effectiveConf (s : Settings) : SortedMap String :=
  ((s.conf.insertIfAbsent appNameKey s.appName).insertIfAbsent masterKey s.master).insertIfAbsent
    executorIdKey "driver"

/-- The settings as a session that is started with them shows them. -/
def started (s : Settings) : Settings := { s with conf := s.effectiveConf }

end Settings

end SessionTrail
