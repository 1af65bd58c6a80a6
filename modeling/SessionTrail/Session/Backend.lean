/-!
# Session calls and the backend that serves them

A session is used through calls: reads of its attributes, writes of its properties, and changes of its
listeners. The engine behind a session may refuse any call, or crash in it. What it does may depend on
the calls that it has seen.
-/
namespace SessionTrail

/-- Why a session does not serve a call. -/
inductive CallError where
  | stopped
  | unavailable (reason : String)
deriving DecidableEq, Repr

def CallError.message : CallError → String
  | .stopped => "session stopped"
  | .unavailable reason => "session unavailable: " ++ reason

/-- What a session always has. -/
inductive Fact where
  | appName
  | applicationId
  | version
  | master
  | user
deriving DecidableEq, Repr

/-- What a session may have. -/
inductive Setting where
  | home
  | webUrl
  | conf (key : String)
deriving DecidableEq, Repr

/-- What can be read of a session. -/
inductive Attribute where
  | fact (f : Fact)
  | setting (s : Setting)
deriving DecidableEq, Repr

/-- The ways to read a session. All keys of its configuration are read in one way. -/
inductive Accessor where
  | appName
  | applicationId
  | version
  | master
  | user
  | home
  | webUrl
  | conf
deriving DecidableEq, Repr

/-- The way in which an attribute is read. -/
def Attribute.accessor : Attribute → Accessor
  | .fact .appName => .appName
  | .fact .applicationId => .applicationId
  | .fact .version => .version
  | .fact .master => .master
  | .fact .user => .user
  | .setting .home => .home
  | .setting .webUrl => .webUrl
  | .setting (.conf _) => .conf

namespace Accessor

def all : List Accessor :=
  [.appName, .applicationId, .version, .master, .user, .home, .webUrl, .conf]

def text : Accessor → String
  | .appName => "app_name"
  | .applicationId => "application_id"
  | .version => "version"
  | .master => "master"
  | .user => "spark_user"
  | .home => "spark_home"
  | .webUrl => "ui_web_url"
  | .conf => "conf"

def ofText? (name : String) : Option Accessor := all.find? (·.text = name)

/-- The attribute that is read in a way, with a key where the configuration is read. -/
def attributeOf (key : String) : Accessor → Attribute
  | .appName => .fact .appName
  | .applicationId => .fact .applicationId
  | .version => .fact .version
  | .master => .fact .master
  | .user => .fact .user
  | .home => .setting .home
  | .webUrl => .setting .webUrl
  | .conf => .setting (.conf key)

end Accessor

/-- A call of a session. -/
inductive Call where
  | read (a : Attribute)
  | write (key value : String)
  | attach
  | detach
deriving DecidableEq, Repr

/-- A call as a log shows it: its name and what it is given. -/
def Call.words : Call → List String
  | .read (.setting (.conf key)) => [Accessor.conf.text, key]
  | .read a => [a.accessor.text]
  | .write key value => ["set_local_property", key, value]
  | .attach => ["add_listener"]
  | .detach => ["remove_listener"]

/-- What a backend does instead of serving a call. -/
inductive Trouble where
  | refusal (e : CallError)
  | crash
deriving DecidableEq, Repr

/-- How the engine behind a session behaves: the application's identity, where the engine has one of
its own, and its trouble with a call, given the calls that came before. -/
structure Backend where
  applicationId : Option String
  trouble : List Call → Call → Option Trouble

namespace Backend

/-- A backend that serves every call. -/
def sound : Backend := ⟨none, fun _ _ => none⟩

instance : Inhabited Backend := ⟨sound⟩

end Backend

end SessionTrail
