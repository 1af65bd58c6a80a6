import SessionTrail.Session

/-!
# Identity properties

The properties that tell a session's workers which application they belong to.
-/
namespace SessionTrail

/-- The property that holds an application's name. -/
def appNameProperty : String := "app_name"

/-- The property that holds an application's identity. -/
def applicationIdProperty : String := "application_id"

def propertyKey (keyPrefix name : String) : String := keyPrefix ++ name

/-- Write the application's name and identity into a session's properties, up to the first call that
is not served. -/
def Session.writeIdentity (keyPrefix : String) : Action Session CallError Unit := do
  let appName ← readFact .appName
  write (propertyKey keyPrefix appNameProperty) appName
  let applicationId ← readFact .applicationId
  write (propertyKey keyPrefix applicationIdProperty) applicationId

end SessionTrail
