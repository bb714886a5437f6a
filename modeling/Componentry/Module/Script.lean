import Componentry.Annotations.Extraction
import Componentry.Module.Basic
import Componentry.Script.Erasure.Module

/-!
# Companion scripts

The module that holds the behaviour of a unit: its script without annotations, and without types
when the module's name says that it is typed.
-/

namespace Componentry

/-- A companion script. -/
structure ScriptModule where
  code : String
  /-- The code was laid out anew, so a map back to the script exists. -/
  mapped : Bool
  annotations : List Annotations.Metadata
  strategy : Annotations.Strategy
  diagnostics : List Diagnostic

namespace ScriptModule

/-- A module name that says that the script is typed. -/
def isTyped (id : String) : Bool :=
  ".ts".toList.isSuffixOf id.toList || ".tsx".toList.isSuffixOf id.toList

def eraseTypes (script id : String) : Except Failure String :=
  match Script.withoutTypes script with
  | .ok code => .ok code
  | .error .unreadable => .error (.script id)
  | .error .refused => .error (.types id)

/-- The companion script that is served under a name. -/
def compile (script id : String) : Except Failure ScriptModule := do
  let some e := Annotations.extract script | .error .aborted
  let typed := isTyped id
  let code ← if typed then eraseTypes e.script id else pure e.script
  return { code, mapped := typed, annotations := e.metadata, strategy := e.strategy,
           diagnostics := e.diagnostics }

/-- A companion script as a JSON value; of the map it says only whether there is one. -/
def toJson (m : ScriptModule) : Json :=
  .object [("code", .string m.code), ("map", .bool m.mapped),
    ("annotations", .array (m.annotations.map Annotations.Metadata.toJson)),
    ("strategy", .string m.strategy.word),
    ("diagnostics", .array (m.diagnostics.map Diagnostic.toJson))]

end ScriptModule

end Componentry
