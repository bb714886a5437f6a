import Componentry.Text.Scan
import Componentry.Text.Word

/-!
# Failures and findings

What stops a request before it has a result, and what does not stop it: findings are carried beside
the output. Each failure has a stable code and a text.
-/

namespace Componentry

/-- Why a file or directory could not be used. -/
inductive FileFault where
  | missing
  /-- A directory was to be made where a file stands. -/
  | occupied
  /-- A part of the path that should be a directory is a file. -/
  | notDirectory
  /-- A directory stands where a file is needed. -/
  | isDirectory
  /-- The path is empty or cannot name anything. -/
  | invalid
  | notText
  /-- A file has no modification time that can be told. -/
  | untimed
deriving DecidableEq, Repr, Inhabited

def FileFault.message : FileFault → String
  | .missing => "No such file or directory (os error 2)"
  | .occupied => "File exists (os error 17)"
  | .notDirectory => "Not a directory (os error 20)"
  | .isDirectory => "Is a directory (os error 21)"
  | .invalid => "Invalid argument (os error 22)"
  | .notText => "stream did not contain valid UTF-8"
  | .untimed => "entity not found"

/-- Why an options file could not be used. -/
inductive ConfigFault where
  /-- The file is not valid in the first format. -/
  | json
  /-- The file is not valid in the second format. -/
  | toml
  | format
deriving DecidableEq, Repr

def ConfigFault.message : ConfigFault → String
  | .json => "Invalid JSON config:"
  | .toml => "Invalid TOML config:"
  | .format => "Config file must be .json or .toml format"

/-- What stopped a request. -/
inductive Failure where
  | file (path : String) (fault : FileFault)
  | config (fault : ConfigFault)
  | script (name : String)
  /-- The types of a script could not be erased. -/
  | types (name : String)
  /-- An edit of a script cut a character, which ends the program. -/
  | aborted
deriving DecidableEq, Repr

def Failure.code : Failure → String
  | .file _ _ => "SFC-ERR-IO"
  | .config _ => "SFC-ERR-CONFIG"
  | .script _ => "SFC-ERR-SCRIPT-PARSE"
  | .types _ => "SFC-ERR-TYPE-STRIP"
  | .aborted => "panic"

def Failure.message : Failure → String
  | .file path fault => "IO error on " ++ path ++ ": " ++ fault.message
  | .config fault => "Invalid configuration: " ++ fault.message
  | .script name => "Script parse error in " ++ name ++ ":"
  | .types name => "Type stripping failed in " ++ name ++ ":"
  | .aborted => "byte index is not a char boundary"

def Failure.line (e : Failure) : String := e.code ++ ": " ++ e.message

/-! ### Faults of the live page -/

/-- Why an operation on live components did not succeed. -/
inductive Fault where
  /-- A tag that cannot name a component. -/
  | invalidTag (tag : String)
  /-- A tag that already belongs to a component from elsewhere. -/
  | alreadyDefined (tag : String)
  | unknownMethod (method : String)
  | invalidSelector (text : String)
  | notAComponent
  | methodFailed (reason : String)
deriving DecidableEq, Repr

def Fault.name : Fault → String
  | .invalidTag _ => "InvalidTag"
  | .alreadyDefined _ => "AlreadyDefined"
  | .unknownMethod _ => "UnknownMethod"
  | .invalidSelector _ => "InvalidSelector"
  | .notAComponent => "NotAComponent"
  | .methodFailed _ => "Method"

def Fault.message : Fault → String
  | .invalidTag tag =>
    "Component tag " ++ Text.Quoted.encode tag ++ " is missing or does not contain a hyphen"
  | .alreadyDefined tag => "A component is already defined for <" ++ tag ++ ">"
  | .unknownMethod method => "Unknown method `" ++ method ++ "`"
  | .invalidSelector text => "Invalid selector " ++ Text.Quoted.encode text
  | .notAComponent => "Node is not a component instance"
  | .methodFailed reason => "Method failed: " ++ reason

/-! ### Diagnostics -/

/-- What a diagnostic is about. -/
inductive Diagnostic.Topic where
  /-- A style region could not be compiled. -/
  | style
  | annotations
  | route
deriving DecidableEq, Repr

def Diagnostic.Topic.code : Topic → String
  | .style => "SFC-DIAG-STYLE"
  | .annotations => "SFC-DIAG-ANNOTATION"
  | .route => "SFC-DIAG-ROUTE"

/-- A finding: its code and what it says. -/
structure Diagnostic where
  code : String
  message : String
deriving DecidableEq, Repr, Inhabited

namespace Diagnostic

def on (topic : Topic) (message : String) : Diagnostic :=
  ⟨topic.code, message⟩

/-- The diagnostic as a block comment; a closing mark inside the text is broken up. -/
def comment (d : Diagnostic) : String :=
  "/* [sfc] " ++ d.code ++ ": " ++
    String.ofList (Text.replaceAll "*/".toList "* /".toList d.message.toList) ++ " */"

end Diagnostic

end Componentry
