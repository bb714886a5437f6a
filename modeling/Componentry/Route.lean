import Componentry.Failure
import Componentry.Params
import Componentry.Tag

/-!
# Routes

The route of a unit, as its route region describes it, and lists of routes in the order a router
reads them.
-/

namespace Componentry

open Text

/-- A route. -/
structure Route where
  path : String
  methods : List String
  /-- The names of the parameters in the pattern. -/
  paramNames : List String
  tag : Option String := none
  handlerOnly : Bool := false
  redirect : Option String := none
  redirectMethod : Option String := none
  file : Option String := none
deriving DecidableEq, Repr

namespace Route

/-- The request methods when none are given. -/
def defaultMethods : List String := ["GET"]

def methodsOf (list : Option String) : List String :=
  let named := (list.map fun s =>
    ((splitOn ',' s.toList).map fun m => (String.ofList (trim m)).toUpper).filter
      fun m => !m.isEmpty).getD []
  if named.isEmpty then defaultMethods else named

/-- The finding on a route without a path. -/
def missingPath : Diagnostic :=
  .on .route "<route> is missing a `path` attribute; route ignored"

/-- The first of two values that is given. -/
def firstOf (attributes : Dictionary String) (a b : String) : Option String :=
  (attributes.find? a).orElse fun _ => attributes.find? b

def describe (attributes : Dictionary String) (script : String) : Except Diagnostic Route :=
  let path := ((attributes.find? "path").map trimmed).getD ""
  if path.isEmpty then .error missingPath
  else
    let redirect := attributes.find? "redirect"
    let tag := if redirect.isSome then none
      else (attributes.find? "tag").orElse fun _ => Tag.declared? script
    .ok {
      path
      methods := methodsOf (firstOf attributes "methods" "method")
      paramNames := Params.names path
      tag
      handlerOnly := redirect.isNone && tag.isNone
      redirect
      redirectMethod := firstOf attributes "redirect-method" "redirectMethod" }

/-- One optional value is no greater than another; no value is the least. -/
def fileLE : Option String → Option String → Bool
  | none, _ => true
  | some _, none => false
  | some a, some b => a ≤ b

/-- The order of routes: by path, and by unit among equals. -/
def le (a b : Route) : Bool := a.path < b.path || (a.path == b.path && fileLE a.file b.file)

def sorted (routes : List Route) : List Route := routes.mergeSort le

/-- A member of an object that is left out without a value. -/
def member (name : String) (value : Option String) : List (String × Json) :=
  (value.map fun s => (name, Json.string s)).toList

def toJson (r : Route) : Json :=
  .object <|
    [("path", .string r.path), ("methods", .strings r.methods),
     ("paramNames", .strings r.paramNames)] ++ member "tag" r.tag ++
    [("handlerOnly", .bool r.handlerOnly)] ++ member "redirect" r.redirect ++
    member "redirectMethod" r.redirectMethod ++ member "file" r.file

end Route

end Componentry
