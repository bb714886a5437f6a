import Componentry.FileTree
import Componentry.Route
import Componentry.Source.Blocks

/-!
# The component index

Which unit stands behind a tag. A unit is known by the tag its script declares or, if it declares
none, by the tag made from its file name. A tag that several units claim stands for none of them.
-/

namespace Componentry

/-- Units by tag. -/
structure Index where
  declared : Dictionary (List String) := .empty
  /-- Units without a declared tag, by the tag made from their file name. -/
  byName : Dictionary (List String) := .empty
deriving DecidableEq, Repr

namespace Index

def addTo (d : Dictionary (List String)) (tag path : String) : Dictionary (List String) :=
  d.insert tag ((d.find? tag).getD [] ++ [path])

variable (x : Index)

def insert (path : String) (declared : Option String) : Index :=
  match declared with
  | some tag => { x with declared := addTo x.declared tag path }
  | none => { x with byName := addTo x.byName (Tag.ofPath path) path }

/-- The units under a tag: those that declare it or, if there are none, those named so. -/
def candidates (tag : String) : List String :=
  match (x.declared.find? tag).getD [] with
  | [] => (x.byName.find? tag).getD []
  | paths => paths

def resolve (tag : String) : Option String :=
  match x.candidates tag with
  | [only] => some only
  | _ => none

/-- The number of units; paths with the same parts are one unit. -/
def size : Nat :=
  let paths := (x.declared.entries ++ x.byName.entries).flatMap (·.2)
  (Source.distinct (paths.map Path.parts)).length

def isEmpty (x : Index) : Bool := x.declared.isEmpty && x.byName.isEmpty

def sideJson (d : Dictionary (List String)) : Json :=
  .object (d.entries.map fun (tag, paths) => (tag, .strings paths))

def toJson : Json :=
  .object [("declared", sideJson x.declared), ("byFilename", sideJson x.byName)]

end Index

end Componentry

namespace Componentry.Project

/-! ### Scanning a project -/

/-- The paths of all files at or below a path that have an extension, in order. -/
def unitsAt (t : FileTree) (dir extension : String) : List String :=
  (t.filesAt dir).filter fun path => Path.extension? path == some extension

/-- The index of all units at or below a path; files that hold no text are left out. -/
def scan (t : FileTree) (options : Options) (root : String) : Index :=
  (unitsAt t root options.extension).foldl (fun index path =>
    match t.readText path with
    | .ok source => index.insert path (Tag.declared? (Source.blocks options source).scriptText)
    | .error _ => index) {}

/-- The route of a unit, with the unit as its file; nothing if it has none or a faulty one. -/
def routeOf? (options : Options) (path source : String) : Option Route :=
  let blocks := Source.blocks options source
  match blocks.route with
  | none => none
  | some attributes =>
    match Route.describe attributes blocks.scriptText with
    | .ok route => some { route with file := some path }
    | .error _ => none

/-- The routes of all units at or below a path, in order. -/
def manifest (t : FileTree) (options : Options) (dir : String) : Except Failure (List Route) := do
  let routes ← (unitsAt t dir options.extension).mapM fun path => do
    return routeOf? options path (← t.textAt path)
  return Route.sorted (routes.filterMap id)

end Componentry.Project
