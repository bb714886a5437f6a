import Componentry.Failure
import Componentry.Json.Read
import Componentry.Path
import Componentry.Toml.Read

/-!
# Options

What can be set for a compilation, and the two ways a set of options is written as a JSON value: an
object of which every member may be left out, or the values alone in their order. An options file has
either of two formats, which its extension tells apart.
-/

namespace Componentry

/-- Options of the module cache. -/
structure CacheOptions where
  maxEntries : Nat := 500
  snapshotPath : Option String := none
  /-- How often that file is written, in milliseconds. -/
  snapshotInterval : Nat := 5000
deriving DecidableEq, Repr

/-- Options of a compilation. -/
structure Options where
  /-- The module that generated code takes its helpers from. -/
  runtimeModule : String := "sfc/runtime"
  extension : String := "sfc"
  /-- Attributes that make a style region global. -/
  globalMarkers : List String := ["global", "is:global"]
  /-- Languages of style regions that are compiled. -/
  extendedDialects : List String := ["scss", "nested", "postcss"]
  /-- The directory in which other units are looked for. -/
  projectRoot : Option String := none
  /-- Whether units used in a template are imported. -/
  resolveChildren : Bool := true
  sourceMaps : Bool := true
  cache : CacheOptions := {}
deriving DecidableEq, Repr

/-- Equal up to the case of ASCII letters. -/
def sameWord (a b : String) : Bool := a.toLower == b.toLower

namespace Options

/-- An attribute makes a style region global. -/
def isGlobalMarker (o : Options) (name : String) : Bool :=
  o.globalMarkers.any (sameWord name)

/-- A language of style regions is compiled. -/
def isExtendedDialect (o : Options) (lang : String) : Bool :=
  o.extendedDialects.any (sameWord lang)

end Options

/-! ### As JSON values -/

def CacheOptions.toJson (o : CacheOptions) : Json :=
  .object [("maxEntries", .nat o.maxEntries), ("snapshotPath", .ofOption .string o.snapshotPath),
    ("snapshotIntervalMs", .nat o.snapshotInterval)]

def Options.toJson (o : Options) : Json :=
  .object [("runtimeModule", .string o.runtimeModule), ("extension", .string o.extension),
    ("globalMarkers", .strings o.globalMarkers),
    ("extendedDialects", .strings o.extendedDialects),
    ("projectRoot", .ofOption .string o.projectRoot),
    ("resolveChildren", .bool o.resolveChildren), ("sourceMaps", .bool o.sourceMaps),
    ("cache", o.cache.toJson)]

/-- The members of a record: those of an object, each known one at most once, or the items of an
array in the order of the fields. -/
def Json.fields? (names : List String) : Json → Option (List (String × Json))
  | .object members =>
    if names.all fun n => (members.filter fun m => m.1 == n).length ≤ 1 then some members else none
  | .array items => if items.length ≤ names.length then some (names.zip items) else none
  | _ => none

/-- The value of a field that may be left out. -/
def Json.fieldOr? {α : Type} (members : List (String × Json)) (name : String) (default : α)
    (read : Json → Option α) : Option α :=
  match members.find? fun m => m.1 == name with
  | none => some default
  | some m => read m.2

def Json.strings? (j : Json) : Option (List String) := do (← j.array?).mapM Json.string?

def Json.maybeString? : Json → Option (Option String)
  | .null => some none
  | .string s => some (some s)
  | _ => none

open Json in
def CacheOptions.ofJson? (j : Json) : Option CacheOptions := do
  let members ← j.fields? ["maxEntries", "snapshotPath", "snapshotIntervalMs"]
  let base : CacheOptions := {}
  return {
    maxEntries := ← fieldOr? members "maxEntries" base.maxEntries nat?
    snapshotPath := ← fieldOr? members "snapshotPath" base.snapshotPath maybeString?
    snapshotInterval := ← fieldOr? members "snapshotIntervalMs" base.snapshotInterval nat? }

open Json in
def Options.ofJson? (j : Json) : Option Options := do
  let members ← j.fields? ["runtimeModule", "extension", "globalMarkers", "extendedDialects",
    "projectRoot", "resolveChildren", "sourceMaps", "cache"]
  let base : Options := {}
  return {
    runtimeModule := ← fieldOr? members "runtimeModule" base.runtimeModule string?
    extension := ← fieldOr? members "extension" base.extension string?
    globalMarkers := ← fieldOr? members "globalMarkers" base.globalMarkers strings?
    extendedDialects := ← fieldOr? members "extendedDialects" base.extendedDialects strings?
    projectRoot := ← fieldOr? members "projectRoot" base.projectRoot maybeString?
    resolveChildren := ← fieldOr? members "resolveChildren" base.resolveChildren bool?
    sourceMaps := ← fieldOr? members "sourceMaps" base.sourceMaps bool?
    cache := ← fieldOr? members "cache" base.cache CacheOptions.ofJson? }

end Componentry

namespace Componentry.Config

/-! ### Options files -/

/-- The options that a text in the first format holds. -/
def ofJsonText (text : String) : Except Failure Options :=
  match (Json.read? text).bind Options.ofJson? with
  | some o => .ok o
  | none => .error (.config .json)

def ofTomlText (text : String) : Except Failure Options :=
  match (Toml.read? text).bind fun t => Options.ofJson? t.toJson with
  | some o => .ok o
  | none => .error (.config .toml)

def ofText (path text : String) : Except Failure Options :=
  match Path.extension? path with
  | some "json" => ofJsonText text
  | some "toml" => ofTomlText text
  | _ => .error (.config .format)

end Componentry.Config
