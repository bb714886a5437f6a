import Componentry.Annotations.Occurrence
import Componentry.Options
import Componentry.Route
import Componentry.Script.Shape

/-!
# Generated modules

What a unit is compiled to: the code that registers its component, with everything the code was
made from, and its form as a JSON value.
-/

namespace Componentry

open Annotations (Metadata)

/-- A generated module. -/
structure Module where
  code : String
  sourceMap : Option String := none
  scopedCss : Option String := none
  globalCss : Option String := none
  template : String := ""
  tag : Option String := none
  /-- What the default export of the script is. -/
  shape : Script.Shape := .missing
  annotations : List Metadata := []
  /-- The annotations of the default export. -/
  table : List Metadata := []
  route : Option Route := none
  diagnostics : List Diagnostic := []
deriving Inhabited

def Diagnostic.toJson (d : Diagnostic) : Json :=
  .object [("code", .string d.code), ("message", .string d.message)]

def Diagnostic.ofJson? (j : Json) : Option Diagnostic := do
  let members ← j.fields? ["code", "message"]
  return ⟨← (Json.lookup "code" members).bind Json.string?,
    ← (Json.lookup "message" members).bind Json.string?⟩

def Route.ofJson? (j : Json) : Option Route := do
  let members ← j.fields? ["path", "methods", "paramNames", "tag", "handlerOnly", "redirect",
    "redirectMethod", "file"]
  return {
    path := ← (Json.lookup "path" members).bind Json.string?
    methods := ← (Json.lookup "methods" members).bind Json.strings?
    paramNames := ← (Json.lookup "paramNames" members).bind Json.strings?
    tag := ← Json.fieldOr? members "tag" none Json.maybeString?
    handlerOnly := ← Json.fieldOr? members "handlerOnly" false Json.bool?
    redirect := ← Json.fieldOr? members "redirect" none Json.maybeString?
    redirectMethod := ← Json.fieldOr? members "redirectMethod" none Json.maybeString?
    file := ← Json.fieldOr? members "file" none Json.maybeString? }

namespace Module

def toJson (m : Module) : Json :=
  .object [("code", .string m.code), ("sourceMap", .ofOption .string m.sourceMap),
    ("scopedCss", .ofOption .string m.scopedCss), ("globalCss", .ofOption .string m.globalCss),
    ("templateText", .string m.template), ("tag", .ofOption .string m.tag),
    ("shape", .string m.shape.word), ("annotations", .array (m.annotations.map Metadata.toJson)),
    ("annotationTable", .array (m.table.map Metadata.toJson)),
    ("route", .ofOption Route.toJson m.route),
    ("diagnostics", .array (m.diagnostics.map Diagnostic.toJson))]

def listOf? {α : Type} (read : Json → Option α) (j : Json) : Option (List α) := do
  (← j.array?).mapM read

def maybe? {α : Type} (read : Json → Option α) : Json → Option (Option α)
  | .null => some none
  | j => (read j).map some

def ofJson? (j : Json) : Option Module := do
  let members ← j.fields? ["code", "sourceMap", "scopedCss", "globalCss", "templateText", "tag",
    "shape", "annotations", "annotationTable", "route", "diagnostics"]
  return {
    code := ← (Json.lookup "code" members).bind Json.string?
    sourceMap := ← Json.fieldOr? members "sourceMap" none Json.maybeString?
    scopedCss := ← Json.fieldOr? members "scopedCss" none Json.maybeString?
    globalCss := ← Json.fieldOr? members "globalCss" none Json.maybeString?
    template := ← (Json.lookup "templateText" members).bind Json.string?
    tag := ← Json.fieldOr? members "tag" none Json.maybeString?
    shape := ← ((Json.lookup "shape" members).bind Json.string?).bind Script.Shape.ofWord?
    annotations := ← Json.fieldOr? members "annotations" [] (listOf? Metadata.ofJson?)
    table := ← Json.fieldOr? members "annotationTable" [] (listOf? Metadata.ofJson?)
    route := ← Json.fieldOr? members "route" none (maybe? Route.ofJson?)
    diagnostics := ← Json.fieldOr? members "diagnostics" [] (listOf? Diagnostic.ofJson?) }

def manifest (modules : List Module) : List Route := Route.sorted (modules.filterMap (·.route))

end Module

/-! ### Line maps

Which line of a unit a line of generated code comes from, and the text form of such a map: one
segment for each mapped line, in which each number is written as the difference to the last one, in
base 64 digits of five bits with the lowest first. -/

/-- Lines of generated code and the lines they come from, both counted from one. -/
structure LineMap where
  /-- The pairs in the order of generated lines. -/
  lines : List (Nat × Nat) := []
deriving DecidableEq, Repr

namespace LineMap

/-- Puts a pair in its place, instead of one for the same generated line. -/
def insertLine (generated source : Nat) : List (Nat × Nat) → List (Nat × Nat)
  | [] => [(generated, source)]
  | (g, s) :: rest =>
    if generated < g then (generated, source) :: (g, s) :: rest
    else if generated == g then (generated, source) :: rest
    else (g, s) :: insertLine generated source rest

variable (m : LineMap)

def add (generated source : Nat) : LineMap :=
  ⟨insertLine generated source m.lines⟩

def addRange (generated source count : Nat) : LineMap :=
  (List.range count).foldl (fun m i => m.add (generated + i) (source + i)) m

def source? (generated : Nat) : Option Nat :=
  (m.lines.find? fun p => p.1 == generated).map (·.2)

/-! ### Text form -/

def digits : List Char :=
  "ABCDEFGHIJKLMNOPQRSTUVWXYZabcdefghijklmnopqrstuvwxyz0123456789+/".toList

def digit (n : Nat) : Char := digits[n]?.getD 'A'

/-- Groups of five bits, lowest first; each but the last is marked by a sixth bit. -/
def encodeNat (n : Nat) : List Char :=
  if n < 32 then [digit n] else digit (n % 32 + 32) :: encodeNat (n / 32)
termination_by n
decreasing_by omega

/-- A number with its sign in the lowest bit. -/
def encodeInt (n : Int) : List Char :=
  encodeNat (if n < 0 then n.natAbs * 2 + 1 else n.natAbs * 2)

/-- The segment of a line: column and unit are always the first, and so is the column there. -/
def segment (difference : Int) : List Char :=
  encodeInt 0 ++ encodeInt 0 ++ encodeInt difference ++ encodeInt 0

/-- The segments of mapped lines, after line `line` was reached and line `last` of the unit, counted
from zero, was named last. -/
def segments : Nat → Int → List (Nat × Nat) → List Char
  | _, _, [] => []
  | line, last, (generated, source) :: rest =>
    if generated < line then segments line last rest
    else
      let place : Int := (source - 1 : Nat)
      List.replicate (generated - line) ';' ++ segment (place - last) ++
        segments generated place rest

def mappings : String := String.ofList (segments 1 0 m.lines)

def toJson (file source : String) (content : Option String) : Json :=
  .object ([("version", .nat 3), ("file", .string file), ("sources", .strings [source])] ++
    (content.map fun c => ("sourcesContent", Json.strings [c])).toList ++
    [("names", .array []), ("mappings", .string m.mappings)])

end LineMap

end Componentry

namespace Componentry.Module

/-! ### Text in generated code -/

/-- A text inside a template literal: backslashes, backticks and openings of substitutions are
escaped. -/
def escapeTemplate : List Char → List Char
  | [] => []
  | '\\' :: rest => '\\' :: '\\' :: escapeTemplate rest
  | '\x60' :: rest => '\\' :: '\x60' :: escapeTemplate rest
  | '$' :: '\x7b' :: rest => '\\' :: '$' :: '\x7b' :: escapeTemplate rest
  | c :: rest => c :: escapeTemplate rest

def templateLiteral (s : String) : String :=
  "`" ++ String.ofList (escapeTemplate s.toList) ++ "`"

def stringLiteral (s : String) : String := Json.quote s

end Componentry.Module
