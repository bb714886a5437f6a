import Componentry.Annotations.Extraction
import Componentry.Module.Basic
import Componentry.Project.Index

/-!
# Compiling a unit

A unit is split into its blocks, its styles are collected, its annotations taken out of the script,
and the code is put together: imports, constants, the script and the registration.
-/

namespace Componentry.Module

open Annotations (Metadata)

/-- What a module is generated from. -/
structure Parts where
  path : String
  source : String
  blocks : Source.Blocks
  styles : Style.Sheets
  annotations : List Metadata
  /-- The annotations of the default export. -/
  table : List Metadata
  route : Option Route
  children : List String
  /-- What the default export of its script is. -/
  shape : Script.Shape
  diagnostics : List Diagnostic

/-- What stands between the path of a unit and the extension of its script. -/
def scriptQuery : String := "?sfc-script"

/-- The identifier under which the script of a unit is served. -/
def scriptId (path : String) (blocks : Source.Blocks) : String :=
  let extension := if blocks.script.any (·.isTyped) then "ts" else "js"
  path ++ scriptQuery ++ "." ++ extension

def cssConstant (name : String) (css : Option String) : String :=
  "const " ++ name ++ " = " ++ (css.map templateLiteral).getD "null" ++ ";\n"

/-- The tag of the component: declared by the script or, without a script, made from the path. -/
def tagOf (p : Parts) : Option String :=
  match Tag.declared? p.blocks.scriptText with
  | some tag => some tag
  | none => if p.blocks.script.isNone then some (Tag.ofPath p.path) else none

variable (options : Options)

/-- The code in front of the constants: findings and imports. -/
def heading (p : Parts) : String :=
  String.join (p.diagnostics.map fun d => d.comment ++ "\n") ++
  "import \x7b defineComponent, attachStyles \x7d from " ++ stringLiteral options.runtimeModule ++
  ";\n" ++
  String.join ((p.children.filter (· != p.path)).map fun c =>
    "import " ++ stringLiteral c ++ ";\n")

/-- The code in front of the template: findings, imports and style constants. -/
def opening (p : Parts) : String :=
  heading options p ++ cssConstant "__scopedCss" p.styles.scopedCss ++
  cssConstant "__globalCss" p.styles.globalCss

def templateConstant (p : Parts) : String :=
  "const __template = " ++ templateLiteral p.blocks.template ++ ";\n"

def scriptCode (p : Parts) : String :=
  if p.blocks.script.isSome then
    let id := stringLiteral (scriptId p.path p.blocks)
    "import * as __behavior from " ++ id ++ ";\n" ++
    "export * from " ++ id ++ ";\n" ++
    "const __annotations = __behavior." ++ Annotations.tableName ++ " || [];\n"
  else "const __annotations = [];\n"

def componentCode (shape : Script.Shape) (tag : Option String) : String :=
  match shape with
  | .constructor => "const __component = Object.assign(__behavior.default, __meta);\n"
  | .options => "const __component = Object.assign(\x7b\x7d, __behavior.default, __meta);\n"
  | .dynamic =>
    "const __default = __behavior.default;\n" ++
    "const __component = typeof __default === \"function\"\n" ++
    "  ? Object.assign(__default, __meta)\n" ++
    "  : Object.assign(\x7b\x7d, __default, __meta);\n"
  | .missing =>
    let base := match tag with
      | some tag => "\x7b tag: " ++ stringLiteral tag ++ " \x7d"
      | none => "\x7b\x7d"
    "const __component = Object.assign(" ++ base ++ ", __meta);\n"

/-- The code after the template: route, script and registration. -/
def closing (p : Parts) (shape : Script.Shape) : String :=
  "const __route = " ++ (p.route.map fun r => r.toJson.compact).getD "null" ++ ";\n" ++
  "const __sfcId = " ++ stringLiteral p.path ++ ";\n" ++
  scriptCode p ++
  "const __meta = \x7b template: __template, styles: __scopedCss, route: __route, __sfcId, " ++
  "__sfcAnnotations: __annotations \x7d;\n" ++
  componentCode shape (tagOf p) ++
  "defineComponent(__component);\n" ++
  "if (__globalCss !== null) attachStyles(document, __globalCss);\n" ++
  "export default __component;\n"

/-- The lines of the template constant, which come from the template. -/
def lineMap (p : Parts) : LineMap :=
  let start := Text.newlines (opening options p).toList + 1
  let count := Text.newlines p.blocks.template.toList + 1
  if p.blocks.template.isEmpty then {}
  else ({} : LineMap).addRange start p.blocks.templateLine count

def generate (p : Parts) : Module :=
  let shape := if p.blocks.script.isSome then p.shape else .missing
  { code := opening options p ++ templateConstant p ++ closing p shape
    sourceMap :=
      if options.sourceMaps then
        some ((lineMap options p).toJson (p.path ++ ".js") p.path (some p.source)).compact
      else none
    scopedCss := p.styles.scopedCss
    globalCss := p.styles.globalCss
    template := p.blocks.template
    tag := tagOf p
    shape
    annotations := p.annotations
    table := p.table
    route := p.route
    diagnostics := p.diagnostics }

def routeOf (path : String) (blocks : Source.Blocks) : Option Route × List Diagnostic :=
  match blocks.route with
  | none => (none, [])
  | some attributes =>
    match Route.describe attributes blocks.scriptText with
    | .ok r => (some { r with file := some path }, [])
    | .error d => (none, [d])

/-- The units that a template uses, as far as an index knows them. -/
def childrenOf (index : Option Index) (template : String) : List String :=
  match index with
  | some index =>
    if options.resolveChildren then (Source.childTags template).filterMap index.resolve else []
  | none => []

/-- What a unit is compiled from, with what is taken out of its script. -/
def partsOf (index : Option Index) (compiler : Style.Compiler) (path source : String)
    (extracted : Annotations.Extraction) : Parts :=
  let blocks := Source.blocks options source
  let styles := Style.collect compiler blocks.styles
  let (route, findings) := routeOf path blocks
  { path, source, blocks, styles
    annotations := extracted.metadata
    table := extracted.table
    route
    children := childrenOf options index blocks.template
    shape := Script.Shape.detect extracted.script
    diagnostics := styles.diagnostics ++ extracted.diagnostics ++ findings }

/-- The module of a unit, unless an edit of its script cuts a character. -/
def compile (index : Option Index) (compiler : Style.Compiler) (path source : String) :
    Except Failure Module :=
  match Annotations.extract (Source.blocks options source).scriptText with
  | some extracted => .ok (generate options (partsOf options index compiler path source extracted))
  | none => .error .aborted

end Componentry.Module
