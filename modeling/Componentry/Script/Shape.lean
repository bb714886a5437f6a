import Componentry.Script.Outline

/-!
# Shapes of default exports

How the default export of a script is registered: as a constructor, as an object of options, by a
check at run time, or not at all. The outline of the script decides; a script that cannot be read
is judged by patterns in its text.
-/

namespace Componentry.Script

open Text

/-- What a script's default export is. -/
inductive Shape where
  | constructor
  | options
  | dynamic
  | missing
deriving DecidableEq, Repr

def Shape.word : Shape → String
  | .constructor => "constructor"
  | .options => "options"
  | .dynamic => "dynamic"
  | .missing => "missing"

def Shape.ofWord? (w : String) : Option Shape :=
  [Shape.constructor, .options, .dynamic, .missing].find? fun s => s.word == w

/-- Shapes of names, last declared first. -/
abbrev Scope := List (String × Shape)

/-- The shape of a name; of several declarations the last one counts. -/
def Scope.shape (scope : Scope) (name : String) : Shape :=
  ((scope.find? fun d => d.1 == name).map (·.2)).getD .dynamic

def ValueOutline.shape (scope : Scope) : ValueOutline → Shape
  | .object _ => .options
  | .class_ _ => .constructor
  | .function => .constructor
  | .name n => scope.shape n
  | .wrapped v => v.shape scope
  | .other => .dynamic

def Scope.variable (scope : Scope) (v : VariableOutline) : Scope :=
  match v.name with
  | some name => (name, (v.value.map (·.shape scope)).getD .dynamic) :: scope
  | none => scope

def Scope.declare (scope : Scope) : DeclarationOutline → Scope
  | .class_ c => (c.name.map fun n => (n, Shape.constructor)).toList ++ scope
  | .function name => (name.map fun n => (n, Shape.constructor)).toList ++ scope
  | .variables vs => vs.foldl Scope.variable scope
  | .other => scope

/-- What is known while statements are walked through. -/
structure ShapeSearch where
  scope : Scope := []
  /-- The name that is exported as the default; it wins over a value. -/
  name : Option String := none
  shape : Option Shape := none

def ShapeSearch.spec (foreign : Bool) (s : ShapeSearch) (spec : String × String) : ShapeSearch :=
  if spec.2 != "default" then s
  else if foreign then { s with shape := some .dynamic }
  else { s with name := some spec.1 }

def ShapeSearch.step (s : ShapeSearch) : TopLevel → ShapeSearch
  | .declaration d | .exported d => { s with scope := s.scope.declare d }
  | .names foreign specs => specs.foldl (ShapeSearch.spec foreign) s
  | .exportDefault _ (.class_ _) | .exportDefault _ .function =>
    { s with shape := some .constructor }
  | .exportDefault _ (.value (.name n)) => { s with name := some n }
  | .exportDefault _ (.value v) => { s with shape := some (v.shape s.scope) }
  | .exportDefault _ .type => { s with shape := some .dynamic }
  | .other => s

/-- The shape at the end of a script; an exported name is looked up then, so that later
declarations count. -/
def ShapeSearch.result (s : ShapeSearch) : Shape :=
  match s.name with
  | some n => s.scope.shape n
  | none => s.shape.getD .missing

def Outline.shape (o : Outline) : Shape :=
  (o.foldl ShapeSearch.step {}).result

/-- What follows `export`, blanks and `default`, where a word starts. -/
def afterExportDefault (before : Option Char) (s : List Char) : Option (List Char) := do
  let rest ← if wordStarts before s then dropLead? "export".toList s else none
  let rest ← afterSomeBlanks? rest
  dropLead? "default".toList rest

/-- `class` or `function` as a whole word. -/
def startsConstructor (s : List Char) : Bool :=
  ((dropLead? "class".toList s).map wordEnds).getD false ||
    ((dropLead? "function".toList s).map wordEnds).getD false

/-- `class` or `function` after `export default`, perhaps after `abstract`. -/
def constructorFollows (s : List Char) : Bool :=
  match afterSomeBlanks? s with
  | none => false
  | some rest =>
    startsConstructor rest ||
      (((dropLead? "abstract".toList rest).bind afterSomeBlanks?).map startsConstructor).getD false

/-- Some `export default` in a text has a continuation that passes a test. -/
def exportDefaultWith (test : List Char → Bool) (s : List Char) : Bool :=
  (firstMatch (fun before here =>
    match afterExportDefault before here with
    | some rest => if test rest then some () else none
    | none => none) none s).isSome

def Shape.ofPattern (text : String) : Shape :=
  let s := text.toList
  if exportDefaultWith constructorFollows s then .constructor
  else if exportDefaultWith (fun r => (afterBlanks r).head? == some '\x7b') s then .options
  else if exportDefaultWith wordEnds s then .dynamic
  else .missing

def Shape.detectWith (read : String → Option Outline) (text : String) : Shape :=
  if isBlankText text then .missing
  else match read text with
    | some o => o.shape
    | none => .ofPattern text

def Shape.detect (text : String) : Shape :=
  Shape.detectWith outline? text

end Componentry.Script
