import Componentry.Script.Erasure.Tree
import Componentry.Script.Layout.Statements
import Componentry.Script.Outline

/-!
# Erasing types from whole scripts

Imports that nothing reads and exports of types vanish with the types. A script that was a module
stays one: when all its imports and exports vanish, an empty export takes their place.

Main definition: `withoutTypes`, which reads a script, erases its types and lays it out anew.
-/

namespace Componentry.Script

namespace Erasure

def isOpenNamespace : Statement → Bool
  | .namespace_ _ false _ body | .exportDecl _ (.namespace_ _ false _ body) => hasOpen body
  | _ => false
where
  /-- Some statement of a namespace declares such a variable. -/
  hasOpen : List Statement → Bool
    | [] => false
    | .exportDecl _ (.variables _ kind false _) :: rest => kind != .const || hasOpen rest
    | .exportDecl _ (.namespace_ _ false _ body) :: rest
    | .namespace_ _ false _ body :: rest => hasOpen body || hasOpen rest
    | _ :: rest => hasOpen rest

/-- A statement that has no meaning in a module without types; `reads` holds the names that are
read. -/
def isRefused (reads : List String) : Statement → Bool
  | .exportAssign .. => true
  | .importRequire _ false name _ => reads.contains name
  | .exportDecl _ (.importRequire _ false _ _) => true
  | s => isOpenNamespace s

/-- What is known about the names of a module. -/
structure ModuleNames where
  reads : List String
  values : List String
  /-- The names that only stand for types, or for values that are described and not made. -/
  types : List String

def isTypeImport : ImportSpec → Bool
  | .named _ _ typeOnly => typeOnly
  | _ => false

def typeNames : Statement → List String
  | .typeOnly _ name | .exportDecl _ (.typeOnly _ name) => name.toList
  | .import_ _ typeOnly _ specs _ _ =>
    ((specs.getD []).filter fun s => typeOnly || isTypeImport s).map importName
  | _ => []

/-- A declaration that describes a value and does not make it. -/
def isAmbient : Statement → Bool
  | .variables _ _ isDeclare _ | .function _ isDeclare _ | .enum_ _ isDeclare _ _
  | .namespace_ _ isDeclare _ _ => isDeclare
  | .class_ _ (.mk _ _ _ _ isDeclare _ _) => isDeclare
  | .exportDecl _ decl => isAmbient decl
  | _ => false

def moduleNames (f : Finders) (body : List Statement) : ModuleNames :=
  let (described, made) := body.partition isAmbient
  let describedNames := described.flatMap (declaredIn f)
  let madeNames := made.flatMap (declaredIn f)
  { reads := body.flatMap f.statement
    values := madeNames ++ describedNames
    types := without (body.flatMap typeNames ++ describedNames) madeNames }

def isTypeExport (types : List String) : DefaultExport → Bool
  | .expr (.ident _ name) => types.contains name
  | _ => false

/-- An import or export without the names that only stand for types; nothing if no name is
left. -/
def prune (names : ModuleNames) : Statement → Option Statement
  | .import_ at_ typeOnly phase specs source attributes =>
    if typeOnly then none
    else match specs with
      | none | some [] => some (.import_ at_ false phase none source attributes)
      | some specs =>
        let kept := specs.filter fun s =>
          !isTypeImport s && names.reads.contains (importName s)
            && !names.values.contains (importName s)
        if kept.isEmpty then none
        else some (.import_ at_ false phase (some kept) source attributes)
  | .exportNames at_ typeOnly specs source attributes =>
    if typeOnly then none
    else if specs.isEmpty then some (.exportNames at_ false [] source attributes)
    else
      let kept := specs.filter fun s =>
        !s.typeOnly && (source.isSome || s.inner.quoted || !names.types.contains s.inner.name)
      if kept.isEmpty then none else some (.exportNames at_ false kept source attributes)
  | .exportAll at_ typeOnly name source attributes =>
    if typeOnly then none else some (.exportAll at_ false name source attributes)
  | .exportDefault at_ value =>
    if isTypeExport names.types value then none else some (.exportDefault at_ value)
  | s => some s

def isModuleItem : Statement → Bool
  | .import_ .. | .exportNames .. | .exportDecl .. | .exportDefault _ _
  | .exportAll .. => true
  | _ => false

def isExportedNamespace : Statement → Bool
  | .exportDecl _ (.namespace_ ..) => true
  | _ => false

/-- The statements of a module; `before` holds the names declared before them. -/
def eraseModule (r : Erasers) (fuel : Nat) (s : Setting) (names : ModuleNames)
    (before : List String) : List Statement → Eraser (List Statement)
  | [] => return []
  | item :: rest => do
    let mine ← match item with
      | .namespace_ at_ false path body => eraseNamespace r fuel s at_ false before none path body
      | .exportDecl _ (.namespace_ at_ false path body) =>
        eraseNamespace r fuel s at_ true before none path body
      | item => match prune names item with
        | some item => r.statement s item
        | none => pure []
    let more ← eraseModule r fuel s names (declaredNames s.finders item ++ before) rest
    return mine ++ more

end Erasure

open Erasure in
/-- The script without its types; nothing if it holds something that only types allow. -/
def Program.erase? (p : Program) : Option Program :=
  let fuel := 4 * p.length + 64
  let finders := findersOf fuel
  let names := moduleNames finders p.body
  if p.body.any (isRefused names.reads) then none
  else
    let setting : Setting := { top := true, reads := names.reads, finders }
    let ledger : Ledger := { taken := names.values ++ names.types ++ names.reads }
    let body := ((eraseModule (erasersOf fuel) fuel setting names [] p.body).run ledger).1
    let lost := p.body.any fun s => isModuleItem s && !isExportedNamespace s
    let body :=
      if lost && !body.any isModuleItem then body ++ [.exportNames default false [] none none]
      else body
    some { p with body }

/-- Why a script could not be laid out without its types. -/
inductive ErasureFault where
  | unreadable
  /-- The script holds something that only types allow. -/
  | refused
deriving DecidableEq, Repr

def withoutTypes (text : String) : Except ErasureFault String :=
  match parse? text with
  | none => .error .unreadable
  | some p => match p.erase? with
    | none => .error .refused
    | some q => .ok q.layout

end Componentry.Script
