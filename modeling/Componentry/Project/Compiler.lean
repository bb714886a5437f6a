import Componentry.Module.Compile
import Componentry.Module.Script
import Componentry.Project.Cache

/-!
# The compiler of a project

Compiles the units of a file tree, keeps what it made in a cache, and keeps the index of the
project from its first use until it is asked to look again.
-/

namespace Componentry

/-- A compiler with its cache and index. -/
structure Compiler where
  options : Options
  styles : Style.Compiler := Style.nestedCompiler
  cache : ModuleCache
  index : Option Index := none

namespace Compiler

def ofOptions (options : Options) (t : FileTree) : Compiler :=
  { options, cache := ModuleCache.ofOptions options.cache t }

variable (c : Compiler) (t : FileTree)

/-- The index to resolve children with, scanned on its first use. -/
def withIndex : Option Index × Compiler :=
  match c.options.projectRoot with
  | none => (none, c)
  | some root =>
    if !c.options.resolveChildren then (none, c)
    else match c.index with
      | some index => (some index, c)
      | none =>
        let index := Project.scan t c.options root
        (some index, { c with index := some index })

def refresh : Compiler := { c with index := none }

/-- Compiles a file that the cache does not serve, and stores the result with the time that the
file had before it was read. -/
def compileFresh (path : String) : Except Failure Module × Compiler :=
  match t.time? path with
  | none => (.error (.file path .untimed), c)
  | some time =>
    match t.textAt path with
    | .error e => (.error e, c)
    | .ok source =>
      let (index, c) := c.withIndex t
      match Module.compile c.options index c.styles path source with
      | .error e => (.error e, c)
      | .ok module => (.ok module, { c with cache := c.cache.set path path time module })

/-- Compiles a file, from the cache if it has not changed. -/
def compile (path : String) : Except Failure Module × Compiler :=
  match c.cache.get path (t.time? path) with
  | (some module, cache) => (.ok module, { c with cache })
  | (none, cache) => compileFresh { c with cache } t path

def compileAll (c : Compiler) (t : FileTree) : List String → List (Except Failure Module) × Compiler
  | [] => ([], c)
  | path :: rest =>
    let (result, c) := c.compile t path
    let (results, c) := compileAll c t rest
    (result :: results, c)

def scriptFile (id : String) : String :=
  match Text.splitOnce Module.scriptQuery.toList id.toList with
  | some (file, _) => String.ofList file
  | none => id

/-- The companion script that is served under a name. -/
def script (id : String) : Except Failure ScriptModule := do
  let source ← t.textAt (scriptFile id)
  ScriptModule.compile (Source.blocks c.options source).scriptText id

/-- Removes what the cache holds for a file. -/
def invalidate (c : Compiler) (path : String) : Bool × Compiler :=
  let (found, cache) := c.cache.invalidate path
  (found, { c with cache })

/-- Writes the snapshot that the options name; says whether it was written. -/
def flush : Bool × FileTree :=
  match c.options.cache.snapshotPath with
  | none => (false, t)
  | some path =>
    let (result, t) := c.cache.save t path
    (result.isOk, t)

end Compiler

end Componentry
