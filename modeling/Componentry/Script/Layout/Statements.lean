import Componentry.Script.Layout.Expressions

/-!
# The layout of statements

Each statement stands on a line of its own. A single statement that a loop or branch governs stays
on the line of its head. The comments before a statement are written above it.
-/

namespace Componentry.Script.Layout

variable (r : Printers)

def putTest (lead : String) (test : Expr) : Writer Unit := do
  put (lead ++ " (")
  r.expr test Level.lowest {}
  put ")"

def putGoverned (s : Statement) : Writer Unit := do
  match s with
  | .block _ body =>
    put " "
    putBlock r body
    newline
  | .empty _ => semicolon
  | s =>
    spaceNext
    r.statement s

def varWord : VarKind → String
  | .var => "var"
  | .let_ => "let"
  | .const => "const"
  | .using => "using"
  | .awaitUsing => "await using"

def putDeclarator (limits : Limits) : Declarator → Writer Unit
  | .mk _ pattern value => do
    r.pattern false pattern
    putSome " = " (r.expr · Level.comma limits) value

def putVariables (limits : Limits) (kind : VarKind) (decls : List Declarator) : Writer Unit := do
  put (varWord kind ++ " ")
  listed (putDeclarator r limits) decls

def putHead (limits : Limits) : ForHead → Writer Unit
  | .empty => pure ()
  | .declare _ kind decls => putVariables r limits kind decls
  | .expr e => r.expr e Level.lowest limits
  | .target p => r.pattern true p

def swallowsElse : Statement → Bool
  | .if_ _ _ _ none => true
  | .if_ _ _ _ (some no) => swallowsElse no
  | .for_ _ _ _ _ body | .forIn _ _ _ body | .forOf _ _ _ _ body | .while_ _ _ body
  | .with_ _ _ body | .labeled _ _ body => swallowsElse body
  | _ => false

/-- A branch, after its indentation. -/
def putIf (test : Expr) (yes : Statement) (no : Option Statement)
    (further : Expr → Statement → Option Statement → Writer Unit) : Writer Unit := do
  putTest r "if" test
  let closed : Writer Unit := if no.isSome then put " " else newline
  match yes with
  | .block _ body =>
    put " "
    putBlock r body
    closed
  | yes =>
    if swallowsElse yes then
      put " "
      braces false (r.statement yes)
      closed
    else
      putGoverned r yes
      if no.isSome then indent
  match no with
  | none => pure ()
  | some s =>
    put "else"
    match s with
    | .if_ _ test yes no =>
      put " "
      further test yes no
    | s => putGoverned r s

def putBranches (r : Printers) : Nat → Expr → Statement → Option Statement → Writer Unit
  | 0, _, _, _ => pure ()
  | n + 1, test, yes, no => putIf r test yes no (putBranches r n)

/-- How many branches follow one another in `else` parts. -/
def branchCount : Statement → Nat
  | .if_ _ _ _ (some no) => branchCount no + 1
  | _ => 1

def putClause : Clause → Writer Unit
  | .mk at_ test body => do
    leading at_.start
    indent
    match test with
    | some e =>
      put "case "
      r.expr e Level.lowest {}
    | none => put "default"
    put ":"
    match body with
    | [s] => putGoverned r s
    | body =>
      newline
      deeper do
        for s in body do
          r.statement s

def moduleName (n : ModuleName) : String :=
  if n.quoted then quoted n.name else n.name

def exportSpec (s : ExportSpec) : String :=
  if s.inner.name == s.outer.name then moduleName s.inner
  else moduleName s.inner ++ " as " ++ moduleName s.outer

def namedImport? : ImportSpec → Option String
  | .named imported name _ =>
    some (if imported.name == name then moduleName imported
      else moduleName imported ++ " as " ++ name)
  | _ => none

def looseImport? : ImportSpec → Option String
  | .default name => some name
  | .namespace_ name => some ("* as " ++ name)
  | .named .. => none

def importClause (specs : List ImportSpec) : String :=
  let loose := specs.filterMap looseImport?
  let named := specs.filterMap namedImport?
  let list := if named.isEmpty then [] else ["\x7b " ++ String.intercalate ", " named ++ " \x7d"]
  if specs.isEmpty then "\x7b\x7d" else String.intercalate ", " (loose ++ list)

def withClause : Option (List ImportAttribute) → String
  | none => ""
  | some [] => " with \x7b\x7d"
  | some as =>
    let entries := as.map fun a => moduleName a.key ++ ": " ++ quoted a.value
    " with \x7b " ++ String.intercalate ", " entries ++ " \x7d"

/-- A declaration that an export may govern, without the end of its line. -/
def putDeclaration : Statement → Writer Unit
  | .variables _ kind _ decls => do
    putVariables r {} kind decls
    put ";"
  | .function _ _ fn => putFunction r fn
  | .class_ _ cls => putClass r cls
  | _ => pure ()

/-- A statement whose line is already started, or that governs others. -/
def putBare (s : Statement) : Writer Unit :=
  match s with
  | .expr _ e => do
    let place ← here
    modify fun sheet => { sheet with statementAt := some place }
    r.expr e Level.lowest {}
    semicolon
  | .directive _ raw =>
    let quote := directiveQuote raw.toList
    put (quote ++ raw ++ quote ++ ";\n")
  | .block _ body => do
    putBlock r body
    newline
  | .empty _ => semicolon
  | .variables .. | .function .. | .class_ .. => do
    putDeclaration r s
    newline
  | .if_ _ test yes no => putBranches r (branchCount s) test yes no
  | .doWhile _ body test => do
    put "do"
    match body with
    | .block _ body =>
      put " "
      putBlock r body
      put " "
    | body =>
      newline
      deeper (r.statement body)
      indent
    putTest r "while" test
    semicolon
  | .while_ _ test body => do
    putTest r "while" test
    putGoverned r body
  | .for_ _ init test update body => do
    put "for ("
    putHead r { noIn := true } init
    put ";"
    putSome " " (r.expr · Level.lowest {}) test
    put ";"
    putSome " " (r.expr · Level.lowest {}) update
    put ")"
    putGoverned r body
  | .forIn _ left right body => do
    put "for ("
    putHead r { noIn := true } left
    put " in "
    r.expr right Level.lowest {}
    put ")"
    putGoverned r body
  | .forOf _ isAwait left right body => do
    put (if isAwait then "for await (" else "for (")
    putHead r {} left
    put " of "
    r.expr right Level.comma {}
    put ")"
    putGoverned r body
  | .continue_ _ label => do
    put "continue"
    putSome " " put label
    semicolon
  | .break_ _ label => do
    put "break"
    putSome " " put label
    semicolon
  | .return_ _ e => do
    put "return"
    putSome " " (r.expr · Level.lowest {}) e
    semicolon
  | .with_ _ e body => do
    putTest r "with" e
    putGoverned r body
  | .switch _ e clauses => do
    putTest r "switch" e
    put " "
    braces clauses.isEmpty do
      for c in clauses do
        putClause r c
    newline
  | .labeled _ label body => do
    put (label ++ ":")
    putGoverned r body
  | .throw_ _ e => do
    put "throw "
    r.expr e Level.lowest {}
    semicolon
  | .try_ _ _ body param handlerAt handler finallyAt finalizer => do
    put "try "
    putBlock r body
    if handlerAt.isSome then
      put " catch"
      putSome " " (fun p => wrapIf true (r.pattern false p)) param
      put " "
      putBlock r handler
    if finallyAt.isSome then
      put " finally "
      putBlock r finalizer
    newline
  | .debugger _ => put "debugger;\n"
  | .import_ _ _ phase specs source attributes => do
    put "import "
    unless phase.isEmpty do put (phase ++ " ")
    putSome "" (fun specs => put (importClause specs ++ " from ")) specs
    put (quoted source ++ withClause attributes)
    semicolon
  | .exportNames _ _ specs source attributes => do
    match specs with
    | [] => put "export \x7b\x7d"
    | specs => put ("export \x7b " ++ String.intercalate ", " (specs.map exportSpec) ++ " \x7d")
    putSome " from " (fun m => put (quoted m ++ withClause attributes)) source
    semicolon
  | .exportDecl _ decl => do
    put "export "
    putDeclaration r decl
    newline
  | .exportDefault _ value => do
    put "export default "
    match value with
    | .function _ fn =>
      putFunction r fn
      newline
    | .class_ _ cls =>
      putClass r cls
      newline
    | .interface_ _ => newline
    | .expr e =>
      let place ← here
      modify fun sheet => { sheet with defaultAt := some place }
      r.expr e Level.comma {}
      semicolon
  | .exportAll _ _ name source attributes => do
    put "export *"
    putSome " as " (put <| moduleName ·) name
    put (" from " ++ quoted source ++ withClause attributes)
    semicolon
  | _ => pure ()

def isWritten : Statement → Bool
  | .enum_ .. | .namespace_ .. | .typeOnly .. | .importAlias _ _ _ _
  | .importRequire .. | .exportAssign .. => false
  | _ => true

/-- A statement with the comments before it. -/
def putStatement (s : Statement) : Writer Unit := do
  if isWritten s then
    leading s.span.start
    indent
    putBare r s

/-- The layouts for at most `n` nested nodes. -/
def printersOf : Nat → Printers
  | 0 => ⟨fun _ _ _ => pure (), fun _ _ => pure (), fun _ => pure ()⟩
  | n + 1 =>
    { expr := fun e level limits => putExpr (printersOf n) e level limits
      pattern := fun isTarget p => putPattern (printersOf n) isTarget p
      statement := fun s => putStatement (printersOf n) s }

def putProgram (p : Program) : Writer Unit := do
  putSome "#!" (fun line => put (line ++ "\n")) p.hashbang
  putStatements r p.body
  leading p.length

end Componentry.Script.Layout

namespace Componentry.Script

/-- The script laid out anew. Comments are kept before statements, class members and arguments,
and where a body or the script ends. -/
def Program.layout (p : Program) : String :=
  let comments := p.comments.filter fun c =>
    !c.trailing && !c.marksCall && !c.marksFunction
  let sheet : Layout.Sheet := { comments }
  ((Layout.putProgram (Layout.printersOf (4 * p.length + 64)) p).run sheet).2.text

end Componentry.Script
