import Componentry.Script.Syntax

/-!
# Names in scripts

Which names a script binds and which variables it reads. A name that only stands in types is not
read. A name counts as read from outside a scope unless that scope binds it.
-/

namespace Componentry.Script.Erasure

/-- The searches that the search of a node refers back to. -/
structure Finders where
  bound : Pattern → List String
  /-- The names that `var` binds in the function around a statement. -/
  hoisted : Statement → List String
  /-- The names that an expression reads. -/
  expr : Expr → List String
  pattern : Pattern → List String
  statement : Statement → List String

def without (names hidden : List String) : List String :=
  names.filter fun n => !hidden.contains n

/-! ### Bound names -/

variable (f : Finders)

def boundIn : Pattern → List String
  | .bind _ name => [name]
  | .target _ => []
  | .array _ items rest =>
    (items.flatMap fun x => x.elim [] f.bound) ++ rest.elim [] f.bound
  | .object _ props rest =>
    (props.flatMap fun (.mk _ value _) => f.bound value) ++ rest.elim [] f.bound
  | .withDefault p _ => f.bound p

def declaratorNames (decls : List Declarator) : List String :=
  decls.flatMap fun (.mk _ pattern _) => f.bound pattern

def headNames : ForHead → List String
  | .declare _ _ decls => declaratorNames f decls
  | _ => []

def className : Class → Option String
  | .mk name .. => name

/-- The names that a declaration binds in the scope it stands in. -/
def declaredBy : Statement → List String
  | .variables _ _ _ decls => declaratorNames f decls
  | .function _ _ fn => fn.name.toList
  | .class_ _ cls => (className cls).toList
  | .enum_ _ _ name _ => [name]
  | .namespace_ _ _ path _ => path.take 1
  | .importAlias _ _ name _ | .importRequire _ _ name _ => [name]
  | _ => []

def declaredIn : Statement → List String
  | .exportDecl _ decl => declaredBy f decl
  | .exportDefault _ (.function _ fn) => fn.name.toList
  | .exportDefault _ (.class_ _ cls) => (className cls).toList
  | s => declaredBy f s

/-- The names that `var` binds in the function around a statement. -/
def hoistedIn : Statement → List String
  | .variables _ .var _ decls => declaratorNames f decls
  | .block _ body => body.flatMap f.hoisted
  | .if_ _ _ yes no => f.hoisted yes ++ no.elim [] f.hoisted
  | .doWhile _ body _ | .while_ _ _ body | .with_ _ _ body | .labeled _ _ body => f.hoisted body
  | .for_ _ head _ _ body | .forIn _ head _ body | .forOf _ _ head _ body =>
    headVars head ++ f.hoisted body
  | .switch _ _ clauses => clauses.flatMap fun (.mk _ _ body) => body.flatMap f.hoisted
  | .try_ _ _ body _ _ handler _ finalizer =>
    body.flatMap f.hoisted ++ handler.flatMap f.hoisted ++ finalizer.flatMap f.hoisted
  | _ => []
where
  /-- The names that `var` binds in the head of a loop. -/
  headVars : ForHead → List String
    | .declare _ .var decls => declaratorNames f decls
    | _ => []

/-! ### Names that are read -/

def maybeReads : Option Expr → List String
  | some e => f.expr e
  | none => []

def itemReads (items : List Item) : List String :=
  items.flatMap fun x => match x with
    | .hole => []
    | .plain e | .spread _ e => f.expr e

def keyReads : Key → List String
  | .computed e => f.expr e
  | _ => []

def decoratorReads (decorators : List Decorator) : List String :=
  decorators.flatMap fun (.mk _ e) => f.expr e

/-- The names that statements read from outside the block they form. -/
def blockReads (body : List Statement) : List String :=
  without (body.flatMap f.statement) (body.flatMap (declaredIn f))

def functionReads (bindsName : Bool) : Function → List String
  | .mk name _ _ params rest body _ _ =>
    let all := params ++ rest.toList
    let own := if bindsName then name.toList else []
    let names := all.flatMap fun (.mk _ _ _ pattern) => f.bound pattern
    let reads := all.flatMap fun (.mk _ decorators _ pattern) =>
      decoratorReads f decorators ++ f.pattern pattern
    match body with
    | some statements =>
      without (reads ++ blockReads f statements)
        (own ++ names ++ statements.flatMap f.hoisted)
    | none => without reads names

def memberReads : Member → List String
  | .method _ decorators _ key _ fn =>
    decoratorReads f decorators ++ keyReads f key ++ functionReads f false fn
  | .field _ decorators _ key value =>
    decoratorReads f decorators ++ keyReads f key ++ maybeReads f value
  | .block _ body => without (blockReads f body) (body.flatMap f.hoisted)
  | .signature _ => []

def classReads : Class → List String
  | .mk name decorators parent _ _ _ members =>
    without (decoratorReads f decorators ++ maybeReads f parent ++ members.flatMap (memberReads f))
      name.toList

def propertyReads : Property → List String
  | .field _ key value _ => keyReads f key ++ f.expr value
  | .method _ key _ fn => keyReads f key ++ functionReads f false fn
  | .spread _ e => f.expr e
  | .initialised _ _ value => f.expr value

def exprReads : Expr → List String
  | .ident _ name => [name]
  | .literal .. | .this _ | .super _ | .metaProperty .. => []
  | .template _ _ parts => parts.flatMap f.expr
  | .tagged _ tag _ parts => f.expr tag ++ parts.flatMap f.expr
  | .array _ items => itemReads f items
  | .object _ props => props.flatMap (propertyReads f)
  | .function _ fn _ => functionReads f true fn
  | .arrow _ fn _ => functionReads f false fn
  | .class_ _ cls => classReads f cls
  | .unary _ _ e | .update _ _ _ e | .await _ e | .paren _ e | .cast _ _ e | .inert _ e
  | .chain _ e | .member _ e _ _ | .privateMember _ e _ _ | .privateIn _ _ e => f.expr e
  | .binary _ _ a b | .logical _ _ a b | .index _ a b _ => f.expr a ++ f.expr b
  | .assign _ _ target value => f.pattern target ++ f.expr value
  | .cond _ a b c => f.expr a ++ f.expr b ++ f.expr c
  | .call _ callee args _ | .new _ callee args => f.expr callee ++ itemReads f args
  | .sequence _ es => es.flatMap f.expr
  | .yield _ _ arg => maybeReads f arg
  | .importCall _ _ source options => f.expr source ++ maybeReads f options

def patternReads : Pattern → List String
  | .bind .. => []
  | .target e => f.expr e
  | .array _ items rest =>
    (items.flatMap fun x => x.elim [] f.pattern) ++ rest.elim [] f.pattern
  | .object _ props rest =>
    (props.flatMap fun (.mk key value _) => keyReads f key ++ f.pattern value)
      ++ rest.elim [] f.pattern
  | .withDefault p e => f.pattern p ++ f.expr e

def declaratorReads (decls : List Declarator) : List String :=
  decls.flatMap fun (.mk _ pattern value) => f.pattern pattern ++ maybeReads f value

def headReads : ForHead → List String
  | .empty => []
  | .declare _ _ decls => declaratorReads f decls
  | .expr e => f.expr e
  | .target p => f.pattern p

def statementReads : Statement → List String
  | .expr _ e | .throw_ _ e | .exportAssign _ e | .exportDefault _ (.expr e) => f.expr e
  | .directive .. | .empty _ | .continue_ .. | .break_ .. | .debugger _ | .import_ _ _ _ _ _ _
  | .exportAll .. | .exportDefault _ (.interface_ _) | .typeOnly .. | .importRequire .. => []
  | .block _ body => blockReads f body
  | .variables _ _ _ decls => declaratorReads f decls
  | .function _ _ fn | .exportDefault _ (.function _ fn) => functionReads f false fn
  | .class_ _ cls | .exportDefault _ (.class_ _ cls) => classReads f cls
  | .if_ _ test yes no => f.expr test ++ f.statement yes ++ no.elim [] f.statement
  | .doWhile _ body test => f.statement body ++ f.expr test
  | .while_ _ test body => f.expr test ++ f.statement body
  | .for_ _ init test update body =>
    without (headReads f init ++ maybeReads f test ++ maybeReads f update ++ f.statement body)
      (headNames f init)
  | .forIn _ left right body | .forOf _ _ left right body =>
    without (headReads f left ++ f.expr right ++ f.statement body) (headNames f left)
  | .return_ _ e => maybeReads f e
  | .with_ _ e body => f.expr e ++ f.statement body
  | .switch _ e clauses =>
    let bodies := clauses.flatMap fun (.mk _ _ body) => body
    let tests := clauses.flatMap fun (.mk _ test _) => maybeReads f test
    f.expr e ++ without (tests ++ bodies.flatMap f.statement) (bodies.flatMap (declaredIn f))
  | .labeled _ _ body => f.statement body
  | .try_ _ _ body param _ handler _ finalizer =>
    blockReads f body
      ++ without (param.elim [] f.pattern ++ blockReads f handler) (param.elim [] f.bound)
      ++ blockReads f finalizer
  | .exportNames _ typeOnly specs source _ =>
    if source.isSome || typeOnly then []
    else (specs.filter fun s => !s.typeOnly).map fun s => s.inner.name
  | .exportDecl _ decl => f.statement decl
  | .enum_ _ _ _ members =>
    let names := members.map fun (.mk _ name _) => name
    without (members.flatMap fun (.mk _ _ value) => maybeReads f value) names
  | .namespace_ _ _ path body =>
    without (blockReads f body) (body.flatMap f.hoisted ++ path.drop 1)
  | .importAlias _ _ _ path => path.take 1

/-- The searches for at most `n` nested nodes. -/
def findersOf : Nat → Finders
  | 0 => ⟨fun _ => [], fun _ => [], fun _ => [], fun _ => [], fun _ => []⟩
  | n + 1 =>
    { bound := fun p => boundIn (findersOf n) p
      hoisted := fun s => hoistedIn (findersOf n) s
      expr := fun e => exprReads (findersOf n) e
      pattern := fun p => patternReads (findersOf n) p
      statement := fun s => statementReads (findersOf n) s }

end Componentry.Script.Erasure
