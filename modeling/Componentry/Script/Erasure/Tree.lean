import Componentry.Script.Erasure.Constants
import Componentry.Script.Erasure.Names

/-!
# Erasing types

What is left of a script when its types are taken away: declarations that only describe vanish,
enums become objects that are filled in, namespaces become functions that fill in an object, and
parameter properties become assignments.
-/

namespace Componentry.Script.Erasure

/-- What erasure has met so far. -/
structure Ledger where
  /-- Names that may not be taken for something new. -/
  taken : List String
  enums : List (String × EnumTable) := []

abbrev Eraser := StateM Ledger

/-- Where a node stands. -/
structure Setting where
  top : Bool
  /-- Members of the surrounding enum, with the name under which its object is known. -/
  members : List (String × String) := []
  /-- The names that are read at the level of the surrounding module or namespace. -/
  reads : List String := []
  finders : Finders

/-- The erasures that the erasure of a node refers back to. -/
structure Erasers where
  expr : Setting → Expr → Eraser Expr
  pattern : Setting → Pattern → Eraser Pattern
  /-- A statement, which may vanish or become several. -/
  statement : Setting → Statement → Eraser (List Statement)

variable (r : Erasers) (s : Setting)

def Setting.inner : Setting := { s with top := false }

/-! ### New nodes -/

def var (name : String) : Expr := .ident default name

def str (s : String) : Expr := .literal default (.string s s)

def setTo (target value : Expr) : Expr := .assign default "=" (.target target) value

def run (e : Expr) : Statement := .expr default e

def emptyObject : Expr := .object default []

def unaryFunction (param : String) (body : List Statement) : Expr :=
  .function default (.mk none false false [.mk default [] {} (.bind default param)] none (some body)
    default false) false

def declare_ (at_ : Span) (kind : VarKind) (name : String) (value : Option Expr) : Statement :=
  .variables at_ kind false [.mk default (.bind default name) value]

/-- A name that is not taken yet: an underscore before it, and a number behind it from two on. -/
def freshName (name : String) (taken : List String) : String :=
  let base := "_" ++ String.ofList (name.toList.dropWhile (· == '_'))
  if !taken.contains base then base
  else
    let numbered := (List.range (taken.length + 1)).map fun i => base ++ toString (i + 2)
    (numbered.find? fun n => !taken.contains n).getD base

def fresh (name : String) : Eraser String := do
  let n := freshName name (← get).taken
  modify fun l => { l with taken := n :: l.taken }
  return n

/-! ### Parts of expressions -/

def eraseItem : Item → Eraser Item
  | .hole => return .hole
  | .plain e => return .plain (← r.expr s e)
  | .spread at_ e => return .spread at_ (← r.expr s e)

def eraseKey : Key → Eraser Key
  | .computed e => return .computed (← r.expr s e)
  | k => return k

def eraseDecorator : Decorator → Eraser Decorator
  | .mk at_ e => return .mk at_ (← r.expr s e)

def eraseParam : Param → Eraser Param
  | .mk at_ decorators _ pattern => do
    let decorators ← decorators.mapM (eraseDecorator r s)
    return .mk at_ decorators {} (← r.pattern s pattern)

def eraseAll (body : List Statement) : Eraser (List Statement) := do
  return (← body.mapM (r.statement s)).flatten

/-- A statement that another one governs; an empty block stands for one that vanishes. -/
def eraseOne (body : Statement) : Eraser Statement := do
  match ← r.statement s.inner body with
  | [b] => return b
  | bs => return .block default bs

def propertyParams (params : List Param) : List String :=
  params.filterMap fun
    | .mk _ _ flags (.bind _ name) | .mk _ _ flags (.withDefault (.bind _ name) _) =>
      if flags.isProperty then some name else none
    | _ => none

def isSuperCall : Statement → Bool
  | .expr _ (.call _ (.super _) _ _) => true
  | _ => false

def isDirective : Statement → Bool
  | .directive .. => true
  | _ => false

/-- Puts statements where a constructor may first use `this`: after the call of the parent's
constructor, and at the top if there is none. -/
def openWith (first body : List Statement) : List Statement :=
  if body.any isSuperCall then
    let before := body.takeWhile fun s => !isSuperCall s
    let after := body.drop before.length
    before ++ after.take 1 ++ first ++ after.drop 1
  else
    let directives := body.takeWhile isDirective
    directives ++ first ++ body.drop directives.length

/-- A function; a constructor assigns the properties that its parameters declare. -/
def eraseFunction (isConstructor : Bool) : Function → Eraser Function
  | .mk name isAsync generator params rest body bodyAt concise => do
    let s := s.inner
    let properties := if isConstructor then propertyParams params else []
    let params ← params.mapM (eraseParam r s)
    let rest ← rest.mapM (eraseParam r s)
    let body ← body.mapM fun statements => do
      let statements ← eraseAll r s statements
      let assignments := properties.map fun n =>
        run (setTo (.member default (.this default) n false) (var n))
      return if assignments.isEmpty then statements else openWith assignments statements
    return .mk name isAsync generator params rest body bodyAt concise

/-- A member of a class, unless it only describes. -/
def eraseMember : Member → Eraser (Option Member)
  | .method at_ decorators flags key kind fn => do
    if flags.isAbstract || fn.isSignature then return none
    let decorators ← decorators.mapM (eraseDecorator r s)
    let key ← eraseKey r s key
    return some (.method at_ decorators flags key kind (← eraseFunction r s (kind == .constructor) fn))
  | .field at_ decorators flags key value => do
    if flags.isAbstract || flags.isDeclare then return none
    let decorators ← decorators.mapM (eraseDecorator r s)
    let key ← eraseKey r s key
    return some (.field at_ decorators flags key (← value.mapM (r.expr s.inner)))
  | .block at_ body => return some (.block at_ (← eraseAll r s.inner body))
  | .signature _ => return none

def eraseClass : Class → Eraser Class
  | .mk name decorators parent _ isDeclare bodyAt members => do
    let decorators ← decorators.mapM (eraseDecorator r s)
    let parent ← parent.mapM (r.expr s)
    let members ← members.filterMapM (eraseMember r s)
    return .mk name decorators parent false isDeclare bodyAt members

def eraseProperty : Property → Eraser Property
  | .field at_ key value shorthand => do
    return .field at_ (← eraseKey r s key) (← r.expr s value) shorthand
  | .method at_ key kind fn => do
    return .method at_ (← eraseKey r s key) kind (← eraseFunction r s false fn)
  | .spread at_ e => return .spread at_ (← r.expr s e)
  | .initialised at_ name value => return .initialised at_ name (← r.expr s value)

def eraseExpr (e : Expr) : Eraser Expr :=
  match e with
  | .ident at_ name => match s.members.lookup name with
    | some object => return .member at_ (var object) name false
    | none => return e
  | .literal .. | .this _ | .super _ | .metaProperty .. => return e
  | .template at_ quasis parts => return .template at_ quasis (← parts.mapM (r.expr s))
  | .tagged at_ tag quasis parts => do
    return .tagged at_ (← r.expr s tag) quasis (← parts.mapM (r.expr s))
  | .array at_ items => return .array at_ (← items.mapM (eraseItem r s))
  | .object at_ props => return .object at_ (← props.mapM (eraseProperty r s))
  | .function at_ fn wrapped => return .function at_ (← eraseFunction r s false fn) wrapped
  | .arrow at_ fn wrapped => return .arrow at_ (← eraseFunction r s false fn) wrapped
  | .class_ at_ cls => return .class_ at_ (← eraseClass r s cls)
  | .unary at_ op e => return .unary at_ op (← r.expr s e)
  | .update at_ op before e => return .update at_ op before (← r.expr s e)
  | .binary at_ op a b => return .binary at_ op (← r.expr s a) (← r.expr s b)
  | .logical at_ op a b => return .logical at_ op (← r.expr s a) (← r.expr s b)
  | .privateIn at_ name e => return .privateIn at_ name (← r.expr s e)
  | .assign at_ op target value => return .assign at_ op (← r.pattern s target) (← r.expr s value)
  | .cond at_ a b c => return .cond at_ (← r.expr s a) (← r.expr s b) (← r.expr s c)
  | .call at_ callee args optional => do
    return .call at_ (← r.expr s callee) (← args.mapM (eraseItem r s)) optional
  | .new at_ callee args => return .new at_ (← r.expr s callee) (← args.mapM (eraseItem r s))
  | .member at_ e name optional => return .member at_ (← r.expr s e) name optional
  | .privateMember at_ e name optional => return .privateMember at_ (← r.expr s e) name optional
  | .index at_ e key optional => return .index at_ (← r.expr s e) (← r.expr s key) optional
  | .chain at_ e => return .chain at_ (← r.expr s e)
  | .sequence at_ es => return .sequence at_ (← es.mapM (r.expr s))
  | .yield at_ delegate e => return .yield at_ delegate (← e.mapM (r.expr s))
  | .await at_ e => return .await at_ (← r.expr s e)
  | .importCall at_ phase source options => do
    return .importCall at_ phase (← r.expr s source) (← options.mapM (r.expr s))
  | .paren at_ e => return .paren at_ (← r.expr s e)
  | .cast _ _ e => r.expr s e
  | .inert at_ e => return .inert at_ (← r.expr s e)

def erasePattern : Pattern → Eraser Pattern
  | .bind at_ name => return .bind at_ name
  | .target e => return .target (← r.expr s e)
  | .array at_ items rest => do
    return .array at_ (← items.mapM (·.mapM (r.pattern s))) (← rest.mapM (r.pattern s))
  | .object at_ props rest => do
    let props ← props.mapM fun (.mk key value shorthand) => do
      return PatternProperty.mk (← eraseKey r s key) (← r.pattern s value) shorthand
    return .object at_ props (← rest.mapM (r.pattern s))
  | .withDefault p e => return .withDefault (← r.pattern s p) (← r.expr s e)

def eraseDeclarator : Declarator → Eraser Declarator
  | .mk at_ pattern value => return .mk at_ (← r.pattern s pattern) (← value.mapM (r.expr s))

def eraseHead : ForHead → Eraser ForHead
  | .empty => return .empty
  | .declare at_ kind decls => return .declare at_ kind (← decls.mapM (eraseDeclarator r s))
  | .expr e => return .expr (← r.expr s e)
  | .target p => return .target (← r.pattern s p)

/-! ### Enums -/

def mayAct : Expr → Bool
  | .call .. | .new .. | .inert .. => true
  | _ => false

/-- The initial value of a member of the enum `object`: its constant if it has one, what is written
otherwise, and one more than the member before if nothing is. -/
def memberValue (object : String) (known : EnumTable)
    (before : Option String) (last : Option Constant) (value : Option Expr) :
    Eraser (Option Constant × Expr) := do
  match value with
  | some e =>
    match constant? known (← get).enums 64 e with
    | some c => return (some c, c.toExpr)
    | none =>
      let names := known.map fun (n, _) => (n, object)
      return (none, ← r.expr { s.inner with members := names } e)
  | none =>
    match last, before with
    | some (.number x), _ =>
      let next := ((Constant.number x).binary "+" (Constant.ofInt 1)).getD .undefined
      return (some next, next.toExpr)
    | some c, _ => return (some c, c.toExpr)
    | none, some n =>
      return (none, .binary default "+" (.literal default (.number "1"))
        (.index default (var object) (str n) false))
    | none, none => return (none, .literal default (.number "0"))

/-- The statement that fills in a member: both ways for numbers, one way for texts. -/
def fillMember (at_ : Span) (object name : String) (value : Expr) : Statement :=
  let set := setTo (.index default (var object) (str name) false) value
  match value with
  | .literal _ (.string ..) => .expr at_ set
  | _ => .expr at_ (setTo (.index default (var object) set false) (str name))

def fillMembers (r : Erasers) (s : Setting) (object : String) :
    List EnumMember → EnumTable → Option String → Option Constant →
    Eraser (List Statement × EnumTable)
  | [], known, _, _ => return ([], known)
  | .mk at_ name value :: rest, known, before, last => do
    let (c, e) ← memberValue r s object known before last value
    let (more, known) ← fillMembers r s object rest ((name, c) :: known) (some name) c
    return (fillMember at_ object name e :: more, known)

def eraseEnum (at_ : Span) (exported : Bool) (name : String)
    (members : List EnumMember) : Eraser Statement := do
  let earlier := (← get).enums.lookup name
  let (fills, table) ← fillMembers r s name members (earlier.getD []) none
    (some (Constant.ofInt (-1)))
  modify fun l => { l with enums := (name, table) :: l.enums }
  let own := exported || !s.top
  let argument : Expr :=
    if own && earlier.isNone then emptyObject else .logical default "||" (var name) emptyObject
  let acts := members.any fun (.mk _ _ value) => value.any mayAct
  let call : Expr := .call default
    (unaryFunction name (fills ++ [.return_ default (some (var name))])) [.plain argument] false
  let call : Expr := if acts then call else .inert default call
  if earlier.isSome then return .expr at_ (setTo (var name) call)
  return declare_ at_ (if own then .let_ else .var) name (some call)

/-! ### Namespaces and aliases -/

def pathExpr : List String → Expr
  | [] => var ""
  | n :: rest => rest.foldl (fun e m => .member default e m false) (var n)

/-- The argument of a namespace's function: the object so far, or a new one that is kept. -/
def namespaceArgument (name : String) (parent : Option String) : Expr :=
  let value : Expr := match parent with
    | none => setTo (var name) emptyObject
    | some p =>
      let place : Expr := .member default (var p) name false
      setTo (var name) (.logical default "||" place (setTo place emptyObject))
  .logical default "||" (var name) value

def publish (object name : String) : Statement :=
  run (setTo (.member default (var object) name false) (var name))

/-- A declarator that also assigns its value to the object of a namespace. -/
def publishDeclarator (object : String) : Declarator → Declarator
  | .mk at_ (.bind place name) (some e) =>
    .mk at_ (.bind place name) (some (setTo (.member default (var object) name false) e))
  | d => d

def isSimple : Declarator → Bool
  | .mk _ (.bind ..) _ => true
  | _ => false

def importName : ImportSpec → String
  | .default n | .namespace_ n | .named _ n _ => n

def declaredNames (f : Finders) : Statement → List String
  | .typeOnly _ name | .exportDecl _ (.typeOnly _ name) => name.toList
  | .import_ _ _ _ specs _ _ => (specs.getD []).map importName
  | s => declaredIn f s

/-- A namespace: a function that fills in an object, called at once. `before` holds the names
declared before it, `parent` the object that it is published in. -/
def eraseNamespace (r : Erasers) : Nat → Setting → Span → Bool → List String → Option String →
    List String → List Statement → Eraser (List Statement)
  | 0, _, _, _, _, _, _, _ => return []
  | _ + 1, _, _, _, _, _, [], _ => return []
  | fuel + 1, s, at_, exported, before, parent, name :: more, body => do
    let object ← fresh name
    let items : List Statement :=
      if more.isEmpty then body else [.exportDecl default (.namespace_ at_ false more body)]
    let inner : Setting :=
      { s with top := false, reads := items.flatMap s.finders.statement }
    let statements ← eraseItems fuel inner object [] items
    if statements.isEmpty then return []
    let call : Expr := .call default (unaryFunction object statements)
      [.plain (namespaceArgument name parent)] false
    let declaration := declare_ default .let_ name none
    let opening : List Statement :=
      if before.contains name then []
      else if exported then [.exportDecl default declaration] else [declaration]
    return opening ++ [.expr at_ call]
where
  eraseItems (fuel : Nat) (s : Setting) (object : String) (before : List String) :
      List Statement → Eraser (List Statement)
    | [] => return []
    | item :: rest => do
      let mine ← match item with
        | .namespace_ at_ false path body =>
          eraseNamespace r fuel s at_ false before none path body
        | .exportDecl _ (.namespace_ at_ false path body) =>
          eraseNamespace r fuel s at_ false before (some object) path body
        | .exportDecl _ (.variables at_ kind false decls) => do
          let decls ← decls.mapM (eraseDeclarator r s)
          if decls.all isSimple then
            pure [.variables at_ kind false (decls.map (publishDeclarator object))]
          else
            let names := declaratorNames s.finders decls
            let sets := names.map fun n => setTo (.member default (var object) n false) (var n)
            pure [.variables at_ kind false decls, run (.sequence default sets)]
        | .exportDecl _ decl => do
          let kept ← r.statement s decl
          if kept.isEmpty then pure []
          else pure (kept ++ (declaredBy s.finders decl).map (publish object))
        | item => r.statement s item
      let more ← eraseItems fuel s object (declaredNames s.finders item ++ before) rest
      return mine ++ more

/-! ### Statements -/

def eraseStatement (stmt : Statement) : Eraser (List Statement) :=
  match stmt with
  | .expr at_ e => return [.expr at_ (← r.expr s e)]
  | .directive .. | .empty _ | .continue_ .. | .break_ .. | .debugger _ | .import_ _ _ _ _ _ _
  | .exportNames .. | .exportAll .. => return [stmt]
  | .block at_ body => return [.block at_ (← eraseAll r s.inner body)]
  | .variables at_ kind isDeclare decls => do
    if isDeclare then return []
    return [.variables at_ kind false (← decls.mapM (eraseDeclarator r s))]
  | .function at_ isDeclare fn => do
    if isDeclare || fn.isSignature then return []
    return [.function at_ false (← eraseFunction r s false fn)]
  | .class_ at_ cls => do
    let .mk _ _ _ _ isDeclare _ _ := cls
    if isDeclare then return []
    return [.class_ at_ (← eraseClass r s cls)]
  | .if_ at_ test yes no => do
    let test ← r.expr s test
    let yes ← eraseOne r s yes
    return [.if_ at_ test yes (← no.mapM (eraseOne r s))]
  | .doWhile at_ body test => return [.doWhile at_ (← eraseOne r s body) (← r.expr s test)]
  | .while_ at_ test body => return [.while_ at_ (← r.expr s test) (← eraseOne r s body)]
  | .for_ at_ init test update body => do
    let init ← eraseHead r s init
    let test ← test.mapM (r.expr s)
    let update ← update.mapM (r.expr s)
    return [.for_ at_ init test update (← eraseOne r s body)]
  | .forIn at_ left right body => do
    return [.forIn at_ (← eraseHead r s left) (← r.expr s right) (← eraseOne r s body)]
  | .forOf at_ isAwait left right body => do
    return [.forOf at_ isAwait (← eraseHead r s left) (← r.expr s right) (← eraseOne r s body)]
  | .return_ at_ e => return [.return_ at_ (← e.mapM (r.expr s))]
  | .with_ at_ e body => return [.with_ at_ (← r.expr s e) (← eraseOne r s body)]
  | .switch at_ e clauses => do
    let e ← r.expr s e
    let clauses ← clauses.mapM fun (.mk at_ test body) => do
      return Clause.mk at_ (← test.mapM (r.expr s)) (← eraseAll r s.inner body)
    return [.switch at_ e clauses]
  | .labeled at_ label body => return [.labeled at_ label (← eraseOne r s body)]
  | .throw_ at_ e => return [.throw_ at_ (← r.expr s e)]
  | .try_ at_ blockAt body param handlerAt handler finallyAt finalizer => do
    let body ← eraseAll r s.inner body
    let param ← param.mapM (r.pattern s)
    let handler ← eraseAll r s.inner handler
    let finalizer ← eraseAll r s.inner finalizer
    return [.try_ at_ blockAt body param handlerAt handler finallyAt finalizer]
  | .exportDecl at_ (.enum_ _ isDeclare name members) => do
    if isDeclare then return []
    match ← eraseEnum r s at_ true name members with
    | .expr place e => return [.expr place e]
    | decl => return [.exportDecl at_ decl]
  | .exportDecl at_ (.importAlias _ typeOnly name path) =>
    return if typeOnly then []
      else [.exportDecl at_ (declare_ default .var name (some (pathExpr path)))]
  | .exportDecl at_ decl => do
    return (← r.statement s decl).map fun d => .exportDecl at_ d
  | .exportDefault at_ value => do
    match value with
    | .function place fn =>
      if fn.isSignature then return []
      return [.exportDefault at_ (.function place (← eraseFunction r s false fn))]
    | .class_ place cls => return [.exportDefault at_ (.class_ place (← eraseClass r s cls))]
    | .interface_ _ => return []
    | .expr e => return [.exportDefault at_ (.expr (← r.expr s e))]
  | .enum_ at_ isDeclare name members => do
    if isDeclare then return []
    return [← eraseEnum r s at_ false name members]
  | .importAlias at_ typeOnly name path =>
    return if typeOnly || !s.reads.contains name then []
      else [declare_ at_ .var name (some (pathExpr path))]
  | .namespace_ .. | .typeOnly .. | .importRequire .. | .exportAssign .. => return []

def erasersOf : Nat → Erasers
  | 0 => ⟨fun _ e => pure e, fun _ p => pure p, fun _ _ => pure []⟩
  | n + 1 =>
    { expr := fun s e => eraseExpr (erasersOf n) s e
      pattern := fun s p => erasePattern (erasersOf n) s p
      statement := fun s stmt => eraseStatement (erasersOf n) s stmt }

end Componentry.Script.Erasure
