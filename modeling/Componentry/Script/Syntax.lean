/-!
# Syntax of scripts

The tree of a typed module script. Types leave no trace in the tree beyond the places where they
change what runs: casts, declarations that only describe, parameter properties, enums and
namespaces. Nodes whose place in the text matters carry a span of character offsets.
-/

namespace Componentry.Script

/-- A range of character offsets, `start` included and `stop` not. -/
structure Span where
  start : Nat
  stop : Nat
deriving DecidableEq, Repr, Inhabited

/-- A literal as it was written. -/
inductive Literal where
  | null
  | bool (b : Bool)
  | number (raw : String)
  | bigInt (raw : String)
  /-- A string, by its value and by the text between its quotes. -/
  | string (value raw : String)
  | regex (body flags : String)
deriving DecidableEq, Repr

/-- One stretch of text of a template literal. -/
structure Quasi where
  /-- The text with escapes undone, if they can be. -/
  cooked : Option String
  /-- The text as written, line ends normalised. -/
  raw : String
deriving DecidableEq, Repr

/-- How a type is attached to an expression. -/
inductive Cast where
  | as
  | satisfies
  | assertion
  | nonNull
  | instantiation
deriving DecidableEq, Repr

/-- How a variable is declared. -/
inductive VarKind where
  | var
  | let_
  | const
  | using
  | awaitUsing
deriving DecidableEq, Repr

/-- What a method is called as. -/
inductive MethodKind where
  | method
  | get
  | set
  | constructor
deriving DecidableEq, Repr

/-- Words in front of a class member or parameter that matter later. -/
structure Flags where
  isStatic : Bool := false
  isAsync : Bool := false
  isAbstract : Bool := false
  isDeclare : Bool := false
  isAccessor : Bool := false
  /-- `readonly`, `override` or an access word: a parameter becomes a property. -/
  isProperty : Bool := false
deriving DecidableEq, Repr

/-- The name of an import or export: an identifier or a string. -/
structure ModuleName where
  name : String
  quoted : Bool
deriving DecidableEq, Repr, Inhabited

/-- One name of an import list. -/
inductive ImportSpec where
  | default (name : String)
  | namespace_ (name : String)
  | named (imported : ModuleName) (name : String) (typeOnly : Bool)
deriving DecidableEq, Repr

/-- One name of an export list. -/
structure ExportSpec where
  inner : ModuleName
  outer : ModuleName
  typeOnly : Bool
deriving DecidableEq, Repr

/-- An import attribute. -/
structure ImportAttribute where
  key : ModuleName
  value : String
deriving DecidableEq, Repr

mutual

/-- An expression. -/
inductive Expr where
  | ident (at_ : Span) (name : String)
  | literal (at_ : Span) (value : Literal)
  | template (at_ : Span) (quasis : List Quasi) (parts : List Expr)
  | tagged (at_ : Span) (tag : Expr) (quasis : List Quasi) (parts : List Expr)
  | this (at_ : Span)
  | super (at_ : Span)
  | array (at_ : Span) (items : List Item)
  | object (at_ : Span) (props : List Property)
  /-- A function; the flag says that parentheses stood right around it. -/
  | function (at_ : Span) (fn : Function) (wrapped : Bool)
  /-- An arrow; the flag says that parentheses stood right around it. -/
  | arrow (at_ : Span) (fn : Function) (wrapped : Bool)
  | class_ (at_ : Span) (cls : Class)
  | unary (at_ : Span) (op : String) (arg : Expr)
  | update (at_ : Span) (op : String) (before : Bool) (arg : Expr)
  | binary (at_ : Span) (op : String) (left right : Expr)
  | logical (at_ : Span) (op : String) (left right : Expr)
  | privateIn (at_ : Span) (name : String) (right : Expr)
  | assign (at_ : Span) (op : String) (target : Pattern) (value : Expr)
  | cond (at_ : Span) (test yes no : Expr)
  | call (at_ : Span) (callee : Expr) (args : List Item) (optional : Bool)
  | new (at_ : Span) (callee : Expr) (args : List Item)
  | member (at_ : Span) (object : Expr) (name : String) (optional : Bool)
  | privateMember (at_ : Span) (object : Expr) (name : String) (optional : Bool)
  | index (at_ : Span) (object key : Expr) (optional : Bool)
  | chain (at_ : Span) (e : Expr)
  | sequence (at_ : Span) (es : List Expr)
  | yield (at_ : Span) (delegate : Bool) (arg : Option Expr)
  | await (at_ : Span) (arg : Expr)
  /-- `import(e)`; the phase is empty, `defer` or `source`. -/
  | importCall (at_ : Span) (phase : String) (source : Expr) (options : Option Expr)
  | metaProperty (at_ : Span) (left right : String)
  | paren (at_ : Span) (e : Expr)
  /-- An expression with a type attached. -/
  | cast (at_ : Span) (how : Cast) (e : Expr)
  /-- A call that a comment marks as free of effects. -/
  | inert (at_ : Span) (e : Expr)

/-- An item of an array or argument list. -/
inductive Item where
  | hole
  | plain (e : Expr)
  | spread (at_ : Span) (e : Expr)

/-- A member of an object literal. -/
inductive Property where
  | field (at_ : Span) (key : Key) (value : Expr) (shorthand : Bool)
  | method (at_ : Span) (key : Key) (kind : MethodKind) (fn : Function)
  | spread (at_ : Span) (e : Expr)
  /-- `name = e`, which only a pattern may hold. -/
  | initialised (at_ : Span) (name : String) (value : Expr)

/-- The key of a property. -/
inductive Key where
  | name (at_ : Span) (text : String)
  | literal (at_ : Span) (value : Literal)
  | private_ (text : String)
  | computed (e : Expr)

/-- A binding or an assignment target. -/
inductive Pattern where
  | bind (at_ : Span) (name : String)
  | target (e : Expr)
  | array (at_ : Span) (items : List (Option Pattern)) (rest : Option Pattern)
  | object (at_ : Span) (props : List PatternProperty) (rest : Option Pattern)
  | withDefault (p : Pattern) (e : Expr)

/-- A member of an object pattern. -/
inductive PatternProperty where
  | mk (key : Key) (value : Pattern) (shorthand : Bool)

/-- A parameter of a function. -/
inductive Param where
  | mk (at_ : Span) (decorators : List Decorator) (flags : Flags) (pattern : Pattern)

/-- A function, method or arrow. -/
inductive Function where
  /-- Its parts; an arrow with an expression body holds a single `return`-less statement and is
  marked `concise`. A function without a body is a signature. -/
  | mk (name : Option String) (isAsync generator : Bool) (params : List Param)
      (rest : Option Param) (body : Option (List Statement)) (bodyAt : Span) (concise : Bool)

/-- A decorator. -/
inductive Decorator where
  | mk (at_ : Span) (e : Expr)

/-- A class. -/
inductive Class where
  /-- Its parts, with the place of the body. -/
  | mk (name : Option String) (decorators : List Decorator) (parent : Option Expr)
      (isAbstract isDeclare : Bool) (bodyAt : Span) (members : List Member)

/-- A member of a class. -/
inductive Member where
  | method (at_ : Span) (decorators : List Decorator) (flags : Flags) (key : Key)
      (kind : MethodKind) (fn : Function)
  | field (at_ : Span) (decorators : List Decorator) (flags : Flags) (key : Key)
      (value : Option Expr)
  | block (at_ : Span) (body : List Statement)
  | signature (at_ : Span)

/-- A declarator of a variable declaration. -/
inductive Declarator where
  | mk (at_ : Span) (pattern : Pattern) (value : Option Expr)

/-- A clause of a `switch`. -/
inductive Clause where
  /-- The test, none for `default`, and the statements. -/
  | mk (at_ : Span) (test : Option Expr) (body : List Statement)

/-- A member of an enum. -/
inductive EnumMember where
  | mk (at_ : Span) (name : String) (value : Option Expr)

/-- The head of a `for` statement. -/
inductive ForHead where
  | empty
  | declare (at_ : Span) (kind : VarKind) (decls : List Declarator)
  | expr (e : Expr)
  | target (p : Pattern)

/-- What `export default` exports. -/
inductive DefaultExport where
  | function (at_ : Span) (fn : Function)
  | class_ (at_ : Span) (cls : Class)
  | interface_ (at_ : Span)
  | expr (e : Expr)

/-- A statement. -/
inductive Statement where
  | expr (at_ : Span) (e : Expr)
  | directive (at_ : Span) (raw : String)
  | block (at_ : Span) (body : List Statement)
  | empty (at_ : Span)
  | variables (at_ : Span) (kind : VarKind) (isDeclare : Bool) (decls : List Declarator)
  /-- A function declaration or signature. -/
  | function (at_ : Span) (isDeclare : Bool) (fn : Function)
  | class_ (at_ : Span) (cls : Class)
  | if_ (at_ : Span) (test : Expr) (yes : Statement) (no : Option Statement)
  | doWhile (at_ : Span) (body : Statement) (test : Expr)
  | while_ (at_ : Span) (test : Expr) (body : Statement)
  | for_ (at_ : Span) (init : ForHead) (test update : Option Expr) (body : Statement)
  | forIn (at_ : Span) (left : ForHead) (right : Expr) (body : Statement)
  | forOf (at_ : Span) (isAwait : Bool) (left : ForHead) (right : Expr) (body : Statement)
  | continue_ (at_ : Span) (label : Option String)
  | break_ (at_ : Span) (label : Option String)
  | return_ (at_ : Span) (e : Option Expr)
  | with_ (at_ : Span) (e : Expr) (body : Statement)
  | switch (at_ : Span) (e : Expr) (clauses : List Clause)
  | labeled (at_ : Span) (label : String) (body : Statement)
  | throw_ (at_ : Span) (e : Expr)
  | try_ (at_ : Span) (blockAt : Span) (body : List Statement) (param : Option Pattern)
      (handlerAt : Option Span) (handler : List Statement) (finallyAt : Option Span)
      (finalizer : List Statement)
  | debugger (at_ : Span)
  /-- An import; no list for `import "m"`. -/
  | import_ (at_ : Span) (typeOnly : Bool) (phase : String) (specs : Option (List ImportSpec))
      (source : String) (attributes : Option (List ImportAttribute))
  | exportNames (at_ : Span) (typeOnly : Bool) (specs : List ExportSpec) (source : Option String)
      (attributes : Option (List ImportAttribute))
  | exportDecl (at_ : Span) (decl : Statement)
  | exportDefault (at_ : Span) (value : DefaultExport)
  | exportAll (at_ : Span) (typeOnly : Bool) (name : Option ModuleName) (source : String)
      (attributes : Option (List ImportAttribute))
  | enum_ (at_ : Span) (isDeclare : Bool) (name : String) (members : List EnumMember)
  | namespace_ (at_ : Span) (isDeclare : Bool) (path : List String) (body : List Statement)
  /-- An interface, a type alias, a module for a quoted name or anything else that only
  describes; the name it gives a type, if it does. -/
  | typeOnly (at_ : Span) (name : Option String)
  | importAlias (at_ : Span) (typeOnly : Bool) (name : String) (path : List String)
  | importRequire (at_ : Span) (typeOnly : Bool) (name : String) (source : String)
  | exportAssign (at_ : Span) (e : Expr)

end

def Expr.span : Expr → Span
  | .ident s _ | .literal s _ | .template s .. | .tagged s .. | .this s | .super s
  | .array s _ | .object s _ | .function s .. | .arrow s .. | .class_ s _ | .unary s _ _
  | .update s .. | .binary s .. | .logical s .. | .privateIn s .. | .assign s _ _ _
  | .cond s .. | .call s .. | .new s .. | .member s .. | .privateMember s _ _ _
  | .index s .. | .chain s _ | .sequence s _ | .yield s .. | .await s _ | .importCall s _ _ _
  | .metaProperty s .. | .paren s _ | .cast s .. | .inert s _ => s

def Statement.span : Statement → Span
  | .expr s _ | .directive s _ | .block s _ | .empty s | .variables s .. | .function s _ _
  | .class_ s _ | .if_ s .. | .doWhile s .. | .while_ s .. | .for_ s _ _ _ _
  | .forIn s .. | .forOf s .. | .continue_ s _ | .break_ s _ | .return_ s _ | .with_ s _ _
  | .switch s .. | .labeled s .. | .throw_ s _ | .try_ s .. | .debugger s
  | .import_ s .. | .exportNames s .. | .exportDecl s _ | .exportDefault s _
  | .exportAll s .. | .enum_ s .. | .namespace_ s .. | .typeOnly s _
  | .importAlias s .. | .importRequire s .. | .exportAssign s _ => s

def Member.span : Member → Span
  | .method s .. | .field s .. | .block s _ | .signature s => s

def Item.span : Item → Span
  | .hole => default
  | .plain e => e.span
  | .spread at_ _ => at_

def Function.name : Function → Option String
  | .mk name .. => name

def Function.isSignature : Function → Bool
  | .mk _ _ _ _ _ body _ _ => body.isNone

/-- A comment of a script. -/
structure Comment where
  at_ : Span
  text : String
  isLine : Bool
  /-- A line end stands between it and the token before it. -/
  afterNewline : Bool
  beforeNewline : Bool
  /-- It belongs to the token before it, on whose line it stands. -/
  trailing : Bool
  token : Nat
deriving DecidableEq, Repr

variable (c : Comment)

/-- What a comment says, without the marks that open and close it. -/
def Comment.content : List Char :=
  let inside := c.text.toList.drop 2
  if c.isLine then inside else inside.take (inside.length - 2)

/-- A comment that opens with the given word after an at sign or a number sign. -/
def Comment.isMark (word : String) : Bool :=
  match c.content.dropWhile Char.isWhitespace with
  | m :: rest => (m == '@' || m == '#') && word.toList.isPrefixOf rest
  | [] => false

def Comment.marksCall : Bool := c.isMark "__PURE__"

def Comment.marksFunction : Bool := c.isMark "__NO_SIDE_EFFECTS__"

/-- A whole script. -/
structure Program where
  /-- The first line when it is an interpreter line. -/
  hashbang : Option String
  body : List Statement
  comments : List Comment
  length : Nat

end Componentry.Script
