import Componentry.Script.Grammar.Modules
import Componentry.Script.Numeral

/-!
# Outlines of scripts

What the rest of the library needs to know about a script: its top-level classes and objects with
their members, its variables, and what it exports. An outline is plain data, so everything built on
it can be reasoned about without the grammar.
-/

namespace Componentry.Script

open Reader

/-! ### Reading scripts

The knot of the grammar. Nesting is bounded by the length of the text, so the bound is never met by a
text that could be read without it. -/

/-- The grammar for at most `n` nested references between rules. -/
def grammarOf : Nat → Grammar
  | 0 => .none
  | n + 1 =>
    { expression := fun c => expressionRule (grammarOf n) c
      assignment := fun b c => assignmentRule (grammarOf n) b c
      binary := fun level c => binaryRule (grammarOf n) level c
      unary := fun c => unaryRule (grammarOf n) c
      leftHand := fun c => leftHandRule (grammarOf n) c
      constructed := fun c => constructedRule (grammarOf n) c
      pattern := fun c => patternRule (grammarOf n) c
      type := fun c => typeRule (grammarOf n) c
      typeOperand := fun c => operandType (grammarOf n) c
      statement := fun place c => statementRule (grammarOf n) place c }

/-- An interpreter line at the start of a text: the line and what follows it. -/
def hashbang? (text : List Char) : Option String × List Char :=
  match text with
  | '#' :: '!' :: rest =>
    let line := rest.takeWhile fun c => !isLineEnd c
    (some (String.ofList line), rest.drop line.length)
  | _ => (none, text)

def parse? (text : String) : Option Program :=
  let chars := text.toList
  let (line, rest) := hashbang? chars
  let first : Cursor := Cursor.read {} (chars.length - rest.length) rest true
  let g := grammarOf (12 * chars.length + 64)
  match statementList g first with
  | some (body, c) =>
    if c.token = .eof && !c.flawed && c.covers.isEmpty then
      some { hashbang := line, body, comments := c.comments.reverse, length := chars.length }
    else none
  | none => none

/-! ### Outlines -/

/-- A decorator, by places in the text. -/
structure Decoration where
  at_ : Span
  /-- What is called, or the whole expression if nothing is. -/
  name : Span
  /-- From the first argument to the last, if there are any. -/
  args : Option Span
deriving DecidableEq, Repr

/-- What kind of member something is. -/
inductive MemberRole where
  /-- A method, accessor function or constructor. -/
  | method
  /-- A field or property that holds a function. -/
  | functionField
  /-- A field or property that holds something else. -/
  | field
  | other
deriving DecidableEq, Repr, Inhabited

/-- A member of a class or object. -/
structure MemberOutline where
  at_ : Span
  name : Option String
  isStatic : Bool
  role : MemberRole
  decorations : List Decoration
deriving DecidableEq, Repr

/-- A class. -/
structure ClassOutline where
  name : Option String
  at_ : Span
  bodyStart : Nat
  decorations : List Decoration
  members : List MemberOutline
deriving DecidableEq, Repr, Inhabited

/-- An object literal. -/
structure ObjectOutline where
  at_ : Span
  members : List MemberOutline
deriving DecidableEq, Repr, Inhabited

/-- What a value is. -/
inductive ValueOutline where
  | object (o : ObjectOutline)
  | class_ (c : ClassOutline)
  | function
  | name (text : String)
  /-- A value in parentheses or with `as` or `satisfies`. -/
  | wrapped (v : ValueOutline)
  | other
deriving Repr

/-- A variable: its name, none for a pattern, and its initial value. -/
structure VariableOutline where
  name : Option String
  value : Option ValueOutline
deriving Repr

/-- A declaration. -/
inductive DeclarationOutline where
  | class_ (c : ClassOutline)
  | function (name : Option String)
  | variables (vs : List VariableOutline)
  | other
deriving Repr, Inhabited

/-- What `export default` exports. -/
inductive DefaultOutline where
  | class_ (c : ClassOutline)
  | function
  | value (v : ValueOutline)
  | type
deriving Repr

/-- A statement of a script. -/
inductive TopLevel where
  | declaration (d : DeclarationOutline)
  | exported (d : DeclarationOutline)
  /-- Exported names, inner and outer; the flag says that they come from another module. -/
  | names (foreign : Bool) (specs : List (String × String))
  /-- The default export, with the place of the statement. -/
  | exportDefault (at_ : Span) (d : DefaultOutline)
  | other
deriving Repr

abbrev Outline := List TopLevel

def Literal.name? : Literal → Option String
  | .null => some "null"
  | .bool _ => none
  | .number raw => some (Numeral.plainText raw)
  | .bigInt raw => some (Numeral.bigText raw)
  | .string value _ => some value
  | .regex body flags => some ("/" ++ body ++ "/" ++ flags)

def Key.name? : Key → Option String
  | .name _ text => some text
  | .literal _ v => v.name?
  | .private_ _ => none
  | .computed (.literal _ v) => v.name?
  | .computed (.template _ [q] []) => some (q.cooked.getD q.raw)
  | .computed _ => none

def Expr.isFunction : Expr → Bool
  | .function .. | .arrow .. => true
  | _ => false

def Decorator.outline : Decorator → Decoration
  | .mk at_ (.call _ callee args _) =>
    let span := match args.head?, args.getLast? with
      | some a, some z => some ⟨a.span.start, z.span.stop⟩
      | _, _ => none
    ⟨at_, callee.span, span⟩
  | .mk at_ e => ⟨at_, e.span, none⟩

def Member.outline : Member → MemberOutline
  | .method at_ decs flags key .. =>
    ⟨at_, key.name?, flags.isStatic, .method, decs.map Decorator.outline⟩
  | .field at_ decs flags key value =>
    let isFunction := !flags.isAccessor && (value.map Expr.isFunction).getD false
    ⟨at_, key.name?, flags.isStatic, if isFunction then .functionField else .field,
      decs.map Decorator.outline⟩
  | .block at_ _ => ⟨at_, none, true, .other, []⟩
  | .signature at_ => ⟨at_, none, false, .other, []⟩

def Property.outline : Property → MemberOutline
  | .field at_ key value _ =>
    ⟨at_, key.name?, false, if value.isFunction then .functionField else .field, []⟩
  | .method at_ key .. => ⟨at_, key.name?, false, .method, []⟩
  | .spread at_ _ => ⟨at_, none, false, .other, []⟩
  | .initialised at_ name _ => ⟨at_, some name, false, .field, []⟩

def Class.outline (at_ : Span) : Class → ClassOutline
  | .mk name decs _ _ _ bodyAt members =>
    { name, at_, bodyStart := bodyAt.start, decorations := decs.map Decorator.outline,
      members := members.map Member.outline }

def Expr.outline : Expr → ValueOutline
  | .object at_ props => .object ⟨at_, props.map Property.outline⟩
  | .class_ at_ cls => .class_ (cls.outline at_)
  | .function .. => .function
  | .ident _ name => .name name
  | .paren _ e => .wrapped e.outline
  | .cast _ .as e | .cast _ .satisfies e => .wrapped e.outline
  | _ => .other

def Declarator.outline : Declarator → VariableOutline
  | .mk _ (.bind _ name) value => ⟨some name, value.map Expr.outline⟩
  | .mk _ _ value => ⟨none, value.map Expr.outline⟩

def Statement.declaration : Statement → DeclarationOutline
  | .class_ at_ cls => .class_ (cls.outline at_)
  | .function _ _ fn => .function fn.name
  | .variables _ _ _ decls => .variables (decls.map Declarator.outline)
  | _ => .other

def Statement.outline : Statement → TopLevel
  | .exportDecl _ decl => .exported decl.declaration
  | .exportNames _ _ specs source _ =>
    .names source.isSome (specs.map fun s => (s.inner.name, s.outer.name))
  | .exportDefault at_ (.class_ place cls) => .exportDefault at_ (.class_ (cls.outline place))
  | .exportDefault at_ (.function ..) => .exportDefault at_ .function
  | .exportDefault at_ (.interface_ _) => .exportDefault at_ .type
  | .exportDefault at_ (.expr e) => .exportDefault at_ (.value e.outline)
  | s => match s.declaration with
    | .other => .other
    | d => .declaration d

/-- The outline of a script, if it has no fault. -/
def outline? (text : String) : Option Outline :=
  (parse? text).map fun p => p.body.map Statement.outline

end Componentry.Script
