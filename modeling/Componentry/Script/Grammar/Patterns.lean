import Componentry.Script.Grammar.Types

/-!
# Bindings, targets, parameters, bodies and classes

Patterns come in two ways: read directly where names are bound, and made from an expression that
turns out to stand before an equals sign. Parameters, function bodies and classes follow.
-/

namespace Componentry.Script

open Reader

variable (g : Grammar)

def memberKey (privateAllowed : Bool) : Reader Key := do
  let start ← start
  match ← token with
  | .word t _ => advance; return .name (← spanFrom start) t
  | .string v r => advance; return .literal (← spanFrom start) (.string v r)
  | .number r => advance; return .literal (← spanFrom start) (.number r)
  | .bigInt r => advance; return .literal (← spanFrom start) (.bigInt r)
  | .privateName t =>
    require privateAllowed
    advance
    return .private_ t
  | .mark "[" => return .computed (← between "[" "]" (withIn (g.assignment true)))
  | _ => fail

/-! ### Bindings -/

/-- A binding with the default value that may follow it. -/
def defaulted (p : Pattern) : Reader Pattern := do
  let e ← afterMark "=" (withIn (g.assignment true))
  return (e.map (.withDefault p)).getD p

/-- A member of a pattern list: nothing, a binding, or the rest. -/
inductive Slot where
  | hole
  | item (p : Pattern)
  | keyed (p : PatternProperty)
  | rest (p : Pattern)

def checkRest (slots : List Slot) (trailing : Bool) : Reader Unit := do
  let isRest : Slot → Bool
    | .rest _ => true
    | _ => false
  faultIf (slots.dropLast.any isRest)
  faultIf (trailing && (slots.getLast?.map isRest).getD false)

def restOf (slots : List Slot) : Option Pattern :=
  slots.findSome? fun
    | .rest p => some p
    | _ => none

def itemsOf (slots : List Slot) : List (Option Pattern) :=
  slots.filterMap fun
    | .hole => some none
    | .item p => some (some p)
    | _ => none

def membersOf (slots : List Slot) : List PatternProperty :=
  slots.filterMap fun
    | .keyed p => some p
    | _ => none

def arrayPattern : Reader Pattern := do
  let start ← start
  let (slots, trailing) ← between "[" "]" <| commaListTail "]" do
    if ← isMark "," then return Slot.hole
    if ← eatMark "..." then return Slot.rest (← g.pattern)
    return Slot.item (← defaulted g (← g.pattern))
  checkRest slots trailing
  return .array (← spanFrom start) (itemsOf slots) (restOf slots)

def patternMember : Reader Slot := do
  if ← eatMark "..." then
    let p ← g.pattern
    match p with
    | .bind .. => pure ()
    | _ => fault
    return .rest p
  if (← isBinding) && !(← peekMark ":") then
    let start ← start
    let name ← bindingName
    let at_ ← spanFrom start
    return .keyed (.mk (.name at_ name) (← defaulted g (.bind at_ name)) true)
  let key ← memberKey g false
  expectMark ":"
  return .keyed (.mk key (← defaulted g (← g.pattern)) false)

def objectPattern : Reader Pattern := do
  let start ← start
  let (slots, trailing) ← between "\x7b" "\x7d" (commaListTail "\x7d" (patternMember g))
  checkRest slots trailing
  return .object (← spanFrom start) (membersOf slots) (restOf slots)

/-- A binding without type or default. -/
def patternRule : Reader Pattern := do
  if ← isMark "[" then return ← arrayPattern g
  if ← isMark "\x7b" then return ← objectPattern g
  let start ← start
  let name ← bindingName
  return .bind (← spanFrom start) name

/-! ### Targets -/

def assignable : Expr → Bool
  | .ident .. | .member .. | .privateMember .. | .index .. => true
  | .paren _ e => assignable e
  | .cast _ how e => how != .instantiation && assignable e
  | _ => false

/-- An expression as a target that is no pattern. -/
def simpleTarget (e : Expr) : Reader Pattern := do
  if assignable e then return .target e else fail

mutual

def target : Nat → Expr → Reader Pattern
  | 0, _ => fail
  | fuel + 1, e => do
    match e with
    | .array at_ items =>
      let slots ← itemSlots fuel items
      checkRest slots ((← view (·.trailing)).contains at_.start)
      return .array at_ (itemsOf slots) (restOf slots)
    | .object at_ props =>
      let slots ← propertySlots fuel props
      checkRest slots ((← view (·.trailing)).contains at_.start)
      return .object at_ (membersOf slots) (restOf slots)
    | _ => simpleTarget e

def defaultedTarget : Nat → Expr → Reader Pattern
  | 0, _ => fail
  | fuel + 1, e => do
    match e with
    | .assign _ "=" p value => return .withDefault p value
    | _ => target fuel e

def itemSlots : Nat → List Item → Reader (List Slot)
  | 0, _ => fail
  | _ + 1, [] => return []
  | fuel + 1, item :: rest => do
    let slot ← match item with
      | .hole => pure Slot.hole
      | .plain e => Slot.item <$> defaultedTarget fuel e
      | .spread _ e => Slot.rest <$> target fuel e
    return slot :: (← itemSlots fuel rest)

def propertySlots : Nat → List Property → Reader (List Slot)
  | 0, _ => fail
  | _ + 1, [] => return []
  | fuel + 1, prop :: rest => do
    let slot ← match prop with
      | .field _ key value true => pure (Slot.keyed (.mk key (.target value) true))
      | .field _ key value false => do
        let p ← defaultedTarget fuel value
        pure (Slot.keyed (.mk key p false))
      | .initialised at_ name value => do
        modify fun c => { c with covers := c.covers.erase at_.start }
        let place : Span := ⟨at_.start, at_.start + name.length⟩
        pure (Slot.keyed (.mk (.name place name) (.withDefault (.target (.ident place name)) value)
          true))
      | .spread _ e => Slot.rest <$> target fuel e
      | .method .. => fail
    return slot :: (← propertySlots fuel rest)

end

def assignmentTarget (e : Expr) : Reader Pattern :=
  target (4 * (e.span.stop - e.span.start) + 8) e

/-! ### Decorators and parameters -/

def decorators : Reader (List Decorator) :=
  collect do
    if !(← isMark "@") then return none
    let start ← start
    advance
    let e ← within (fun c => { c with inDecorator := true }) g.leftHand
    return some (.mk (← spanFrom start) e)

/-- What a list of parameters belongs to. -/
inductive FunctionKind where
  /-- A declaration, which may lack a body. -/
  | declaration
  | expression
  /-- A method of a class, which may lack a body. -/
  | method
  /-- The constructor of a class, which may lack a body. -/
  | constructor
  | objectMethod
  | arrow
deriving DecidableEq

def flagsOf (found : List String) : Flags where
  isStatic := found.contains "static"
  isAsync := found.contains "async"
  isAbstract := found.contains "abstract"
  isDeclare := found.contains "declare"
  isAccessor := found.contains "accessor"
  isProperty := found.any fun w => accessWords.contains w || w == "readonly" || w == "override"

variable (kind : FunctionKind)

def parameter : Reader (Param × Bool) := do
  let start ← start
  let decs ← decorators g
  let found ← modifiers false false
  let ok := if kind = .constructor then accessWords ++ ["readonly", "override"] else ["readonly"]
  onlyModifiers ok found
  let isRest ← eatMark "..."
  let p ← g.pattern
  let _ ← eatMark "?"
  let _ ← typeNote? g
  faultIf (isRest && (← isMark "="))
  let p ← if isRest then pure p else defaulted g p
  return (.mk (← spanFrom start) decs (flagsOf found) p, isRest)

/-- Parameters in parentheses. A first parameter `this` only has a type. -/
def parameters : Reader (List Param × Option Param) := do
  expectMark "("
  if ← isWord "this" then
    faultIf (kind = .arrow)
    advance
    let _ ← typeNote? g
    if !(← isMark ")") then expectMark ","
  let (found, trailing) ← commaListTail ")" (parameter g kind)
  faultIf (found.dropLast.any Prod.snd)
  faultIf (trailing && (found.getLast?.map Prod.snd).getD false)
  expectMark ")"
  let plain := found.filterMap fun (p, rest) => if rest then none else some p
  let rest := found.findSome? fun (p, rest) => if rest then some p else none
  return (plain, rest)

/-! ### Bodies -/

/-- Statements up to a closing brace or the end; strings that lead the list are directives. -/
def statementList : Reader (List Statement) := do
  let (found, _) ← iterate (fun (acc : List Statement × Bool) => do
    let (found, leading) := acc
    if ← atClose then return (acc, false)
    let s ← g.statement .list
    match s with
    | .expr at_ (.literal _ (.string _ raw)) =>
      if leading then return ((.directive at_ raw :: found, true), true)
      return ((s :: found, false), true)
    | _ => return ((s :: found, false), true)) ([], true)
  return found.reverse

/-- Statements in braces, none of them a directive. -/
def bracedStatements : Reader (List Statement) :=
  between "\x7b" "\x7d" <| collect do
    if ← atClose then return none
    return some (← g.statement .list)

def functionBody : Reader (List Statement × Span) := do
  let start ← start
  let body ← between "\x7b" "\x7d" <| within
    (fun c => { c with inFunction := true, inOperator := true, inDecorator := false }) (statementList g)
  return (body, ← spanFrom start)

def Context.ofFunction (isAsync generator : Bool) (c : Context) : Context :=
  { c with
    inOperator := true
    inAsync := isAsync
    inGenerator := generator
    inDecorator := false
    noConditionalType := false }

/-- What follows the name of a function: type parameters, parameters, result type and body. -/
def functionTail (name : Option String) (isAsync generator : Bool) : Reader Function := do
  let start ← start
  let fn ← within (Context.ofFunction isAsync generator) do
    let _ ← typeParameters? g
    let (params, rest) ← parameters g kind
    let _ ← result? g
    if ← isMark "\x7b" then
      let (body, at_) ← functionBody g
      return Function.mk name isAsync generator params rest (some body) at_ false
    return Function.mk name isAsync generator params rest none ⟨start, start⟩ false
  match fn, kind with
  | .mk _ _ _ _ _ (some _) _ _, _ => faultIf (← allowed (·.ambient))
  | _, .expression | _, .objectMethod | _, .arrow => fail
  | _, _ => semicolon
  return fn

/-- A function with its keyword. The flag says that the name has to be there. -/
def functionWithKeyword (named : Bool) : Reader Function := do
  let isAsync ← eatWord "async"
  expectWord "function"
  let generator ← eatMark "*"
  let readName : Reader (Option String) := do
    if ← isBinding then return some (← bindingName)
    return none
  let name ←
    if kind = .expression then
      within (fun c => { c with inAsync := isAsync, inGenerator := generator }) readName
    else readName
  if named && name.isNone then fail
  functionTail g kind name isAsync generator

/-- `function` or `async function` starts here. -/
def atFunction : Reader Bool := do
  if ← isWord "function" then return true
  if ← isWord "async" then
    let next ← peek
    return next.token.isWord "function" && !next.newline
  return false

/-! ### Classes -/

def Key.isText (text : String) : Key → Bool
  | .name _ t => t == text
  | .literal _ (.string v _) => v == text
  | _ => false

/-- The number of parameters, and whether the last one is a rest. -/
def Function.arity : Function → Nat × Bool
  | .mk _ _ _ params rest _ _ _ => (params.length, rest.isSome)

variable (g : Grammar)

def classKey (found : List String) : Reader Key := do
  let key ← memberKey g true
  match key with
  | .private_ t =>
    faultIf (t == "constructor")
    faultIf (found.any accessWords.contains)
  | _ => pure ()
  return key

def methodModifiers : List String :=
  accessWords ++ ["static", "abstract", "override", "async"]

def accessorModifiers : List String :=
  accessWords ++ ["static", "abstract", "override"]

def fieldModifiers : List String :=
  accessWords ++ ["static", "abstract", "override", "readonly", "declare", "accessor"]

def methodTail (start : Nat) (decs : List Decorator) (found : List String)
    (key : Key) (kind : MethodKind) (generator : Bool) : Reader Member := do
  let isAsync := found.contains "async"
  let role := if kind = .constructor then FunctionKind.constructor else .method
  let fn ← functionTail g role none isAsync generator
  faultIf (!decs.isEmpty && fn.isSignature)
  let (count, rest) := fn.arity
  match kind with
  | .get => faultIf (count != 0 || rest)
  | .set => faultIf (count != 1 || rest)
  | _ => pure ()
  return .method (← spanFrom start) decs (flagsOf found) key kind fn

def atConstructor (found : List String) : Reader Bool := do
  if found.contains "static" then return false
  match ← token with
  | .word "constructor" _ | .string "constructor" _ => peekIs (Token.isMarkIn ["(", "<"])
  | _ => return false

def staticBlock (start : Nat) : Reader Member := do
  advanceKeyword
  let body ← within (fun c => { c with inAsync := true, inGenerator := false, inFunction := false })
    (bracedStatements g)
  return .block (← spanFrom start) body

def classMember : Reader Member := do
  let start ← start
  let decs ← decorators g
  if (← isWord "static") && (← peekMark "\x7b") then
    faultIf !decs.isEmpty
    return ← staticBlock g start
  let found ← modifiers true true
  if (← isWord "static") && (← peekMark "\x7b") then
    faultIf (!found.isEmpty || !decs.isEmpty)
    return ← staticBlock g start
  faultIf (← isMark "@")
  let accessor (kind : MethodKind) : Reader Member := do
    onlyModifiers accessorModifiers found
    methodTail g start decs found (← classKey g found) kind false
  if ← contextualWord "get" then return ← accessor .get
  if ← contextualWord "set" then return ← accessor .set
  if ← atConstructor found then
    onlyModifiers accessWords found
    let key ← memberKey g false
    return ← methodTail g start decs found key .constructor false
  if ← atIndexSignature then
    onlyModifiers ["static", "readonly"] found
    faultIf !decs.isEmpty
    indexSignature g
    return .signature (← spanFrom start)
  let generator ← eatMark "*"
  let key ← classKey g found
  let optional ← eatMark "?"
  if generator || (← isMarkIn ["(", "<"]) then
    onlyModifiers methodModifiers found
    faultIf (generator && !found.contains "static" && key.isText "constructor")
    return ← methodTail g start decs found key .method generator
  onlyModifiers fieldModifiers found
  faultIf (key.isText "constructor")
  if !optional && (← isMark "!") && !(← onNewLine) then advance
  let _ ← typeNote? g
  let value ← afterMark "=" <| within
    (fun c => { c with inOperator := true, inAsync := false, inGenerator := false })
    (g.assignment true)
  semicolon
  return .field (← spanFrom start) decs (flagsOf found) key value

/-- What a class extends and implements: the parent, and what was seen. -/
structure Heritage where
  parent : Option Expr := none
  seenExtends : Bool := false
  seenImplements : Bool := false

/-- The `extends` and `implements` clauses of a class. -/
def heritage : Reader Heritage :=
  iterate (fun (h : Heritage) => do
    if ← eatWord "extends" then
      faultIf (h.seenExtends || h.seenImplements)
      let parents ← iterate (fun (found : List Expr) => do
        let e ← g.leftHand
        let e ← match e with
          | .cast _ .instantiation inner => pure inner
          | _ =>
            if ← atTypeArguments then typeArguments g
            pure e
        return (found ++ [e], ← eatMark ",")) []
      faultIf (parents.length != 1)
      return ({ h with parent := parents.head?, seenExtends := true }, true)
    if ← eatWord "implements" then
      faultIf h.seenImplements
      let _ ← iterate (fun (_ : Unit) => do
        typeReference g
        return ((), ← eatMark ",")) ()
      return ({ h with seenImplements := true }, true)
    return (h, false)) {}

def classRule (decs : List Decorator) (isAbstract isDeclare : Bool) : Reader Class := do
  expectWord "class"
  let clause := (← isWord "implements") && (← peek).token.isAnyWord
  let name ← if (← isBinding) && !clause then some <$> bindingName else pure none
  let _ ← typeParameters? g
  let h ← heritage g
  let start ← start
  let members ← between "\x7b" "\x7d" <| within (fun c =>
    { c with ambient := c.ambient || isDeclare, inDecorator := false }) <| collect do
      let _ ← collect (afterMark ";" (pure ()))
      if ← atClose then return none
      return some (← classMember g)
  return .mk name decs h.parent isAbstract isDeclare (← spanFrom start) members

end Componentry.Script
