import Componentry.Script.Numeral
import Componentry.Script.Token

/-!
# The layout of expressions

The sheet on which a script is laid out: its text so far, how deep the lines are indented, and the
places that decide whether parentheses are needed. Comments wait on the sheet until the token they
stand before is written.

Parentheses are written where the binding strength of the surroundings asks for them; those of the
text are forgotten, except right around functions and arrows. Lists of more than two items and
objects of more than one property take a line for each.
-/

namespace Componentry.Script.Layout

/-- What has been written, and what decides how to go on. -/
structure Sheet where
  text : String := ""
  depth : Nat := 0
  /-- The next indentation is a single space. -/
  spaceNext : Bool := false
  /-- Where the last expression statement starts. -/
  statementAt : Option Nat := none
  /-- Where the last expression body of an arrow starts. -/
  arrowAt : Option Nat := none
  /-- Where the last exported default expression starts. -/
  defaultAt : Option Nat := none
  /-- Where the last number made of digits only ends. -/
  numberAt : Option Nat := none
  /-- Where the last sign operator ends, and its sign. -/
  signAt : Option (Nat × Char) := none
  /-- Comments that still wait for their token. -/
  comments : List Comment := []

abbrev Writer := StateM Sheet

def here : Writer Nat := do
  return (← get).text.utf8ByteSize

def put (s : String) : Writer Unit :=
  modify fun sheet => { sheet with text := sheet.text ++ s }

def newline : Writer Unit := put "\n"

/-- Starts a line, or goes on after a space when that was asked for. -/
def indent : Writer Unit :=
  modify fun sheet =>
    if sheet.spaceNext then { sheet with text := sheet.text ++ " ", spaceNext := false }
    else { sheet with text := sheet.text ++ String.ofList (List.replicate sheet.depth '\t') }

def spaceNext : Writer Unit :=
  modify fun sheet => { sheet with spaceNext := true }

def deeper (w : Writer Unit) : Writer Unit := do
  modify fun sheet => { sheet with depth := sheet.depth + 1 }
  w
  modify fun sheet => { sheet with depth := sheet.depth - 1 }

/-- Writes parentheses around something if they are needed. -/
def wrapIf (needed : Bool) (w : Writer Unit) : Writer Unit := do
  if needed then
    put "("
    w
    put ")"
  else w

def semicolon : Writer Unit := put ";\n"

/-- Writes what is there, behind the text that leads to it. -/
def putSome {α : Type} (lead : String) (write : α → Writer Unit) : Option α → Writer Unit
  | some x => do
    put lead
    write x
  | none => pure ()

/-- Braces around lines, or a pair of braces if there is nothing between them. -/
def braces (isEmpty : Bool) (w : Writer Unit) : Writer Unit := do
  put "\x7b"
  if isEmpty then w
  else
    newline
    deeper w
    indent
  put "\x7d"

def separated {α : Type} (between : Writer Unit) (write : α → Writer Unit) : List α → Writer Unit
  | [] => pure ()
  | [x] => write x
  | x :: y :: rest => do
    write x
    between
    separated between write (y :: rest)

def listed {α : Type} (write : α → Writer Unit) (xs : List α) : Writer Unit :=
  separated (put ", ") write xs

/-- A line for each item. -/
def onLines {α : Type} (write : α → Writer Unit) (xs : List α) (trailing : Bool) : Writer Unit := do
  deeper do
    newline
    separated (put ",\n") (fun x => do indent; write x) xs
    if trailing then put ","
    newline
  indent

/-! ### Comments -/

def commentLines : List Char → List Char → List (List Char)
  | [], line => [line.reverse]
  | '\r' :: '\n' :: cs, line => line.reverse :: commentLines cs []
  | c :: cs, line =>
    if isLineEnd c then line.reverse :: commentLines cs [] else commentLines cs (c :: line)

/-- A text in which no closing tag of a script element stands. -/
def withoutScriptEnd : List Char → List Char
  | [] => []
  | c :: cs =>
    if c == '<' && String.toLower (String.ofList (cs.take 7)) == "/script" then
      '<' :: '\\' :: withoutScriptEnd cs
    else c :: withoutScriptEnd cs

/-- Writes the text of a comment; the lines of a block start at the current depth. -/
def putComment (c : Comment) : Writer Unit := do
  match commentLines c.text.toList [] with
  | [] => pure ()
  | first :: rest =>
    put (String.ofList (withoutScriptEnd (first.dropWhile Char.isWhitespace)))
    for line in rest do
      newline
      indent
      put (String.ofList (withoutScriptEnd (line.dropWhile Text.isBlank)))

def takeComments (at_ : Nat) : Writer (List Comment) := do
  let (mine, others) := (← get).comments.partition fun c => c.token == at_
  if mine.isEmpty then return []
  modify fun sheet => { sheet with comments := others }
  return mine

def hasComment (at_ : Nat) : Writer Bool := do
  return (← get).comments.any fun c => c.token == at_

/-- Goes to a fresh line for a comment that stood on a line of its own. -/
def freshLine : Writer Unit := do
  match (← get).text.back? with
  | none => pure ()
  | some '\n' => indent
  | some '\t' => pure ()
  | some _ =>
    newline
    indent

def putFurther : List Comment → Writer Unit
  | [] => pure ()
  | c :: cs => do
    if c.afterNewline then
      newline
      indent
    putComment c
    putFurther cs

/-- Writes comments on the lines before what follows. -/
def putComments (cs : List Comment) : Writer Unit := do
  match cs with
  | [] => pure ()
  | c :: rest =>
    if c.afterNewline then freshLine else indent
    putComment c
    putFurther rest
    match cs.getLast? with
    | some last => if last.isLine || last.beforeNewline then newline else spaceNext
    | none => pure ()

def leading (at_ : Nat) : Writer Unit := do
  putComments (← takeComments at_)

/-- Writes the comments that wait for the token at a place, each on a line of its own; says whether
there were any. -/
def ownLines (at_ : Nat) : Writer Bool := do
  let cs ← takeComments at_
  for c in cs do
    newline
    indent
    putComment c
  if cs.isEmpty then return false
  newline
  return true

/-! ### Literals -/

/-- A lone surrogate that is kept as a replacement character and four digits: its digits and the
rest. -/
def loneSurrogate? : List Char → Option (List Char × List Char)
  | '\ufffd' :: a :: b :: c :: d :: rest =>
    if [a, b, c, d].all fun x => x.isDigit || ('a' ≤ x && x ≤ 'f') then
      if a == 'd' && ('8' ≤ b) then some ([a, b, c, d], rest) else none
    else none
  | _ => none

def escaped : Nat → List Char → List Char
  | 0, _ => []
  | _ + 1, [] => []
  | fuel + 1, c :: cs =>
    match loneSurrogate? (c :: cs) with
    | some (digits, rest) => '\\' :: 'u' :: digits ++ escaped fuel rest
    | none =>
      let text : List Char := match c with
        | '\x00' => if (cs.take 1).all Char.isDigit && !cs.isEmpty then "\\x00".toList else "\\0".toList
        | '\x07' => "\\x07".toList
        | '\x08' => "\\b".toList
        | '\x0b' => "\\v".toList
        | '\x0c' => "\\f".toList
        | '\n' => "\\n".toList
        | '\r' => "\\r".toList
        | '\x1b' => "\\x1B".toList
        | '\\' => "\\\\".toList
        | '"' => "\\\"".toList
        | '\u2028' => "\\u2028".toList
        | '\u2029' => "\\u2029".toList
        | '\u00a0' => "\\xA0".toList
        | '<' =>
          if String.toLower (String.ofList (cs.take 7)) == "/script" then "<\\".toList else ['<']
        | c => [c]
      text ++ escaped fuel cs

def quoted (value : String) : String :=
  "\"" ++ String.ofList (escaped (value.length + 1) value.toList) ++ "\""

/-- Writes a number. A point right after digits would belong to the number, so the place is
kept. -/
def putNumber (text : String) : Writer Unit := do
  put text
  if text.all Char.isDigit then
    let place ← here
    modify fun sheet => { sheet with numberAt := some place }

def directiveQuote : List Char → String
  | [] => "\""
  | '"' :: _ => "'"
  | '\x27' :: _ => "\""
  | '\\' :: _ :: cs => directiveQuote cs
  | _ :: cs => directiveQuote cs

def putLiteral : Literal → Writer Unit
  | .null => put "null"
  | .bool b => put (if b then "true" else "false")
  | .number raw => putNumber (Numeral.laidOut raw)
  | .bigInt raw => put (Numeral.bigText raw ++ "n")
  | .string value _ => put (quoted value)
  | .regex body flags => put ("/" ++ body ++ "/" ++ flags)

/-! ### Expressions -/

/-! ### Binding strength -/

namespace Level

def lowest : Nat := 0
def comma : Nat := 1
def yield_ : Nat := 3
def assign : Nat := 4
def choice : Nat := 5
def compare : Nat := 13
def power : Nat := 17
/-- A sign or `await` is too weak. -/
def sign : Nat := 18
def tail : Nat := 19
def construct : Nat := 20
def call : Nat := 21

end Level

def operatorLevel (op : String) : Nat :=
  match op with
  | "??" => 6
  | "||" => 7
  | "&&" => 8
  | "|" => 9
  | "^" => 10
  | "&" => 11
  | "==" | "!=" | "===" | "!==" => 12
  | "<<" | ">>" | ">>>" => 14
  | "+" | "-" => 15
  | "*" | "/" | "%" => 16
  | "**" => 17
  | _ => 13

/-- What may not stand bare at a place. -/
structure Limits where
  /-- The word `in` would be taken for that of a loop. -/
  noIn : Bool := false
  /-- A call would be taken for the arguments of `new`. -/
  noCall : Bool := false

/-- The layouts that the layout of a node refers back to. -/
structure Printers where
  /-- An expression at a binding strength. -/
  expr : Expr → Nat → Limits → Writer Unit
  /-- A pattern; the flag marks assignment targets. -/
  pattern : Bool → Pattern → Writer Unit
  statement : Statement → Writer Unit

/-- An expression without parentheses and types around it. -/
def bare : Expr → Expr
  | .paren _ e => bare e
  | .cast _ _ e => bare e
  | e => e

/-- A logical operator that may not stand bare beside `??`. -/
def clashes (e : Expr) : Bool :=
  match bare e with
  | .logical _ op _ _ => op != "??"
  | _ => false

/-- An operand that may not stand bare before `**`. -/
def isSigned (e : Expr) : Bool :=
  match bare e with
  | .unary .. | .await .. => true
  | _ => false

/-- Some text would be read differently here because a statement or default export starts. -/
def atStart : Writer Bool := do
  let place ← here
  let sheet ← get
  return sheet.statementAt == some place || sheet.defaultAt == some place

def atBlock : Writer Bool := do
  let place ← here
  let sheet ← get
  return sheet.statementAt == some place || sheet.arrowAt == some place

/-! ### Parts -/

variable (r : Printers)

def putKey : Key → Writer Unit
  | .name _ text => put text
  | .literal _ v => putLiteral v
  | .private_ text => put ("#" ++ text)
  | .computed e => do
    put "["
    r.expr e Level.comma {}
    put "]"

def putItem : Item → Writer Unit
  | .hole => pure ()
  | .plain e => r.expr e Level.comma {}
  | .spread _ e => do
    put "..."
    r.expr e Level.comma {}

def putBlock (body : List Statement) : Writer Unit :=
  braces body.isEmpty do
    for s in body do
      r.statement s

def putCommented (r : Printers) : List Item → Writer Unit
  | [] => pure ()
  | x :: rest => do
    unless ← ownLines (x.span.start) do newline
    indent
    putItem r x
    unless rest.isEmpty do put ","
    putCommented r rest

def putArguments (at_ : Span) (args : List Item) : Writer Unit := do
  put "("
  let last := at_.stop - 1
  let closing ← if at_.stop > 0 then hasComment last else pure false
  let inside ← args.anyM fun x => hasComment (x.span.start)
  if closing || inside then
    deeper do
      putCommented r args
      unless closing && (← ownLines last) do newline
    indent
  else listed (putItem r) args
  put ")"

def putTemplate (r : Printers) : List Quasi → List Expr → Writer Unit
  | [], _ => pure ()
  | q :: qs, [] => do
    put (String.ofList (withoutScriptEnd q.raw.toList))
    putTemplate r qs []
  | q :: qs, e :: es => do
    put (String.ofList (withoutScriptEnd q.raw.toList))
    put "$\x7b"
    r.expr e Level.lowest {}
    put "\x7d"
    putTemplate r qs es

/-! ### Functions -/

def isPlainDecorator : Expr → Bool
  | .ident .. => true
  | .member _ e _ _ | .privateMember _ e _ _ => isPlainDecorator e
  | .call _ callee _ _ => isPlainDecorator callee
  | _ => false

/-- Decorators, each with a space after it. -/
def putDecorators (decorators : List Decorator) : Writer Unit := do
  for d in decorators do
    let .mk _ e := d
    put "@"
    wrapIf (!isPlainDecorator e) (r.expr e Level.lowest {})
    put " "

def putParam : Param → Writer Unit
  | .mk _ decorators _ pattern => do
    putDecorators r decorators
    r.pattern false pattern

def putParams (params : List Param) (rest : Option Param) : Writer Unit := do
  put "("
  listed (putParam r) params
  putSome (if params.isEmpty then "..." else ", ...") (putParam r) rest
  put ")"

/-- A first statement that would be taken for a directive. -/
def looksDirective : Statement → Bool
  | .expr _ e =>
    match bare e with
    | .literal _ (.string ..) => true
    | _ => false
  | _ => false

/-- The statements of a body. A bare string at the start is kept from being a directive. -/
def putStatements : List Statement → Writer Unit
  | [] => pure ()
  | s :: rest => do
    match s with
    | .expr at_ e =>
      if looksDirective s then
        leading at_.start
        indent
        put "("
        r.expr e Level.lowest {}
        put ")"
        semicolon
      else r.statement s
    | _ => r.statement s
    for s in rest do
      r.statement s

/-- A function body, with the comments before its closing brace. -/
def putBody (body : List Statement) (at_ : Span) : Writer Unit := do
  let comments ← takeComments (at_.stop - 1)
  let flat := body.isEmpty && comments.all fun c => !(c.afterNewline || c.beforeNewline)
  braces flat do
    putStatements r body
    putComments comments
    modify fun sheet => { sheet with spaceNext := false }

def putSignature : Function → Writer Unit
  | .mk _ _ _ params rest body bodyAt _ => do
    putParams r params rest
    match body with
    | some statements =>
      put " "
      putBody r statements bodyAt
    | none => put ";"

def putFunction (fn : Function) : Writer Unit := do
  let .mk name isAsync generator _ _ _ _ _ := fn
  if isAsync then put "async "
  put "function"
  if generator then put "* "
  putSome (if generator then "" else " ") put name
  putSignature r fn

def putArrow (fn : Function) : Writer Unit := do
  let .mk _ isAsync _ params rest body bodyAt concise := fn
  if isAsync then put "async "
  putParams r params rest
  put " => "
  match concise, body with
  | true, some [.expr _ e] =>
    let place ← here
    modify fun sheet => { sheet with arrowAt := some place }
    r.expr e Level.comma {}
  | _, some statements => putBody r statements bodyAt
  | _, none => pure ()

def putMethodWords (kind : MethodKind) (fn : Function) : Writer Unit := do
  match kind with
  | .get => put "get "
  | .set => put "set "
  | _ => pure ()
  let .mk _ isAsync generator _ _ _ _ _ := fn
  if isAsync then put "async "
  if generator then put "*"

/-! ### Classes -/

/-- A member of a class, after its indentation. -/
def putMember : Member → Writer Unit
  | .method _ decorators flags key kind fn => do
    putDecorators r decorators
    if flags.isStatic then put "static "
    putMethodWords kind fn
    putKey r key
    putSignature r fn
    newline
  | .field _ decorators flags key value => do
    putDecorators r decorators
    if flags.isStatic then put "static "
    if flags.isAccessor then put "accessor "
    putKey r key
    putSome " = " (r.expr · Level.comma {}) value
    semicolon
  | .block _ body => do
    put "static "
    putBlock r body
    newline
  | .signature _ => pure ()

def putClass : Class → Writer Unit
  | .mk name decorators parent _ _ _ members => do
    putDecorators r decorators
    put "class"
    putSome " " put name
    putSome " extends " (r.expr · Level.tail {}) parent
    put " "
    braces members.isEmpty do
      for m in members do
        leading m.span.start
        indent
        putMember r m

/-! ### Objects and patterns -/

def isShorthand (key : Key) (value : Expr) (shorthand : Bool) : Bool :=
  match key, bare value with
  | .name _ text, .ident _ name => if text == "__proto__" then shorthand else text == name
  | _, _ => false

def putProperty : Property → Writer Unit
  | .field _ key value shorthand => do
    unless isShorthand key value shorthand do
      putKey r key
      put ": "
    r.expr value Level.comma {}
  | .method _ key kind fn => do
    putMethodWords kind fn
    putKey r key
    putSignature r fn
  | .spread _ e => do
    put "..."
    r.expr e Level.comma {}
  | .initialised _ name value => do
    put (name ++ " = ")
    r.expr value Level.comma {}

def putProperties (props : List Property) : Writer Unit := do
  match props with
  | [] => put "\x7b\x7d"
  | [p] =>
    put "\x7b "
    putProperty r p
    put " \x7d"
  | ps =>
    put "\x7b"
    onLines (putProperty r) ps false
    put "\x7d"

def Item.isHole : Item → Bool
  | .hole => true
  | _ => false

def putItems (items : List Item) : Writer Unit := do
  let trailing := items.getLast?.any Item.isHole
  put "["
  if items.length > 2 then onLines (putItem r) items trailing
  else
    listed (putItem r) items
    if trailing then put ","
  put "]"

def isShorthandBinding (key : Key) (value : Pattern) : Bool :=
  match key, value with
  | .name _ text, .bind _ name => text == name
  | .name _ text, .withDefault (.bind _ name) _ => text == name
  | _, _ => false

def putPatternProperty (isTarget : Bool) : PatternProperty → Writer Unit
  | .mk key value shorthand => do
    let short := if isTarget then shorthand else isShorthandBinding key value
    unless short do
      putKey r key
      put ": "
    r.pattern isTarget value

/-- The items of an array pattern; a hole or a rest behind the last item asks for a comma. -/
def putPatternItems (r : Printers) (isTarget hasRest : Bool) : List (Option Pattern) → Writer Unit
  | [] => pure ()
  | x :: rest => do
    putSome "" (r.pattern isTarget) x
    if rest.isEmpty then
      if x.isNone || hasRest then put ","
    else put ", "
    putPatternItems r isTarget hasRest rest

/-- A pattern. Assignment targets are set a little closer than bindings. -/
def putPattern (isTarget : Bool) : Pattern → Writer Unit
  | .bind _ name => put name
  | .target e => r.expr e Level.comma {}
  | .array _ items rest => do
    put "["
    putPatternItems r isTarget rest.isSome items
    putSome (if isTarget || items.isEmpty then "..." else " ...") (r.pattern isTarget) rest
    put "]"
  | .object _ props rest => do
    let isEmpty := props.isEmpty && rest.isNone
    put "\x7b"
    unless isTarget || isEmpty do put " "
    listed (putPatternProperty r isTarget) props
    let lead := if props.isEmpty then "..." else if isTarget then ",..." else ", ..."
    putSome lead (r.pattern isTarget) rest
    unless isTarget || isEmpty do put " "
    put "\x7d"
  | .withDefault p e => do
    r.pattern isTarget p
    put " = "
    r.expr e Level.comma {}

def isObjectPattern : Pattern → Bool
  | .object .. => true
  | _ => false

/-! ### Operators -/

/-- A sign operator, kept apart from a sign right before it. -/
def putSign (op : String) : Writer Unit := do
  let place ← here
  match (← get).signAt, op.toList with
  | some (p, c), d :: _ => if p == place && c == d then put " "
  | _, _ => pure ()
  put op
  let place ← here
  match op.toList with
  | c :: _ =>
    if c == '+' || c == '-' then modify fun sheet => { sheet with signAt := some (place, c) }
  | [] => pure ()

def putBinary (op : String) (left right : Expr) (level : Nat) (limits : Limits) : Writer Unit := do
  let own := operatorLevel op
  let wrap := level ≥ own || (op == "in" && limits.noIn)
  let inner : Limits := { noIn := limits.noIn && !wrap }
  let leftLevel :=
    if op == "??" && clashes left then Level.sign
    else if op == "**" then (if isSigned left then Level.call else own)
    else own - 1
  let rightLevel :=
    if op == "??" && clashes right then Level.sign
    else if op == "**" then own - 1
    else own
  wrapIf wrap do
    r.expr left leftLevel inner
    put (" " ++ op ++ " ")
    r.expr right rightLevel inner

def inertMark : String := "/* @__PURE__ */ "

/-- A call or construction marked as free of effects. What follows the mark still starts the
statement. -/
def putInert (w : Writer Unit) : Writer Unit := do
  let place ← here
  let sheet ← get
  put inertMark
  let next ← here
  if sheet.defaultAt == some place then
    modify fun sheet => { sheet with defaultAt := some next }
  else if sheet.statementAt == some place then
    modify fun sheet => { sheet with statementAt := some next }
  w

/-- A call, after any parenthesis around it. -/
def putCall (at_ : Span) (callee : Expr) (args : List Item) (optional : Bool) : Writer Unit := do
  r.expr callee Level.tail {}
  if optional then put "?."
  putArguments r at_ args

/-- A construction, after any parenthesis around it. -/
def putNew (at_ : Span) (callee : Expr) (args : List Item) : Writer Unit := do
  put "new "
  r.expr callee Level.construct { noCall := true }
  putArguments r at_ args

/-- Members are reached by a point; digits right before it need a space. -/
def putPoint (optional : Bool) : Writer Unit := do
  if optional then put "?."
  else
    if (← get).numberAt == some (← here) then put " "
    put "."

def isWord (op : String) : Bool :=
  op.toList.all Char.isAlpha

def putExpr (e : Expr) (level : Nat) (limits : Limits) : Writer Unit :=
  match e with
  | .ident _ name => put name
  | .literal _ v => putLiteral v
  | .template _ quasis parts => do
    put "\x60"
    putTemplate r quasis parts
    put "\x60"
  | .tagged _ tag quasis parts => do
    r.expr tag Level.tail {}
    put "\x60"
    putTemplate r quasis parts
    put "\x60"
  | .this _ => put "this"
  | .super _ => put "super"
  | .array _ items => putItems r items
  | .object _ props => do
    wrapIf (← atBlock) (putProperties r props)
  | .function _ fn wrapped => do
    wrapIf (wrapped || (← atStart)) (putFunction r fn)
  | .arrow _ fn wrapped => wrapIf (wrapped || level ≥ Level.assign) (putArrow r fn)
  | .class_ _ cls => do
    wrapIf (← atStart) (putClass r cls)
  | .unary _ op arg =>
    wrapIf (level ≥ Level.sign) do
      if isWord op then put (op ++ " ") else putSign op
      r.expr arg Level.power {}
  | .update _ op before arg =>
    if before then
      wrapIf (level ≥ Level.sign) do
        putSign op
        r.expr arg Level.sign {}
    else
      wrapIf (level ≥ Level.tail) do
        r.expr arg Level.tail {}
        put op
  | .binary _ op left right => putBinary r op left right level limits
  | .logical _ op left right => putBinary r op left right level limits
  | .privateIn _ name right =>
    wrapIf (level ≥ Level.compare || limits.noIn) do
      put ("#" ++ name ++ " in ")
      r.expr right Level.compare {}
  | .assign _ op target value => do
    let opens := (← atBlock) && isObjectPattern target
    wrapIf (opens || level ≥ Level.assign) do
      r.pattern true target
      put (" " ++ op ++ " ")
      r.expr value Level.comma { noIn := limits.noIn }
  | .cond _ test yes no => do
    let wrap := level ≥ Level.choice
    let inner : Limits := { noIn := limits.noIn && !wrap }
    wrapIf wrap do
      r.expr test Level.choice inner
      put " ? "
      r.expr yes Level.yield_ {}
      put " : "
      r.expr no Level.yield_ inner
  | .call at_ callee args optional =>
    wrapIf (level ≥ Level.construct || limits.noCall) (putCall r at_ callee args optional)
  | .new at_ callee args => wrapIf (level ≥ Level.construct) (putNew r at_ callee args)
  | .inert _ e =>
    wrapIf (level ≥ Level.tail || limits.noCall) do
      putInert do
        match e with
        | .call at_ callee args optional => putCall r at_ callee args optional
        | .new at_ callee args => putNew r at_ callee args
        | _ => r.expr e level limits
  | .member _ object name optional => do
    r.expr object Level.tail { noCall := limits.noCall }
    putPoint optional
    put name
  | .privateMember _ object name optional => do
    r.expr object Level.tail { noCall := limits.noCall }
    putPoint optional
    put ("#" ++ name)
  | .index _ object key optional => do
    r.expr object Level.tail { noCall := limits.noCall }
    if optional then put "?."
    put "["
    r.expr key Level.lowest {}
    put "]"
  | .chain _ e => wrapIf (level ≥ Level.tail) (r.expr e level limits)
  | .sequence _ es =>
    wrapIf (level ≥ Level.comma) (listed (fun e => r.expr e Level.lowest {}) es)
  | .yield _ delegate arg =>
    wrapIf (level ≥ Level.assign) do
      put "yield"
      if delegate then put "*"
      putSome " " (r.expr · Level.yield_ {}) arg
  | .await _ arg =>
    wrapIf (level ≥ Level.sign) do
      put "await "
      r.expr arg Level.power {}
  | .importCall _ phase source options =>
    wrapIf (level ≥ Level.construct || limits.noCall) do
      put "import"
      unless phase.isEmpty do put ("." ++ phase)
      put "("
      r.expr source Level.comma {}
      putSome ", " (r.expr · Level.comma {}) options
      put ")"
  | .metaProperty _ left right => put (left ++ "." ++ right)
  | .paren _ e => r.expr e level limits
  | .cast _ _ e => r.expr e level limits

end Componentry.Script.Layout
