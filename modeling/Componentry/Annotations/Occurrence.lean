import Componentry.Json.Read
import Componentry.Script.Syntax
import Componentry.Text.Scan

/-!
# Annotations in a text

Annotations found by looking at the characters alone: an at sign with a name, outside strings and
comments, at the start of something, perhaps with arguments in parentheses. The arguments are
separated by commas outside quotes and brackets, and each becomes a JSON value. A marker is a comment
that stands for an annotation where annotations may not stand, and can be read back.
-/

namespace Componentry.Annotations

open Text Decimal

/-! ### Arguments -/

/-- A quote that an argument list leaves open. -/
structure ArgumentError where
  quote : Char
deriving DecidableEq, Repr

def ArgumentError.message (e : ArgumentError) : String :=
  "unterminated " ++ String.ofList [e.quote] ++ " string in annotation arguments"

def isQuote (c : Char) : Bool :=
  c == '"' || c == '\x27' || c == '\x60'

def isOpening (c : Char) : Bool :=
  c == '(' || c == '[' || c == '\x7b'

def isClosing (c : Char) : Bool :=
  c == ')' || c == ']' || c == '\x7d'

/-- The pieces of an argument list: `quote` is open, `depth` brackets are open, `acc` is the
current piece reversed. A last piece of blanks does not count. -/
def pieces : Option Char → Nat → List Char → List Char → Except ArgumentError (List (List Char))
  | some q, _, _, [] => .error ⟨q⟩
  | none, _, acc, [] => .ok (if allBlank acc then [] else [acc.reverse])
  | some q, depth, acc, '\\' :: c :: cs => pieces (some q) depth (c :: '\\' :: acc) cs
  | some q, depth, acc, c :: cs =>
    pieces (if c == q then none else some q) depth (c :: acc) cs
  | none, depth, acc, c :: cs =>
    if c == ',' && depth == 0 then
      (pieces none 0 [] cs).map (acc.reverse :: ·)
    else if isQuote c then pieces (some c) depth (c :: acc) cs
    else if isOpening c then pieces none (depth + 1) (c :: acc) cs
    else if isClosing c then pieces none (depth - 1) (c :: acc) cs
    else pieces none depth (c :: acc) cs

/-- A text with its escapes undone: a backslash before `n` or `t` is a line feed or tab, before
anything else it vanishes. -/
def unescape : List Char → List Char
  | [] => []
  | ['\\'] => []
  | '\\' :: c :: cs => (if c == 'n' then '\n' else if c == 't' then '\t' else c) :: unescape cs
  | c :: cs => c :: unescape cs

/-- The number of a text of decimal digits. -/
def digitsValue (cs : List Char) : Nat :=
  cs.foldl (fun v c => v * 10 + (c.toNat - 48)) 0

/-- An optional sign: whether it is a minus, and what follows. -/
def sign : List Char → Bool × List Char
  | '-' :: cs => (true, cs)
  | '+' :: cs => (false, cs)
  | cs => (false, cs)

variable (s : List Char)

def whole? : Option Int :=
  let (negative, digits) := sign s
  if digits.isEmpty || !digits.all Char.isDigit then none
  else
    let n : Int := digitsValue digits
    let n := if negative then -n else n
    if Int64.minValue.toInt ≤ n && n ≤ Int64.maxValue.toInt then some n else none

/-- The exponent at the end of a number: nothing, or a letter, a sign and digits. -/
def exponent? : List Char → Option Int
  | [] => some 0
  | c :: cs =>
    if c == 'e' || c == 'E' then
      let (negative, digits) := sign cs
      if digits.isEmpty || !digits.all Char.isDigit then none
      else
        let n : Int := digitsValue digits
        some (if negative then -n else n)
    else none

/-- A decimal number with a point or an exponent, if it is finite. -/
def float? : Option Binary64 := do
  let (negative, body) := sign s
  let whole := body.takeWhile Char.isDigit
  let rest := body.drop whole.length
  let (fraction, rest) := match rest with
    | '.' :: r => (r.takeWhile Char.isDigit, r.dropWhile Char.isDigit)
    | r => ([], r)
  if whole.isEmpty && fraction.isEmpty then none
  else
    let e ← exponent? rest
    Binary64.ofDecimal negative (digitsValue (whole ++ fraction)) (e - fraction.length)

/-- The text between two equal quotes. -/
def unquoted? : Option (List Char) :=
  match s with
  | c :: rest =>
    if isQuote c && !rest.isEmpty && rest.getLast? == some c then some rest.dropLast else none
  | [] => none

def value : Json :=
  match unquoted? s with
  | some inner => .string (String.ofList (unescape inner))
  | none =>
    let text := String.ofList s
    if text == "true" then .bool true
    else if text == "false" then .bool false
    else if text == "null" then .null
    else match whole? s with
      | some n => .int n
      | none => match float? s with
        | some x => .number (.float x)
        | none => .string text

def arguments (text : String) : Except ArgumentError (List Json) :=
  (pieces none 0 [] text.toList).map fun ps => ps.map fun p => value (trim p)

/-! ### What annotations mean -/

def eventNames : List String :=
  ["click", "dblclick", "input", "change", "submit", "reset", "keydown", "keyup", "keypress",
   "focus", "blur", "focusin", "focusout", "mouseenter", "mouseleave", "mouseover", "mouseout",
   "mousedown", "mouseup", "mousemove", "pointerdown", "pointerup", "pointermove", "touchstart",
   "touchend", "touchmove", "scroll", "wheel", "contextmenu", "dragstart", "dragend", "drop"]

/-- Annotations that delay calls. -/
def timingNames : List String := ["debounce", "throttle"]

/-- The delay when none is given, in milliseconds. -/
def defaultDelay : Nat := 200

/-- What an annotation asks for. -/
inductive Kind where
  /-- A listener for an event, perhaps only from elements that match a selector. -/
  | event (type : String) (selector : Option String)
  | timing (type : String) (delay : Nat)
  | unknown (args : List Json)
deriving Repr, Inhabited

/-- An annotation of a method. -/
structure Metadata where
  method : String
  name : String
  kind : Kind
deriving Repr

def maxDelay : Nat := UInt64.size - 1

/-- The delay that an argument gives: a number that is not negative, cut to a whole one. -/
def delayOf (arg : Option Json) : Nat :=
  match arg.bind Json.double? with
  | some x => if x.isNonneg then min x.floorMagnitude maxDelay else defaultDelay
  | none => defaultDelay

def classify (method name : String) (args : List Json) : Metadata :=
  let first := args.head?.bind Json.string?
  let kind : Kind :=
    if eventNames.contains name then .event name first
    else match name == "on", first with
      | true, some type => .event type ((args[1]?).bind Json.string?)
      | _, _ =>
        if timingNames.contains name then .timing name (delayOf args.head?)
        else .unknown args
  { method, name, kind }

def Kind.members : Kind → List (String × Json)
  | .event type selector =>
    [("kind", .string "event"), ("eventType", .string type)] ++
      (selector.map fun s => ("selector", Json.string s)).toList
  | .timing type delay =>
    [("kind", .string "timing"), ("timingType", .string type), ("delayMs", .nat delay)]
  | .unknown args => [("kind", .string "unknown"), ("args", .array args)]

def Metadata.toJson (m : Metadata) : Json :=
  .object ([("methodName", .string m.method), ("name", .string m.name)] ++ m.kind.members)

def Kind.ofJson? (j : Json) : Option Kind := do
  let kind ← (j.get? "kind").bind Json.string?
  if kind == "event" then
    let type ← (j.get? "eventType").bind Json.string?
    match j.get? "selector" with
    | none | some .null => return .event type none
    | some s => return .event type (some (← s.string?))
  else if kind == "timing" then
    let type ← (j.get? "timingType").bind Json.string?
    let delay ← (j.get? "delayMs").bind Json.nat?
    return .timing type delay
  else if kind == "unknown" then
    match j.get? "args" with
    | none => return .unknown []
    | some a => return .unknown (← a.array?)
  else none

def Metadata.ofJson? (j : Json) : Option Metadata := do
  let method ← (j.get? "methodName").bind Json.string?
  let name ← (j.get? "name").bind Json.string?
  return { method, name, kind := ← Kind.ofJson? j }

/-! ### Occurrences -/

open Script

/-- An annotation in a text. -/
structure Occurrence where
  at_ : Span
  name : String
  args : String
deriving DecidableEq, Repr, Inhabited

/-- How many characters a quoted text takes after its opening quote, the closing one included. -/
def quotedLength (q : Char) : List Char → Option Nat
  | [] => none
  | ['\\'] => none
  | '\\' :: _ :: cs => (quotedLength q cs).map (· + 2)
  | c :: cs => if c == q then some 1 else (quotedLength q cs).map (· + 1)

/-- How many characters lead up to the parenthesis that closes the one at the start. -/
def closingParen : Nat → Nat → List Char → Option Nat
  | 0, _, _ => none
  | _ + 1, _, [] => none
  | fuel + 1, depth, c :: cs =>
    if isQuote c then do
      let n ← quotedLength c cs
      (closingParen fuel depth (cs.drop n)).map (· + n + 1)
    else if c == '(' then (closingParen fuel (depth + 1) cs).map (· + 1)
    else if c == ')' then
      if depth ≤ 1 then some 0 else (closingParen fuel (depth - 1) cs).map (· + 1)
    else (closingParen fuel depth cs).map (· + 1)

/-- A character of an annotation's name. -/
def isNameChar (c : Char) : Bool :=
  c.isAlphanum || c == '_' || c == '$' || c == '.'

/-- The annotation after an at sign: its name, its arguments, and how many characters it takes
after the sign. -/
def annotationAt (s : List Char) : Option (List Char × List Char × Nat) :=
  let name := s.takeWhile isNameChar
  match name with
  | [] => none
  | c :: _ =>
    if c.isDigit || c == '.' then none
    else
      let rest := s.drop name.length
      let close := if rest.head? == some '(' then closingParen (rest.length + 1) 0 rest else none
      match close with
      | some n => some (name, (rest.drop 1).take (n - 1), name.length + n + 1)
      | none => some (name, [], name.length)

/-- A character after which an annotation may start. -/
def isBoundary (c : Char) : Bool :=
  c == ' ' || c == '\t' || c == '\n' || c == '\r' || c == '\x7b' || c == '\x7d' || c == ',' ||
    c == ';'

/-- How many characters a comment takes after its two opening ones. -/
def blockLength : List Char → Nat
  | [] => 0
  | '*' :: '/' :: _ => 2
  | _ :: cs => blockLength cs + 1

/-- The annotations of a text that starts at `pos`, after the character `before`. -/
def scan : Nat → Option Char → Nat → List Char → List Occurrence
  | 0, _, _, _ => []
  | _ + 1, _, _, [] => []
  | fuel + 1, _, pos, '/' :: '/' :: cs =>
    let body := cs.takeWhile (· != '\n')
    scan fuel (some '/') (pos + 2 + body.length) (cs.drop body.length)
  | fuel + 1, _, pos, '/' :: '*' :: cs =>
    let n := blockLength cs
    scan fuel (some '/') (pos + 2 + n) (cs.drop n)
  | fuel + 1, before, pos, c :: cs =>
    if isQuote c then
      match quotedLength c cs with
      | some n => scan fuel (some c) (pos + 1 + n) (cs.drop n)
      | none => []
    else if c == '@' && before.all isBoundary then
      match annotationAt cs with
      | some (name, args, n) =>
        { at_ := ⟨pos, pos + 1 + n⟩, name := String.ofList name, args := String.ofList args } ::
          scan fuel (some ')') (pos + 1 + n) (cs.drop n)
      | none => scan fuel (some c) (pos + 1) cs
    else scan fuel (some c) (pos + 1) cs

/-- The annotations of a script, in order. -/
def occurrences (script : List Char) : List Occurrence :=
  scan script.length none 0 script

/-- A text with everything but its line ends blanked out. -/
def blank (s : List Char) : List Char :=
  s.map fun c => if c == '\n' || c == '\r' then c else ' '

/-! ### Markers -/

/-- The marker of an annotation with the text of its arguments. -/
def encodeMarker (name args : String) : String :=
  "/*@sfc:" ++ name ++ ":" ++ String.ofList (hexEncode (utf8 args.toList)) ++ "*/"

/-- Why a marker cannot be read back. -/
inductive MarkerError where
  /-- The arguments are not hexadecimal, or not text. -/
  | encoding
  | arguments (e : ArgumentError)
deriving DecidableEq, Repr

/-- The name and the coded arguments of the marker at the start of a text. -/
def markerAt (s : List Char) : Option (String × List Char) := do
  let rest ← dropLead? "/*@sfc:".toList s
  let name := rest.takeWhile isNameChar
  let first ← name.head?
  if first.isDigit || first == '.' then none
  else
    let rest ← dropLead? [':'] (rest.drop name.length)
    let code := rest.takeWhile Char.isAlphanum
    let _ ← dropLead? "*/".toList (rest.drop code.length)
    return (String.ofList name, code)

/-- The first marker in a text: its name, and its arguments. -/
def decodeMarker (text : String) : Option (String × Except MarkerError (List Json)) := do
  let (name, code) ← firstMatch (fun _ s => markerAt s) none text.toList
  let args : Except MarkerError (List Json) :=
    match (hexDecode? code).bind ofUtf8? with
    | none => .error .encoding
    | some t => (arguments t).mapError .arguments
  return (name, args)

end Componentry.Annotations
