import Componentry.Script.Grammar.Basic

/-!
# Types

Types are read and dropped: what matters is where a type ends and whether it is well formed. A
conditional type may not stand directly after `extends`, where a question mark belongs to the
outer condition.
-/

namespace Componentry.Script

open Reader

variable (g : Grammar)

/-- Type parameters need nothing that these two do not give: a binding pattern for parameters of
function types, and a type. -/
def typeParameter : Reader Unit := do
  let found ← modifiers true false
  onlyModifiers ["in", "out", "const"] found
  let _ ← bindingName
  if ← eatWord "extends" then g.type
  if ← eatMark "=" then g.type

def typeParameters? : Reader Bool := do
  if !(← isMark "<") then return false
  let items ← between "<" ">" (commaList ">" (typeParameter g))
  faultIf items.isEmpty
  return true

/-- Splits a shift mark so that the current token is a single less-than sign. -/
def splitLess : Reader Unit := do
  match ← token with
  | .mark m =>
    if m == "<<" || m == "<=" || m == "<<=" then
      modify fun c =>
        { c with token := .mark "<", stop := c.start + 1, rest := c.here.drop 1 }
  | _ => pure ()

def atTypeArguments : Reader Bool := do
  return (← isMark "<") || (← isMark "<<")

def typeArguments : Reader Unit := do
  splitLess
  let items ← between "<" ">" (commaList ">" g.type)
  faultIf items.isEmpty

def typeReference : Reader Unit := do
  let _ ← dottedName
  if !(← onNewLine) && (← atTypeArguments) then typeArguments g

def resultType : Reader Unit := do
  if ← isName then
    let _ ← attempt do
      let _ ← anyWord
      require ((← isWord "is") && !(← onNewLine))
      advance
  g.type

def typeNote? : Reader Bool := return (← afterMark ":" g.type).isSome

/-- A result type after a colon if it is there. -/
def result? : Reader Bool := return (← afterMark ":" (resultType g)).isSome

def signatureParameter : Reader Bool := do
  let found ← modifiers false false
  onlyModifiers ["readonly"] found
  let isRest ← eatMark "..."
  if !isRest && (← isWord "this") then advance
  else
    let _ ← g.pattern
  let _ ← eatMark "?"
  let _ ← typeNote? g
  if !isRest then
    let _ ← afterMark "=" (g.assignment true)
  return isRest

/-- The parameters of a function type: a rest parameter ends them. -/
def signatureParameters : Reader Nat := do
  let items ← between "(" ")" (commaList ")" (signatureParameter g))
  faultIf (items.dropLast.any id)
  return items.length

def skipParameterStart : Reader Bool := do
  if ← isWordIn modifierWords then
    let _ ← modifiers false false
  if (← isName) || (← isWord "this") then
    advance
    return true
  if ← isMarkIn ["[", "\x7b"] then
    let _ ← g.pattern
    return !(← view (·.flawed))
  return false

/-- An opening parenthesis that can only start a function type. -/
def startsFunctionType : Reader Bool := Reader.test do
  modify fun c => { c with flawed := false }
  advance
  if ← isMarkIn [")", "..."] then return true
  if ← skipParameterStart g then
    if ← isMarkIn [":", ",", "?", "="] then return true
    if ← eatMark ")" then return ← isMark "=>"
  return false

def functionType : Reader Unit := do
  let _ ← eatWord "abstract"
  let _ ← eatWord "new"
  let _ ← typeParameters? g
  let _ ← signatureParameters g
  expectMark "=>"
  resultType g

def atFunctionType : Reader Bool := do
  if ← isMark "<" then return true
  if (← isMark "(") && (← startsFunctionType g) then return true
  if ← isWord "new" then return true
  return (← isWord "abstract") && (← peekIs (Token.isWord "new"))

mutual

/-- The current token starts a type. `parameter` says that a parameter starts here, where fewer
tokens do. -/
def startsType (parameter : Bool) : Nat → Reader Bool
  | 0 => return false
  | fuel + 1 => do
    match ← token with
    | .word w _ =>
      if ["void", "null", "this", "typeof", "new", "true", "false", "import"].contains w then
        return true
      if w == "function" then return !parameter
      return !reserved.contains w
    | .string .. | .number _ | .bigInt _ | .template .. => return true
    | .mark m =>
      if ["\x7b", "[", "<", "|", "&", "*", "?", "..."].contains m then return true
      if m == "-" then return !parameter && (← peekIs Token.isNumeric)
      if m == "(" then
        if parameter then return false
        Reader.test do
          advance
          if ← isMark ")" then return true
          if ← startsParameter fuel then return true
          startsType false fuel
      else return false
    | _ => return false

def startsParameter : Nat → Reader Bool
  | 0 => return false
  | fuel + 1 => do
    if ← isMarkIn ["...", "[", "\x7b", "@"] then return true
    if ← isBinding then return true
    if ← isWordIn modifierWords then return true
    startsType true fuel

end

def atType : Reader Bool := do
  startsType false (2 * (← view fun c => c.here.length) + 2)

def memberEnd : Reader Unit := do
  if ← eatMark "," then return ()
  semicolon

def plainKey : Reader Unit := do
  match ← token with
  | .word .. | .string .. | .number _ | .bigInt _ => advance
  | .privateName _ => advance; fault
  | .mark "[" =>
    let _ ← between "[" "]" (withIn (g.assignment true))
  | _ => fail

def atIndexSignature : Reader Bool := do
  if !(← isMark "[") then return false
  Reader.test do
    advance
    if ← isMarkIn ["...", "["] then return true
    if ← isWordIn modifierWords then
      advance
      if ← isName then return true
    else if !(← isName) then return false
    else advance
    if ← isMarkIn [":", ","] then return true
    if !(← isMark "?") then return false
    advance
    isMarkIn [":", ",", "]"]

def indexSignature : Reader Unit := do
  let items ← between "[" "]" <| commaList "]" do
    let _ ← bindingName
    if !(← typeNote? g) then fail
  faultIf (items.length != 1)
  if !(← typeNote? g) then fail
  memberEnd

def signature : Reader Unit := do
  let _ ← typeParameters? g
  let _ ← signatureParameters g
  let _ ← result? g

def typeMember : Reader Unit := do
  if (← isWord "new") && (← peekIs (Token.isMarkIn ["(", "<"])) then advance
  if ← isMarkIn ["(", "<"] then
    signature g
    return ← memberEnd
  let found ← modifiers false false
  onlyModifiers ["readonly"] found
  let accessor (count : Nat) : Reader Unit := do
    plainKey g
    let _ ← typeParameters? g
    faultIf ((← signatureParameters g) != count)
    let _ ← result? g
    memberEnd
  if ← contextualWord "get" then return ← accessor 0
  if ← contextualWord "set" then return ← accessor 1
  if ← atIndexSignature then return ← indexSignature g
  plainKey g
  let _ ← eatMark "?"
  if ← isMarkIn ["(", "<"] then signature g
  else
    let _ ← typeNote? g
  memberEnd

def typeMembers : Reader Unit := do
  expectMark "\x7b"
  let _ ← collect do
    if ← isMark "\x7d" then return none
    if ← atEnd then fail
    typeMember g
    return some ()
  expectMark "\x7d"

def atMappedType : Reader Bool := Reader.test do
  advance
  if (← eatMark "+") || (← eatMark "-") then return ← isWord "readonly"
  let _ ← eatWord "readonly"
  if !(← eatMark "[") then return false
  if !(← token).isAnyWord then return false
  advance
  isWord "in"

def mappedType : Reader Unit := do
  expectMark "\x7b"
  if (← eatMark "+") || (← eatMark "-") then expectWord "readonly"
  else
    let _ ← eatWord "readonly"
  expectMark "["
  let _ ← anyWord
  expectWord "in"
  g.type
  if ← eatWord "as" then g.type
  expectMark "]"
  if (← eatMark "+") || (← eatMark "-") then expectMark "?"
  else
    let _ ← eatMark "?"
  let _ ← typeNote? g
  let _ ← eatMark ";"
  expectMark "\x7d"

def tupleMember : Reader Unit := do
  let named ← Reader.test do
    let _ ← eatMark "..."
    if !(← token).isAnyWord then return false
    advance
    if ← isMark ":" then return true
    if !(← eatMark "?") then return false
    isMark ":"
  let rest ← eatMark "..."
  if named then
    let _ ← anyWord
    let optional ← eatMark "?"
    faultIf (rest && optional)
    expectMark ":"
    if !rest then
      let _ ← eatMark "..."
  g.type

/-- Continues a template at the closing brace that is the current token. -/
def templateTail : Reader (Quasi × Bool) := do
  require (← isMark "\x7d")
  match templateStretch ((← get).here.drop 1) with
  | none => fail
  | some (q, taken, last, rest) =>
    modify fun c => { c with stop := c.start + 1 + taken, rest }
    advance
    return (q, last)

def templateType : Reader Unit := do
  match ← token with
  | .template q last =>
    faultIf q.cooked.isNone
    advance
    if !last then
      let _ ← iterate (fun (_ : Unit) => do
        g.type
        let (q, last) ← templateTail
        faultIf q.cooked.isNone
        return ((), !last)) ()
  | _ => fail

def importType : Reader Unit := do
  expectWord "import"
  expectMark "("
  match ← token with
  | .string .. => pure ()
  | _ => fault
  g.type
  if ← eatMark "," then
    if ← isMark "\x7b" then
      let _ ← g.assignment true
      let _ ← eatMark ","
  expectMark ")"
  let _ ← afterMark "." dottedName
  if !(← onNewLine) && (← atTypeArguments) then typeArguments g

def primaryType : Reader Unit := do
  match ← token with
  | .string .. | .number _ | .bigInt _ => advance
  | .template .. => templateType g
  | .mark "-" =>
    if ← peekIs Token.isNumeric then
      advance
      advance
    else fail
  | .mark "\x7b" => if ← atMappedType then mappedType g else typeMembers g
  | .mark "[" =>
    let _ ← between "[" "]" (commaList "]" (tupleMember g))
  | .mark "(" => between "(" ")" g.type
  | .mark "?" =>
    advance
    if !(← isMarkIn [",", "\x7d", ")", ">", "=", "|"]) then g.type
  | .mark "!" =>
    advance
    g.typeOperand
  | .word w _ =>
    if ["true", "false", "null", "void"].contains w then advance
    else if w == "this" then
      advance
      if (← isWord "is") && !(← onNewLine) then
        advance
        g.type
    else if w == "typeof" then
      advance
      if ← isWord "import" then importType g else typeReference g
    else if w == "import" then importType g
    else if w == "asserts" && (← peek).token.isAnyWord && !(← peek).newline then
      advance
      advance
      if ← eatWord "is" then g.type
    else typeReference g
  | _ => fail

/-- A type with brackets and marks after it. -/
def postfixType : Reader Unit := do
  primaryType g
  let _ ← collect do
    if ← onNewLine then return none
    if ← isMark "!" then
      advance
      return some ()
    if ← isMark "?" then
      if ← Reader.test (do advance; atType) then return none
      advance
      return some ()
    if ← isMark "[" then
      advance
      if ← atType then g.type
      expectMark "]"
      return some ()
    return none
  return ()

def operandType : Reader Unit := do
  if ← isWordIn ["keyof", "unique", "readonly"] then
    advance
    g.typeOperand
  else if ← isWord "infer" then
    advance
    let _ ← bindingName
    let _ ← attempt do
      require (← eatWord "extends")
      within (fun c => { c with noConditionalType := true }) g.type
      require ((← allowed (·.noConditionalType)) || !(← isMark "?"))
  else within (fun c => { c with noConditionalType := false }) (postfixType g)

def joinedTypes (mark : String) (operand : Reader Unit) : Reader Unit := do
  let _ ← eatMark mark
  operand
  let _ ← collect do
    if ← eatMark mark then
      operand
      return some ()
    return none
  return ()

def typeRule : Reader Unit := do
  if ← atFunctionType g then return ← functionType g
  joinedTypes "|" (joinedTypes "&" g.typeOperand)
  if !(← allowed (·.noConditionalType)) && !(← onNewLine) && (← eatWord "extends") then
    within (fun c => { c with noConditionalType := true }) g.type
    expectMark "?"
    within (fun c => { c with noConditionalType := false }) g.type
    expectMark ":"
    within (fun c => { c with noConditionalType := false }) g.type

end Componentry.Script
