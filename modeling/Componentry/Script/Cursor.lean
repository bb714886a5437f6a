import Componentry.Script.Token

/-!
# Cursors

A cursor stands on one token of a text and knows what follows it. Moving on skips gaps and
comments; the comments are kept with the place of the token they lead to. The grammar is written
in the monad of functions on cursors that may fail. A failure is a fault after which reading
cannot go on; other faults are noted in `flawed`, which a trial that is taken back forgets.
-/

namespace Componentry.Script

/-- What the surroundings allow. -/
structure Context where
  inOperator : Bool := true
  inGenerator : Bool := false
  inAsync : Bool := true
  inFunction : Bool := false
  /-- A decorator is being read: brackets do not go on with it. -/
  inDecorator : Bool := false
  ambient : Bool := false
  noConditionalType : Bool := false

/-- A place in a text, and what was found on the way. -/
structure Cursor where
  token : Token := .eof
  start : Nat := 0
  stop : Nat := 0
  newline : Bool := false
  previousStop : Nat := 0
  here : List Char := []
  rest : List Char := []
  flawed : Bool := false
  /-- Places of initialised shorthands in object literals that have not become patterns. -/
  covers : List Nat := []
  /-- Places of array and object literals with a comma after their last member. -/
  trailing : List Nat := []
  comments : List Comment := []
  context : Context := {}

/-- Comments met in one gap, last first, and whether a line end was met. -/
structure Gap where
  comments : List Comment := []
  /-- A line end was met, also inside a comment. -/
  newline : Bool := false
  /-- A line end was met outside block comments. -/
  brokeLine : Bool := false
  unclosed : Bool := false

/-- Marks the comments of a gap as belonging to the token before it. -/
def Gap.settle (g : Gap) : Gap :=
  { g with comments := g.comments.map fun c => { c with trailing := true } }

/-- The effect of a line end: what stands before it on the line of the last token belongs to that
token, unless that token asks for more. -/
def Gap.lineEnd (g : Gap) (opening : Bool) : Gap :=
  let g := match g.comments with
    | [] => g
    | c :: cs =>
      if c.trailing then g
      else
        let g := { g with comments := { c with beforeNewline := true } :: cs }
        if !g.brokeLine && !opening then g.settle else g
  { g with newline := true, brokeLine := true }

/-- The inside of a block comment: the text reversed, the rest, or nothing if it is not closed. -/
def blockBody : List Char → List Char → Option (List Char × List Char)
  | [], _ => none
  | '*' :: '/' :: cs, acc => some ('/' :: '*' :: acc, cs)
  | c :: cs, acc => blockBody cs (c :: acc)

/-- Skips gaps and comments. `opening` says that the token before was an equals sign or an opening
parenthesis. -/
def skipGap (opening : Bool) : Nat → Nat → List Char → Gap → Gap × Nat × List Char
  | 0, pos, cs, g => (g, pos, cs)
  | _ + 1, pos, [], g => (g, pos, [])
  | fuel + 1, pos, '/' :: '/' :: cs, g =>
    let body := cs.takeWhile fun c => !isLineEnd c
    let stop := pos + 2 + body.length
    let c : Comment :=
      { at_ := ⟨pos, stop⟩, text := String.ofList ('/' :: '/' :: body), isLine := true,
        afterNewline := g.brokeLine, beforeNewline := true, trailing := false, token := 0 }
    let g' := { g with comments := c :: g.comments }
    let g' := if !g.brokeLine && !opening then g'.settle else g'
    skipGap opening fuel stop (cs.drop body.length) { g' with brokeLine := true }
  | fuel + 1, pos, '/' :: '*' :: cs, g =>
    match blockBody cs ['*', '/'] with
    | none => ({ g with unclosed := true }, pos, [])
    | some (text, rest) =>
      let text := text.reverse
      let stop := pos + text.length
      let c : Comment :=
        { at_ := ⟨pos, stop⟩, text := String.ofList text, isLine := false,
          afterNewline := g.brokeLine, beforeNewline := false, trailing := false, token := 0 }
      skipGap opening fuel stop rest
        { g with comments := c :: g.comments, newline := g.newline || text.any isLineEnd }
  | fuel + 1, pos, c :: cs, g =>
    if isLineEnd c then skipGap opening fuel (pos + 1) cs (g.lineEnd opening)
    else if isGap c then skipGap opening fuel (pos + 1) cs g
    else (g, pos, c :: cs)

def Cursor.read (c : Cursor) (pos : Nat) (text : List Char) (atStart : Bool) : Cursor :=
  let opening := c.token = .mark "=" || c.token = .mark "("
  let (gap, start, here) :=
    skipGap opening (text.length + 1) pos text { newline := atStart, brokeLine := atStart }
  let (token, taken, rest) := tokenAt here
  { c with
    token
    start
    stop := start + taken
    newline := gap.newline
    previousStop := c.stop
    here
    rest
    flawed := c.flawed || gap.unclosed || token = .bad
    comments := (gap.comments.map fun x => { x with token := start }) ++ c.comments }

def Cursor.next (c : Cursor) : Cursor :=
  c.read c.stop c.rest false

def Token.isWord (w : String) : Token → Bool
  | .word t _ => t == w
  | _ => false

def Token.isMarkIn (ms : List String) : Token → Bool
  | .mark t => ms.contains t
  | _ => false

abbrev Reader := StateT Cursor Option

namespace Reader

def token : Reader Token := return (← get).token

variable {α : Type}

def view (f : Cursor → α) : Reader α := return f (← get)

def start : Reader Nat := view (·.start)

/-- A fault after which reading cannot go on. -/
def fail : Reader α := fun _ => none

def fault : Reader Unit := modify fun c => { c with flawed := true }

def faultIf (b : Bool) : Reader Unit := if b then fault else pure ()

def require (b : Bool) : Reader Unit := if b then pure () else fail

def advance : Reader Unit := modify Cursor.next

/-- Moves on from a keyword, which may not be written with escapes. -/
def advanceKeyword : Reader Unit := do
  match ← token with
  | .word _ true => fault
  | _ => pure ()
  advance

/-- A line end stands before the current token. -/
def onNewLine : Reader Bool := view (·.newline)

def spanFrom (start : Nat) : Reader Span := return ⟨start, (← get).previousStop⟩

def ahead (r : Reader α) : Reader (Option α) := fun c =>
  some ((r c).map Prod.fst, c)

/-- A test that reads ahead; failure counts as no. -/
def test (r : Reader Bool) : Reader Bool := fun c =>
  some (((r c).map Prod.fst).getD false, c)

/-- Reads if that is possible, otherwise stays where it is. -/
def attempt (r : Reader α) : Reader (Option α) := fun c =>
  match r c with
  | some (a, c') => some (some a, c')
  | none => some (none, c)

def isMark (m : String) : Reader Bool := return (← token) = .mark m

def isWord (w : String) : Reader Bool := return (← token).isWord w

def isMarkIn (ms : List String) : Reader Bool := return (← token).isMarkIn ms

def isWordIn (ws : List String) : Reader Bool := do
  match ← token with
  | .word t _ => return ws.contains t
  | _ => return false

def eatMark (m : String) : Reader Bool := do
  if ← isMark m then advance; return true else return false

def eatWord (w : String) : Reader Bool := do
  if ← isWord w then advanceKeyword; return true else return false

def expectMark (m : String) : Reader Unit := do
  if ← eatMark m then pure () else fail

def expectWord (w : String) : Reader Unit := do
  if ← eatWord w then pure () else fail

def atEnd : Reader Bool := return (← token) = .eof

/-- What stands between two marks. -/
def between (opening closing : String) (r : Reader α) : Reader α := do
  expectMark opening
  let a ← r
  expectMark closing
  return a

/-- What follows a mark, if that stands here. -/
def afterMark (m : String) (r : Reader α) : Reader (Option α) := do
  if ← eatMark m then some <$> r else return none

def afterWord (w : String) (r : Reader α) : Reader (Option α) := do
  if ← eatWord w then some <$> r else return none

def within (f : Context → Context) (r : Reader α) : Reader α := do
  let old ← view (·.context)
  modify fun c => { c with context := f old }
  let a ← r
  modify fun c => { c with context := old }
  return a

def withIn (r : Reader α) : Reader α := within (fun c => { c with inOperator := true }) r

def allowed (f : Context → Bool) : Reader Bool := view fun c => f c.context

/-- Repeats a reader while it returns a value; the rest of the text bounds the loop. -/
def collect (step : Reader (Option α)) : Reader (List α) := do
  go (2 * (← view fun c => c.here.length) + 4) []
where
  go : Nat → List α → Reader (List α)
    | 0, _ => fail
    | fuel + 1, acc => do
      match ← step with
      | some a => go fuel (a :: acc)
      | none => return acc.reverse

def iterate (step : α → Reader (α × Bool)) (a : α) : Reader α := do
  go (2 * (← view fun c => c.here.length) + 4) a
where
  go : Nat → α → Reader α
    | 0, _ => fail
    | fuel + 1, a => do
      let (a, more) ← step a
      if more then go fuel a else return a

/-- Items with commas between them up to a closing mark, which is not taken, and whether a comma
ends the list. -/
def commaListTail (close : String) (item : Reader α) : Reader (List α × Bool) := do
  let items ← collect do
    if ← isMark close then return none
    if ← atEnd then fail
    let a ← item
    if ← isMark close then return some (a, false)
    expectMark ","
    return some (a, true)
  return (items.map Prod.fst, (items.getLast?.map Prod.snd).getD false)

/-- Items with commas between them up to a closing mark, which is not taken. A comma may end the
list. -/
def commaList (close : String) (item : Reader α) : Reader (List α) := do
  return (← commaListTail close item).1

def atClose : Reader Bool := return (← isMark "\x7d") || (← atEnd)

def canEndStatement : Reader Bool := return (← isMark ";") || (← atClose) || (← onNewLine)

/-- A semicolon, written or implied by a line end, a closing brace or the end of the text. -/
def semicolon : Reader Unit := do
  require (← canEndStatement)
  let _ ← eatMark ";"

/-- Joins greater-than signs, and an equals sign after them, into the longest operator. -/
def joinGreater : Reader Unit := do
  if ← isMark ">" then
    modify fun c =>
      let ops := [">>>=", ">>>", ">>=", ">>", ">="]
      match ops.find? fun m => Text.startsWith m.toList c.here with
      | some m =>
        { c with token := .mark m, stop := c.start + m.length, rest := c.here.drop m.length }
      | none => c

end Reader

end Componentry.Script
