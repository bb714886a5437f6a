import Componentry.Script.Syntax
import Componentry.Text.Bytes
import Componentry.Text.Scan
import Componentry.Text.Word

/-!
# Tokens of scripts

Readers from characters to tokens. Each reader returns what is left of the text together with the
number of characters it took, so that places in the text are sums of what the readers took. What a
slash or a closing brace starts depends on the grammar around it; the readers for regular
expressions and for the continuation of templates are therefore separate and are called by the
grammar. A greater-than sign is always read alone and joined later where an operator may stand.
-/

namespace Componentry.Script

open Text

/-- A token. -/
inductive Token where
  | eof
  /-- A name or keyword; `escaped` says that it was written with an escape. -/
  | word (text : String) (escaped : Bool)
  | privateName (text : String)
  | mark (text : String)
  | number (raw : String)
  | bigInt (raw : String)
  | string (value raw : String)
  /-- The first stretch of a template; `last` says that it is the only one. -/
  | template (quasi : Quasi) (last : Bool)
  | bad
deriving DecidableEq, Repr

def isLineEnd (c : Char) : Bool :=
  c == '\n' || c == '\r' || c.val == 0x2028 || c.val == 0x2029

/-- A blank between tokens that is no line terminator. -/
def isGap (c : Char) : Bool :=
  c == ' ' || c == '\t' || c.val == 0xB || c.val == 0xC || c.val == 0xA0 || c.val == 0x85 ||
  c.val == 0xFEFF || c.val == 0x1680 || c.val == 0x180E || (0x2000 ≤ c.val && c.val ≤ 0x200B) ||
  c.val == 0x202F || c.val == 0x205F || c.val == 0x3000

def startsName (c : Char) : Bool :=
  c == '$' || c == '_' || isIdStart c

def continuesName (c : Char) : Bool :=
  c == '$' || isIdContinue c || c.val == 0x200C || c.val == 0x200D

/-! ### Escapes -/

/-- The number of hexadecimal digits up to a closing brace, with the brace: value, characters
taken, rest. -/
def bracedCode : List Char → Nat → Nat → Option (Nat × Nat × List Char)
  | [], _, _ => none
  | c :: cs, value, taken =>
    if c == '\x7d' then if taken == 0 then none else some (value, taken + 1, cs)
    else do
      let v := value * 16 + (← hexValue? c)
      if v ≤ 0x10FFFF then bracedCode cs v (taken + 1) else none

/-- The code that follows `\u`: value, characters taken, rest. -/
def unicodeCode (cs : List Char) : Option (Nat × Nat × List Char) :=
  match cs with
  | '\x7b' :: rest => (bracedCode rest 0 0).map fun (v, n, r) => (v, n + 1, r)
  | _ => (hexDigits? 4 0 cs).map fun (v, r) => (v, 4, r)

def isOctal (c : Char) : Bool := '0' ≤ c && c ≤ '7'

/-- What follows a backslash: the code it stands for, none for a line that goes on, then the
characters taken and the rest. Octal codes are for strings only. -/
def escapeCode (inTemplate : Bool) : List Char → Option (Option Nat × Nat × List Char)
  | [] => none
  | 'n' :: cs => some (some 10, 1, cs)
  | 't' :: cs => some (some 9, 1, cs)
  | 'r' :: cs => some (some 13, 1, cs)
  | 'b' :: cs => some (some 8, 1, cs)
  | 'v' :: cs => some (some 11, 1, cs)
  | 'f' :: cs => some (some 12, 1, cs)
  | 'x' :: cs => (hexDigits? 2 0 cs).map fun (v, r) => (some v, 3, r)
  | 'u' :: cs => (unicodeCode cs).map fun (v, n, r) => (some v, n + 1, r)
  | '\r' :: '\n' :: cs => some (none, 2, cs)
  | c :: cs =>
    if isLineEnd c then some (none, 1, cs)
    else if inTemplate then
      if c == '0' && !(cs.head?.any Char.isDigit) then some (some 0, 1, cs)
      else if c.isDigit then none
      else some (some c.toNat, 1, cs)
    else if isOctal c then
      let most := if c ≤ '3' then 2 else 1
      let more := (cs.take most).takeWhile isOctal
      let value := (c :: more).foldl (fun v d => v * 8 + (d.toNat - 48)) 0
      some (some value, 1 + more.length, cs.drop more.length)
    else some (some c.toNat, 1, cs)

def isHigh (n : Nat) : Bool := 0xD800 ≤ n && n < 0xDC00

def isLow (n : Nat) : Bool := 0xDC00 ≤ n && n < 0xE000

def joinPairs : List Nat → List Nat
  | [] => []
  | [a] => [a]
  | a :: b :: rest =>
    if isHigh a && isLow b then (0x10000 + (a - 0xD800) * 0x400 + (b - 0xDC00)) :: joinPairs rest
    else a :: joinPairs (b :: rest)
termination_by l => l.length

def unitDigits (n : Nat) : List Char :=
  [hexDigit (n / 4096 % 16), hexDigit (n / 256 % 16), hexDigit (n / 16 % 16), hexDigit (n % 16)]

/-- The text of a list of codes. A surrogate without its partner is written as the replacement
character and four digits; a replacement character that stands for itself is then written so
too. -/
def textOfCodes (codes : List Nat) : String :=
  let joined := joinPairs codes
  let lone := joined.any fun n => isHigh n || isLow n
  String.ofList (joined.flatMap fun n =>
    if isHigh n || isLow n || (lone && n == 0xFFFD) then Char.ofNat 0xFFFD :: unitDigits n
    else [Char.ofNat n])

/-! ### Strings and templates -/

/-- The inside of a string after its opening quote: the codes, the raw text, the rest after the
closing quote. -/
def stringBody (quote : Char) : Nat → List Char → List Nat → List Char →
    Option (List Nat × List Char × List Char)
  | 0, _, _, _ => none
  | _ + 1, [], _, _ => none
  | fuel + 1, c :: cs, codes, raw =>
    if c == quote then some (codes.reverse, raw.reverse, cs)
    else if c == '\n' || c == '\r' then none
    else if c == '\\' then do
      let (code, taken, rest) ← escapeCode false cs
      stringBody quote fuel rest (code.toList ++ codes) ((cs.take taken).reverse ++ '\\' :: raw)
    else stringBody quote fuel cs (c.toNat :: codes) (c :: raw)

/-- A stretch of a template: the codes if all escapes are good, the raw text with plain line
ends, the characters taken, whether the template ends, the rest after the closing mark. -/
def templateBody : Nat → List Char → Option (List Nat) → List Char → Nat →
    Option (Quasi × Nat × Bool × List Char)
  | 0, _, _, _, _ => none
  | _ + 1, [], _, _, _ => none
  | _ + 1, '\x60' :: cs, codes, raw, taken =>
    some (⟨codes.map fun l => textOfCodes l.reverse, String.ofList raw.reverse⟩, taken + 1, true, cs)
  | _ + 1, '$' :: '\x7b' :: cs, codes, raw, taken =>
    some (⟨codes.map fun l => textOfCodes l.reverse, String.ofList raw.reverse⟩, taken + 2, false, cs)
  | fuel + 1, '\\' :: cs, codes, raw, taken =>
    match escapeCode true cs with
    | some (code, n, rest) =>
      let codes := match code with
        | some v => codes.map (v :: ·)
        | none => codes
      let text := match cs.take n with
        | '\r' :: '\n' :: _ => ['\n']
        | '\r' :: _ => ['\n']
        | t => t.reverse
      templateBody fuel rest codes (text ++ '\\' :: raw) (taken + 1 + n)
    | none =>
      match cs with
      | [] => none
      | c :: rest => templateBody fuel rest none (c :: '\\' :: raw) (taken + 2)
  | fuel + 1, '\r' :: '\n' :: cs, codes, raw, taken =>
    templateBody fuel cs (codes.map (10 :: ·)) ('\n' :: raw) (taken + 2)
  | fuel + 1, c :: cs, codes, raw, taken =>
    let c := if c == '\r' then '\n' else c
    templateBody fuel cs (codes.map (c.toNat :: ·)) (c :: raw) (taken + 1)

/-- A stretch of a template that starts after a backtick or a closing brace. -/
def templateStretch (cs : List Char) : Option (Quasi × Nat × Bool × List Char) :=
  templateBody (cs.length + 1) cs (some []) [] 0

/-! ### Names -/

/-- The characters of a name, escapes undone: text, characters taken, whether an escape was used,
rest. -/
def nameBody : Nat → List Char → List Char → Nat → Bool →
    Option (List Char × Nat × Bool × List Char)
  | 0, _, _, _, _ => none
  | _ + 1, [], acc, taken, escaped => some (acc.reverse, taken, escaped, [])
  | fuel + 1, '\\' :: 'u' :: cs, acc, taken, _ => do
    let (v, n, rest) ← unicodeCode cs
    let c := Char.ofNat v
    if (if acc.isEmpty then startsName c else continuesName c) then
      nameBody fuel rest (c :: acc) (taken + n + 2) true
    else none
  | fuel + 1, c :: cs, acc, taken, escaped =>
    if c == '\\' then none
    else if (if acc.isEmpty then startsName c else continuesName c) then
      nameBody fuel cs (c :: acc) (taken + 1) escaped
    else if acc.isEmpty then none
    else some (acc.reverse, taken, escaped, c :: cs)

def nameAt (cs : List Char) : Option (String × Nat × Bool × List Char) :=
  (nameBody (cs.length + 1) cs [] 0 false).map fun (t, n, e, r) => (String.ofList t, n, e, r)

/-! ### Numbers -/

/-- Digits after a first one, with underscores between digits: characters taken and rest. -/
def moreDigits (digit : Char → Bool) : List Char → Option (Nat × List Char)
  | [] => some (0, [])
  | ['_'] => none
  | '_' :: c :: cs =>
    if digit c then (moreDigits digit cs).map fun (n, r) => (n + 2, r) else none
  | c :: cs => if digit c then (moreDigits digit cs).map fun (n, r) => (n + 1, r) else some (0, c :: cs)

def someDigits (digit : Char → Bool) : List Char → Option (Nat × List Char)
  | [] => none
  | c :: cs => if digit c then (moreDigits digit cs).map fun (n, r) => (n + 1, r) else none

variable (cs : List Char)

/-- An exponent after its letter. -/
def exponentDigits : Option (Nat × List Char) :=
  match cs with
  | '+' :: r | '-' :: r => (someDigits Char.isDigit r).map fun (n, r) => (n + 1, r)
  | _ => someDigits Char.isDigit cs

def exponentPart? : Option (Nat × List Char) :=
  match cs with
  | 'e' :: r | 'E' :: r => (exponentDigits r).map fun (n, r) => (n + 1, r)
  | _ => some (0, cs)

/-- What follows the point of a number that has digits before it. -/
def fractionPart : Option (Nat × List Char) := do
  let (n, r) ← match cs with
    | c :: _ => if c.isDigit then someDigits Char.isDigit cs else some (0, cs)
    | [] => some (0, [])
  let (m, r) ← exponentPart? r
  return (n + m, r)

def numberEnds : Bool :=
  match cs with
  | [] => true
  | c :: _ => !(c.isDigit || startsName c)

def baseDigit (letter : Char) (c : Char) : Bool :=
  if letter == 'b' || letter == 'B' then c == '0' || c == '1'
  else if letter == 'o' || letter == 'O' then isOctal c
  else (hexValue? c).isSome

/-- The length of a number, whether it is a big integer, and the rest. The first character is a
digit, or a point before one. -/
def numberBody : Option (Nat × Bool × List Char) := do
  let ended (n : Nat) (big : Bool) (r : List Char) : Option (Nat × Bool × List Char) :=
    if numberEnds r then some (n, big, r) else none
  match cs with
  | '0' :: c :: r =>
    if c == 'b' || c == 'B' || c == 'o' || c == 'O' || c == 'x' || c == 'X' then
      let (n, r) ← someDigits (baseDigit c) r
      match r with
      | 'n' :: r => ended (n + 3) true r
      | _ => ended (n + 2) false r
    else if c == 'e' || c == 'E' then
      let (n, r) ← exponentDigits r
      return (n + 2, false, r)
    else if c == '.' then
      let (n, r) ← fractionPart r
      ended (n + 2) false r
    else if c == 'n' then ended 2 true r
    else if c.isDigit then
      let digits := (c :: r).takeWhile Char.isDigit
      let rest := (c :: r).dropWhile Char.isDigit
      let n := digits.length + 1
      if digits.all isOctal then ended n false rest
      else match rest with
        | '.' :: r =>
          let (m, r) ← fractionPart r
          ended (n + 1 + m) false r
        | 'e' :: r =>
          let (m, r) ← exponentDigits r
          return (n + 1 + m, false, r)
        | _ => ended n false rest
    else ended 1 false (c :: r)
  | '.' :: r =>
    let (n, r) ← someDigits Char.isDigit r
    let (m, r) ← exponentPart? r
    ended (n + m + 1) false r
  | _ =>
    let (n, r) ← someDigits Char.isDigit cs
    match r with
    | '.' :: r =>
      let (m, r) ← fractionPart r
      ended (n + 1 + m) false r
    | 'n' :: r => ended (n + 1) true r
    | _ =>
      let (m, r) ← exponentPart? r
      ended (n + m) false r

/-! ### Regular expressions -/

/-- The body of a regular expression after its first slash, up to the closing one: the text
reversed and the rest. -/
def regexBody : List Char → Bool → List Char → Option (List Char × List Char)
  | [], _, _ => none
  | ['\\'], _, _ => none
  | '\\' :: c :: cs, inClass, acc =>
    if isLineEnd c then none else regexBody cs inClass (c :: '\\' :: acc)
  | c :: cs, inClass, acc =>
    if isLineEnd c then none
    else if c == '/' && !inClass then some (acc, cs)
    else if c == '[' then regexBody cs true (c :: acc)
    else if c == ']' then regexBody cs false (c :: acc)
    else regexBody cs inClass (c :: acc)

def allDistinct : List Char → Bool
  | [] => true
  | c :: cs => !cs.contains c && allDistinct cs

/-- A regular expression after its first slash: body, flags, characters taken, rest. -/
def regexAt (cs : List Char) : Option (String × String × Nat × List Char) := do
  let (body, r) ← regexBody cs false []
  let flags := r.takeWhile isNameChar
  if flags.all (fun c => "dgimsuvy".toList.contains c) && allDistinct flags then
    return (String.ofList body.reverse, String.ofList flags, body.length + 1 + flags.length,
      r.drop flags.length)
  else none

/-! ### Punctuation -/

/-- The marks by length, longest first. -/
def marks : List String :=
  ["...", "===", "!==", "**=", "<<=", "&&=", "||=", "??=",
   "=>", "==", "!=", "<=", "<<", "++", "--", "+=", "-=", "*=", "/=", "%=", "&=", "|=", "^=", "&&",
   "||", "??", "?.", "**",
   "\x7b", "\x7d", "(", ")", "[", "]", ";", ",", "<", ">", "+", "-", "*", "/", "%", "&", "|", "^",
   "!", "~", "?", ":", "=", ".", "@"]

/-- The mark at the start of a text and what follows. A question mark before a point and a digit
stands alone. -/
def markAt (cs : List Char) : Option (String × List Char) :=
  match cs with
  | '?' :: '.' :: d :: r => if d.isDigit then some ("?", '.' :: d :: r) else some ("?.", d :: r)
  | _ => marks.findSome? fun m => (dropLead? m.toList cs).map fun r => (m, r)

/-- The token at the start of a text that starts with no gap: token, characters taken, rest. -/
def tokenAt (cs : List Char) : Token × Nat × List Char :=
  match cs with
  | [] => (.eof, 0, [])
  | c :: r =>
    if startsName c || c == '\\' then
      match nameAt cs with
      | some (t, n, e, rest) => (.word t e, n, rest)
      | none => (.bad, 0, [])
    else if c.isDigit || (c == '.' && r.head?.any Char.isDigit) then
      match numberBody cs with
      | some (n, big, rest) =>
        let raw := String.ofList (cs.take n)
        (if big then .bigInt raw else .number raw, n, rest)
      | none => (.bad, 0, [])
    else if c == '"' || c == '\x27' then
      match stringBody c (r.length + 1) r [] [] with
      | some (codes, raw, rest) =>
        (.string (textOfCodes codes) (String.ofList raw), raw.length + 2, rest)
      | none => (.bad, 0, [])
    else if c == '\x60' then
      match templateStretch r with
      | some (q, n, last, rest) => (.template q last, n + 1, rest)
      | none => (.bad, 0, [])
    else if c == '#' then
      match nameAt r with
      | some (t, n, _, rest) => (.privateName t, n + 1, rest)
      | none => (.bad, 0, [])
    else match markAt cs with
      | some (m, rest) => (.mark m, m.length, rest)
      | none => (.bad, 0, [])

end Componentry.Script
