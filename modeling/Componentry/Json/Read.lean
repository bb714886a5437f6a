import Componentry.Json.Basic

/-!
# Reading JSON

A reader for whole documents. Nesting is limited, lone surrogates are refused and so is a number
whose double would be infinite. A fraction is read as a 64-bit significand scaled by a power of ten,
each of the two steps rounded.
-/

namespace Componentry.Json

def isSpace (c : Char) : Bool :=
  c == ' ' || c == '\n' || c == '\r' || c == '\t'

variable (s : List Char)

def skipSpace : List Char :=
  s.dropWhile isSpace

def maxSignificand : Nat := UInt64.size - 1

/-- The significand scaled by a power of ten: one rounding for the significand, one for each power
used. -/
def scaleSignificand : Nat → Decimal.Binary64 → Int → Option Decimal.Binary64
  | 0, f, _ => some f
  | fuel + 1, f, e =>
    if e.natAbs ≤ 308 then
      (Decimal.Binary64.ofDecimal false 1 e.natAbs).bind fun p =>
        if e ≥ 0 then f.mul p else f.div p
    else if f.mantissa == 0 then some f
    else if e ≥ 0 then none
    else
      (Decimal.Binary64.ofDecimal false 1 308).bind fun p =>
        (f.div p).bind fun g => scaleSignificand fuel g (e + 308)

def floatOf (negative : Bool) (significand : Nat) (e : Int) : Option Decimal.Binary64 :=
  (Decimal.Binary64.ofInt significand).bind fun f =>
    (scaleSignificand 5 f e).map fun g => { g with negative := negative }

/-- Digits read into a significand while they fit: the significand, how many were read, and what
is left; the flag says that a digit no longer fitted. -/
def takeDigits : Nat → Nat → List Char → Nat × Nat × List Char × Bool
  | acc, n, c :: cs =>
    if c.isDigit then
      let next := acc * 10 + (c.toNat - 48)
      if next > maxSignificand then (acc, n, c :: cs, true) else takeDigits next (n + 1) cs
    else (acc, n, c :: cs, false)
  | acc, n, [] => (acc, n, [], false)

def passDigits : Nat × List Char :=
  ((s.takeWhile Char.isDigit).length, s.dropWhile Char.isDigit)

/-- An exponent at the front, if there is one: its value and what is left; the outer level fails
when the marker has no digits. -/
def exponentPart : Option (Option Int × List Char) :=
  match s with
  | c :: cs =>
    if c == 'e' || c == 'E' then
      let signed : Bool × List Char := match cs with
        | '+' :: t => (false, t)
        | '-' :: t => (true, t)
        | t => (false, t)
      let digits := signed.2.takeWhile Char.isDigit
      if digits.isEmpty then none
      else
        let n : Nat := digits.foldl (fun acc c => acc * 10 + (c.toNat - 48)) 0
        some (some (if signed.1 then -(n : Int) else n), signed.2.dropWhile Char.isDigit)
    else some (none, s)
  | [] => some (none, s)

/-- The rest of a number after its integer digits. -/
def numberTail (negative : Bool) (significand : Nat) (shift : Int) (long : Bool)
    (s : List Char) : Option (Number × List Char) :=
  let finish (sig : Nat) (e : Int) (rest : List Char) : Option (Number × List Char) :=
    (exponentPart rest).bind fun ep =>
      let bump : Int := ep.1.getD 0
      if sig == 0 then some (.float (Decimal.Binary64.zero negative), ep.2)
      else (floatOf negative sig (e + bump)).map fun x => (.float x, ep.2)
  match s with
  | '.' :: t =>
    let r := takeDigits significand 0 t
    let passed := if r.2.2.2 then passDigits r.2.2.1 else (0, r.2.2.1)
    if r.2.1 + passed.1 == 0 then none
    else finish r.1 (shift - r.2.1) passed.2
  | c :: _ =>
    if c == 'e' || c == 'E' || long then finish significand shift s
    else whole s
  | [] => if long then finish significand shift s else whole s
where
  /-- A number without fraction and exponent. -/
  whole (rest : List Char) : Option (Number × List Char) :=
    if !negative then some (.whole significand, rest)
    else if significand == 0 || significand > Int64.minValue.toInt.natAbs then
      (Decimal.Binary64.ofInt significand).map fun x => (.float { x with negative := true }, rest)
    else some (.whole (-(significand : Int)), rest)

def unsignedNumber (negative : Bool) (s : List Char) : Option (Number × List Char) :=
  match s with
  | '0' :: t => match t with
    | c :: _ => if c.isDigit then none else numberTail negative 0 0 false t
    | [] => numberTail negative 0 0 false t
  | c :: _ =>
    if c.isDigit then
      let r := takeDigits 0 0 s
      if r.2.2.2 then
        let p := passDigits r.2.2.1
        numberTail negative r.1 p.1 true p.2
      else numberTail negative r.1 0 false r.2.2.1
    else none
  | [] => none

/-- The character of a `\u` escape whose digits come next; a pair of surrogates is one
character. -/
def unicodeEscape : Option (Char × List Char) := do
  let (hi, rest) ← Text.hexDigits? 4 0 s
  if 0xDC00 ≤ hi && hi ≤ 0xDFFF then none
  else if 0xD800 ≤ hi && hi ≤ 0xDBFF then
    match rest with
    | '\\' :: 'u' :: t =>
      let (lo, rest') ← Text.hexDigits? 4 0 t
      if 0xDC00 ≤ lo && lo ≤ 0xDFFF then
        return (Char.ofNat (0x10000 + (hi - 0xD800) * 1024 + (lo - 0xDC00)), rest')
      else none
    | _ => none
  else return (Char.ofNat hi, rest)

/-- The rest of a string after its opening quote; `acc` holds what was read, last first. -/
def stringTail : Nat → List Char → List Char → Option (String × List Char)
  | 0, _, _ => none
  | _ + 1, _, [] => none
  | fuel + 1, acc, c :: cs =>
    if c == '"' then some (String.ofList acc.reverse, cs)
    else if c == '\\' then
      match cs with
      | '"' :: t => stringTail fuel ('"' :: acc) t
      | '\\' :: t => stringTail fuel ('\\' :: acc) t
      | '/' :: t => stringTail fuel ('/' :: acc) t
      | 'b' :: t => stringTail fuel (Char.ofNat 8 :: acc) t
      | 'f' :: t => stringTail fuel (Char.ofNat 12 :: acc) t
      | 'n' :: t => stringTail fuel ('\n' :: acc) t
      | 'r' :: t => stringTail fuel ('\r' :: acc) t
      | 't' :: t => stringTail fuel ('\t' :: acc) t
      | 'u' :: t => (unicodeEscape t).bind fun r => stringTail fuel (r.1 :: acc) r.2
      | _ => none
    else if c.toNat < 0x20 then none
    else stringTail fuel (c :: acc) cs

def stringAt : Option (String × List Char) :=
  match s with
  | '"' :: t => stringTail (t.length + 1) [] t
  | _ => none

def keyword (word : String) (value : Json) (s : List Char) : Option (Json × List Char) :=
  if word.toList.isPrefixOf s then some (value, s.drop word.length) else none

mutual

/-- A value at the front of a text, with a bound on nested containers. -/
def valueAt : Nat → Nat → List Char → Option (Json × List Char)
  | 0, _, _ => none
  | fuel + 1, depth, s =>
    match skipSpace s with
    | 'n' :: t => keyword "null" .null ('n' :: t)
    | 't' :: t => keyword "true" (.bool true) ('t' :: t)
    | 'f' :: t => keyword "false" (.bool false) ('f' :: t)
    | '"' :: t => (stringAt ('"' :: t)).map fun r => (.string r.1, r.2)
    | '-' :: t => (unsignedNumber true t).map fun r => (.number r.1, r.2)
    | '[' :: t =>
      if depth ≤ 1 then none
      else match skipSpace t with
        | ']' :: rest => some (.array [], rest)
        | rest => (itemsAt fuel (depth - 1) rest).map fun r => (.array r.1, r.2)
    | '\x7b' :: t =>
      if depth ≤ 1 then none
      else match skipSpace t with
        | '\x7d' :: rest => some (.object [], rest)
        | rest => (membersAt fuel (depth - 1) rest).map fun r => (.object r.1, r.2)
    | rest => (unsignedNumber false rest).map fun r => (.number r.1, r.2)

/-- The items of an array after its bracket, with the closing bracket. -/
def itemsAt : Nat → Nat → List Char → Option (List Json × List Char)
  | 0, _, _ => none
  | fuel + 1, depth, s =>
    (valueAt fuel depth s).bind fun r =>
      match skipSpace r.2 with
      | ']' :: rest => some ([r.1], rest)
      | ',' :: rest => (itemsAt fuel depth rest).map fun q => (r.1 :: q.1, q.2)
      | _ => none

/-- The members of an object after its brace, with the closing brace. -/
def membersAt : Nat → Nat → List Char → Option (List (String × Json) × List Char)
  | 0, _, _ => none
  | fuel + 1, depth, s =>
    (stringAt (skipSpace s)).bind fun k =>
      match skipSpace k.2 with
      | ':' :: t =>
        (valueAt fuel depth t).bind fun r =>
          match skipSpace r.2 with
          | '\x7d' :: rest => some ([(k.1, r.1)], rest)
          | ',' :: rest => (membersAt fuel depth rest).map fun q => ((k.1, r.1) :: q.1, q.2)
          | _ => none
      | _ => none

end

def nestingLimit : Nat := 128

def read? (text : String) : Option Json :=
  let s := text.toList
  match valueAt (2 * s.length + 2) nestingLimit s with
  | some (j, rest) => if (skipSpace rest).isEmpty then some j else none
  | none => none

end Componentry.Json
