import Componentry.Decimal.Shortest
import Componentry.Text.Bytes

/-!
# Numerals of scripts

The values of number literals, and their plain decimal text.
-/

namespace Componentry.Script.Numeral

open Decimal Text

def digitsValue (base : Nat) (cs : List Char) : Nat :=
  cs.foldl (fun v c => (hexValue? c).elim v (v * base + ·)) 0

def decimalValue (cs : List Char) : Nat :=
  digitsValue 10 (cs.filter Char.isDigit)

/-- The whole part, the fraction and the exponent of a decimal literal. -/
def decimalParts (cs : List Char) : List Char × List Char × Int :=
  let cs := cs.filter (· != '_')
  let mantissa := cs.takeWhile fun c => c != 'e' && c != 'E'
  let tail := cs.drop (mantissa.length + 1)
  let whole := mantissa.takeWhile (· != '.')
  let fraction := mantissa.drop (whole.length + 1)
  let exponent : Int := match tail with
    | '-' :: ds => -(decimalValue ds : Int)
    | ds => (decimalValue ds : Int)
  (whole, fraction, exponent)

/-- The whole number that a literal in another base stands for, if it is one. -/
def otherBase? : List Char → Option Nat
  | '0' :: c :: rest =>
    if c == 'x' || c == 'X' then some (digitsValue 16 rest)
    else if c == 'o' || c == 'O' then some (digitsValue 8 rest)
    else if c == 'b' || c == 'B' then some (digitsValue 2 rest)
    else if (c :: rest).all fun d => '0' ≤ d && d ≤ '7' then some (digitsValue 8 (c :: rest))
    else none
  | _ => none

variable (raw : String)

/-- The double of a number literal; nothing when it is too large. -/
def value? : Option Binary64 :=
  let cs := raw.toList
  match otherBase? cs with
  | some n => Binary64.ofRatio false n 1
  | none =>
    let (whole, fraction, exponent) := decimalParts cs
    Binary64.ofDecimal false (decimalValue (whole ++ fraction)) (exponent - fraction.length)

def plainFormat : Format := ⟨-2000, 2000, "", ""⟩

def plainText : String := (value? raw).elim "inf" plainFormat.write

def bigText : String :=
  let cs := raw.toList.filter fun c => c != 'n' && c != '_'
  toString ((otherBase? cs).getD (decimalValue cs))

/-- Positional between a millionth and `10 ^ 21`, with a signed exponent otherwise. -/
def scriptFormat : Format := ⟨-6, 21, "", "+"⟩

/-- A decimal text without its zero before the point and without the sign of its exponent. -/
def trimmed (text : String) : List Char :=
  let cs := match text.toList with
    | '0' :: '.' :: rest => '.' :: rest
    | cs => cs
  cs.filter (· != '+')

def hexText (n : Nat) : List Char :=
  '0' :: 'x' :: Nat.toDigits 16 n

/-- The shorter text, the first of two equally long ones. -/
def shorter (a b : List Char) : List Char :=
  if b.length < a.length then b else a

/-- A fraction that starts with zeros, by its digits and an exponent. -/
def smallFraction (cs : List Char) : List Char :=
  match cs with
  | '.' :: '0' :: _ =>
    let digits := (cs.drop 1).dropWhile (· == '0')
    let places := cs.length - 1
    shorter cs (digits ++ 'e' :: '-' :: (toString places).toList)
  | _ => cs

/-- A text that ends in zeros, by its other digits and an exponent. -/
def roundNumber (cs : List Char) : List Char :=
  let tail := (cs.reverse.takeWhile (· == '0')).length
  if tail == 0 || tail == cs.length then cs
  else shorter cs (cs.take (cs.length - tail) ++ 'e' :: (toString tail).toList)

/-- A text with a point and an exponent, with the point moved behind the last digit. -/
def withoutPoint (cs : List Char) : List Char :=
  let whole := cs.takeWhile (· != '.')
  let tail := cs.drop (whole.length + 1)
  let fraction := tail.takeWhile (· != 'e')
  match (String.ofList (tail.drop (fraction.length + 1))).toInt? with
  | some e =>
    shorter cs (whole ++ fraction ++ 'e' :: (toString (e - fraction.length)).toList)
  | none => cs

/-- The text in which a number that is not negative is laid out: whole numbers below a thousand
plainly, all others in the shortest of the known ways. -/
def shortText (x : Binary64) : String :=
  let text := scriptFormat.write x
  if text.length ≤ 3 && text.all Char.isDigit then text
  else
    let cs := trimmed text
    if x.isWhole then
      let hex := hexText x.floorMagnitude
      if hex.length < cs.length then String.ofList hex
      else String.ofList (withoutPoint (roundNumber cs))
    else String.ofList (withoutPoint (roundNumber (smallFraction cs)))

def laidOut : String := (value? raw).elim "Infinity" shortText

end Componentry.Script.Numeral
