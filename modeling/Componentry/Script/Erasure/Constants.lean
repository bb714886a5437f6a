import Componentry.Script.Numeral
import Componentry.Script.Syntax

/-!
# Constants of enums

The values that members of an enum have before anything runs: numbers and texts made of literals,
operators and earlier members.
-/

namespace Componentry.Script.Erasure

open Decimal

/-- A value that is known without running anything. -/
inductive Constant where
  | number (x : Binary64)
  | infinite (negative : Bool)
  | undefined
  | text (s : String)

namespace Constant

def fraction (x : Binary64) : Int × Nat :=
  let (n, d) := x.ratio
  (if x.negative then -(n : Int) else n, d)

def ofFraction (n : Int) (d : Nat) : Constant :=
  match Binary64.ofRatio (n < 0) n.natAbs d with
  | some x => .number x
  | none => .infinite (n < 0)

def ofInt (n : Int) : Constant := ofFraction n 1

def toInt32 (x : Binary64) : Int :=
  let (n, d) := fraction x
  Int.bmod (n.tdiv d) UInt32.size

/-- A number cut to 32 bits without a sign. -/
def toUInt32 (x : Binary64) : Nat :=
  (toInt32 x % UInt32.size).toNat

def power (n : Int) (d : Nat) (e : Int) : Option Constant :=
  if e.natAbs > 2000 then none
  else if 0 ≤ e then some (ofFraction (n.pow e.natAbs) (d.pow e.natAbs))
  else if n == 0 then some (.infinite false)
  else
    let top : Int := d.pow e.natAbs
    let bottom := n.pow e.natAbs
    some (ofFraction (if bottom < 0 then -top else top) bottom.natAbs)

def arithmetic (op : String) (x y : Binary64) : Option Constant :=
  let (a, b) := fraction x
  let (c, d) := fraction y
  match op with
  | "+" => some (ofFraction (a * d + c * b) (b * d))
  | "-" => some (ofFraction (a * d - c * b) (b * d))
  | "*" => some (ofFraction (a * c) (b * d))
  | "/" =>
    if c == 0 then some (if a == 0 then .undefined else .infinite (x.negative != y.negative))
    else some (ofFraction (if c < 0 then -(a * d) else a * d) (b * c.natAbs))
  | "%" =>
    if c == 0 then some .undefined
    else some (ofFraction ((a * d).tmod (c * b)) (b * d))
  | "**" => if d == 1 then power a b c else none
  | "|" => some (ofInt (bitwise (· ||| ·)))
  | "&" => some (ofInt (bitwise (· &&& ·)))
  | "^" => some (ofInt (bitwise (· ^^^ ·)))
  | "<<" => some (ofInt (Int.bmod (toInt32 x * (1 <<< (toUInt32 y % 32) : Nat)) UInt32.size))
  | ">>" => some (ofInt (toInt32 x >>> (toUInt32 y % 32)))
  | ">>>" => some (ofInt (toUInt32 x >>> (toUInt32 y % 32) : Nat))
  | _ => none
where
  bitwise (f : Nat → Nat → Nat) : Int :=
    Int.bmod (f (toUInt32 x) (toUInt32 y)) UInt32.size

def shown : Constant → String
  | .number x => Numeral.scriptFormat.write x
  | .infinite negative => if negative then "-Infinity" else "Infinity"
  | .undefined => "NaN"
  | .text s => s

def binary (op : String) : Constant → Constant → Option Constant
  | .number x, .number y => arithmetic op x y
  | .text s, b => if op == "+" then some (.text (s ++ b.shown)) else none
  | a, .text s => if op == "+" then some (.text (a.shown ++ s)) else none
  | _, _ => some .undefined

/-- An operator before a constant. -/
def unary (op : String) : Constant → Option Constant
  | .number x => match op with
    | "+" => some (.number x)
    | "-" => some (.number { x with negative := !x.negative })
    | "~" => some (ofInt (-(toInt32 x) - 1))
    | _ => none
  | .infinite negative => match op with
    | "+" => some (.infinite negative)
    | "-" => some (.infinite !negative)
    | _ => none
  | _ => none

def toExpr : Constant → Expr
  | .number x =>
    let size : Expr := .literal default (.number (Numeral.scriptFormat.write { x with negative := false }))
    if x.negative && x.mantissa != 0 then .unary default "-" size else size
  | .infinite negative =>
    if negative then .unary default "-" (.ident default "Infinity") else .ident default "Infinity"
  | .undefined => .ident default "NaN"
  | .text s => .literal default (.string s s)

end Constant

/-- The members of one enum, with their values where they are known. -/
abbrev EnumTable := List (String × Option Constant)

/-- The stretches of a template joined with the constants between them. -/
def joined : List Quasi → List Constant → Option String
  | [], _ => some ""
  | q :: qs, cs => do
    let head ← q.cooked
    let rest ← joined qs (cs.drop 1)
    return head ++ (match cs with
      | c :: _ => c.shown
      | [] => "") ++ rest

/-- The value of an expression, if it is known: `own` holds the earlier members of the enum, `all`
the enums before it. -/
def constant? (own : EnumTable) (all : List (String × EnumTable)) : Nat → Expr → Option Constant
  | 0, _ => none
  | fuel + 1, e => match e with
    | .paren _ e => constant? own all fuel e
    | .literal _ (.number raw) => some ((Numeral.value? raw).elim (.infinite false) .number)
    | .literal _ (.string value _) => some (.text value)
    | .template _ quasis parts => do
      let cs ← parts.mapM (constant? own all fuel)
      let s ← joined quasis cs
      return .text s
    | .unary _ op e => do (← constant? own all fuel e).unary op
    | .binary _ op a b => do
      let x ← constant? own all fuel a
      let y ← constant? own all fuel b
      x.binary op y
    | .ident _ name =>
      if name == "Infinity" then some (.infinite false)
      else if name == "NaN" then some .undefined
      else (own.lookup name).join
    | .member _ (.ident _ enum) name _
    | .index _ (.ident _ enum) (.literal _ (.string name _)) _ => do
      ((← all.lookup enum).lookup name).join
    | _ => none

end Componentry.Script.Erasure
