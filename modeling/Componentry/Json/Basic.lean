import Componentry.Decimal.Shortest
import Componentry.Dictionary
import Componentry.Text.Bytes

/-!
# JSON values

Values with objects in a stated order. Numbers are whole or finite doubles, as the text said. The
compact form has no blanks; the indented form has two blanks a level and writes empty arrays and
objects closed up.
-/

namespace Componentry

/-- A number of a JSON text. -/
inductive Json.Number where
  /-- Written without point and exponent, within 64 bits. -/
  | whole (n : Int)
  | float (x : Decimal.Binary64)
deriving DecidableEq, Repr

/-- A JSON value; the members of an object are in order. -/
inductive Json where
  | null
  | bool (b : Bool)
  | number (n : Json.Number)
  | string (s : String)
  | array (items : List Json)
  | object (members : List (String × Json))
deriving Repr

instance : Inhabited Json := ⟨.null⟩

namespace Json

def int (n : Int) : Json := .number (.whole n)

def nat (n : Nat) : Json := .number (.whole n)

def ofOption {α : Type} (f : α → Json) : Option α → Json
  | some a => f a
  | none => .null

def strings (xs : List String) : Json := .array (xs.map .string)

def string? : Json → Option String
  | .string s => some s
  | _ => none

def bool? : Json → Option Bool
  | .bool b => some b
  | _ => none

def array? : Json → Option (List Json)
  | .array xs => some xs
  | _ => none

def object? : Json → Option (List (String × Json))
  | .object ms => some ms
  | _ => none

def int? : Json → Option Int
  | .number (.whole n) => some n
  | _ => none

def nat? : Json → Option Nat
  | .number (.whole n) => if n ≥ 0 then some n.toNat else none
  | _ => none

def double? : Json → Option Decimal.Binary64
  | .number (.whole n) => Decimal.Binary64.ofInt n
  | .number (.float x) => some x
  | _ => none

/-- The value of a key; of equal keys the last one counts. -/
def lookup (key : String) (members : List (String × Json)) : Option Json :=
  (members.reverse.find? fun m => m.1 == key).map (·.2)

def get? (key : String) (j : Json) : Option Json :=
  j.object?.bind (lookup key)

end Json

end Componentry

namespace Componentry.Json

/-! ### Dictionaries of texts -/

def ofDictionary (d : Dictionary String) : Json := .object (d.entries.map fun (k, v) => (k, .string v))

def dictionary? (j : Json) : Option (Dictionary String) := do
  let members ← j.object?
  let entries ← members.mapM fun (k, v) => (v.string?).map (k, ·)
  return Dictionary.ofList entries

/-! ### Writing -/

/-- Numbers that are not whole keep a fraction; the point is written out for values from 0.00001
up to but not including ten to the sixteenth, and exponents carry their sign. -/
def numberFormat : Decimal.Format := ⟨-5, 16, ".0", "+"⟩

def Number.text : Number → String
  | .whole n => toString n
  | .float x => numberFormat.write x

def escapeChar (c : Char) : List Char :=
  if c == '"' then ['\\', '"']
  else if c == '\\' then ['\\', '\\']
  else if c.toNat ≥ 0x20 then [c]
  else if c == '\n' then ['\\', 'n']
  else if c == '\r' then ['\\', 'r']
  else if c == '\t' then ['\\', 't']
  else if c.toNat == 8 then ['\\', 'b']
  else if c.toNat == 12 then ['\\', 'f']
  else ['\\', 'u', '0', '0', Text.hexDigit (c.toNat / 16), Text.hexDigit (c.toNat % 16)]

def quote (s : String) : String :=
  String.ofList ('"' :: s.toList.flatMap escapeChar ++ ['"'])

def compact : Json → String
  | .null => "null"
  | .bool true => "true"
  | .bool false => "false"
  | .number n => n.text
  | .string s => quote s
  | .array xs => "[" ++ items xs ++ "]"
  | .object ms => "\x7b" ++ members ms ++ "\x7d"
where
  items : List Json → String
    | [] => ""
    | [x] => compact x
    | x :: y :: rest => compact x ++ "," ++ items (y :: rest)
  members : List (String × Json) → String
    | [] => ""
    | [m] => quote m.1 ++ ":" ++ compact m.2
    | m :: n :: rest => quote m.1 ++ ":" ++ compact m.2 ++ "," ++ members (n :: rest)

def margin (depth : Nat) : String :=
  String.ofList (List.replicate (2 * depth) ' ')

def indented (depth : Nat) : Json → String
  | .array [] => "[]"
  | .object [] => "\x7b\x7d"
  | .array (x :: xs) =>
    "[\n" ++ items (depth + 1) (x :: xs) ++ "\n" ++ margin depth ++ "]"
  | .object (m :: ms) =>
    "\x7b\n" ++ members (depth + 1) (m :: ms) ++ "\n" ++ margin depth ++ "\x7d"
  | .null => "null"
  | .bool true => "true"
  | .bool false => "false"
  | .number n => n.text
  | .string s => quote s
where
  items (depth : Nat) : List Json → String
    | [] => ""
    | [x] => margin depth ++ indented depth x
    | x :: y :: rest => margin depth ++ indented depth x ++ ",\n" ++ items depth (y :: rest)
  members (depth : Nat) : List (String × Json) → String
    | [] => ""
    | [m] => margin depth ++ quote m.1 ++ ": " ++ indented depth m.2
    | m :: n :: rest =>
      margin depth ++ quote m.1 ++ ": " ++ indented depth m.2 ++ ",\n" ++ members depth (n :: rest)

def pretty (j : Json) : String :=
  indented 0 j

end Componentry.Json
