import Componentry.Json.Basic

/-!
# TOML

Values of the second options format, and the rules by which tables grow: a table may be opened by
one header only, dotted keys may only extend what dotted keys began, and an inline table is closed
for good. What follows a header goes into its table, which joins the document when the next header or
the end is reached.
-/

namespace Componentry

/-- A TOML value. -/
inductive Toml where
  | string (s : String)
  | integer (n : Int)
  /-- A float; nothing for infinite and undefined ones. -/
  | float (x : Option Decimal.Binary64)
  | bool (b : Bool)
  | moment (text : String)
  | array (items : List Toml)
  | tables (items : List Toml)
  /-- A table. It is `implied` until a header of its own opens it, and `dotted` if dotted keys made
  it. -/
  | table (implied dotted : Bool) (members : List (String × Toml))
  /-- A table on one line, which nothing extends. -/
  | inline (members : List (String × Toml))

namespace Toml

mutual

/-- The value as a JSON value. A moment is an object with a member of its own; a float without a
JSON number becomes zero. -/
def toJson : Toml → Json
  | .string s => .string s
  | .integer n => .int n
  | .float x => .number (.float (x.getD (Decimal.Binary64.zero false)))
  | .bool b => .bool b
  | .moment text => .object [("$moment", .string text)]
  | .array items | .tables items => .array (itemsJson items)
  | .table _ _ members | .inline members => .object (membersJson members)

def itemsJson : List Toml → List Json
  | [] => []
  | x :: rest => x.toJson :: itemsJson rest

def membersJson : List (String × Toml) → List (String × Json)
  | [] => []
  | (k, v) :: rest => (k, v.toJson) :: membersJson rest

end

def opened : Toml := .table false false []

def replace (key : String) (value : Toml) : List (String × Toml) → List (String × Toml)
  | [] => []
  | (k, v) :: rest => if k == key then (k, value) :: rest else (k, v) :: replace key value rest

/-- Changes the table at the end of a path. Tables on the way that do not exist are made; of tables
that share a header the last one counts. Dotted keys may not enter a table that a header opened. -/
def descend (dotted : Bool) (change : Toml → Option Toml) : List String → Toml → Option Toml
  | [], t => change t
  | key :: path, .table implied isDotted members =>
    match members.lookup key with
    | none => do
      let child ← descend dotted change path (.table true dotted [])
      return .table implied isDotted (members ++ [(key, child)])
    | some (.table i d ms) =>
      if dotted && !i then none
      else do
        let child ← descend dotted change path (.table i d ms)
        return .table implied isDotted (replace key child members)
    | some (.tables items) => do
      let child ← descend dotted change path (← items.getLast?)
      return .table implied isDotted (replace key (.tables (items.dropLast ++ [child])) members)
    | some _ => none
  | _ :: _, _ => none

def add (key : String) (value : Toml) : Toml → Option Toml
  | .table implied dotted members =>
    if (members.lookup key).isSome then none
    else some (.table implied dotted (members ++ [(key, value)]))
  | _ => none

/-- Adds a value under a dotted key. The last table on the way has to be of the kind that the key
asks for. -/
def addDotted (path : List String) (key : String) (value : Toml) (t : Toml) : Option Toml :=
  descend true (fun t => match t with
    | .table _ dotted _ => if dotted == path.isEmpty then none else add key value t
    | _ => none) path t

def ofPairs (pairs : List (List String × String × Toml)) : Option Toml := do
  match ← pairs.foldlM (fun t (path, key, value) => addDotted path key value t) opened with
  | .table _ _ members => return .inline members
  | t => return t

end Toml

end Componentry

namespace Componentry.Toml

/-! ### Reading values -/

open Text

/-! ### Gaps -/

def isGap (c : Char) : Bool := c == ' ' || c == '\t'

variable (s : List Char)

/-- The text after spaces and tabs. -/
def skipGap : List Char := s.dropWhile isGap

def inComment (c : Char) : Bool :=
  c == '\t' || (' ' ≤ c && c ≤ '~') || c.toNat ≥ 0x80

def skipComment : List Char → List Char
  | '#' :: s => s.dropWhile inComment
  | s => s

/-- The text after a line end. -/
def lineEnd? : List Char → Option (List Char)
  | '\n' :: s => some s
  | '\r' :: '\n' :: s => some s
  | _ => none

/-- The text after the end of a line, with a comment before it; the text may end too. -/
def restOfLine? : Option (List Char) :=
  match skipComment (skipGap s) with
  | [] => some []
  | s => lineEnd? s

/-- The text after gaps, line ends and comments. -/
def skipLines : Nat → List Char → List Char
  | 0, s => s
  | fuel + 1, s =>
    let s := skipGap s
    match lineEnd? (skipComment s) with
    | some rest => skipLines fuel rest
    | none => s

/-! ### Strings -/

/-- A character that a string may hold unescaped, besides its own marks. -/
def inString (c : Char) : Bool := inComment c

def charOf? (n : Nat) : Option Char :=
  if n < 0xD800 || (0xDFFF < n && n < 0x110000) then some (Char.ofNat n) else none

def code? (digits : Nat) (s : List Char) : Option (Char × List Char) := do
  let (n, s) ← hexDigits? digits 0 s
  return (← charOf? n, s)

def escape? : List Char → Option (Char × List Char)
  | 'b' :: s => some ('\x08', s)
  | 't' :: s => some ('\t', s)
  | 'n' :: s => some ('\n', s)
  | 'f' :: s => some ('\x0c', s)
  | 'r' :: s => some ('\r', s)
  | '"' :: s => some ('"', s)
  | '\\' :: s => some ('\\', s)
  | 'u' :: s => code? 4 s
  | 'U' :: s => code? 8 s
  | _ => none

def basicBody : Nat → List Char → List Char → Option (String × List Char)
  | 0, _, _ => none
  | _ + 1, [], _ => none
  | _ + 1, '"' :: s, out => some (String.ofList out.reverse, s)
  | fuel + 1, '\\' :: s, out => do
    let (c, s) ← escape? s
    basicBody fuel s (c :: out)
  | fuel + 1, c :: s, out => if inString c then basicBody fuel s (c :: out) else none

def literalBody : List Char → List Char → Option (String × List Char)
  | [], _ => none
  | '\x27' :: s, out => some (String.ofList out.reverse, s)
  | c :: s, out => if inString c then literalBody s (c :: out) else none

/-- The text after a first line end. -/
def dropLineEnd : List Char := (lineEnd? s).getD s

/-- A run of at least three quotes closes a string of several lines; two more may belong to it. -/
def closing? (quote : Char) (s : List Char) : Option (List Char × List Char) :=
  let run := (s.takeWhile (· == quote)).length
  if run < 3 then none
  else
    let extra := min (run - 3) 2
    some (List.replicate extra quote, s.drop (extra + 3))

/-- A backslash at the end of a line joins it with the next text. -/
def joinLines? : Option (List Char) :=
  (lineEnd? (skipGap s)).map fun rest =>
    rest.dropWhile fun c => isGap c || c == '\n' || c == '\r'

/-- The inside of a string of several lines; single quotes know no escapes. -/
def longBody (quote : Char) : Nat → List Char → List Char → Option (String × List Char)
  | 0, _, _ => none
  | _ + 1, [], _ => none
  | fuel + 1, c :: s, out =>
    match closing? quote (c :: s) with
    | some (extra, rest) => some (String.ofList (out.reverse ++ extra), rest)
    | none =>
      if c == '\\' && quote == '"' then
        match joinLines? s with
        | some rest => longBody quote fuel rest out
        | none => do
          let (e, rest) ← escape? s
          longBody quote fuel rest (e :: out)
      else match lineEnd? (c :: s) with
        | some rest => longBody quote fuel rest ('\n' :: out)
        | none => if inString c then longBody quote fuel s (c :: out) else none

def string? : List Char → Option (String × List Char)
  | '"' :: '"' :: '"' :: s => longBody '"' (s.length + 1) (dropLineEnd s) []
  | '\x27' :: '\x27' :: '\x27' :: s => longBody '\x27' (s.length + 1) (dropLineEnd s) []
  | '"' :: s => basicBody (s.length + 1) s []
  | '\x27' :: s => literalBody s []
  | _ => none

/-! ### Keys -/

def inKey (c : Char) : Bool := c.isAlphanum || c == '_' || c == '-'

def simpleKey? : Option (String × List Char) :=
  match s with
  | '"' :: s => basicBody (s.length + 1) s []
  | '\x27' :: s => literalBody s []
  | s =>
    let key := s.takeWhile inKey
    if key.isEmpty then none else some (String.ofList key, s.drop key.length)

def key? : Nat → List Char → Option (List String × List Char)
  | 0, _ => none
  | fuel + 1, s => do
    let (first, s) ← simpleKey? (skipGap s)
    match skipGap s with
    | '.' :: s =>
      let (more, s) ← key? fuel s
      return (first :: more, s)
    | s => return ([first], s)

/-- A key as the tables on its way and its last part. -/
def splitKey (parts : List String) : List String × String :=
  (parts.dropLast, parts.getLast?.getD "")

/-! ### Numbers and moments -/

def digitRun (digit : Char → Bool) : Nat → List Char → Option (List Char × List Char)
  | 0, _ => none
  | _ + 1, [] => none
  | fuel + 1, c :: s =>
    if !digit c then none
    else
      let more := match s with
        | '_' :: s => digitRun digit fuel s
        | s => digitRun digit fuel s
      match more with
      | some (ds, rest) => some (c :: ds, rest)
      | none => some ([c], s)

def sign : List Char → Bool × List Char
  | '-' :: s => (true, s)
  | '+' :: s => (false, s)
  | s => (false, s)

/-- Digits of a whole number: no zero before others. -/
def wholeDigits : List Char → Option (List Char × List Char)
  | '0' :: s => some (['0'], s)
  | s => digitRun Char.isDigit (s.length + 1) s

def valueOf (base : Nat) (ds : List Char) : Nat :=
  ds.foldl (fun v c => v * base + (hexValue? c).getD 0) 0

def bounded (n : Int) : Option Toml :=
  if Int64.minValue.toInt ≤ n && n ≤ Int64.maxValue.toInt then some (.integer n) else none

def based? (base : Nat) (s : List Char) : Option (Toml × List Char) := do
  let digit := fun c => (hexValue? c).any (· < base)
  let (ds, rest) ← digitRun digit (s.length + 1) s
  return (← bounded (valueOf base ds), rest)

def integer? : Option (Toml × List Char) :=
  match s with
  | '0' :: 'x' :: s => based? 16 s
  | '0' :: 'o' :: s => based? 8 s
  | '0' :: 'b' :: s => based? 2 s
  | s => do
    let (negative, s) := sign s
    let (ds, rest) ← wholeDigits s
    let n : Int := valueOf 10 ds
    return (← bounded (if negative then -n else n), rest)

def exponent? : List Char → Option (Int × List Char)
  | 'e' :: s | 'E' :: s => do
    let (negative, s) := sign s
    let (ds, rest) ← digitRun Char.isDigit (s.length + 1) s
    let n : Int := valueOf 10 ds
    return (if negative then -n else n, rest)
  | _ => none

def float? : Option (Toml × List Char) := do
  let (negative, s) := sign s
  match s with
  | 'i' :: 'n' :: 'f' :: rest | 'n' :: 'a' :: 'n' :: rest => return (.float none, rest)
  | s =>
    let (whole, s) ← wholeDigits s
    let made (fraction : List Char) (e : Int) (rest : List Char) : Option (Toml × List Char) := do
      let x ← Decimal.Binary64.ofDecimal negative (valueOf 10 (whole ++ fraction))
        (e - fraction.length)
      return (.float (some x), rest)
    match s with
    | '.' :: s =>
      let (fraction, s) ← digitRun Char.isDigit (s.length + 1) s
      let (e, rest) := (exponent? s).getD (0, s)
      made fraction e rest
    | s =>
      let (e, rest) ← exponent? s
      made [] e rest

def twoDigits? (count low high : Nat) (s : List Char) : Option (Nat × List Char) :=
  let ds := s.take count
  let n := valueOf 10 ds
  if ds.length == count && ds.all Char.isDigit && low ≤ n && n ≤ high then some (n, s.drop count)
  else none

def mark? (m : Char) : List Char → Option (List Char)
  | c :: s => if c == m then some s else none
  | [] => none

def daysIn (year month : Nat) : Nat :=
  if month == 2 then
    if year % 4 == 0 && (year % 100 != 0 || year % 400 == 0) then 29 else 28
  else if [4, 6, 9, 11].contains month then 30 else 31

def date? : Option (List Char) := do
  let (year, s) ← twoDigits? 4 0 9999 s
  let (month, s) ← twoDigits? 2 1 12 (← mark? '-' s)
  let (_, s) ← twoDigits? 2 1 (daysIn year month) (← mark? '-' s)
  return s

/-- A time of day; the rest of the text. -/
def time? : Option (List Char) := do
  let (_, s) ← twoDigits? 2 0 23 s
  let (_, s) ← twoDigits? 2 0 59 (← mark? ':' s)
  let (_, s) ← twoDigits? 2 0 60 (← mark? ':' s)
  match s with
  | '.' :: rest =>
    let ds := rest.takeWhile Char.isDigit
    return if ds.isEmpty then s else rest.drop ds.length
  | s => return s

/-- A distance from the common time; the rest of the text. -/
def offset? : List Char → Option (List Char)
  | 'Z' :: s | 'z' :: s => some s
  | '+' :: s | '-' :: s => do
    let (_, s) ← twoDigits? 2 0 23 s
    let (_, s) ← twoDigits? 2 0 59 (← mark? ':' s)
    return s
  | _ => none

def moment? : Option (Toml × List Char) := do
  let rest ← match date? s with
    | some after =>
      let timed := match after with
        | 'T' :: t | 't' :: t | ' ' :: t => time? t
        | _ => none
      pure (timed.elim after fun t => (offset? t).getD t)
    | none => time? s
  return (.moment (String.ofList (s.take (s.length - rest.length))), rest)

/-! ### Values -/

def word? (w : String) (s : List Char) : Option (List Char) :=
  if w.toList.isPrefixOf s then some (s.drop w.length) else none

def scalar? : Option (Toml × List Char) :=
  match s with
  | c :: _ =>
    if c == '"' || c == '\x27' then (string? s).map fun (t, rest) => (.string t, rest)
    else if c == '+' || c == '-' || c.isDigit then
      (moment? s).orElse fun _ => (float? s).orElse fun _ => integer? s
    else if c == 't' then (word? "true" s).map fun rest => (.bool true, rest)
    else if c == 'f' then (word? "false" s).map fun rest => (.bool false, rest)
    else if c == 'i' then (word? "inf" s).map fun rest => (.float none, rest)
    else if c == 'n' then (word? "nan" s).map fun rest => (.float none, rest)
    else none
  | [] => none

/-- The items of an array after its bracket, up to the closing one. -/
def items? (value : List Char → Option (Toml × List Char)) : Nat → List Char → Option (List Toml × List Char)
  | 0, _ => none
  | fuel + 1, s =>
    match skipLines (s.length + 1) s with
    | ']' :: rest => some ([], rest)
    | s => do
      let (v, s) ← value s
      match skipLines (s.length + 1) s with
      | ',' :: s =>
        let (more, rest) ← items? value fuel s
        return (v :: more, rest)
      | ']' :: rest => return ([v], rest)
      | _ => none

def pair? (value : List Char → Option (Toml × List Char)) (s : List Char) : Option ((List String × String × Toml) × List Char) := do
  let (parts, s) ← key? (s.length + 1) s
  let s ← mark? '=' s
  let (v, s) ← value (skipGap s)
  let (path, key) := splitKey parts
  return ((path, key, v), s)

def pairs? (value : List Char → Option (Toml × List Char)) : Nat → List Char →
    Option (List (List String × String × Toml) × List Char)
  | 0, _ => none
  | fuel + 1, s => do
    let (p, s) ← pair? value s
    match skipGap s with
    | ',' :: s =>
      let (more, rest) ← pairs? value fuel s
      return (p :: more, rest)
    | '\x7d' :: rest => return ([p], rest)
    | _ => none

/-- A value with at most `n` levels of nesting. -/
def value? : Nat → List Char → Option (Toml × List Char)
  | 0, _ => none
  | n + 1, s =>
    match s with
    | '[' :: s => (items? (value? n) (s.length + 1) s).map fun (xs, rest) => (.array xs, rest)
    | '\x7b' :: s =>
      match skipGap s with
      | '\x7d' :: rest => some (.inline [], rest)
      | s => do
        let (pairs, rest) ← pairs? (value? n) (s.length + 1) s
        return (← ofPairs pairs, rest)
    | s => scalar? s

/-! ### Reading documents -/

/-- Where the lines go that follow a header. -/
inductive Header where
  | root
  | table (path : List String)
  /-- One more of the tables that share a header. -/
  | tables (path : List String)

/-- A document while it is read. -/
structure Draft where
  root : Toml := opened
  header : Header := .root
  current : Toml := opened

def pushTable (key : String) (t : Toml) : Toml → Option Toml
  | .table i d members =>
    match members.lookup key with
    | none => some (.table i d (members ++ [(key, .tables [t])]))
    | some (.tables items) => some (.table i d (replace key (.tables (items ++ [t])) members))
    | some _ => none
  | _ => none

def Draft.finish (d : Draft) : Option Toml :=
  let joined (put : String → Toml → Toml → Option Toml) (path : List String) : Option Toml :=
    let (way, key) := splitKey path
    descend false (put key d.current) way d.root
  match d.header with
  | .root => some d.current
  | .table path => joined add path
  | .tables path => joined pushTable path

/-- The table that a new header opens: a fresh one, or the one that longer headers implied. -/
def openTable (key : String) : Toml → Option (Toml × Toml)
  | .table i d members =>
    match members.lookup key with
    | none => some (.table i d members, opened)
    | some (.table true false ms) =>
      some (.table i d (members.filter fun m => m.1 != key), .table false false ms)
    | some _ => none
  | _ => none

def Draft.openOne (d : Draft) (path : List String) : Option Draft := do
  let root ← d.finish
  let (way, key) := splitKey path
  let root ← descend false (fun t => (openTable key t).map Prod.fst) way root
  let taken ← parentOf way (← d.finish)
  let (_, current) ← openTable key taken
  return { root, header := .table path, current }
where
  /-- The table at the end of a path, whether or not it exists yet. -/
  parentOf : List String → Toml → Option Toml
    | [], t => some t
    | key :: path, .table _ _ members =>
      match members.lookup key with
      | none => some opened
      | some (.table i d ms) => parentOf path (.table i d ms)
      | some (.tables items) => do parentOf path (← items.getLast?)
      | some _ => none
    | _ :: _, _ => none

/-- A header that tables share: only tables may stand under it. -/
def Draft.openMany (d : Draft) (path : List String) : Option Draft := do
  let root ← d.finish
  let (way, key) := splitKey path
  let root ← descend false (fun t => match t with
    | .table i dotted members =>
      match members.lookup key with
      | none => some (.table i dotted (members ++ [(key, .tables [])]))
      | some (.tables _) => some t
      | some _ => none
    | _ => none) way root
  return { root, header := .tables path, current := opened }

def headerLine? (d : Draft) (s : List Char) : Option (Draft × List Char) := do
  let shared := mark? '[' s
  let s := shared.getD s
  let (path, s) ← key? (s.length + 1) s
  let s ← mark? ']' s
  if shared.isSome then return (← d.openMany path, ← restOfLine? (← mark? ']' s))
  return (← d.openOne path, ← restOfLine? s)

def pairLine? (d : Draft) (s : List Char) : Option (Draft × List Char) := do
  let ((path, key, v), s) ← pair? (value? 81) s
  let current ← addDotted path key v d.current
  return ({ d with current }, ← restOfLine? s)

def lines? : Nat → Draft → List Char → Option Draft
  | 0, _, _ => none
  | fuel + 1, d, s =>
    match skipGap s with
    | [] => some d
    | '#' :: s => do lines? fuel d (← restOfLine? ('#' :: s))
    | '[' :: s => do
      let (d, rest) ← headerLine? d s
      lines? fuel d rest
    | s =>
      match lineEnd? s with
      | some rest => lines? fuel d rest
      | none => do
        let (d, rest) ← pairLine? d s
        lines? fuel d rest

def withoutMark : List Char → List Char
  | '\ufeff' :: s => s
  | s => s

/-- The document that a text holds, if it has no fault. -/
def read? (text : String) : Option Toml := do
  let s := withoutMark text.toList
  (← lines? (s.length + 1) {} s).finish

end Componentry.Toml
