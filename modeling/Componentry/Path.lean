/-!
# Paths

Paths are texts with slashes. They are compared and taken apart by their parts: repeated slashes
and single points inside a path do not count.
-/

namespace Componentry.Path

/-- A part of a path. -/
inductive Part where
  | root
  | here
  | up
  | name (text : String)
deriving DecidableEq, Repr

variable (p : String)

/-- The pieces of a text between slashes. -/
def pieces : List String :=
  go [] p.toList
where
  /-- `acc` holds the piece being read, reversed. -/
  go : List Char → List Char → List String
    | acc, [] => [String.ofList acc.reverse]
    | acc, c :: cs => if c == '/' then String.ofList acc.reverse :: go [] cs else go (c :: acc) cs

/-- The part that a piece stands for; a point only counts at the start. -/
def partOf (piece : String) : Option Part :=
  if piece == "" || piece == "." then none
  else if piece == ".." then some .up
  else some (.name piece)

def parts : List Part :=
  match pieces p with
  | [] => []
  | first :: rest =>
    let tail := rest.filterMap partOf
    if first == "" then if rest.isEmpty then [] else .root :: tail
    else if first == "." then .here :: tail
    else (partOf first).toList ++ tail

/-- The last part if it is a name. -/
def fileName? : Option String :=
  match (parts p).getLast? with
  | some (.name n) => some n
  | _ => none

/-- A name cut at its last point; a name that only starts with a point is not cut. -/
def cutName (n : String) : String × Option String :=
  let cs := n.toList
  let after := cs.reverse.takeWhile (· != '.')
  let before := cs.take (cs.length - after.length - 1)
  if after.length == cs.length || before.isEmpty then (n, none)
  else (String.ofList before, some (String.ofList after.reverse))

/-- The name of a file without its extension. -/
def stem? : Option String :=
  (fileName? p).map fun n => (cutName n).1

def extension? : Option String :=
  (fileName? p).bind fun n => (cutName n).2

/-- A reversed text without the slashes and points that do not count at its end. -/
def trimTail : List Char → List Char
  | '/' :: rest => if rest.isEmpty then ['/'] else trimTail rest
  | '.' :: '/' :: rest => if rest.isEmpty then ['.', '/'] else trimTail rest
  | rest => rest

/-- The path of the directory that a path stands in, if it has parts; empty for a single name. -/
def parent? : Option String :=
  match (parts p).getLast? with
  | none | some .root => none
  | some _ =>
    let rest := (trimTail p.toList.reverse).dropWhile (· != '/')
    some (String.ofList (trimTail rest).reverse)

def join (dir name : String) : String :=
  if dir.isEmpty || dir.endsWith "/" then dir ++ name else dir ++ "/" ++ name

end Componentry.Path
