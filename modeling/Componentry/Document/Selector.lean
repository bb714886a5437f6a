import Componentry.Document.Forest
import Componentry.Failure

/-!
# Selectors

A selector is a list of alternatives; each is a chain of compounds joined by "child of" or "below".
Reading goes in two steps: a text is cut into pieces, and the pieces are put together. Matching
starts at the last compound, the subject, and goes outwards through parents that are elements.
-/

namespace Componentry.Document

open Text

/-- Tests on one element. -/
structure Compound where
  tag : Option String := none
  id : Option String := none
  classes : List String := []
  /-- The attributes it must have, some with a value. -/
  attributes : List (String × Option String) := []
deriving DecidableEq, Repr, Inhabited

/-- How an element stands to the one before it in a chain. -/
inductive Combinator where
  | descendant
  | child
deriving DecidableEq, Repr

/-- A chain of compounds. -/
structure Complex where
  subject : Compound
  /-- The tests on the elements around it, nearest first. -/
  context : List (Combinator × Compound) := []
deriving DecidableEq, Repr

abbrev Selector := List Complex

namespace Selector

/-! ### Reading -/

/-- Characters of names in selectors. -/
def isIdentChar (c : Char) : Bool := c.isAlphanum || c == '-' || c == '_'

/-- Pieces of the text of a chain. -/
inductive Piece where
  | blank
  | child
  | any
  | tag (name : String)
  | id (name : String)
  | cls (name : String)
  | attribute (name : String) (value : Option String)
deriving DecidableEq, Repr

/-- Takes off a quote at both ends. -/
def unquote? (q : Char) (s : List Char) : Option (List Char) :=
  match s with
  | c :: rest => if c == q && rest.getLast? == some q then some rest.dropLast else none
  | [] => none

/-- A value without the quotes around it. -/
def unquoted (s : List Char) : List Char :=
  ((unquote? '"' s).orElse fun _ => unquote? '\x27' s).getD s

/-- What stands in brackets: a name, or a name and a value. -/
def attributeTest? (inner : List Char) : Option Piece :=
  let (name, value) := match splitOnce ['='] inner with
    | some (name, value) => (trim name, some (String.ofList (unquoted (trim value))))
    | none => (trim inner, none)
  if name.isEmpty || !name.all isIdentChar then none
  else some (.attribute (String.ofList name).toLower value)

/-- What follows the character at which dropping stops is shorter than the whole text. -/
theorem length_lt_of_dropWhile {p : Char → Bool} {c : Char} {s rest : List Char}
    (h : s.dropWhile p = c :: rest) : rest.length < s.length := by
  have hle := (List.dropWhile_sublist (p := p) (l := s)).length_le
  rw [h] at hle
  exact hle

def pieces? (s : List Char) : Option (List Piece) :=
  match s with
  | [] => some []
  | c :: cs =>
    if isBlank c then (pieces? cs).map (.blank :: ·)
    else if c == '>' then (pieces? cs).map (.child :: ·)
    else if c == '*' then (pieces? cs).map (.any :: ·)
    else if c == '#' || c == '.' then
      let name := cs.takeWhile isIdentChar
      let piece := (if c == '#' then Piece.id else .cls) (String.ofList name)
      if name.isEmpty then none
      else (pieces? (cs.dropWhile isIdentChar)).map (piece :: ·)
    else if c == '[' then
      match h : cs.dropWhile (· != ']') with
      | [] => none
      | _ :: rest =>
        match attributeTest? (cs.takeWhile (· != ']')) with
        | none => none
        | some piece =>
          have : rest.length < cs.length := length_lt_of_dropWhile h
          (pieces? rest).map (piece :: ·)
    else if isIdentChar c then
      let name := String.ofList (c :: cs.takeWhile isIdentChar)
      (pieces? (cs.dropWhile isIdentChar)).map (.tag name.toLower :: ·)
    else none
termination_by s.length
decreasing_by
  all_goals first
    | exact Nat.lt_succ_self _
    | exact Nat.lt_succ_of_le (List.dropWhile_sublist _).length_le
    | exact Nat.lt_succ_of_lt this

/-- A chain while it is put together. -/
structure Assembly where
  /-- Finished compounds with what joins them to the next one, nearest first. -/
  context : List (Combinator × Compound) := []
  current : Option Compound := none
  pending : Option Combinator := none
deriving DecidableEq, Repr

namespace Assembly

variable (a : Assembly)

/-- Closes the compound being read if something joins it to the next one. -/
def settle : Assembly :=
  match a.pending, a.current with
  | some k, some c => { context := (k, c) :: a.context }
  | _, _ => a

def add (test : Compound → Compound) : Assembly :=
  { a with current := some (test (a.current.getD {})) }

def step : Piece → Option Assembly
  | .blank =>
    some (if a.current.isSome && a.pending.isNone then { a with pending := some .descendant } else a)
  | .child => if a.current.isSome then some { a with pending := some .child } else none
  | .any => if a.settle.current.isSome then none else some (a.settle.add id)
  | .tag name =>
    if a.settle.current.isSome then none
    else some (a.settle.add fun c => { c with tag := some name })
  | .id name => some (a.settle.add fun c => { c with id := some name })
  | .cls name => some (a.settle.add fun c => { c with classes := c.classes ++ [name] })
  | .attribute name value =>
    some (a.settle.add fun c => { c with attributes := c.attributes ++ [(name, value)] })

def finish? : Option Complex :=
  match a.pending, a.current with
  | none, some subject => some ⟨subject, a.context⟩
  | _, _ => none

end Assembly

def complex? (text : List Char) : Option Complex := do
  let pieces ← pieces? (trim text)
  let a ← pieces.foldlM Assembly.step {}
  a.finish?

/-- Reads a selector. The first alternative that cannot be read is at fault. -/
def parse (text : String) : Except Fault Selector :=
  (splitOn ',' text.toList).mapM fun piece =>
    match complex? piece with
    | some c => .ok c
    | none => .error (.invalidSelector (String.ofList piece))

/-! ### Matching -/

def elementParent? (f : Forest) (id : NodeId) : Option NodeId := (f.parent id).filter f.isElement

def elementAncestorsUpTo (f : Forest) : Nat → NodeId → List NodeId
  | 0, _ => []
  | length + 1, id =>
    match elementParent? f id with
    | some p => p :: elementAncestorsUpTo f length p
    | none => []

/-- The parents of a node as far as they are elements, nearest first. -/
def elementAncestors (f : Forest) (id : NodeId) : List NodeId :=
  elementAncestorsUpTo f f.nodes.size id

def classesOf (attributes : Dictionary String) : List String :=
  (words ((attributes.find? "class").getD "").toList).map String.ofList

/-- An element passes the tests of a compound. -/
def satisfies (f : Forest) (id : NodeId) (c : Compound) : Bool :=
  match f.kind id with
  | .element tag attributes =>
    c.tag.all (· == tag) &&
    c.id.all (fun expected => attributes.find? "id" == some expected) &&
    c.classes.all (classesOf attributes).contains &&
    c.attributes.all fun (name, value) =>
      match attributes.find? name with
      | some actual => value.all (· == actual)
      | none => false
  | _ => false

/-- A node passes the tests of a chain, given its subject and what stands around it. -/
def matchesChain (f : Forest) : Compound → List (Combinator × Compound) → NodeId → Bool
  | c, [], id => satisfies f id c
  | c, (.child, outer) :: rest, id =>
    satisfies f id c && (elementParent? f id).any (matchesChain f outer rest)
  | c, (.descendant, outer) :: rest, id =>
    satisfies f id c && (elementAncestors f id).any (matchesChain f outer rest)

def isMatch (s : Selector) (f : Forest) (id : NodeId) : Bool :=
  s.any fun c => matchesChain f c.subject c.context id

end Selector

namespace Forest

def queryAll (f : Forest) (root : NodeId) (selector : String) : Except Fault (List NodeId) := do
  let s ← Selector.parse selector
  return (f.descendants root).filter (s.isMatch f)

def query (f : Forest) (root : NodeId) (selector : String) : Except Fault (Option NodeId) := do
  return (← f.queryAll root selector).head?

end Forest

end Componentry.Document
