import Componentry.Annotations.Occurrence
import Componentry.Script.Outline

/-!
# Owners of annotated methods

The classes and objects at the top of a script, with the annotations of their members. Where the
annotations come from is a parameter: from decorators of the script itself, or from markers put in
their place.
-/

namespace Componentry.Annotations

open Script

/-- The name given to a default export that has none. -/
def defaultOwner : String := "__SfcDefault"

/-- An annotation found at a member. -/
structure Found where
  name : String
  /-- Its arguments, or why there are none. -/
  args : Except String (List Json)
  at_ : Span

/-- A member that can carry annotations. -/
structure Method where
  name : String
  isStatic : Bool
  /-- It is a field of each instance, so that no place on the prototype stands for it. -/
  instanceField : Bool
  annotations : List Found

/-- What an owner is. -/
inductive OwnerKind where
  | class_
  | object
deriving DecidableEq, Repr, Inhabited

/-- How a default export without a name gets one, with places in bytes of the script. -/
inductive Anonymous where
  /-- The name is put in after the word `class`. -/
  | class_ (insertAt : Nat)
  /-- The words `export default` become a constant. -/
  | object (replace : Span)
deriving DecidableEq, Repr

/-- A class or object of a script. -/
structure Owner where
  name : String
  kind : OwnerKind
  anonymous : Option Anonymous
  methods : List Method

def Owner.isAnnotated (o : Owner) : Bool :=
  o.methods.any fun m => !m.annotations.isEmpty

/-- Where annotations come from. -/
structure Finder where
  /-- Those of a class member, from its decorators and the gap before it. -/
  classMember : List Decoration → Span → List Found
  /-- Those of an object member, from the gap before it. -/
  objectMember : Span → List Found
  /-- The place in the script, in bytes, of a place in the text that was read. -/
  place : Nat → Nat

/-- The owners of a script, its default one, and annotations of members that can carry none. -/
structure Owners where
  all : List Owner := []
  default : Option String := none
  /-- Annotations that belong to no method. -/
  stray : List Span := []

def gaps : Nat → List MemberOutline → List (Span × MemberOutline)
  | _, [] => []
  | stop, m :: ms => (⟨stop, m.at_.start⟩, m) :: gaps m.at_.stop ms

/-- A class member: a method, or stray annotations. -/
def classMember (f : Finder) (gap : Span) (m : MemberOutline) : Method ⊕ List Span :=
  let found := f.classMember m.decorations gap
  match m.role, m.name with
  | .method, some name => .inl ⟨name, m.isStatic, false, found⟩
  | .functionField, some name => .inl ⟨name, m.isStatic, !m.isStatic, found⟩
  | .other, _ => .inr []
  | _, _ => .inr (found.map (·.at_))

variable (f : Finder)

def objectMember? (gap : Span) (m : MemberOutline) : Option Method :=
  match m.role, m.name with
  | .method, some name | .functionField, some name => some ⟨name, false, false, f.objectMember gap⟩
  | _, _ => none

variable (o : Owners)

def Owners.addClass (name : String) (c : ClassOutline) (anonymous : Option Anonymous) : Owners :=
  let classLevel := (f.classMember c.decorations ⟨0, 0⟩).map (·.at_)
  let members := (gaps (c.bodyStart + 1) c.members).map fun (gap, m) => classMember f gap m
  let methods := members.filterMap fun
    | .inl m => some m
    | .inr _ => none
  let strays := members.flatMap fun
    | .inl _ => []
    | .inr s => s
  { o with
    all := o.all ++ [⟨name, .class_, anonymous, methods⟩]
    stray := o.stray ++ classLevel ++ strays }

def Owners.addObject (name : String) (obj : ObjectOutline)
    (anonymous : Option Anonymous) : Owners :=
  let methods := (gaps (obj.at_.start + 1) obj.members).filterMap fun (gap, m) =>
    objectMember? f gap m
  { o with all := o.all ++ [⟨name, .object, anonymous, methods⟩] }

def Owners.addVariable (v : VariableOutline) : Owners :=
  match v.name, v.value with
  | some name, some (.object obj) => o.addObject f name obj none
  | some name, some (.class_ c) => o.addClass f name c none
  | _, _ => o

def Owners.addDeclaration : DeclarationOutline → Owners
  | .class_ c => match c.name with
    | some name => o.addClass f name c none
    | none => o
  | .variables vs => vs.foldl (Owners.addVariable f) o
  | _ => o

variable (text : List Char)

/-- Where the word `class` ends, at or after a place of a text. -/
def classWordEnd (start : Nat) : Nat :=
  match Text.breakAt (Text.startsWith "class".toList) (text.drop start) with
  | some (before, _) => start + before.length + 5
  | none => start

def Owners.add (o : Owners) : TopLevel → Owners
  | .declaration d | .exported d => o.addDeclaration f d
  | .names foreign specs =>
    if foreign then o
    else match (specs.filter fun s => s.2 == "default").getLast? with
      | some s => { o with default := some s.1 }
      | none => o
  | .exportDefault at_ d =>
    match d with
    | .class_ c =>
      match c.name with
      | some name => { o with default := some name }.addClass f name c none
      | none =>
        let insertAt := f.place (classWordEnd text c.at_.start)
        { o with default := some defaultOwner }.addClass f defaultOwner c
          (some (.class_ insertAt))
    | .value (.object obj) =>
      let replace : Span := ⟨f.place at_.start, f.place obj.at_.start⟩
      { o with default := some defaultOwner }.addObject f defaultOwner obj
        (some (.object replace))
    | .value (.name n) => { o with default := some n }
    | _ => o
  | .other => o

def ownersOf (outline : Outline) : Owners :=
  outline.foldl (Owners.add f text) {}

end Componentry.Annotations
