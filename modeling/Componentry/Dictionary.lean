/-!
# Dictionaries

Finite maps from names to values, kept as a list in the order of the names (by code point) with
each name at most once. Two dictionaries with the same entries are therefore equal.
-/

namespace Componentry

/-- A finite map from names to values. -/
structure Dictionary (α : Type) where
  /-- The entries in the order of their names. -/
  entries : List (String × α) := []
deriving DecidableEq, Repr, Inhabited

namespace Dictionary

variable {α : Type}

/-- The dictionary without entries. -/
def empty : Dictionary α := ⟨[]⟩

def isEmpty (d : Dictionary α) : Bool := d.entries.isEmpty

variable (d : Dictionary α)

def size : Nat := d.entries.length

def find? (d : Dictionary α) (key : String) : Option α :=
  (d.entries.find? fun e => e.1 == key).map (·.2)

def contains (key : String) : Bool := (d.find? key).isSome

/-- Puts an entry into an ordered list, in place of one with the same name. -/
def insertEntry (key : String) (value : α) : List (String × α) → List (String × α)
  | [] => [(key, value)]
  | (k, v) :: rest =>
    if key < k then (key, value) :: (k, v) :: rest
    else if key == k then (key, value) :: rest
    else (k, v) :: insertEntry key value rest

def insert (key : String) (value : α) : Dictionary α :=
  ⟨insertEntry key value d.entries⟩

def erase (key : String) : Dictionary α :=
  ⟨d.entries.filter fun e => e.1 != key⟩

/-- The entries of a list; of several with one name the last counts. -/
def ofList (entries : List (String × α)) : Dictionary α :=
  entries.foldl (fun d e => d.insert e.1 e.2) empty

/-- The entries of both; where they share a name, those of the second count. -/
def override (d e : Dictionary α) : Dictionary α :=
  e.entries.foldl (fun d entry => d.insert entry.1 entry.2) d

end Dictionary

end Componentry
