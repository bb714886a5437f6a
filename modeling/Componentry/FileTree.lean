import Componentry.Failure
import Componentry.Path
import Componentry.Text.Bytes

/-!
# File trees

Files and directories as plain data. A node is known by the names on the way to it from the
working directory; a path is followed name by name, so every directory on the way has to exist.
Changes that set no time of their own take the time from a clock that moves with each of them.
-/

namespace Componentry

/-- A file or directory. -/
inductive FileNode where
  /-- A file with its bytes and its modification time in milliseconds. -/
  | file (bytes : List UInt8) (time : Int)
  | directory
deriving DecidableEq, Repr

/-- The files and directories below and around the working directory. -/
structure FileTree where
  nodes : List (List String × FileNode) := []
  /-- The time of the next change, in milliseconds. -/
  clock : Int := 1700000000000
deriving DecidableEq, Repr

namespace FileTree

/-- The name under which everything outside the working directory by an absolute path stands. -/
def rootName : String := "/"

variable (t : FileTree) (names : List String)

/-- Directories that always exist: the working directory, the ones around it, and the root. -/
def isGiven : Bool :=
  names.all (· == "..") || names == [rootName]

def node? : Option FileNode :=
  match t.nodes.lookup names with
  | some n => some n
  | none => if isGiven names then some .directory else none

def put (n : FileNode) : FileTree :=
  { t with nodes := (names, n) :: t.nodes.filter fun x => x.1 != names }

def drop : FileTree :=
  { t with nodes := t.nodes.filter fun x => x.1 != names }

def needDirectory : Except FileFault Unit :=
  match t.node? names with
  | some .directory => .ok ()
  | some (.file _ _) => .error .notDirectory
  | none => .error .missing

def step (piece : String) : List String :=
  if piece == "" || piece == "." then names
  else if piece == ".." then
    if names.all (· == "..") then names ++ [".."]
    else if names == [rootName] then names else names.dropLast
  else names ++ [piece]

def follow (t : FileTree) : List String → List String → Except FileFault (List String)
  | names, [] => .ok names
  | names, piece :: rest => do
    t.needDirectory names
    follow t (step names piece) rest

variable (path : String)

/-- Where a path starts, and its pieces. -/
def startOf : List String × List String :=
  match Path.pieces path with
  | "" :: rest => ([rootName], rest)
  | pieces => ([], pieces)

/-- The names that a path leads to. The last one need not exist. -/
def locate : Except FileFault (List String) :=
  if path.isEmpty then .error .missing
  else
    let (start, pieces) := startOf path
    t.follow start pieces

def find : Except FileFault FileNode := do
  match t.node? (← t.locate path) with
  | some n => return n
  | none => throw .missing

def contains : Bool := (t.find path).isOk

def read : Except FileFault (List UInt8) := do
  match ← t.find path with
  | .file bytes _ => return bytes
  | .directory => throw .isDirectory

def readText : Except FileFault String := do
  match Text.ofUtf8? (← t.read path) with
  | some s => return s
  | none => throw .notText

def textAt : Except Failure String :=
  (t.readText path).mapError (Failure.file path)

/-- The modification time of what stands at a path, unless it lies before the start of time. -/
def time? : Option Nat :=
  match t.find path with
  | .ok (.file _ time) => if 0 ≤ time then some time.toNat else none
  | .ok .directory => some t.clock.toNat
  | .error _ => none

/-- The tree with its clock moved on, and the time it showed. -/
def tick : FileTree × Int :=
  ({ t with clock := t.clock + 1 }, t.clock)

variable (bytes : List UInt8)

def writeAt (time : Int) : Except FileFault FileTree := do
  let names ← t.locate path
  match t.node? names with
  | some .directory => throw .isDirectory
  | some (.file _ _) => return t.put names (.file bytes time)
  | none => if path.endsWith "/" then throw .isDirectory else return t.put names (.file bytes time)

def write : Except FileFault FileTree :=
  let (t, time) := t.tick
  t.writeAt path bytes time

/-- Makes the directories on a way. A file on it stops the way; at its end it is in the way. -/
def makeOnWay (t : FileTree) : List String → List String → Except FileFault FileTree
  | _, [] => .ok t
  | names, piece :: rest =>
    let next := step names piece
    match t.node? next with
    | some .directory => makeOnWay t next rest
    | some (.file _ _) => .error (if rest.isEmpty then .occupied else .notDirectory)
    | none => makeOnWay (t.put next .directory) next rest

def makeDirectories : Except FileFault FileTree :=
  let (start, pieces) := startOf path
  t.makeOnWay start (pieces.filter (· != ""))

/-- Writes a file with a time, and the directories it needs. What cannot be done is left out. -/
def place (time : Int) : FileTree :=
  let t := match Path.parent? path with
    | some dir => if dir.isEmpty then t else (t.makeDirectories dir).toOption.getD t
    | none => t
  (t.writeAt path bytes time).toOption.getD t

def remove : Except FileFault FileTree := do
  let names ← t.locate path
  match t.node? names with
  | some (.file _ _) => return t.drop names
  | some .directory => throw .isDirectory
  | none => throw .missing

/-- Sets the modification time of a file; anything else stays as it is. -/
def setTime (time : Int) : FileTree :=
  match t.locate path with
  | .ok names => match t.node? names with
    | some (.file bytes _) => t.put names (.file bytes time)
    | _ => t
  | .error _ => t

def below? (dir names : List String) : Option (List String) :=
  if dir.isPrefixOf names then some (names.drop dir.length) else none

def namesLE : List String → List String → Bool
  | [], _ => true
  | _ :: _, [] => false
  | a :: as, b :: bs => a < b || (a == b && namesLE as bs)

/-- The names of all files below a directory, in order. -/
def filesBelow (dir : List String) : List (List String) :=
  let found := t.nodes.filterMap fun (names, n) => match n with
    | .file _ _ => below? dir names
    | .directory => none
  found.mergeSort namesLE

def filesAt : List String :=
  match t.locate path with
  | .error _ => []
  | .ok names => match t.node? names with
    | some (.file _ _) => [path]
    | some .directory => (t.filesBelow names).map fun rest => rest.foldl Path.join path
    | none => []

end FileTree

end Componentry
