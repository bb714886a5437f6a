import Componentry.CommandLine.Run

/-!
# The program

Everything the program does is decided by `CommandLine.run` on a file tree. Here the part of the
disk that a request can look at is loaded into such a tree, and what the run has changed in it is
written back.
-/

namespace Componentry.Program

def placeOnDisk (names : List String) : String :=
  match names with
  | [] => "."
  | first :: rest =>
    if first == FileTree.rootName then first ++ "/".intercalate rest else "/".intercalate names

def loadNode (t : FileTree) (names : List String) : IO FileTree := do
  let place := (← IO.currentDir) / placeOnDisk names
  match ← place.metadata.toBaseIO with
  | .error _ => return t
  | .ok data =>
    if ← place.isDir then return t.put names .directory
    match ← (IO.FS.readBinFile place).toBaseIO with
    | .error _ => return t
    | .ok bytes =>
      let time := data.modified.sec * 1000 + data.modified.nsec.toNat / 1000000
      return t.put names (.file bytes.toList time)

/-- Loads the nodes on the way to a path; gives the names the path leads to. -/
def loadAlong (t : FileTree) (path : String) : IO (List String × FileTree) := do
  let (start, pieces) := FileTree.startOf path
  let mut names := start
  let mut t := t
  for piece in pieces do
    names := FileTree.step names piece
    t ← loadNode t names
  return (names, t)

/-- Loads everything below a directory. -/
partial def loadBelow (t : FileTree) (names : List String) : IO FileTree := do
  let place := (← IO.currentDir) / placeOnDisk names
  unless ← place.isDir do return t
  let mut t := t
  for entry in ← place.readDir do
    let inner := names ++ [entry.fileName]
    t ← loadNode t inner
    t ← loadBelow t inner
  return t

def loadAt (t : FileTree) (path : String) : IO FileTree := do
  let (names, t) ← loadAlong t path
  loadBelow t names

def load (r : CommandLine.Request) : IO FileTree := do
  let mut t : FileTree := {}
  for path in r.config do
    t := (← loadAlong t path).2
  t ← loadAt t r.operand
  for path in r.out do
    t := (← loadAlong t path).2
  match CommandLine.optionsOf t r.config with
  | .error _ => return t
  | .ok options =>
    for path in options.projectRoot do
      t ← loadAt t path
    for path in options.cache.snapshotPath do
      t := (← loadAlong t path).2
    return t

def save (earlier later : FileTree) : IO Unit := do
  let changed := later.nodes.filter fun (names, n) => earlier.node? names != some n
  let here ← IO.currentDir
  for (names, n) in changed do
    if n matches .directory then IO.FS.createDirAll (here / placeOnDisk names)
  for (names, n) in changed do
    if let .file bytes _ := n then
      IO.FS.writeBinFile (here / placeOnDisk names) ⟨bytes.toArray⟩

def tell (o : CommandLine.Outcome) : IO Unit := do
  match o with
  | .stopped (.help command) => IO.println (CommandLine.helpText command)
  | .stopped .version => IO.println CommandLine.versionText
  | .stopped .misuse => IO.eprintln CommandLine.misuseText
  | .finished text remarks =>
    for d in remarks do
      IO.eprintln d.comment
    IO.print text
  | .failed e => IO.eprintln e.line

end Componentry.Program

/-- Carries out a command line. -/
def main (words : List String) : IO UInt32 := do
  let tree ← match Componentry.CommandLine.read words with
    | .ok r => Componentry.Program.load r
    | .error _ => pure {}
  let (outcome, after) := Componentry.CommandLine.run words tree
  Componentry.Program.save tree after
  Componentry.Program.tell outcome
  return outcome.code.toUInt32
