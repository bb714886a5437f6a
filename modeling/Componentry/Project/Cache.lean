import Componentry.FileTree
import Componentry.Module.Basic

/-!
# The module cache

Generated modules by key. An entry is served while the modification time of its file is the one it
was stored with. Each use of an entry stamps it with a fresh number, and a full cache drops the
entry with the least stamp. Counters tell what happened.
-/

namespace Componentry

/-- A stored module. -/
structure CacheEntry where
  key : String
  filePath : String
  contentHash : String
  /-- The modification time of the file, in milliseconds. -/
  time : Nat
  payload : Module
  lastUse : Nat

/-- What a cache has counted. -/
structure CacheCounts where
  hits : Nat := 0
  misses : Nat := 0
  evictions : Nat := 0
  /-- Entries that were removed as outdated or on request. -/
  invalidations : Nat := 0
deriving DecidableEq, Repr

/-- A cache of modules. -/
structure ModuleCache where
  ceiling : Nat
  entries : List CacheEntry := []
  stamp : Nat := 0
  counts : CacheCounts := {}

namespace ModuleCache

variable (c : ModuleCache)

def size : Nat := c.entries.length

def find? (c : ModuleCache) (key : String) : Option CacheEntry :=
  c.entries.find? fun e => e.key == key

variable (key : String)

def contains : Bool := (c.find? key).isSome

def without (entries : List CacheEntry) : List CacheEntry :=
  entries.filter fun e => e.key != key

def oldest? : List CacheEntry → Option CacheEntry
  | [] => none
  | e :: rest => match oldest? rest with
    | none => some e
    | some f => if e.lastUse ≤ f.lastUse then some e else some f

/-- The cache without its least recently used entry. -/
def evict : ModuleCache :=
  match oldest? c.entries with
  | none => c
  | some e =>
    { c with
      entries := without e.key c.entries
      counts := { c.counts with evictions := c.counts.evictions + 1 } }

def makeRoom : Nat → ModuleCache → ModuleCache
  | 0, c => c
  | n + 1, c => if c.ceiling ≤ c.size then makeRoom n c.evict else c

/-- The cache without an entry that turned out to be outdated. -/
def discard : ModuleCache :=
  { c with
    entries := without key c.entries
    counts := { c.counts with
      misses := c.counts.misses + 1, invalidations := c.counts.invalidations + 1 } }

/-- The cache after a request that it has no entry for. -/
def miss : ModuleCache :=
  { c with counts := { c.counts with misses := c.counts.misses + 1 } }

def serve (e : CacheEntry) : ModuleCache :=
  let stamp := c.stamp + 1
  { c with
    stamp
    entries := { e with lastUse := stamp } :: without e.key c.entries
    counts := { c.counts with hits := c.counts.hits + 1 } }

/-- Asks for a module, given the present modification time of its file. -/
def get (present : Option Nat) : Option Module × ModuleCache :=
  match c.find? key with
  | none => (none, c.miss)
  | some e =>
    if present == some e.time then (some e.payload, c.serve e) else (none, c.discard key)

/-- Stores a module with the modification time of its file. A cache with no room at all stores
nothing. -/
def set (filePath : String) (time : Nat) (payload : Module) : ModuleCache :=
  if c.ceiling == 0 then c
  else
    let c := if c.contains key then c else makeRoom c.size c
    let stamp := c.stamp + 1
    let e : CacheEntry :=
      { key, filePath, contentHash := Digest.ofText payload.code, time, payload, lastUse := stamp }
    { c with stamp, entries := e :: without key c.entries }

/-- Stores a module with the time that its file has now, or zero if it has none. -/
def setNow (t : FileTree) (filePath : String) (payload : Module) : ModuleCache :=
  c.set key filePath ((t.time? filePath).getD 0) payload

/-- Removes the entry of a key; says whether there was one. -/
def invalidate : Bool × ModuleCache :=
  if c.contains key then
    (true, { c with
      entries := without key c.entries
      counts := { c.counts with invalidations := c.counts.invalidations + 1 } })
  else (false, c)

def clear : ModuleCache :=
  { c with
    entries := []
    counts := { c.counts with invalidations := c.counts.invalidations + c.size } }

/-- The entries, least recently used first. -/
def byUse : List CacheEntry :=
  c.entries.mergeSort fun a b => a.lastUse ≤ b.lastUse

def statsJson : Json :=
  .object [("entries", .nat c.size), ("hits", .nat c.counts.hits), ("misses", .nat c.counts.misses),
    ("evictions", .nat c.counts.evictions), ("invalidations", .nat c.counts.invalidations)]

end ModuleCache

/-! ### Snapshots

The entries of a cache as text, least recently used first, so that loading them in that order gives
the same order of use. A text that is no snapshot of the known version loads nothing. -/

/-- The entries of a cache, least recently used first. -/
structure Snapshot where
  version : Nat
  entries : List CacheEntry

namespace Snapshot

def currentVersion : Nat := 1

def ofCache (c : ModuleCache) : Snapshot := ⟨currentVersion, c.byUse⟩

def entryJson (e : CacheEntry) : Json :=
  .object [("key", .string e.key), ("filePath", .string e.filePath),
    ("contentHash", .string e.contentHash), ("mtimeMs", .nat e.time),
    ("payload", e.payload.toJson)]

def entry? (j : Json) : Option CacheEntry := do
  let members ← j.fields? ["key", "filePath", "contentHash", "mtimeMs", "payload"]
  return {
    key := ← (Json.lookup "key" members).bind Json.string?
    filePath := ← (Json.lookup "filePath" members).bind Json.string?
    contentHash := ← (Json.lookup "contentHash" members).bind Json.string?
    time := ← (Json.lookup "mtimeMs" members).bind Json.nat?
    payload := ← (Json.lookup "payload" members).bind Module.ofJson?
    lastUse := 0 }

def toJson (s : Snapshot) : Json :=
  .object [("version", .nat s.version), ("entries", .array (s.entries.map entryJson))]

def ofJson? (j : Json) : Option Snapshot := do
  let members ← j.fields? ["version", "entries"]
  let version ← (Json.lookup "version" members).bind Json.nat?
  let entries ← (Json.lookup "entries" members).bind Json.array?
  return ⟨version, ← entries.mapM entry?⟩

def ofText? (text : String) : Option Snapshot := do
  let s ← (Json.read? text).bind ofJson?
  if s.version == currentVersion then some s else none

def text (s : Snapshot) : String := s.toJson.compact

end Snapshot

namespace ModuleCache

/-- Stores the entries of a snapshot one after the other. -/
def restore (c : ModuleCache) (s : Snapshot) : ModuleCache :=
  s.entries.foldl (fun c e => c.set e.key e.filePath e.time e.payload) c

/-- Loads a snapshot file; says how many entries it held. Anything but a snapshot of the known
version changes nothing. -/
def load (c : ModuleCache) (t : FileTree) (path : String) : Nat × ModuleCache :=
  match (t.readText path).toOption.bind Snapshot.ofText? with
  | some s => (s.entries.length, c.restore s)
  | none => (0, c)

def directoryFor (t : FileTree) (path : String) : Except Failure FileTree :=
  match Path.parent? path with
  | none => .ok t
  | some dir => if dir.isEmpty then .ok t else (t.makeDirectories dir).mapError (Failure.file dir)

/-- Writes a snapshot file. A directory that was made for it stays, whatever comes of the file. -/
def save (c : ModuleCache) (t : FileTree) (path : String) : Except Failure Unit × FileTree :=
  match directoryFor t path with
  | .error e => (.error e, t)
  | .ok t =>
    match t.write path (Text.utf8 (Snapshot.ofCache c).text.toList) with
    | .error e => (.error (.file path e), t)
    | .ok t => (.ok (), t)

def ofOptions (o : CacheOptions) (t : FileTree) : ModuleCache :=
  let c : ModuleCache := { ceiling := o.maxEntries }
  match o.snapshotPath with
  | some path => (c.load t path).2
  | none => c

end ModuleCache

end Componentry
