import Componentry.Annotations.Owner
import Componentry.Failure

/-!
# Extracting annotations

Annotations are blanked out and statements that attach their meaning to the methods are appended.
All changes are edits of ranges, counted in bytes of the script, from its end towards its start.

Three strategies are tried in order: decorators of a script that can be read, markers in place of
annotations that the grammar has no room for, and blanking alone. The reader of outlines is a
parameter, so that nothing here depends on the grammar.
-/

namespace Componentry.Annotations

open Text Script

def tableName : String := "__sfcAnnotations"

/-- A range of a text, in bytes, and what takes its place. -/
structure Edit where
  at_ : Span
  text : List Char
deriving DecidableEq, Repr

/-- What stands before a range of bytes, in it and after it, unless a character is cut. -/
def cutRange? (at_ : Span) (s : List Char) : Option (List Char × List Char × List Char) := do
  let (before, rest) ← cutBytes? at_.start s
  let (inner, after) ← cutBytes? (at_.stop - at_.start) rest
  if at_.start ≤ at_.stop then some (before, inner, after) else none

/-- The text after an edit, unless its range cuts a character of the text. -/
def Edit.apply (s : List Char) (e : Edit) : Option (List Char) :=
  (cutRange? e.at_ s).map fun (before, _, after) => before ++ e.text ++ after

/-- The edit that starts later comes first; of two that start together, the longer one. -/
def Edit.before (a b : Edit) : Bool :=
  b.at_.start < a.at_.start || (a.at_.start == b.at_.start && b.at_.stop ≤ a.at_.stop)

/-- The text after all edits, later places first. Their ranges are those of the text before them
all, so one that meets a text which has become shorter may cut a character of it. -/
def applyEdits (s : List Char) (edits : List Edit) : Option (List Char) :=
  (edits.mergeSort Edit.before).foldlM Edit.apply s

/-- The part of a text in a range. -/
def slice (s : List Char) (at_ : Span) : List Char :=
  (s.drop at_.start).take (at_.stop - at_.start)

def byteSpan (script : List Char) (at_ : Span) : Span :=
  ⟨byteLength (script.take at_.start), byteLength (script.take at_.stop)⟩

def blanking (script : List Char) (at_ : Span) : Edit :=
  ⟨byteSpan script at_, blank (slice script at_)⟩

def isPlainName (name : String) : Bool :=
  match name.toList with
  | [] => false
  | c :: cs => Text.isNameStart c && cs.all Text.isNameChar

def memberAccess (name : String) : String :=
  if isPlainName name then "." ++ name else "[" ++ Json.quote name ++ "]"

def metadataText (ms : List Metadata) : String :=
  (Json.array (ms.map Metadata.toJson)).compact

def Method.entries (m : Method) : List Metadata :=
  m.annotations.filterMap fun f => match f.args with
    | .ok args => some (classify m.name f.name args)
    | .error _ => none

/-- One diagnostic for each annotation whose arguments are not well formed. -/
def Method.diagnostics (m : Method) : List Diagnostic :=
  m.annotations.filterMap fun f => match f.args with
    | .ok _ => none
    | .error e => some (.on .annotations
        ("@" ++ f.name ++ " on \x60" ++ m.name ++ "\x60 dropped: " ++ e))

/-- The expression that stands for a method in its module. -/
def Owner.target (o : Owner) (m : Method) : Option String :=
  if m.instanceField then none
  else if o.kind = .class_ && !m.isStatic then
    some (o.name ++ ".prototype" ++ memberAccess m.name)
  else some (o.name ++ memberAccess m.name)

/-- The statement that attaches a method's annotations to it. -/
def Owner.assignment? (o : Owner) (m : Method) : Option String :=
  if m.entries.isEmpty then none
  else (o.target m).map fun t => t ++ ".__metadata = " ++ metadataText m.entries ++ ";"

/-- The edit that gives a default export its name. -/
def Anonymous.edit? (script : List Char) : Anonymous → Option Edit
  | .class_ insertAt => some ⟨⟨insertAt, insertAt⟩, (" " ++ defaultOwner).toList⟩
  | .object replace => (cutRange? replace script).map fun (_, inner, _) =>
    ⟨replace, ("const " ++ defaultOwner ++ " = ").toList ++ inner.filter (· == '\n')⟩

/-- A script without its annotations. -/
structure Rendered where
  script : String
  metadata : List Metadata
  table : List Metadata
  diagnostics : List Diagnostic

/-- The statements at the end of a script. -/
def epilogue (assignments : List String) (table : List Metadata) (reexport : Bool) : String :=
  String.join (assignments.map (· ++ "\n")) ++
    "export const " ++ tableName ++ " = " ++ metadataText table ++ ";\n" ++
    (if reexport then "export default " ++ defaultOwner ++ ";\n" else "")

/-- The ranges that are blanked out: those of annotated methods, then others that start
elsewhere. -/
def removals (owners : List Owner) (extra : List Span) : List Span :=
  let own := owners.flatMap fun o => o.methods.flatMap fun m => m.annotations.map (·.at_)
  extra.foldl (fun acc s => if acc.any fun r => r.start == s.start then acc else acc ++ [s]) own

def withLineEnd (s : List Char) : List Char :=
  if s.getLast? == some '\n' then s else s ++ ['\n']

/-- An edited script with its epilogue, and what its owners say. -/
def Owners.rendered (owners : Owners) (edited : List Char) : Rendered :=
  let annotated := owners.all.filter Owner.isAnnotated
  let methods := annotated.flatMap fun o =>
    (o.methods.filter fun m => !m.annotations.isEmpty).map fun m => (o, m)
  let metadata := methods.flatMap fun (_, m) => m.entries
  let table := (methods.filter fun (o, _) => owners.default.all (· == o.name)).flatMap
    fun (_, m) => m.entries
  let diagnostics := methods.flatMap fun (_, m) => m.diagnostics
  if metadata.isEmpty then
    { script := String.ofList edited, metadata, table, diagnostics }
  else
    let reexport := annotated.any fun o => match o.anonymous with
      | some (.object _) => true
      | _ => false
    let assignments := methods.filterMap fun (o, m) => o.assignment? m
    let text := String.ofList (withLineEnd edited ++ ['\n']) ++ epilogue assignments table reexport
    { script := text, metadata, table, diagnostics }

/-- The script without annotations, with its epilogue; nothing if an edit cuts a character. -/
def render (source : String) (owners : Owners) (extra : List Span) : Option Rendered := do
  let script := source.toList
  let annotated := owners.all.filter Owner.isAnnotated
  let names ← (annotated.filterMap Owner.anonymous).mapM (Anonymous.edit? script)
  let removed := (removals annotated extra).map (blanking script)
  (applyEdits script (names ++ removed)).map owners.rendered

/-! ### Strategies -/

/-- A way of extracting annotations. -/
inductive Strategy where
  | tree
  | marker
  | strip
deriving DecidableEq, Repr, Inhabited

def Strategy.word : Strategy → String
  | .tree => "tree"
  | .marker => "marker"
  | .strip => "strip"

def Strategy.ofWord? (w : String) : Option Strategy :=
  [Strategy.tree, .marker, .strip].find? fun s => s.word == w

/-- What extraction gives. -/
structure Extraction where
  /-- The script without annotations, with its epilogue. -/
  script : String
  metadata : List Metadata
  table : List Metadata
  strategy : Strategy
  diagnostics : List Diagnostic
deriving Inhabited

def Rendered.extraction (r : Rendered) (strategy : Strategy) : Extraction :=
  { script := r.script, metadata := r.metadata, table := r.table, strategy,
    diagnostics := r.diagnostics }

def foundDecorator (script : List Char) (d : Decoration) : Found where
  name := String.ofList (slice script d.name)
  args := match d.args with
    | some at_ => (arguments (String.ofList (slice script at_))).mapError ArgumentError.message
    | none => .ok []
  at_ := d.at_

def decoratorFinder (script : List Char) : Finder where
  classMember decorations _ := decorations.map (foundDecorator script)
  objectMember _ := []
  place pos := byteLength (script.take pos)

/-- A marker: its place in the marked text, and the annotation it stands for. -/
structure Placed where
  at_ : Span
  occurrence : Occurrence
deriving DecidableEq, Repr

/-- The text with markers in place of annotations. `last` is where the previous annotation ended
in the script, `pos` where the text so far ends. -/
def mark (script : List Char) : Nat → Nat → List Occurrence → List Char × List Placed
  | last, _, [] => (script.drop last, [])
  | last, pos, o :: os =>
    let before := slice script ⟨last, o.at_.start⟩
    let marker := (encodeMarker o.name o.args).toList
    let start := pos + before.length
    let stop := start + marker.length
    let (rest, placed) := mark script o.at_.stop stop os
    (before ++ marker ++ rest, ⟨⟨start, stop⟩, o⟩ :: placed)

def foundMarker (p : Placed) : Option Found :=
  (decodeMarker (encodeMarker p.occurrence.name p.occurrence.args)).map fun (name, args) =>
    { name
      args := args.mapError fun
        | .encoding => ""
        | .arguments e => e.message
      at_ := p.occurrence.at_ }

def markersIn (placed : List Placed) (gap : Span) : List Found :=
  (placed.filter fun p => gap.start ≤ p.at_.start && p.at_.stop ≤ gap.stop).filterMap foundMarker

/-- The place in the script, in bytes, of a place in the marked text: as far after the last marker
before it as in the marked text. -/
def unmarkedPlace (script marked : List Char) (placed : List Placed) (pos : Nat) : Nat :=
  match placed.reverse.find? fun p => p.at_.stop ≤ pos with
  | some p =>
    byteLength (script.take p.occurrence.at_.stop) + byteLength (slice marked ⟨p.at_.stop, pos⟩)
  | none => byteLength (marked.take pos)

def markerFinder (script marked : List Char) (placed : List Placed) : Finder where
  classMember _ gap := markersIn placed gap
  objectMember gap := markersIn placed gap
  place := unmarkedPlace script marked placed

variable (read : String → Option Outline)

variable (script : String)

/-- Extraction from decorators. It needs a script that can be read; what it then gives is nothing if
an edit cuts a character. -/
def extractTree : Option (Option Extraction) :=
  (read script).map fun outline =>
    let text := script.toList
    let owners := ownersOf (decoratorFinder text) text outline
    (render script owners owners.stray).map (·.extraction .tree)

/-- Extraction from markers. It needs a marked text that can be read; what it then gives is nothing
if an edit cuts a character. -/
def extractMarker : Option (Option Extraction) :=
  let text := script.toList
  let found := occurrences text
  let (marked, placed) := mark text 0 0 found
  (read (String.ofList marked)).map fun outline =>
    let owners := ownersOf (markerFinder text marked placed) marked outline
    (render script owners (found.map (·.at_))).map (·.extraction .marker)

/-- Blanks all annotations out. -/
def extractStrip : Extraction :=
  let text := script.toList
  let found := occurrences text
  -- the ranges are apart, and each is replaced before those in front of it: none cuts a character
  let edited := (applyEdits text (found.map fun o => blanking text o.at_)).getD text
  let diagnostics :=
    if found.isEmpty then []
    else [Diagnostic.on .annotations (toString found.length ++
      " annotation(s) removed without metadata; the script could not be parsed")]
  { script := String.ofList edited, metadata := [], table := [], strategy := .strip, diagnostics }

def Strategy.extract? : Strategy → Option (Option Extraction)
  | .tree => extractTree read script
  | .marker => extractMarker read script
  | .strip => some (some (extractStrip script))

/-- What the first strategy gives that can read the script; blanking if none can. -/
def extractWith (strategies : List Strategy) (script : String) : Option Extraction :=
  (strategies.findSome? (Strategy.extract? read script)).getD (some (extractStrip script))

/-- The strategies in their usual order. -/
def defaultStrategies : List Strategy := [.tree, .marker, .strip]

def extract : Option Extraction :=
  extractWith outline? defaultStrategies script

end Componentry.Annotations
