import Componentry.Document.Forest
import Componentry.Json.Basic
import Componentry.Markup.Rules

/-!
# Describing nodes

The path of a node names the nodes from its root down to it, through hidden trees; the description
of a node holds everything below it, and its facts tell where it stands.
-/

namespace Componentry

mutual

/-- A node of a fragment as a JSON value; the attributes of an element keep their order. -/
def Markup.FragmentNode.describe : Markup.FragmentNode → Json
  | .text s => .string s
  | .comment s => .array [.string "#comment", .string s]
  | .element tag attributes children =>
    .array [.string tag, .array (attributes.map fun a => .array [.string a.1, .string a.2]),
      .array (Markup.FragmentNode.describeAll children)]

def Markup.FragmentNode.describeAll : List Markup.FragmentNode → List Json
  | [] => []
  | n :: rest => n.describe :: Markup.FragmentNode.describeAll rest

end

namespace Document.Forest

variable (f : Forest)

def label (id : NodeId) : String :=
  match f.kind id with
  | .document => "#document"
  | .fragment => "#fragment"
  | .shadow _ => "#shadow"
  | .text _ => "#text"
  | .comment _ => "#comment"
  | .element tag _ => tag

def placedLabel (id : NodeId) : String :=
  match f.parent id with
  | some p => toString ((f.children p).idxOf id) ++ ":" ++ f.label id
  | none => f.label id

def path (id : NodeId) : String :=
  "/".intercalate ((f.eventPath id).reverse.map f.placedLabel)

/-- A node as a JSON value with what is below it, down to `depth` levels. -/
def describeTo (f : Forest) : Nat → NodeId → Json
  | 0, _ => .null
  | depth + 1, id =>
    let inside (root : NodeId) : Json := .array ((f.children root).map (describeTo f depth))
    match f.kind id with
    | .text s => .string s
    | .comment s => .array [.string "#comment", .string s]
    | .element tag attributes =>
      .array ([.string tag, .ofDictionary attributes, inside id] ++ ((f.shadow id).map inside).toList)
    | _ => .array [.string (f.label id), .object [], inside id]

def describe (id : NodeId) : Json := f.describeTo (f.nodes.size + 1) id

def pathJson (id : NodeId) : Json := .string (f.path id)

def pathsJson (ids : List NodeId) : Json := .array (ids.map f.pathJson)

/-- Where a node stands and what is around it. -/
def facts (id : NodeId) : Json :=
  .object [("path", f.pathJson id), ("tag", .ofOption .string (f.tag? id)),
    ("element", .bool (f.isElement id)), ("connected", .bool (f.isConnected id)),
    ("root", .string (f.label (f.rootOf id))), ("parent", .ofOption f.pathJson (f.parent id)),
    ("shadow", .bool (f.shadow id).isSome), ("descendants", f.pathsJson (f.descendants id)),
    ("textNodes", f.pathsJson (f.textNodes id)), ("eventPath", f.pathsJson (f.eventPath id))]

end Document.Forest

end Componentry
