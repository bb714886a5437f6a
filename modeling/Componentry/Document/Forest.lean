import Componentry.Dictionary
import Componentry.Digest

/-!
# Forests of nodes

The trees that components live in: documents, elements, text, comments, fragments and the hidden
trees ("shadow trees") that an element may carry. Nodes are numbered in the order of their making
and are never given up, so a number always names the same node.

A node's composed parent is its parent or, for the root of a hidden tree, the element that carries
it.
-/

namespace Componentry.Document

abbrev NodeId := Nat

abbrev ListenerId := Nat

/-- A style sheet; sheets with the same text have the same digest. -/
structure Sheet where
  digest : String
  css : String
deriving DecidableEq, Repr

def Sheet.ofCss (css : String) : Sheet := ⟨Digest.ofText css, css⟩

/-- What a node is. -/
inductive Kind where
  | document
  /-- An element with its tag and attributes, both in lower case. -/
  | element (tag : String) (attributes : Dictionary String)
  | text (value : String)
  | comment (value : String)
  /-- The root of the hidden tree of a host. -/
  | shadow (host : NodeId)
  /-- A carrier of nodes that dissolves when it is put into a tree. -/
  | fragment
deriving DecidableEq, Repr, Inhabited

/-- What a listener calls: a method of an instance. -/
structure Binding where
  owner : Nat
  method : String
deriving DecidableEq, Repr, Inhabited

/-- A listener on a node. -/
structure Listener where
  id : ListenerId
  event : String
  binding : Binding
deriving DecidableEq, Repr, Inhabited

/-- A node. -/
structure Node where
  kind : Kind
  parent : Option NodeId := none
  children : List NodeId := []
  shadow : Option NodeId := none
  /-- Its listeners in the order they were added. -/
  listeners : List Listener := []
  /-- The style sheets applied to it, in order. -/
  sheets : List Sheet := []
deriving DecidableEq, Repr, Inhabited

/-- All nodes made so far. -/
structure Forest where
  nodes : Array Node := #[]
  lastListener : Nat := 0
deriving DecidableEq, Repr

namespace Forest

/-! ### Nodes -/

variable (f : Forest)

def node (id : NodeId) : Node := f.nodes[id]?.getD default

def update (id : NodeId) (g : Node → Node) : Forest :=
  { f with nodes := f.nodes.modify id g }

def create (kind : Kind) : Forest × NodeId :=
  ({ f with nodes := f.nodes.push { kind } }, f.nodes.size)

def createDocument : Forest × NodeId := f.create .document

/-- Makes an element; its tag is put in lower case. -/
def createElement (tag : String) : Forest × NodeId :=
  f.create (.element tag.toLower .empty)

def createText (value : String) : Forest × NodeId := f.create (.text value)

def createComment (value : String) : Forest × NodeId := f.create (.comment value)

def createFragment : Forest × NodeId := f.create .fragment

/-- The hidden tree of a host, made if there is none. -/
def attachShadow (host : NodeId) : Forest × NodeId :=
  match (f.node host).shadow with
  | some root => (f, root)
  | none =>
    let (f, root) := f.create (.shadow host)
    (f.update host fun n => { n with shadow := some root }, root)

def kind (f : Forest) (id : NodeId) : Kind := (f.node id).kind

def isElement (id : NodeId) : Bool :=
  match f.kind id with
  | .element .. => true
  | _ => false

def tag? (id : NodeId) : Option String :=
  match f.kind id with
  | .element tag _ => some tag
  | _ => none

def parent (f : Forest) (id : NodeId) : Option NodeId := (f.node id).parent

def children (f : Forest) (id : NodeId) : List NodeId := (f.node id).children

/-- The root of the hidden tree of a node. -/
def shadow (f : Forest) (id : NodeId) : Option NodeId := (f.node id).shadow

/-! ### Structure -/

def detach (id : NodeId) : Forest :=
  match f.parent id with
  | none => f
  | some p =>
    (f.update id fun n => { n with parent := none }).update p fun n =>
      { n with children := n.children.filter (· != id) }

def link (parent child : NodeId) : Forest :=
  ((f.detach child).update child fun n => { n with parent := some parent }).update parent fun n =>
    { n with children := n.children ++ [child] }

def clearChildren (id : NodeId) : Forest :=
  (f.children id).foldl (fun f c => f.update c fun n => { n with parent := none })
    (f.update id fun n => { n with children := [] })

/-- Appends a node. A fragment is emptied into the new parent, child by child. -/
def append (parent child : NodeId) : Forest :=
  match f.kind child with
  | .fragment => (f.children child).foldl (fun f c => f.link parent c) (f.clearChildren child)
  | _ => f.link parent child

def below (f : Forest) : Nat → NodeId → List NodeId
  | 0, _ => []
  | depth + 1, id => (f.children id).flatMap fun c => c :: below f depth c

/-- The nodes below a node in tree order, hidden trees left out. -/
def descendants (id : NodeId) : List NodeId := f.below f.nodes.size id

def isText (id : NodeId) : Bool :=
  match f.kind id with
  | .text _ => true
  | _ => false

def textNodes (id : NodeId) : List NodeId := (f.descendants id).filter f.isText

/-- The parent of a node or, for the root of a hidden tree, its host. -/
def composedParent (id : NodeId) : Option NodeId :=
  match f.kind id with
  | .shadow host => some host
  | _ => f.parent id

def climb (f : Forest) : Nat → NodeId → List NodeId
  | 0, id => [id]
  | length + 1, id =>
    match f.composedParent id with
    | some p => id :: climb f length p
    | none => [id]

variable (id : NodeId)

/-- The way of an event: a node and then its composed parents up to the root. -/
def eventPath : List NodeId := f.climb f.nodes.size id

/-- The outermost composed parent. -/
def rootOf : NodeId := (f.eventPath id).getLastD id

def isConnected : Bool := f.kind (f.rootOf id) = .document

/-! ### Attributes and text -/

/-- The attributes of an element; other nodes have none. -/
def attributes (f : Forest) (id : NodeId) : Dictionary String :=
  match f.kind id with
  | .element _ attributes => attributes
  | _ => .empty

/-- The value of an attribute, by its name in lower case. -/
def attribute? (name : String) : Option String :=
  (f.attributes id).find? name

def updateAttributes (g : Dictionary String → Dictionary String) : Forest :=
  f.update id fun n => match n.kind with
    | .element tag attributes => { n with kind := .element tag (g attributes) }
    | _ => n

def setAttribute (name value : String) : Forest × Option String :=
  (f.updateAttributes id fun d => d.insert name.toLower value, f.attribute? id name.toLower)

/-- Removes an attribute and tells its earlier value. -/
def removeAttribute (name : String) : Forest × Option String :=
  (f.updateAttributes id fun d => d.erase name.toLower, f.attribute? id name.toLower)

def text? : Option String :=
  match f.kind id with
  | .text value => some value
  | _ => none

def setText (value : String) : Forest :=
  f.update id fun n => match n.kind with
    | .text _ => { n with kind := .text value }
    | _ => n

def textContent : String :=
  match f.text? id with
  | some value => value
  | none => String.join ((f.textNodes id).filterMap f.text?)

/-! ### Listeners -/

def addListener (event : String) (binding : Binding) : Forest × ListenerId :=
  let number := f.lastListener + 1
  (({ f with lastListener := number } : Forest).update id fun n =>
    { n with listeners := n.listeners ++ [⟨number, event, binding⟩] }, number)

def removeListener (listener : ListenerId) : Forest :=
  f.update id fun n => { n with listeners := n.listeners.filter (·.id != listener) }

def bindings (event : String) : List Binding :=
  ((f.node id).listeners.filter (·.event == event)).map (·.binding)

/-! ### Style sheets -/

def sheets (f : Forest) (id : NodeId) : List Sheet := (f.node id).sheets

/-- Applies a sheet to a node unless one with the same digest is applied already. -/
def adoptSheet (sheet : Sheet) : Forest :=
  f.update id fun n =>
    if n.sheets.any (·.digest == sheet.digest) then n else { n with sheets := n.sheets ++ [sheet] }

/-- Takes the sheet with a digest off a node; tells whether there was one. -/
def removeSheet (digest : String) : Forest × Bool :=
  (f.update id fun n => { n with sheets := n.sheets.filter (·.digest != digest) },
    (f.sheets id).any (·.digest == digest))

end Forest

end Componentry.Document
