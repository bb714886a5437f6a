import Componentry.Document.Instantiate
import Componentry.Live.Behaviour

/-!
# The live page

One document, the components defined for it and their live elements. An element of a defined tag
gets an instance. While it stands in the document its instance is connected: its template is copied
into it, its styles are applied, placeholders are filled with the parameters of the location, its
callback runs, and its annotations are wired as a small task afterwards.

Every operation is a total function from pages to pages.
-/

namespace Componentry.Live

open Document

/-- The number of a component. -/
abbrev ClassId := Nat

abbrev InstanceId := Nat

/-- How far the life of an instance has come. -/
inductive Lifecycle where
  | unconnected
  /-- It is being brought into the document. -/
  | connecting
  | connected
  | disconnected
deriving DecidableEq, Repr, Inhabited

def Lifecycle.word : Lifecycle → String
  | .unconnected => "Unconnected"
  | .connecting => "Connecting"
  | .connected => "Connected"
  | .disconnected => "Disconnected"

/-- The instance of an element. -/
structure Instance (σ : Type) where
  element : NodeId
  cls : ClassId
  behaviour : Behaviour σ
  state : Lifecycle := .unconnected
  root : NodeId
  mounted : Bool := false
  wired : Bool := false
  params : ParamSet := {}
  /-- The listeners that were added for it. -/
  listeners : List (NodeId × ListenerId) := []
  timing : List (String × TimingWrapper) := []
  scopedSheet : Option String := none
deriving Inhabited

/-- What waits to be done. -/
inductive Task where
  /-- Wire the annotations of an instance. -/
  | wire (id : InstanceId)
  | fire (id : InstanceId) (method : String) (event : Option Event)
deriving DecidableEq, Repr

/-- The live page. -/
structure Page (σ : Type) where
  forest : Forest
  document : NodeId
  sheets : SheetCache := {}
  templates : TemplateCache := {}
  plans : PlanCache := {}
  scheduler : Scheduler Task := {}
  /-- Components by number, latest first. -/
  classes : List (ClassId × Component σ) := []
  registry : Dictionary ClassId := .empty
  /-- Instances by number, earliest first. -/
  instances : List (InstanceId × Instance σ) := []
  owners : List (NodeId × InstanceId) := []
  location : String := "/"
  /-- The latest number given to a component or instance. -/
  lastId : Nat := 0
  world : σ

namespace Page

variable {σ : Type}

def start (world : σ) : Page σ :=
  let (forest, document) := ({} : Forest).createDocument
  { forest, document, world }

/-! ### Looking up -/

variable (s : Page σ)

def class? (id : ClassId) : Option (Component σ) :=
  (s.classes.find? fun c => c.1 == id).map (·.2)

def instance? (id : InstanceId) : Option (Instance σ) :=
  (s.instances.find? fun i => i.1 == id).map (·.2)

def owner? (element : NodeId) : Option InstanceId :=
  (s.owners.find? fun o => o.1 == element).map (·.2)

def instanceOf? (element : NodeId) : Option (Instance σ) :=
  (s.owner? element).bind s.instance?

def isDefined (tag : String) : Bool := s.registry.contains tag

def updateInstance (id : InstanceId) (g : Instance σ → Instance σ) : Page σ :=
  { s with instances := s.instances.map fun (i, x) => if i == id then (i, g x) else (i, x) }

/-! ### Callbacks -/

def stage (i : Instance σ) : Stage :=
  { element := i.element, root := i.root, params := i.params, now := s.scheduler.now }

def run {α : Type} (s : Page σ) (callback : Authored σ α) : Page σ × α :=
  let (a, forest, world) := callback.run (s.forest, s.world)
  ({ s with forest, world }, a)

/-! ### Instances -/

/-- The instance of an element, made if its tag has a component. -/
def ensureInstance (element : NodeId) : Page σ × Option InstanceId :=
  match s.owner? element with
  | some id => (s, some id)
  | none =>
    let found := do
      let cls ← s.registry.find? (← s.forest.tag? element)
      return (cls, ← s.class? cls)
    match found with
    | none => (s, none)
    | some (cls, c) =>
      let (behaviour, world) := c.construct.run s.world
      let id := s.lastId + 1
      let new : Instance σ := { element, cls, behaviour, root := element }
      ({ s with
          world
          lastId := id
          instances := s.instances ++ [(id, new)]
          owners := (element, id) :: s.owners }, some id)

/-- Applies the sheet of a text to a node. -/
def attach (s : Page σ) (root : NodeId) (css : String) : Page σ × Option String :=
  let (sheets, forest, digest) := s.sheets.attach s.forest root css
  ({ s with sheets, forest }, digest)

/-- Where the content of an instance goes: into its hidden tree, or where it was. -/
def contentRoot (f : Forest) (i : Instance σ) (d : Description) : Forest × NodeId :=
  if d.shadow then f.attachShadow i.element else (f, i.root)

/-- Takes out what an instance held if its template was copied before, with its sheet. -/
def emptied (f : Forest) (i : Instance σ) (root : NodeId) : Forest × Option String :=
  if i.mounted then
    let f := f.clearChildren root
    match i.scopedSheet with
    | some old => ((f.removeSheet root old).1, none)
    | none => (f, none)
  else (f, i.scopedSheet)

variable (id : InstanceId)

/-- Copies the template into an instance. What it held before is taken out, with its sheet. -/
def mount (i : Instance σ) (d : Description) : Page σ × Instance σ :=
  let (forest, root) := contentRoot s.forest i d
  let (forest, scopedSheet) := emptied forest i root
  let (templates, fragment) := s.templates.fragment d.template
  let (forest, _) := forest.buildAll root fragment
  let i := { i with root, scopedSheet, mounted := true }
  (({ s with forest, templates }).updateInstance id fun _ => i, i)

def applyOwnStyles (i : Instance σ) : Option String → Page σ × Instance σ
  | some css =>
    let (s, scopedSheet) := s.attach i.root css
    let i := { i with scopedSheet }
    (s.updateInstance id fun _ => i, i)
  | none => (s, i)

/-- Applies the styles for the whole document and, since those do not reach into a hidden tree, to
that as well. -/
def applyGlobalStyles (i : Instance σ) : Option String → Page σ
  | some css =>
    let s := (s.attach s.document css).1
    if i.root != i.element then (s.attach i.root css).1 else s
  | none => s

def applyStyles (i : Instance σ) (d : Description) : Page σ × Instance σ :=
  let (s, i) := s.applyOwnStyles id i d.styles
  (s.applyGlobalStyles i d.globalStyles, i)

/-- Computes the parameters of an instance and fills the placeholders in its content. -/
def applyParams (i : Instance σ) (d : Description) : Page σ × Instance σ :=
  let params := Params.ofLocation (d.route.map (·.path)) s.location
  let i := { i with params }
  let s := s.updateInstance id fun _ => i
  ({ s with forest := (params.merged.fillTree s.forest i.root).1 }, i)

/-- Gives an instance its content, made anew if asked for, its styles and its parameters. -/
def furnish (i : Instance σ) (d : Description) (fresh : Bool) : Page σ × Instance σ :=
  let (s, i) := if fresh then s.mount id i d else (s, i)
  let (s, i) := s.applyStyles id i d
  s.applyParams id i d

/-- Brings an instance into the document; its content is made anew if asked for. Its wiring is left
for later, so that it sees what the callback changed. -/
def runConnection (fresh : Bool) : Page σ :=
  match s.instance? id with
  | none => s
  | some i =>
    match s.class? i.cls with
    | none => s
    | some c =>
      let i := { i with state := .connecting }
      let s := s.updateInstance id fun _ => i
      let (s, i) := s.furnish id i c.description fresh
      let (s, _) := s.run (i.behaviour.connected (s.stage i))
      let s := s.updateInstance id fun i => { i with state := .connected }
      { s with scheduler := s.scheduler.queueMicrotask (.wire id) }

/-- Connects an instance unless it is connected. -/
def connect : Page σ :=
  match s.instance? id with
  | none => s
  | some i =>
    if i.state = .connecting || i.state = .connected then s
    else s.runConnection id (!i.mounted)

/-- Takes the listeners of an instance away. -/
def unwire : Page σ :=
  match s.instance? id with
  | none => s
  | some i =>
    let forest := i.listeners.foldl (fun f (node, l) => f.removeListener node l) s.forest
    ({ s with forest }).updateInstance id fun i => { i with listeners := [], wired := false }

def disconnect : Page σ :=
  match s.instance? id with
  | none => s
  | some i =>
    if i.state = .connecting || i.state = .connected then
      let s := s.updateInstance id fun i => { i with state := .disconnected }
      let s := s.unwire id
      (s.run (i.behaviour.disconnected (s.stage i))).1
    else s

/-! ### Walks -/

/-- Visits a node and then, in order, its hidden tree and its children as they are after the visit;
at most `depth` levels. -/
def walk (visit : Page σ → NodeId → Page σ) : Nat → Page σ → NodeId → Page σ
  | 0, s, _ => s
  | depth + 1, s, node =>
    let s := visit s node
    ((s.forest.shadow node).toList ++ s.forest.children node).foldl (walk visit depth) s

/-- A bound on the levels that a copy of the template of a component can add, with its host and its
hidden tree. -/
def levels (c : Component σ) : Nat :=
  Markup.FragmentNode.heightAll (Markup.parse c.description.template) + 3

/-- How deep a walk goes: beyond the depth of the tree and all that templates which do not hold each
other can add, by more levels than callbacks can ever make, as no memory holds so many nodes. -/
def reach : Nat :=
  Nat.pow 2 62 + (s.forest.nodes.size + 1 + (s.classes.map fun c => levels c.2).foldr (· + ·) 0)

def connectNode (node : NodeId) : Page σ :=
  if s.forest.isElement node then
    match s.ensureInstance node with
    | (s, some id) => s.connect id
    | (s, none) => s
  else s

def disconnectNode (node : NodeId) : Page σ :=
  match s.owner? node with
  | some id => s.disconnect id
  | none => s

def connectTree (root : NodeId) : Page σ := walk connectNode s.reach s root

def disconnectTree (root : NodeId) : Page σ := walk disconnectNode s.reach s root

/-! ### Defining components -/

/-- A tag may be defined again only from the unit that defined it. -/
def mayDefine (d : Description) : Bool :=
  match s.registry.find? d.tag with
  | none => true
  | some cls =>
    match (s.class? cls).bind fun c => c.description.sourceId with
    | some source => d.sourceId == some source
    | none => false

def shareStyles : Option String → Page σ
  | some css => (s.attach s.document css).1
  | none => s

/-- Takes a component up for its tag, with a new number. -/
def register (c : Component σ) : Page σ :=
  let id := s.lastId + 1
  let s := ({ s with lastId := id }).shareStyles c.description.globalStyles
  { s with
    registry := s.registry.insert c.description.tag id
    classes := (id, c) :: s.classes }

/-- Defines a component for its tag; elements in the document that waited for it go live. -/
def define (c : Component σ) : Page σ × Except Fault ClassId :=
  if !Tag.isValid c.description.tag then (s, .error (.invalidTag c.description.tag))
  else if !s.mayDefine c.description then (s, .error (.alreadyDefined c.description.tag))
  else ((s.register c).connectTree s.document, .ok (s.lastId + 1))

/-! ### Changing the tree -/

/-- Makes an element, with its instance. -/
def createElement (s : Page σ) (tag : String) : Page σ × NodeId :=
  let (forest, element) := s.forest.createElement tag
  ((({ s with forest } : Page σ).ensureInstance element).1, element)

/-- The nodes that are put into a tree when a node is. -/
def inserted (f : Forest) (child : NodeId) : List NodeId :=
  match f.kind child with
  | .fragment => f.children child
  | _ => [child]

/-- Appends a node; what enters the document is connected, what leaves it is disconnected. -/
def append (s : Page σ) (parent child : NodeId) : Page σ :=
  let nodes := (inserted s.forest child).map fun n => (n, s.forest.isConnected n)
  let s := { s with forest := s.forest.append parent child }
  let live := s.forest.isConnected parent
  nodes.foldl (fun s (n, was) =>
    if was && !live then s.disconnectTree n
    else if live then s.connectTree n
    else s) s

def remove (node : NodeId) : Page σ :=
  let was := s.forest.isConnected node
  let s := { s with forest := s.forest.detach node }
  if was then s.disconnectTree node else s

variable (element : NodeId)

/-- Tells the instance of an element that an attribute changed, if it wants to know. -/
def tellAttribute (name : String) (old new : Option String) : Page σ :=
  match s.instanceOf? element with
  | none => s
  | some i =>
    let observed := ((s.class? i.cls).map fun c => c.description.observed).getD []
    if observed.any (sameWord name) then
      (s.run (i.behaviour.attributeChanged (s.stage i) name.toLower old new)).1
    else s

def setAttribute (s : Page σ) (element : NodeId) (name value : String) : Page σ :=
  let (forest, old) := s.forest.setAttribute element name value
  ({ s with forest }).tellAttribute element name old (some value)

def removeAttribute (s : Page σ) (element : NodeId) (name : String) : Page σ :=
  let (forest, old) := s.forest.removeAttribute element name
  let s := { s with forest }
  match old with
  | some old => s.tellAttribute element name (some old) none
  | none => s

def adopt : Page σ × Except Fault Unit :=
  match s.instanceOf? element with
  | none => (s, .error .notAComponent)
  | some i => ((s.run (i.behaviour.adopted (s.stage i))).1, .ok ())

/-- Shows another location; instances take it up when they connect. -/
def setLocation (location : String) : Page σ := { s with location }

/-! ### Wiring -/

/-- The nodes at which an entry listens; none if its selector cannot be read. -/
def targets (i : Instance σ) (selector : Option String) : List NodeId :=
  match selector with
  | none => [i.element]
  | some text =>
    match s.forest.queryAll i.root text with
    | .ok nodes => nodes
    | .error _ => []

def listen (id : InstanceId) (method event : String) (s : Page σ) (target : NodeId) : Page σ :=
  let (forest, listener) := s.forest.addListener target event ⟨id, method⟩
  ({ s with forest }).updateInstance id fun i =>
    { i with listeners := i.listeners ++ [(target, listener)] }

/-- Wires one entry of a plan; a method that is missing is passed over. -/
def wireEntry (id : InstanceId) (s : Page σ) (entry : WiringEntry) : Page σ :=
  match s.instance? id with
  | none => s
  | some i =>
    if !i.behaviour.hasMethod entry.method then s
    else match entry with
      | .timing method kind delay =>
        if i.timing.any fun t => t.1 == method then s
        else s.updateInstance id fun i =>
          { i with timing := i.timing ++ [(method, { kind, delay })] }
      | .event method event selector => (s.targets i selector).foldl (listen id method event) s

def wire (id : InstanceId) : Page σ :=
  match s.instance? id with
  | none => s
  | some i =>
    if i.state ≠ .connected || i.wired then s
    else match s.class? i.cls with
      | none => s
      | some c =>
        let (plans, plan) := s.plans.plan i.cls c.description.annotations
        let s := plan.foldl (wireEntry id) { s with plans }
        s.updateInstance id fun i => { i with wired := true }

/-! ### Calls -/

def callNow (id : InstanceId) (method : String) (event : Option Event) :
    Page σ × Except Fault Unit :=
  match s.instance? id with
  | none => (s, .error .notAComponent)
  | some i => s.run (i.behaviour.call method (s.stage i) event)

/-- Changes the state of a held-back method. -/
def updateTiming (id : InstanceId) (method : String) (g : TimingWrapper → TimingWrapper) : Page σ :=
  s.updateInstance id fun i =>
    { i with timing := i.timing.map fun (m, w) => if m == method then (m, g w) else (m, w) }

def Instance.wrapper? (i : Instance σ) (method : String) : Option TimingWrapper :=
  (i.timing.find? fun t => t.1 == method).map (·.2)

/-- Calls a method of an instance, unless it is held back. -/
def invoke (id : InstanceId) (method : String) (event : Option Event) :
    Page σ × Except Fault Unit :=
  match s.instance? id with
  | none => (s, .error .notAComponent)
  | some i =>
    match Instance.wrapper? i method with
    | none => s.callNow id method event
    | some w =>
      let (w, decision) := w.decide s.scheduler.now
      let s := s.updateTiming id method fun _ => w
      match decision with
      | .run => s.callNow id method event
      | .skip => (s, .ok ())
      | .schedule cancel delay =>
        let scheduler := match cancel with
          | some timer => (s.scheduler.clearTimeout timer).1
          | none => s.scheduler
        let (scheduler, timer) := scheduler.setTimeout delay (.fire id method event)
        (({ s with scheduler }).updateTiming id method fun w => w.scheduled timer, .ok ())

/-- Calls a method of the instance of an element, unless it is held back. -/
def callMethod (method : String) : Page σ × Except Fault Unit :=
  match s.owner? element with
  | none => (s, .error .notAComponent)
  | some id => s.invoke id method none

/-! ### Time -/

def runTask : Task → Page σ
  | .wire id => s.wire id
  | .fire id method event =>
    let s := s.updateTiming id method fun w => w.fired s.scheduler.now
    (s.callNow id method event).1

/-- Runs at most `limit` small tasks; tells how many there were. -/
def runMicrotasksUpTo : Nat → Page σ → Page σ × Nat
  | 0, s => (s, 0)
  | limit + 1, s =>
    match s.scheduler.popMicrotask with
    | none => (s, 0)
    | some (task, scheduler) =>
      let (s, n) := runMicrotasksUpTo limit (({ s with scheduler }).runTask task)
      (s, n + 1)

/-- Runs the small tasks that wait; none of them queues another. -/
def runMicrotasks : Page σ × Nat :=
  runMicrotasksUpTo s.scheduler.microtasks.length s

def runTimersUpTo (deadline : Nat) : Nat → Page σ → Page σ
  | 0, s => s
  | limit + 1, s =>
    match s.scheduler.popDue deadline with
    | none => s
    | some (task, scheduler) =>
      runTimersUpTo deadline limit (runMicrotasks (({ s with scheduler }).runTask task)).1

/-- Lets time pass; timers that fall due run in order, and none of them sets another. -/
def advance (ms : Nat) : Page σ :=
  let deadline := s.scheduler.now + ms
  let s := (s.runMicrotasks).1
  let s := runTimersUpTo deadline s.scheduler.timers.length s
  { s with scheduler := s.scheduler.setNow deadline }

/-- The listeners that an event at a node reaches, from the inside out. -/
def reached (f : Forest) (target : NodeId) (type : String) : List (NodeId × Binding) :=
  (f.eventPath target).flatMap fun node => (f.bindings node type).map (node, ·)

/-- Sends an event from a node outwards; tells how many listeners heard it. -/
def dispatch (target : NodeId) (type : String) : Page σ × Nat :=
  let calls := reached s.forest target type
  let s := calls.foldl (fun s (node, b) =>
    (s.invoke b.owner b.method (some ⟨type, target, node⟩)).1) s
  ((s.runMicrotasks).1, calls.length)

/-! ### Hot updates -/

def replaced (template : String) (styles globalStyles : Option String) (c : Component σ) :
    Component σ :=
  { c with description := { c.description with template, styles, globalStyles } }

/-- Replaces template and styles of the components generated from a unit, and connects their
connected instances anew; tells how many there were. -/
def hotUpdate (sourceId template : String) (styles globalStyles : Option String) : Page σ × Nat :=
  let changes (c : Component σ) : Bool := c.description.sourceId == some sourceId
  let ids := (s.classes.filter fun c => changes c.2).map (·.1)
  let s := { s with classes := s.classes.map fun (id, c) =>
    (id, if changes c then replaced template styles globalStyles c else c) }
  let targets := (s.instances.filter fun (_, i) =>
    i.state = .connected && ids.contains i.cls).map (·.1)
  (targets.foldl (fun s id => (s.unwire id).runConnection id true) s, targets.length)

end Page

end Componentry.Live
