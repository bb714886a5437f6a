import Componentry.Document.Selector
import Componentry.Module.Basic

/-!
# Components and their behaviour

What an author says about a component: its static description, what its annotations ask for when it
goes live, and the callbacks of its elements. Callbacks change the forest and a world of their own,
which the live page carries along without looking at it.
-/

namespace Componentry.Live

/-! ### The scheduler

Timers come out by due time and, among equals, in the order they were set; small tasks come out in
the order they were queued. -/

abbrev TimerId := Nat

/-- A timer that has not fallen due. -/
structure Timer (τ : Type) where
  due : Nat
  /-- Its number; later timers have higher ones. -/
  id : TimerId
  task : τ
deriving DecidableEq, Repr

/-- Time and what waits for it. -/
structure Scheduler (τ : Type) where
  now : Nat := 0
  lastTimer : Nat := 0
  /-- The timers, by due time and number. -/
  timers : List (Timer τ) := []
  /-- Where each timer stands among them, by its number. -/
  dueById : List (TimerId × Nat × TimerId) := []
  microtasks : List τ := []
deriving DecidableEq, Repr

namespace Scheduler

variable {τ : Type}

def Timer.key (t : Timer τ) : Nat × TimerId := (t.due, t.id)

def Timer.before (a b : Timer τ) : Bool := a.due < b.due || (a.due == b.due && a.id < b.id)

def insertTimer (t : Timer τ) : List (Timer τ) → List (Timer τ)
  | [] => [t]
  | u :: rest => if Timer.before t u then t :: u :: rest else u :: insertTimer t rest

variable (s : Scheduler τ)

/-- Sets a timer that falls due after a delay. -/
def setTimeout (delay : Nat) (task : τ) : Scheduler τ × TimerId :=
  let t : Timer τ := ⟨s.now + delay, s.lastTimer + 1, task⟩
  ({ s with
      lastTimer := t.id, timers := insertTimer t s.timers
      dueById := (t.id, Timer.key t) :: s.dueById }, t.id)

def dueOf? (id : TimerId) : Option (Nat × TimerId) :=
  (s.dueById.find? (·.1 == id)).map (·.2)

/-- Takes a timer back; tells whether it was waiting. -/
def clearTimeout (id : TimerId) : Scheduler τ × Bool :=
  match s.dueOf? id with
  | none => (s, false)
  | some key =>
    ({ s with
        timers := s.timers.filter (Timer.key · != key), dueById := s.dueById.filter (·.1 != id) },
      s.timers.any (Timer.key · == key))

def queueMicrotask (task : τ) : Scheduler τ :=
  { s with microtasks := s.microtasks ++ [task] }

/-- Takes the next small task. -/
def popMicrotask : Option (τ × Scheduler τ) :=
  match s.microtasks with
  | [] => none
  | t :: rest => some (t, { s with microtasks := rest })

/-- Takes the next timer that falls due by a deadline; time moves on to it. -/
def popDue (deadline : Nat) : Option (τ × Scheduler τ) :=
  match s.timers with
  | [] => none
  | t :: rest =>
    if t.due > deadline then none
    else
      let dueById := s.dueById.filter (·.1 != t.id)
      some (t.task, { s with timers := rest, dueById, now := max s.now t.due })

/-- Moves time on; it never goes back. -/
def setNow (now : Nat) : Scheduler τ := { s with now := max s.now now }

end Scheduler

/-! ### Wiring -/

open Annotations (Metadata)

/-- How a method is held back. -/
inductive TimingKind where
  /-- It runs once calls have ceased for a while. -/
  | debounce
  /-- It runs at once and then not again for a while. -/
  | throttle
deriving DecidableEq, Repr, Inhabited

namespace TimingKind

def word : TimingKind → String
  | .debounce => "debounce"
  | .throttle => "throttle"

/-- The way of holding back that a word names. -/
def ofWord? : String → Option TimingKind
  | "debounce" => some .debounce
  | "throttle" => some .throttle
  | _ => none

end TimingKind

/-- One thing to wire. -/
inductive WiringEntry where
  /-- Call a method on events: at the elements that a selector finds, or at the component. -/
  | event (method event : String) (selector : Option String)
  | timing (method : String) (kind : TimingKind) (delay : Nat)
deriving DecidableEq, Repr

def WiringEntry.method : WiringEntry → String
  | .event method _ _ => method
  | .timing method _ _ => method

def WiringEntry.toJson : WiringEntry → Json
  | .event method type selector =>
    .array [.string "event", .string method, .string type, .ofOption .string selector]
  | .timing method kind delay =>
    .array [.string "timing", .string method, .string kind.word, .nat delay]

/-- Everything to wire, in order. -/
abbrev WiringPlan := List WiringEntry

namespace WiringPlan

/-- What one annotation asks for. -/
def entryOf (m : Metadata) : Option WiringEntry :=
  match m.kind with
  | .event type selector =>
    some (.event m.method type (selector.filter fun s => !Text.isBlankText s))
  | .timing type delay => (TimingKind.ofWord? type).map fun kind => .timing m.method kind delay
  | .unknown _ => none

def ofAnnotations (ms : List Metadata) : WiringPlan := ms.filterMap entryOf

def events (p : WiringPlan) : WiringPlan :=
  p.filter fun
    | .event .. => true
    | .timing .. => false

/-- The entries for held-back methods. -/
def timings (p : WiringPlan) : WiringPlan :=
  p.filter fun
    | .event .. => false
    | .timing .. => true

end WiringPlan

/-- Plans by the number of the class they belong to. -/
structure PlanCache where
  plans : List (Nat × WiringPlan) := []
  discoveries : Nat := 0
deriving DecidableEq, Repr

def PlanCache.plan (c : PlanCache) (cls : Nat) (ms : List Metadata) : PlanCache × WiringPlan :=
  match c.plans.find? fun e => e.1 == cls with
  | some e => (c, e.2)
  | none =>
    let new := WiringPlan.ofAnnotations ms
    ({ plans := (cls, new) :: c.plans, discoveries := c.discoveries + 1 }, new)

/-- The state of a held-back method. -/
structure TimingWrapper where
  kind : TimingKind
  delay : Nat
  pending : Option TimerId := none
  lastRun : Option Nat := none
deriving DecidableEq, Repr

/-- What becomes of a call. -/
inductive TimingDecision where
  | run
  /-- An earlier timer is taken back, and it runs after a delay. -/
  | schedule (cancel : Option TimerId) (delay : Nat)
  | skip
deriving DecidableEq, Repr

namespace TimingWrapper

variable (w : TimingWrapper)

/-- Decides a call: a debounced method starts its delay again, a throttled one runs unless it ran
less than its delay ago. -/
def decide (now : Nat) : TimingWrapper × TimingDecision :=
  match w.kind with
  | .debounce => ({ w with pending := none }, .schedule w.pending w.delay)
  | .throttle =>
    match w.lastRun with
    | some last =>
      if now < last + w.delay then (w, .skip) else ({ w with lastRun := some now }, .run)
    | none => ({ w with lastRun := some now }, .run)

def scheduled (timer : TimerId) : TimingWrapper :=
  { w with pending := some timer }

def fired (now : Nat) : TimingWrapper :=
  { w with pending := none, lastRun := some now }

end TimingWrapper

/-! ### Callbacks -/

open Document

/-- An event that reached a listener. -/
structure Event where
  type : String
  target : NodeId
  current : NodeId
deriving DecidableEq, Repr, Inhabited

/-- What a callback is told about its element. -/
structure Stage where
  element : NodeId
  /-- Where its content is: its hidden tree, or the element itself. -/
  root : NodeId
  params : ParamSet
  now : Nat
deriving DecidableEq, Repr

/-- What callbacks do: they change the forest and the world of their author. -/
abbrev Authored (σ : Type) := StateM (Forest × σ)

/-- The callbacks of one element. -/
structure Behaviour (σ : Type) where
  connected : Stage → Authored σ Unit := fun _ => pure ()
  disconnected : Stage → Authored σ Unit := fun _ => pure ()
  /-- An attribute changed from one value to another. -/
  attributeChanged : Stage → String → Option String → Option String → Authored σ Unit :=
    fun _ _ _ _ => pure ()
  adopted : Stage → Authored σ Unit := fun _ => pure ()
  hasMethod : String → Bool := fun _ => true
  call : String → Stage → Option Event → Authored σ (Except Fault Unit)

instance {σ : Type} : Inhabited (Behaviour σ) :=
  ⟨{ call := fun method _ _ => pure (.error (.unknownMethod method)) }⟩

/-- Callbacks given as an object: named methods, and hooks that may be missing. -/
structure Hooks (σ : Type) where
  methods : List (String × (Stage → Option Event → Authored σ Unit)) := []
  connected : Option (Stage → Authored σ Unit) := none
  disconnected : Option (Stage → Authored σ Unit) := none
  attributeChanged :
    Option (Stage → String → Option String → Option String → Authored σ Unit) := none

def Hooks.behaviour {σ : Type} (h : Hooks σ) : Behaviour σ :=
  let method? (name : String) := (h.methods.find? fun m => m.1 == name).map (·.2)
  { connected := h.connected.getD fun _ => pure ()
    disconnected := h.disconnected.getD fun _ => pure ()
    attributeChanged := h.attributeChanged.getD fun _ _ _ _ => pure ()
    hasMethod := fun name => (method? name).isSome
    call := fun name stage event =>
      match method? name with
      | some f => do
        f stage event
        return .ok ()
      | none => return .error (.unknownMethod name) }

/-- The static description of a component. -/
structure Description where
  tag : String
  template : String := ""
  styles : Option String := none
  globalStyles : Option String := none
  /-- Its content goes into a hidden tree. -/
  shadow : Bool := false
  route : Option Route := none
  sourceId : Option String := none
  annotations : List Annotations.Metadata := []
  observed : List String := []

def Description.ofModule (m : Module) (sourceId : String) : Description :=
  { tag := m.tag.getD ""
    template := m.template
    styles := m.scopedCss
    globalStyles := m.globalCss
    route := m.route
    sourceId := some sourceId
    annotations := m.table }

/-- A component: its description, and how the behaviour of an element is made. -/
structure Component (σ : Type) where
  description : Description
  construct : StateM σ (Behaviour σ)

def Component.ofHooks {σ : Type} (description : Description) (h : Hooks σ) : Component σ :=
  { description, construct := pure h.behaviour }

end Componentry.Live
