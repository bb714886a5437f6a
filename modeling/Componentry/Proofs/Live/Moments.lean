import Componentry.Proofs.Live.Lifecycle
import Componentry.Proofs.Live.Timers

/-!
# The moments of a run

An event, a batch of small tasks and the passing of time are made of parts, one after the other: here
they are listed, so that a run can be looked at between any two of them. A part does some bookkeeping,
which leaves alone what authors carry along, and then calls at most one method. What is asked of a
method of an instance and when it is called, over all parts of a run, is its history.
-/

namespace Componentry.Live

open Document List

variable {σ : Type}

namespace Page

variable {s t : Page σ} {id : InstanceId} {method : String} {op : Operation σ}

/-! ### Parts in order -/

/-- One small task after the other, as many as wait. -/
def smallTasks (s : Page σ) : List (Operation σ) :=
  replicate s.scheduler.microtasks.length .runMicrotask

/-- Timers that fall due by a deadline, at most so many, each with the small tasks after it. -/
def timerParts (deadline : Nat) : Nat → Page σ → List (Operation σ)
  | 0, _ => []
  | limit + 1, s =>
    match s.scheduler.popDue deadline with
    | none => []
    | some _ =>
      let t := s.perform (.runTimer deadline)
      .runTimer deadline :: t.smallTasks ++ timerParts deadline limit (t.performAll t.smallTasks)

variable (s)

def parts : Operation σ → List (Operation σ)
  | .dispatch target type =>
    let calls := (reached s.forest target type).map fun (node, b) =>
      .invoke b.owner b.method (some ⟨type, target, node⟩)
    calls ++ (s.performAll calls).smallTasks
  | .callMethod element method =>
    match s.owner? element with
    | none => []
    | some id => [.invoke id method none]
  | .runMicrotasks => s.smallTasks
  | .advance ms =>
    let deadline := s.scheduler.now + ms
    let t := s.performAll s.smallTasks
    s.smallTasks ++ timerParts deadline t.scheduler.timers.length t ++ [.setNow deadline]
  | op => [op]

def steps (s : Page σ) : List (Operation σ) → List (Operation σ)
  | [] => []
  | op :: ops => s.parts op ++ (s.perform op).steps ops

theorem performAll_replicate (limit : Nat) (s : Page σ) :
    s.performAll (replicate limit .runMicrotask) = (runMicrotasksUpTo limit s).1 := by
  induction limit generalizing s with
  | zero => rfl
  | succ limit ih =>
    have hcons : s.performAll (replicate (limit + 1) .runMicrotask) =
        (s.perform .runMicrotask).performAll (replicate limit .runMicrotask) := rfl
    rw [hcons, ih, runMicrotasksUpTo]
    simp only [perform]
    cases hp : s.scheduler.popMicrotask with
    | none =>
      -- Where no small task waits, nothing happens.
      cases limit with
      | zero => rfl
      | succ limit => simp [runMicrotasksUpTo, hp]
    | some r => rfl

theorem performAll_smallTasks : s.performAll s.smallTasks = s.runMicrotasks.1 :=
  performAll_replicate ..

theorem performAll_timerParts (deadline limit : Nat) (s : Page σ) :
    s.performAll (timerParts deadline limit s) = runTimersUpTo deadline limit s := by
  induction limit generalizing s with
  | zero => rfl
  | succ limit ih =>
    rw [timerParts, runTimersUpTo]
    cases hp : s.scheduler.popDue deadline with
    | none => rfl
    | some r =>
      have hone : s.perform (.runTimer deadline) = ({ s with scheduler := r.2 } : Page σ).runTask r.1 := by
        simp [perform, hp]
      rw [cons_append]
      change ((s.perform (.runTimer deadline)).performAll _) = _
      rw [performAll_append, ih, performAll_smallTasks, hone]

theorem performAll_parts (op : Operation σ) : s.performAll (s.parts op) = s.perform op := by
  cases op with
  | dispatch target type =>
    have hcalls : ∀ (l : List (NodeId × Binding)) (s : Page σ),
        s.performAll (l.map fun x => .invoke x.2.owner x.2.method (some ⟨type, target, x.1⟩)) =
          l.foldl (fun s x => (s.invoke x.2.owner x.2.method (some ⟨type, target, x.1⟩)).1) s := by
      intro l
      induction l with
      | nil => exact fun _ => rfl
      | cons x l ih => exact fun s => ih _
    simp only [parts, perform, dispatch]
    rw [performAll_append, performAll_smallTasks, hcalls]
  | callMethod element method =>
    simp only [parts, perform, callMethod]
    cases s.owner? element <;> rfl
  | runMicrotasks => exact performAll_smallTasks s
  | advance ms =>
    simp only [parts]
    rw [performAll_append, performAll_append, performAll_timerParts, performAll_smallTasks]
    rfl
  | _ => rfl

theorem performAll_steps (ops : List (Operation σ)) :
    s.performAll (s.steps ops) = s.performAll ops := by
  induction ops generalizing s with
  | nil => rfl
  | cons op ops ih =>
    rw [steps, performAll_append, performAll_parts, ih]
    rfl

/-! ### Calls -/

/-- A method of an instance is called. -/
structure Call where
  id : InstanceId
  method : String
  event : Option Event

/-- Gets ready to do what waited: a held-back method is called, or annotations are wired. -/
def prepare : Task → Page σ × Option Call
  | .wire id => (s.wire id, none)
  | .fire id method event =>
    (s.updateTiming id method fun w => w.fired s.scheduler.now, some ⟨id, method, event⟩)

/-- Sets the timer of a call that is held back, and takes an earlier one back. -/
def holdBack (id : InstanceId) (method : String) (event : Option Event)
    (cancel : Option TimerId) (delay : Nat) : Page σ :=
  let (scheduler, timer) := (s.scheduler.withdraw cancel).setTimeout delay (.fire id method event)
  ({ s with scheduler }).updateTiming id method fun w => w.scheduled timer

/-- What an operation does before it calls a method, and which method it calls then. -/
def bookkeep : Operation σ → Page σ × Option Call
  | .invoke id method event =>
    match s.instance? id with
    | none => (s, none)
    | some i =>
      match Instance.wrapper? i method with
      | none => (s, some ⟨id, method, event⟩)
      | some w =>
        let t := s.updateTiming id method fun _ => (w.decide s.scheduler.now).1
        match (w.decide s.scheduler.now).2 with
        | .run => (t, some ⟨id, method, event⟩)
        | .skip => (t, none)
        | .schedule cancel delay => (t.holdBack id method event cancel delay, none)
  | .runMicrotask =>
    match s.scheduler.popMicrotask with
    | none => (s, none)
    | some (task, scheduler) => ({ s with scheduler }).prepare task
  | .runTimer deadline =>
    match s.scheduler.popDue deadline with
    | none => (s, none)
    | some (task, scheduler) => ({ s with scheduler }).prepare task
  | op => (s.perform op, none)

theorem bookkeep_of_isPlain (hop : op.isPlain) : s.bookkeep op = (s.perform op, none) := by
  cases op with
  | invoke | runMicrotask | runTimer => cases hop
  | _ => rfl

def complete (r : Page σ × Option Call) : Page σ :=
  match r.2 with
  | none => r.1
  | some c => (r.1.callNow c.id c.method c.event).1

theorem complete_prepare (task : Task) : complete (s.prepare task) = s.runTask task := by
  cases task <;> rfl

theorem complete_bookkeep (hop : Operation.Part op) : complete (s.bookkeep op) = s.perform op := by
  cases hop with
  | invoke id method event =>
    simp only [bookkeep, perform, invoke]
    cases s.instance? id with
    | none => rfl
    | some i =>
      dsimp only
      cases Instance.wrapper? i method with
      | none => rfl
      | some w =>
        dsimp only
        cases (w.decide s.scheduler.now).2 with
        | schedule cancel delay => cases cancel <;> rfl
        | _ => rfl
  | runMicrotask =>
    simp only [bookkeep, perform]
    cases s.scheduler.popMicrotask with
    | none => rfl
    | some r => exact complete_prepare ..
  | runTimer deadline =>
    simp only [bookkeep, perform]
    cases s.scheduler.popDue deadline with
    | none => rfl
    | some r => exact complete_prepare ..
  | setNow now => rfl

theorem world_prepare (task : Task) : (s.prepare task).1.world = s.world := by
  cases task with
  | wire id =>
    exact wire_keeps (p := fun t => t.world = s.world) rfl (fun _ => rfl) (fun _ _ _ _ h => h)
      (fun _ _ _ _ _ _ _ h => h) fun _ h => h
  | fire id method event => rfl

theorem world_bookkeep (hop : Operation.Part op) : (s.bookkeep op).1.world = s.world := by
  cases hop with
  | invoke id method event =>
    simp only [bookkeep]
    split
    · rfl
    · split
      · rfl
      · split <;> rfl
  | runMicrotask | runTimer deadline =>
    simp only [bookkeep]
    split
    · rfl
    · exact world_prepare ..
  | setNow now => rfl

/-! ### Histories -/

/-- What happens to a method of an instance. -/
inductive Happening where
  | asked (time : Nat) (event : Option Event)
  | ran (time : Nat) (event : Option Event)
deriving DecidableEq, Repr

/-- The state of a held-back method of an instance. -/
def wrapper? (s : Page σ) (id : InstanceId) (method : String) : Option TimingWrapper :=
  (s.instance? id).bind (Instance.wrapper? · method)

def asks (id : InstanceId) (method : String) (s : Page σ) : Operation σ → List Happening
  | .invoke id' method' event =>
    if id' = id ∧ method' = method then [.asked s.scheduler.now event] else []
  | _ => []

theorem asks_of_isPlain (hop : op.isPlain) (s : Page σ) : asks id method s op = [] := by
  cases op with
  | invoke => cases hop
  | _ => rfl

def runs (id : InstanceId) (method : String) (s : Page σ) (op : Operation σ) : List Happening :=
  match (s.bookkeep op).2 with
  | none => []
  | some c =>
    if c.id = id ∧ c.method = method then [.ran (s.bookkeep op).1.scheduler.now c.event] else []

def happenings (id : InstanceId) (method : String) (s : Page σ) (op : Operation σ) : List Happening :=
  if (s.wrapper? id method).isSome then asks id method s op ++ runs id method s op else []

/-- What happens, in order, to a method of an instance while it is held back. -/
def history (id : InstanceId) (method : String) (s : Page σ) : List (Operation σ) → List Happening
  | [] => []
  | op :: ops => happenings id method s op ++ history id method (s.perform op) ops

end Page

end Componentry.Live
