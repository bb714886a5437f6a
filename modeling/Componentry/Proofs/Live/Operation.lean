import Componentry.Proofs.Live.Cast
import Mathlib.Logic.Relation

/-!
# Runs of a page

What can be asked of a page, from outside and by the passing of time, as one type of operations. An
event, a batch of small tasks and the passing of time are made of parts that are operations too: a
listener is called, one small task or one timer runs, the clock moves. So whatever every part keeps,
every run keeps, and the pages between the parts are pages of a run as well. All of this reaches a page
in small changes, and whatever each small change keeps is kept.
-/

namespace Componentry.Live

open Document

variable {σ : Type} {p : Page σ → Prop}

/-- What happens to a page. -/
inductive Operation (σ : Type) where
  | define (c : Component σ)
  | createElement (tag : String)
  | createText (value : String)
  | createComment (value : String)
  | createFragment
  /-- A node is appended to another. -/
  | append (parent child : NodeId)
  /-- A node is taken out of its tree. -/
  | remove (node : NodeId)
  | setAttribute (element : NodeId) (name value : String)
  | removeAttribute (element : NodeId) (name : String)
  | adopt (element : NodeId)
  /-- Another location is shown. -/
  | setLocation (location : String)
  | dispatch (target : NodeId) (type : String)
  /-- A method of an element is called. -/
  | callMethod (element : NodeId) (method : String)
  /-- The small tasks that wait are run. -/
  | runMicrotasks
  | advance (ms : Nat)
  /-- Template and styles of a unit are replaced. -/
  | hotUpdate (sourceId template : String) (styles globalStyles : Option String)
  /-- A method of an instance is called, as a listener does. -/
  | invoke (id : InstanceId) (method : String) (event : Option Event)
  | runMicrotask
  /-- The next timer that falls due by a deadline runs. -/
  | runTimer (deadline : Nat)
  | setNow (now : Nat)

namespace Page

/-- The page after an operation. -/
def perform (s : Page σ) : Operation σ → Page σ
  | .define c => (s.define c).1
  | .createElement tag => (s.createElement tag).1
  | .createText value => { s with forest := (s.forest.createText value).1 }
  | .createComment value => { s with forest := (s.forest.createComment value).1 }
  | .createFragment => { s with forest := s.forest.createFragment.1 }
  | .append parent child => s.append parent child
  | .remove node => s.remove node
  | .setAttribute element name value => s.setAttribute element name value
  | .removeAttribute element name => s.removeAttribute element name
  | .adopt element => (s.adopt element).1
  | .setLocation location => s.setLocation location
  | .dispatch target type => (s.dispatch target type).1
  | .callMethod element method => (s.callMethod element method).1
  | .runMicrotasks => s.runMicrotasks.1
  | .advance ms => s.advance ms
  | .hotUpdate sourceId template styles globalStyles =>
    (s.hotUpdate sourceId template styles globalStyles).1
  | .invoke id method event => (s.invoke id method event).1
  | .runMicrotask =>
    match s.scheduler.popMicrotask with
    | none => s
    | some (task, scheduler) => ({ s with scheduler }).runTask task
  | .runTimer deadline =>
    match s.scheduler.popDue deadline with
    | none => s
    | some (task, scheduler) => ({ s with scheduler }).runTask task
  | .setNow now => { s with scheduler := s.scheduler.setNow now }

/-- The page after operations in order. -/
def performAll (s : Page σ) (ops : List (Operation σ)) : Page σ := ops.foldl perform s

theorem performAll_append (s : Page σ) (ops ops' : List (Operation σ)) :
    s.performAll (ops ++ ops') = (s.performAll ops).performAll ops' := List.foldl_append ..

end Page

/-! ### Parts of operations -/

/-- The parts that events and the passing of time are made of. -/
inductive Operation.Part : Operation σ → Prop where
  /-- A method of an instance is called. -/
  | invoke (id : InstanceId) (method : String) (event : Option Event) : Part (.invoke id method event)
  | runMicrotask : Part .runMicrotask
  | runTimer (deadline : Nat) : Part (.runTimer deadline)
  | setNow (now : Nat) : Part (.setNow now)

/-- An operation that neither is a part of another nor is made of parts. -/
def Operation.isPlain : Operation σ → Bool
  | .dispatch .. | .callMethod .. | .runMicrotasks | .advance .. => false
  | .invoke .. | .runMicrotask | .runTimer .. | .setNow .. => false
  | _ => true

namespace Page

/-- One page comes from another by parts of operations. -/
def Evolves (s t : Page σ) : Prop := ∃ ops, (∀ op ∈ ops, Operation.Part op) ∧ t = s.performAll ops

namespace Evolves

variable {s t u : Page σ}

theorem refl (s : Page σ) : Evolves s s := ⟨[], fun _ h => absurd h List.not_mem_nil, rfl⟩

theorem trans (hst : Evolves s t) (htu : Evolves t u) : Evolves s u := by
  obtain ⟨ops, ho, rfl⟩ := hst
  obtain ⟨ops', ho', rfl⟩ := htu
  exact ⟨ops ++ ops', List.forall_mem_append.mpr ⟨ho, ho'⟩, (s.performAll_append ops ops').symm⟩

theorem part {op : Operation σ} (h : Operation.Part op) (s : Page σ) : Evolves s (s.perform op) :=
  ⟨[op], by simpa using h, rfl⟩

theorem keeps (hp : ∀ s op, Operation.Part op → p s → p (s.perform op)) (h : Evolves s t)
    (hs : p s) : p t := by
  obtain ⟨ops, ho, rfl⟩ := h
  exact List.foldlRecOn ops perform hs fun t ht op hop => hp t op (ho op hop) ht

end Evolves

theorem runMicrotasksUpTo_evolves (limit : Nat) (s : Page σ) :
    Evolves s (runMicrotasksUpTo limit s).1 := by
  induction limit generalizing s with
  | zero => exact .refl s
  | succ limit ih =>
    have hone := Evolves.part .runMicrotask s
    simp only [perform] at hone
    rw [runMicrotasksUpTo]
    split
    · exact .refl s
    next task scheduler hp =>
      rw [hp] at hone
      exact hone.trans (ih _)

theorem runTimersUpTo_evolves (deadline limit : Nat) (s : Page σ) :
    Evolves s (runTimersUpTo deadline limit s) := by
  induction limit generalizing s with
  | zero => exact .refl s
  | succ limit ih =>
    have hone := Evolves.part (.runTimer deadline) s
    simp only [perform] at hone
    rw [runTimersUpTo]
    split
    · exact .refl s
    next task scheduler hp =>
      rw [hp] at hone
      exact (hone.trans (runMicrotasksUpTo_evolves ..)).trans (ih _)

theorem dispatch_evolves (s : Page σ) (target : NodeId) (type : String) :
    Evolves s (s.dispatch target type).1 := by
  refine .trans ?_ (runMicrotasksUpTo_evolves ..)
  exact List.foldlRecOn _ _ (.refl s) fun t ht x _ => ht.trans (.part (.invoke _ _ _) t)

theorem callMethod_evolves (s : Page σ) (element : NodeId) (method : String) :
    Evolves s (s.callMethod element method).1 := by
  unfold callMethod
  split
  · exact .refl s
  · exact .part (.invoke _ _ _) s

theorem advance_evolves (s : Page σ) (ms : Nat) : Evolves s (s.advance ms) :=
  ((runMicrotasksUpTo_evolves ..).trans (runTimersUpTo_evolves ..)).trans (.part (.setNow _) _)

/-- An operation keeps what its steps keep: parts of operations, making nodes, changing attributes and
telling authors. Defining components, moving nodes and replacing templates are steps as a whole. -/
theorem perform_keeps {s : Page σ} {op : Operation σ}
    (hevolves : op.isPlain = false → ∀ {t}, Evolves s t → p t)
    (hcreate : ∀ {kind : Kind}, kind.isLoose → p { s with forest := (s.forest.create kind).1 })
    (helement : ∀ tag, p (s.createElement tag).1)
    (hattributes : ∀ element g, p { s with forest := s.forest.updateAttributes element g })
    (htell : ∀ element g name old new, p (({ s with
      forest := s.forest.updateAttributes element g } : Page σ).tellAttribute element name old new))
    (hadopt : ∀ element, p (s.adopt element).1) (hlocation : ∀ location, p { s with location })
    (hdefine : ∀ c, op = .define c → p (s.define c).1)
    (happend : ∀ parent child, op = .append parent child → p (s.append parent child))
    (hremove : ∀ node, op = .remove node → p (s.remove node))
    (hupdate : ∀ sourceId template styles globalStyles,
      op = .hotUpdate sourceId template styles globalStyles →
        p (s.hotUpdate sourceId template styles globalStyles).1) : p (s.perform op) := by
  cases op with
  | define c => exact hdefine c rfl
  | createElement tag => exact helement tag
  | createText value | createComment value | createFragment => exact hcreate rfl
  | append parent child => exact happend parent child rfl
  | remove node => exact hremove node rfl
  | setAttribute element name value => exact htell element _ ..
  | removeAttribute element name =>
    simp only [perform, removeAttribute]
    split
    · exact htell element _ ..
    · exact hattributes element _
  | adopt element => exact hadopt element
  | setLocation location => exact hlocation location
  | dispatch target type => exact hevolves rfl (dispatch_evolves s target type)
  | callMethod element method => exact hevolves rfl (callMethod_evolves s element method)
  | runMicrotasks => exact hevolves rfl (runMicrotasksUpTo_evolves _ s)
  | advance ms => exact hevolves rfl (advance_evolves s ms)
  | hotUpdate => exact hupdate _ _ _ _ rfl
  | invoke id method event => exact hevolves rfl (.part (.invoke id method event) s)
  | runMicrotask => exact hevolves rfl (.part .runMicrotask s)
  | runTimer deadline => exact hevolves rfl (.part (.runTimer deadline) s)
  | setNow now => exact hevolves rfl (.part (.setNow now) s)

end Page

/-! ### Small changes -/

open Relation

/-- All of an instance but its listeners, its wiring and its held-back methods. -/
def Instance.still (i : Instance σ) : Instance σ := { i with listeners := [], wired := false, timing := [] }

namespace Page

variable {s t u : Page σ}

/-- A small change. -/
inductive Ripple : Page σ → Page σ → Prop where
  | plans (s : Page σ) (plans : PlanCache) : Ripple s { s with plans }
  | scheduler (s : Page σ) (scheduler : Scheduler Task) : Ripple s { s with scheduler }
  | addListener (s : Page σ) (target : NodeId) (event : String) (binding : Binding) :
    Ripple s { s with forest := (s.forest.addListener target event binding).1 }
  /-- An instance is wired, or its held-back methods change. -/
  | wiring (s : Page σ) (id : InstanceId) {g : Instance σ → Instance σ}
    (hg : ∀ i, (g i).still = i.still) : Ripple s (s.updateInstance id g)
  | call (s : Page σ) {id : InstanceId} {i : Instance σ} (hi : s.instance? id = some i)
    (method : String) (event : Option Event) :
    Ripple s (s.run (i.behaviour.call method (s.stage i) event)).1

/-- Small changes, one after the other. -/
abbrev Ripples : Page σ → Page σ → Prop := ReflTransGen Ripple

variable (s)

variable (id : InstanceId)

variable (method : String)

theorem updateTiming_ripple
    (g : TimingWrapper → TimingWrapper) : Ripple s (s.updateTiming id method g) :=
  .wiring s id fun _ => rfl

theorem listen_ripples (event : String) (s : Page σ) (target : NodeId) :
    Ripples s (listen id method event s target) := by
  let added := s.forest.addListener target event ⟨id, method⟩
  have hadd := Ripple.addListener s target event ⟨id, method⟩
  have hrecord : Ripple { s with forest := added.1 } (listen id method event s target) :=
    .wiring _ id (g := fun i => { i with listeners := i.listeners ++ [(target, added.2)] })
      fun _ => rfl
  exact .tail (.single hadd) hrecord

theorem wire_ripples : Ripples s (s.wire id) :=
  wire_keeps .refl (fun plans => .single (.plans s plans))
    (fun t method event target h => h.trans (listen_ripples id method event t target))
    (fun t _ _ _ _ _ _ h => h.tail (.wiring t id fun _ => rfl))
    fun t h => h.tail (.wiring t id fun _ => rfl)

theorem callNow_ripples (event : Option Event) : Ripples s (s.callNow id method event).1 := by
  unfold callNow
  split
  · exact .refl
  next i hi => exact .single (.call s hi method event)

theorem invoke_ripples (event : Option Event) : Ripples s (s.invoke id method event).1 := by
  unfold invoke
  split
  · exact .refl
  · split
    · exact s.callNow_ripples id method event
    next w _ =>
      dsimp only
      have htiming := s.updateTiming_ripple id method fun _ => (w.decide s.scheduler.now).1
      split
      · exact .head htiming (callNow_ripples _ id method event)
      · exact .single htiming
      · dsimp only
        exact .tail (.tail (.single htiming) (.scheduler ..)) (updateTiming_ripple ..)

theorem runTask_ripples (task : Task) : Ripples s (s.runTask task) := by
  cases task with
  | wire id => exact s.wire_ripples id
  | fire id method event => exact .head (updateTiming_ripple ..) (callNow_ripples _ id method event)

variable {s}

/-- Events and the passing of time reach a page in small changes. -/
theorem Evolves.ripples (h : Evolves s t) : Ripples s t := by
  refine h.keeps (fun t op hop ht => ht.trans ?_) .refl
  cases hop with
  | invoke id method event => exact t.invoke_ripples id method event
  | runMicrotask | runTimer deadline =>
    simp only [perform]
    split
    · exact .refl
    · exact .head (.scheduler t _) (runTask_ripples _ _)
  | setNow now => exact .single (.scheduler t _)

theorem Evolves.keeps_ripples (hp : ∀ {s t}, Ripple s t → p s → p t) (h : Evolves s t) (hs : p s) :
    p t := by
  have hripples := h.ripples
  clear h
  induction hripples with
  | refl => exact hs
  | tail _ hstep ih => exact hp hstep ih

end Page

end Componentry.Live
