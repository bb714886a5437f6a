import Componentry.Proofs.Live.Operation
import Componentry.Proofs.Live.Standing

/-!
# Watched authors

Any author can be watched: their callbacks do what they did, and each time an element goes live or is no
longer live this is noted in a diary. A page with watched authors does all that the page itself does, so
what the diary tells is what happens on the page.
-/

namespace Componentry.Live

open Document List

variable {σ α : Type}

/-! ### Watching -/

def watch (entries : Diary) (callback : Authored σ α) : Authored (σ × Diary) α := fun (f, w, diary) =>
  let (a, f, w) := callback.run (f, w)
  (a, f, w, diary ++ entries)

/-- The callbacks of an element, with a diary of when it goes live. -/
def Behaviour.watched (b : Behaviour σ) : Behaviour (σ × Diary) where
  connected stage := watch [(stage.element, true)] (b.connected stage)
  disconnected stage := watch [(stage.element, false)] (b.disconnected stage)
  attributeChanged stage name old new := watch [] (b.attributeChanged stage name old new)
  adopted stage := watch [] (b.adopted stage)
  hasMethod := b.hasMethod
  call method stage event := watch [] (b.call method stage event)

def Component.watched (c : Component σ) : Component (σ × Diary) where
  description := c.description
  construct := fun (w, diary) =>
    let (b, w) := c.construct.run w
    (b.watched, w, diary)

def Instance.watched (i : Instance σ) : Instance (σ × Diary) where
  element := i.element
  cls := i.cls
  behaviour := i.behaviour.watched
  state := i.state
  root := i.root
  mounted := i.mounted
  wired := i.wired
  params := i.params
  listeners := i.listeners
  timing := i.timing
  scopedSheet := i.scopedSheet

@[simp] theorem Component.watched_description (c : Component σ) :
    c.watched.description = c.description := rfl

def Operation.watched : Operation σ → Operation (σ × Diary)
  | .define c => .define c.watched
  | .createElement tag => .createElement tag
  | .createText value => .createText value
  | .createComment value => .createComment value
  | .createFragment => .createFragment
  | .append parent child => .append parent child
  | .remove node => .remove node
  | .setAttribute element name value => .setAttribute element name value
  | .removeAttribute element name => .removeAttribute element name
  | .adopt element => .adopt element
  | .setLocation location => .setLocation location
  | .dispatch target type => .dispatch target type
  | .callMethod element method => .callMethod element method
  | .runMicrotasks => .runMicrotasks
  | .advance ms => .advance ms
  | .hotUpdate sourceId template styles globalStyles =>
    .hotUpdate sourceId template styles globalStyles
  | .invoke id method event => .invoke id method event
  | .runMicrotask => .runMicrotask
  | .runTimer deadline => .runTimer deadline
  | .setNow now => .setNow now

theorem Component.watched_reports (c : Component σ) : c.watched.Reports Prod.snd := fun _ =>
  ⟨rfl, {
    connected := fun _ _ _ => rfl
    disconnected := fun _ _ _ => rfl
    attributeChanged := fun _ _ _ _ _ _ => rfl
    adopted := fun _ _ _ => rfl
    call := fun _ _ _ _ _ => rfl }⟩

theorem Component.Respects.watched {r : Forest → Forest → Prop} {c : Component σ} (h : c.Respects r) :
    c.watched.Respects r := fun w =>
  { connected := fun stage f v => (h w.1).connected stage f v.1
    disconnected := fun stage f v => (h w.1).disconnected stage f v.1
    attributeChanged := fun stage name old new f v => (h w.1).attributeChanged stage name old new f v.1
    adopted := fun stage f v => (h w.1).adopted stage f v.1
    call := fun method stage event f v => (h w.1).call method stage event f v.1 }

namespace Page

def watched (s : Page σ) (diary : Diary) : Page (σ × Diary) where
  forest := s.forest
  document := s.document
  sheets := s.sheets
  templates := s.templates
  plans := s.plans
  scheduler := s.scheduler
  classes := s.classes.map fun x => (x.1, x.2.watched)
  registry := s.registry
  instances := s.instances.map fun x => (x.1, x.2.watched)
  owners := s.owners
  location := s.location
  lastId := s.lastId
  world := (s.world, diary)

variable (s : Page σ) (diary : Diary)

@[simp] theorem watched_forest : (s.watched diary).forest = s.forest := rfl

@[simp] theorem watched_document : (s.watched diary).document = s.document := rfl

@[simp] theorem watched_registry : (s.watched diary).registry = s.registry := rfl

@[simp] theorem watched_location : (s.watched diary).location = s.location := rfl

@[simp] theorem owner?_watched (n : NodeId) : (s.watched diary).owner? n = s.owner? n := rfl

/-! ### Looking up and changing instances -/

theorem class?_watched (id : ClassId) :
    (s.watched diary).class? id = (s.class? id).map Component.watched := by
  simp [class?, watched, find?_map, Function.comp_def, Option.map_map]

variable (id : InstanceId)

theorem instance?_watched :
    (s.watched diary).instance? id = (s.instance? id).map Instance.watched := by
  simp [instance?, watched, find?_map, Function.comp_def, Option.map_map]

theorem instanceOf?_watched (n : NodeId) :
    (s.watched diary).instanceOf? n = (s.instanceOf? n).map Instance.watched := by
  unfold instanceOf?
  rw [owner?_watched]
  cases s.owner? n with
  | none => rfl
  | some id => exact instance?_watched s diary id

theorem updateInstance_watched {g : Instance σ → Instance σ}
    {j : Instance (σ × Diary) → Instance (σ × Diary)} (hg : ∀ i, j i.watched = (g i).watched) :
    (s.watched diary).updateInstance id j = (s.updateInstance id g).watched diary := by
  simp only [updateInstance, watched, map_map]
  congr 1
  refine map_congr_left fun x _ => ?_
  simp only [Function.comp_apply]
  split
  · rw [hg]
  · rfl

variable (i : Instance σ)

theorem store_watched : (s.watched diary).updateInstance id (fun _ => i.watched) =
      (s.updateInstance id fun _ => i).watched diary :=
  updateInstance_watched s diary id fun _ => rfl

theorem withInstance_watched (n : NodeId) (cls : ClassId) (c : Component σ) :
    (s.watched diary).withInstance n cls c.watched = (s.withInstance n cls c).watched diary := by
  simp only [withInstance, watched, map_append]
  rfl

theorem ensureInstance_watched (n : NodeId) : (s.watched diary).ensureInstance n =
      ((s.ensureInstance n).1.watched diary, (s.ensureInstance n).2) := by
  unfold ensureInstance
  rw [owner?_watched]
  cases s.owner? n with
  | some id => rfl
  | none =>
    simp only [class?_watched, watched_forest, watched_registry]
    cases s.forest.tag? n with
    | none => rfl
    | some tag =>
      cases hr : s.registry.find? tag with
      | none => simp [hr]
      | some cls =>
        cases hc : s.class? cls with
        | none => simp [hr, hc]
        | some c =>
          simp only [hr, hc, Option.bind_eq_bind, Option.bind_some]
          exact Prod.ext (withInstance_watched s diary n cls c) rfl

/-! ### Content -/

variable (d : Description)

theorem mount_watched : (s.watched diary).mount id i.watched d =
      ((s.mount id i d).1.watched diary, (s.mount id i d).2.watched) :=
  let forest := (s.mount id i d).1.forest
  let templates := (s.mount id i d).1.templates
  Prod.ext (store_watched { s with forest, templates } diary id (s.mount id i d).2) rfl

theorem applyOwnStyles_watched (css : Option String) :
    (s.watched diary).applyOwnStyles id i.watched css =
      ((s.applyOwnStyles id i css).1.watched diary, (s.applyOwnStyles id i css).2.watched) := by
  cases css with
  | none => rfl
  | some css =>
    exact Prod.ext (store_watched (s.attach i.root css).1 diary id
      (s.applyOwnStyles id i (some css)).2) rfl

theorem applyGlobalStyles_watched (css : Option String) :
    (s.watched diary).applyGlobalStyles i.watched css =
      (s.applyGlobalStyles i css).watched diary := by
  cases css with
  | none => rfl
  | some css =>
    have hsame : (i.watched.root != i.watched.element) = (i.root != i.element) := rfl
    simp only [applyGlobalStyles, hsame]
    split <;> rfl

theorem applyStyles_watched : (s.watched diary).applyStyles id i.watched d =
      ((s.applyStyles id i d).1.watched diary, (s.applyStyles id i d).2.watched) := by
  simp [applyStyles, applyOwnStyles_watched, applyGlobalStyles_watched]

theorem applyParams_watched : (s.watched diary).applyParams id i.watched d =
      ((s.applyParams id i d).1.watched diary, (s.applyParams id i d).2.watched) := by
  unfold applyParams
  rw [watched_location]
  generalize Params.ofLocation (d.route.map (·.path)) s.location = params
  let forest := (params.merged.fillTree s.forest i.root).1
  exact Prod.ext (store_watched { s with forest } diary id { i with params }) rfl

theorem furnish_watched (fresh : Bool) : (s.watched diary).furnish id i.watched d fresh =
      ((s.furnish id i d fresh).1.watched diary, (s.furnish id i d fresh).2.watched) := by
  cases fresh with
  | false => simp [furnish, applyStyles_watched, applyParams_watched]
  | true => simp [furnish, mount_watched, applyStyles_watched, applyParams_watched]

theorem unwire_watched : (s.watched diary).unwire id = (s.unwire id).watched diary := by
  unfold unwire
  rw [instance?_watched]
  cases s.instance? id with
  | none => rfl
  | some i =>
    let forest := i.listeners.foldl (fun f (x : NodeId × ListenerId) => f.removeListener x.1 x.2) s.forest
    exact updateInstance_watched { s with forest } diary id fun _ => rfl

theorem mayDefine_watched : (s.watched diary).mayDefine d = s.mayDefine d := by
  unfold mayDefine
  rw [watched_registry]
  cases s.registry.find? d.tag with
  | none => rfl
  | some cls =>
    simp only [class?_watched]
    cases s.class? cls <;> rfl

theorem register_watched (c : Component σ) :
    (s.watched diary).register c.watched = (s.register c).watched diary := by
  unfold register
  rw [Component.watched_description]
  cases c.description.globalStyles <;> rfl

theorem updated_watched (sourceId : String) : (s.watched diary).updated sourceId = s.updated sourceId := by
  simp only [updated, watched, filter_map, map_map]
  rfl

theorem recast_watched (sourceId template : String) (styles globalStyles : Option String) :
    (s.watched diary).recast sourceId template styles globalStyles =
      (s.recast sourceId template styles globalStyles).watched diary := by
  simp only [recast, watched, map_map, mk.injEq, true_and, and_true]
  refine map_congr_left fun x _ => Prod.ext rfl ?_
  simp only [Function.comp_apply, apply_ite Component.watched]
  rfl

/-! ### Connecting and disconnecting -/

variable {s} {t : Page (σ × Diary)}

def Watches (s : Page σ) (t : Page (σ × Diary)) : Prop := ∃ diary, t = s.watched diary

namespace Watches

theorem forest_eq (h : Watches s t) : t.forest = s.forest := by
  obtain ⟨diary, rfl⟩ := h
  rfl

theorem foldl {β : Type} {step : Page σ → β → Page σ} {step' : Page (σ × Diary) → β → Page (σ × Diary)}
    (hstep : ∀ {s t}, Watches s t → ∀ x, Watches (step s x) (step' t x)) (l : List β)
    (h : Watches s t) : Watches (l.foldl step s) (l.foldl step' t) := by
  induction l generalizing s t with
  | nil => exact h
  | cons x l ih => exact ih (hstep h x)

theorem walk {visit : Page σ → NodeId → Page σ} {visit' : Page (σ × Diary) → NodeId → Page (σ × Diary)}
    (hvisit : ∀ {s t}, Watches s t → ∀ n, Watches (visit s n) (visit' t n)) (depth : Nat)
    (h : Watches s t) (n : NodeId) : Watches (Page.walk visit depth s n) (Page.walk visit' depth t n) := by
  induction depth generalizing s t n with
  | zero => exact h
  | succ depth ih =>
    have hv := hvisit h n
    rw [walk, walk, hv.forest_eq]
    exact foldl ih _ hv

variable (h : Watches s t) (id : InstanceId)

include h

theorem run (entries : Diary) (callback : Authored σ α) :
    Watches (s.run callback).1 (t.run (watch entries callback)).1 := by
  obtain ⟨diary, rfl⟩ := h
  exact ⟨diary ++ entries, rfl⟩

theorem runConnection (fresh : Bool) :
    Watches (s.runConnection id fresh) (t.runConnection id fresh) := by
  obtain ⟨diary, rfl⟩ := h
  unfold runConnection
  rw [instance?_watched]
  cases s.instance? id with
  | none => exact ⟨diary, rfl⟩
  | some i =>
    have hclass : (s.watched diary).class? i.watched.cls = (s.class? i.cls).map Component.watched :=
      class?_watched s diary i.cls
    simp only [Option.map_some, hclass]
    cases s.class? i.cls with
    | none => exact ⟨diary, rfl⟩
    | some c =>
      have hupdate := store_watched s diary id { i with state := .connecting }
      have hfurnish := furnish_watched (s.updateInstance id fun _ => { i with state := .connecting })
      have hstate : ({ i.watched with state := .connecting } : Instance (σ × Diary)) =
        ({ i with state := .connecting } : Instance σ).watched := rfl
      simp only [Option.map_some, hstate, hupdate, Component.watched_description, hfurnish]
      generalize (s.updateInstance id fun _ => { i with state := .connecting }).furnish id
        { i with state := .connecting } c.description fresh = p
      -- The callback is told the same and sees the same forest and world; only the diary grows.
      have hlast := updateInstance_watched (p.1.run (p.2.behaviour.connected (p.1.stage p.2))).1
        (diary ++ [(p.2.element, true)]) id (g := fun i => { i with state := .connected })
        (j := fun i => { i with state := .connected }) fun _ => rfl
      let queued (u : Page (σ × Diary)) : Page (σ × Diary) :=
        { u with scheduler := u.scheduler.queueMicrotask (.wire id) }
      exact ⟨diary ++ [(p.2.element, true)], congrArg queued hlast⟩

theorem connect : Watches (s.connect id) (t.connect id) := by
  obtain ⟨diary, rfl⟩ := h
  unfold connect
  rw [instance?_watched]
  cases s.instance? id with
  | none => exact ⟨diary, rfl⟩
  | some i =>
    have hstate : i.watched.state = i.state := rfl
    simp only [Option.map_some, hstate]
    split
    · exact ⟨diary, rfl⟩
    · exact runConnection ⟨diary, rfl⟩ id _

theorem disconnect : Watches (s.disconnect id) (t.disconnect id) := by
  obtain ⟨diary, rfl⟩ := h
  unfold disconnect
  rw [instance?_watched]
  cases s.instance? id with
  | none => exact ⟨diary, rfl⟩
  | some i =>
    have hstate : i.watched.state = i.state := rfl
    have hupdate := updateInstance_watched s diary id (g := fun i => { i with state := .disconnected })
      (j := fun i => { i with state := .disconnected }) fun _ => rfl
    simp only [Option.map_some, hstate, hupdate, unwire_watched]
    split
    · exact run ⟨diary, rfl⟩ _ _
    · exact ⟨diary, rfl⟩

/-! ### Walks -/

variable (n : NodeId)

theorem connectNode : Watches (s.connectNode n) (t.connectNode n) := by
  obtain ⟨diary, rfl⟩ := h
  unfold connectNode
  rw [ensureInstance_watched, watched_forest]
  split
  · rcases s.ensureInstance n with ⟨s, _ | id⟩
    · exact ⟨diary, rfl⟩
    · exact connect ⟨diary, rfl⟩ id
  · exact ⟨diary, rfl⟩

theorem disconnectNode : Watches (s.disconnectNode n) (t.disconnectNode n) := by
  obtain ⟨diary, rfl⟩ := h
  unfold disconnectNode
  rw [owner?_watched]
  cases s.owner? n with
  | none => exact ⟨diary, rfl⟩
  | some id => exact disconnect ⟨diary, rfl⟩ id

theorem reach_eq : t.reach = s.reach := by
  obtain ⟨diary, rfl⟩ := h
  simp only [reach, watched, map_map]
  rfl

theorem connectTree : Watches (s.connectTree n) (t.connectTree n) := by
  unfold Page.connectTree
  rw [h.reach_eq]
  exact walk connectNode _ h n

theorem disconnectTree : Watches (s.disconnectTree n) (t.disconnectTree n) := by
  unfold Page.disconnectTree
  rw [h.reach_eq]
  exact walk disconnectNode _ h n

/-! ### Operations -/

theorem define (c : Component σ) : Watches (s.define c).1 (t.define c.watched).1 := by
  obtain ⟨diary, rfl⟩ := h
  unfold define
  rw [Component.watched_description, mayDefine_watched, register_watched]
  split
  · exact ⟨diary, rfl⟩
  · split
    · exact ⟨diary, rfl⟩
    · exact connectTree ⟨diary, rfl⟩ _

theorem createElement (tag : String) : Watches (s.createElement tag).1 (t.createElement tag).1 := by
  obtain ⟨diary, rfl⟩ := h
  have hmade := ensureInstance_watched { s with forest := (s.forest.createElement tag).1 } diary
    (s.forest.createElement tag).2
  exact ⟨diary, congrArg (·.1) hmade⟩

theorem append (parent child : NodeId) :
    Watches (s.append parent child) (t.append parent child) := by
  obtain ⟨diary, rfl⟩ := h
  have hforest : (s.watched diary).forest = s.forest := rfl
  simp only [append, hforest]
  refine foldl (fun h x => ?_) _ ⟨diary, rfl⟩
  split
  · exact h.disconnectTree x.1
  · split
    · exact h.connectTree x.1
    · exact h

theorem remove : Watches (s.remove n) (t.remove n) := by
  obtain ⟨diary, rfl⟩ := h
  have hforest : (s.watched diary).forest = s.forest := rfl
  simp only [remove, hforest]
  split
  · exact disconnectTree ⟨diary, rfl⟩ n
  · exact ⟨diary, rfl⟩

theorem tellAttribute (name : String) (old new : Option String) :
    Watches (s.tellAttribute n name old new) (t.tellAttribute n name old new) := by
  obtain ⟨diary, rfl⟩ := h
  unfold tellAttribute
  rw [instanceOf?_watched]
  cases s.instanceOf? n with
  | none => exact ⟨diary, rfl⟩
  | some i =>
    have hobserved : ((s.watched diary).class? i.watched.cls).map (fun c => c.description.observed) =
        (s.class? i.cls).map fun c => c.description.observed := by
      rw [class?_watched, Option.map_map]
      rfl
    simp only [Option.map_some, hobserved]
    split
    · exact run ⟨diary, rfl⟩ _ _
    · exact ⟨diary, rfl⟩

theorem setAttribute (name value : String) :
    Watches (s.setAttribute n name value) (t.setAttribute n name value) := by
  obtain ⟨diary, rfl⟩ := h
  exact tellAttribute ⟨diary, rfl⟩ n name _ _

theorem removeAttribute (name : String) :
    Watches (s.removeAttribute n name) (t.removeAttribute n name) := by
  obtain ⟨diary, rfl⟩ := h
  simp only [removeAttribute, watched_forest]
  split
  · exact tellAttribute ⟨diary, rfl⟩ n name _ _
  · exact ⟨diary, rfl⟩

theorem adopt : Watches (s.adopt n).1 (t.adopt n).1 := by
  obtain ⟨diary, rfl⟩ := h
  unfold adopt
  rw [instanceOf?_watched]
  cases s.instanceOf? n with
  | none => exact ⟨diary, rfl⟩
  | some i => exact run ⟨diary, rfl⟩ _ _

/-! ### Wiring, calls and time -/

theorem listen (method event : String) (n : NodeId) :
    Watches (Page.listen id method event s n) (Page.listen id method event t n) := by
  obtain ⟨diary, rfl⟩ := h
  let added := s.forest.addListener n event ⟨id, method⟩
  exact ⟨diary, updateInstance_watched { s with forest := added.1 } diary id
    (j := fun i => { i with listeners := i.listeners ++ [(n, added.2)] }) fun _ => rfl⟩

theorem wireEntry (entry : WiringEntry) :
    Watches (Page.wireEntry id s entry) (Page.wireEntry id t entry) := by
  obtain ⟨diary, rfl⟩ := h
  unfold wireEntry
  rw [instance?_watched]
  cases s.instance? id with
  | none => exact ⟨diary, rfl⟩
  | some i =>
    have hmethod : i.watched.behaviour.hasMethod = i.behaviour.hasMethod := rfl
    have htiming : i.watched.timing = i.timing := rfl
    simp only [Option.map_some, hmethod]
    split
    · exact ⟨diary, rfl⟩
    · cases entry with
      | timing method kind delay =>
        simp only [htiming]
        split
        · exact ⟨diary, rfl⟩
        · exact ⟨diary, updateInstance_watched s diary id fun _ => rfl⟩
      | event method event selector =>
        exact foldl (fun h n => h.listen id method event n) _ ⟨diary, rfl⟩

theorem wire : Watches (s.wire id) (t.wire id) := by
  obtain ⟨diary, rfl⟩ := h
  unfold wire
  rw [instance?_watched]
  cases s.instance? id with
  | none => exact ⟨diary, rfl⟩
  | some i =>
    have hstate : i.watched.state = i.state := rfl
    have hwired : i.watched.wired = i.wired := rfl
    have hcls : i.watched.cls = i.cls := rfl
    simp only [Option.map_some, hstate, hwired, hcls, class?_watched]
    split
    · exact ⟨diary, rfl⟩
    · cases s.class? i.cls with
      | none => exact ⟨diary, rfl⟩
      | some c =>
        let p := s.plans.plan i.cls c.description.annotations
        have hplan : Watches ({ s with plans := p.1 } : Page σ)
            { s.watched diary with plans := p.1 } := ⟨diary, rfl⟩
        obtain ⟨diary', he⟩ := foldl (fun h entry => h.wireEntry id entry) p.2 hplan
        refine ⟨diary', ?_⟩
        have hupdate := updateInstance_watched (p.2.foldl (Page.wireEntry id) { s with plans := p.1 })
          diary' id (g := fun i => { i with wired := true }) (j := fun i => { i with wired := true })
          fun _ => rfl
        rw [← he] at hupdate
        exact hupdate

theorem callNow (method : String) (event : Option Event) :
    Watches (s.callNow id method event).1 (t.callNow id method event).1 := by
  obtain ⟨diary, rfl⟩ := h
  unfold callNow
  rw [instance?_watched]
  cases s.instance? id with
  | none => exact ⟨diary, rfl⟩
  | some i => exact run ⟨diary, rfl⟩ _ _

theorem updateTiming (method : String) (g : TimingWrapper → TimingWrapper) :
    Watches (s.updateTiming id method g) (t.updateTiming id method g) := by
  obtain ⟨diary, rfl⟩ := h
  exact ⟨diary, updateInstance_watched s diary id fun _ => rfl⟩

theorem scheduler_only (scheduler : Scheduler Task) :
    Watches { s with scheduler } { t with scheduler } := by
  obtain ⟨diary, rfl⟩ := h
  exact ⟨diary, rfl⟩

theorem scheduler_eq : t.scheduler = s.scheduler := by
  obtain ⟨diary, rfl⟩ := h
  rfl

theorem invoke (method : String) (event : Option Event) :
    Watches (s.invoke id method event).1 (t.invoke id method event).1 := by
  have hinstance : t.instance? id = (s.instance? id).map Instance.watched := by
    obtain ⟨diary, rfl⟩ := h
    exact instance?_watched s diary id
  unfold Page.invoke
  rw [hinstance]
  cases s.instance? id with
  | none => exact h
  | some i =>
    have hwrapper : Instance.wrapper? i.watched method = Instance.wrapper? i method := rfl
    simp only [Option.map_some, hwrapper, h.scheduler_eq]
    cases Instance.wrapper? i method with
    | none => exact h.callNow id method event
    | some w =>
      dsimp only
      have hheld := h.updateTiming id method fun _ => (w.decide s.scheduler.now).1
      cases (w.decide s.scheduler.now).2 with
      | run => exact hheld.callNow id method event
      | skip => exact hheld
      | schedule cancel delay =>
        have hscheduler := hheld.scheduler_eq
        simp only [hscheduler]
        exact (hheld.scheduler_only _).updateTiming id method _

theorem callMethod (method : String) :
    Watches (s.callMethod n method).1 (t.callMethod n method).1 := by
  have howner : t.owner? n = s.owner? n := by
    obtain ⟨diary, rfl⟩ := h
    rfl
  unfold Page.callMethod
  rw [howner]
  cases s.owner? n with
  | none => exact h
  | some id => exact h.invoke id method none

theorem runTask (task : Task) : Watches (s.runTask task) (t.runTask task) := by
  cases task with
  | wire id => exact h.wire id
  | fire id method event =>
    simp only [Page.runTask, h.scheduler_eq]
    exact (h.updateTiming id method _).callNow id method event

theorem runMicrotasksUpTo (limit : Nat) :
    Watches (Page.runMicrotasksUpTo limit s).1 (Page.runMicrotasksUpTo limit t).1 := by
  induction limit generalizing s t with
  | zero => exact h
  | succ limit ih =>
    rw [runMicrotasksUpTo, runMicrotasksUpTo, h.scheduler_eq]
    cases s.scheduler.popMicrotask with
    | none => exact h
    | some x => exact ih ((h.scheduler_only x.2).runTask x.1)

theorem runMicrotasks : Watches s.runMicrotasks.1 t.runMicrotasks.1 := by
  unfold Page.runMicrotasks
  rw [h.scheduler_eq]
  exact h.runMicrotasksUpTo _

theorem runTimersUpTo (deadline limit : Nat) :
    Watches (Page.runTimersUpTo deadline limit s) (Page.runTimersUpTo deadline limit t) := by
  induction limit generalizing s t with
  | zero => exact h
  | succ limit ih =>
    rw [runTimersUpTo, runTimersUpTo, h.scheduler_eq]
    cases s.scheduler.popDue deadline with
    | none => exact h
    | some x => exact ih ((h.scheduler_only x.2).runTask x.1).runMicrotasks

theorem advance (ms : Nat) : Watches (s.advance ms) (t.advance ms) := by
  simp only [Page.advance, h.scheduler_eq, h.runMicrotasks.scheduler_eq]
  have htimers := h.runMicrotasks.runTimersUpTo (s.scheduler.now + ms)
    s.runMicrotasks.1.scheduler.timers.length
  rw [htimers.scheduler_eq]
  exact htimers.scheduler_only _

theorem dispatch (target : NodeId) (type : String) :
    Watches (s.dispatch target type).1 (t.dispatch target type).1 := by
  simp only [Page.dispatch, h.forest_eq]
  exact (foldl (fun h x => h.invoke x.2.owner x.2.method (some ⟨type, target, x.1⟩)) _ h).runMicrotasks

theorem hotUpdate (sourceId template : String) (styles globalStyles : Option String) :
    Watches (s.hotUpdate sourceId template styles globalStyles).1
      (t.hotUpdate sourceId template styles globalStyles).1 := by
  obtain ⟨diary, rfl⟩ := h
  rw [hotUpdate_eq, hotUpdate_eq, updated_watched, recast_watched]
  refine foldl (fun h id => ?_) _ ⟨diary, rfl⟩
  obtain ⟨diary, rfl⟩ := h
  rw [unwire_watched]
  exact runConnection ⟨diary, rfl⟩ id true

theorem perform (op : Operation σ) : Watches (s.perform op) (t.perform op.watched) := by
  have hcreate : ∀ kind, Watches ({ s with forest := (s.forest.create kind).1 } : Page σ)
      { t with forest := (t.forest.create kind).1 } := by
    obtain ⟨diary, rfl⟩ := h
    exact fun kind => ⟨diary, rfl⟩
  cases op with
  | define c => exact h.define c
  | createElement tag => exact h.createElement tag
  | createText value | createComment value | createFragment => exact hcreate _
  | append parent child => exact h.append parent child
  | remove node => exact h.remove node
  | setAttribute element name value => exact h.setAttribute element name value
  | removeAttribute element name => exact h.removeAttribute element name
  | adopt element => exact h.adopt element
  | setLocation location =>
    obtain ⟨diary, rfl⟩ := h
    exact ⟨diary, rfl⟩
  | dispatch target type => exact h.dispatch target type
  | callMethod element method => exact h.callMethod element method
  | runMicrotasks => exact h.runMicrotasks
  | advance ms => exact h.advance ms
  | hotUpdate sourceId template styles globalStyles =>
    exact h.hotUpdate sourceId template styles globalStyles
  | invoke id method event => exact h.invoke id method event
  | runMicrotask =>
    simp only [Page.perform, h.scheduler_eq]
    cases s.scheduler.popMicrotask with
    | none => exact h
    | some x => exact (h.scheduler_only x.2).runTask x.1
  | runTimer deadline =>
    simp only [Page.perform, Operation.watched, h.scheduler_eq]
    cases s.scheduler.popDue deadline with
    | none => exact h
    | some x => exact (h.scheduler_only x.2).runTask x.1
  | setNow now =>
    simp only [Page.perform, h.scheduler_eq]
    exact h.scheduler_only _

theorem performAll (ops : List (Operation σ)) :
    Watches (s.performAll ops) (t.performAll (ops.map Operation.watched)) := by
  unfold Page.performAll
  rw [foldl_map]
  exact foldl (fun h op => h.perform op) ops h

end Watches

theorem Watches.acyclic_iff (h : Watches s t) : t.Acyclic ↔ s.Acyclic := by
  obtain ⟨diary, rfl⟩ := h
  have hheld : (s.watched diary).held = s.held := by
    funext cls
    unfold held
    rw [class?_watched]
    cases s.class? cls <;> rfl
  unfold Acyclic Holds
  rw [hheld]

end Page

end Componentry.Live
