import Componentry.Live.Page
import Componentry.Proofs.Document.Frame
import Componentry.Proofs.Keyed

/-!
# Instances of a page

Instances are looked up by number, and most operations change at most one of them. What such a
change leaves alone is said for any part of an instance that one cares about. What authors promise
about the changes their callbacks make to the forest is said for any relation between forests.
-/

namespace Componentry.Live

open Document List

variable {σ α : Type} {c : Component σ}

/-! ### What authors promise -/

/-- A callback changes the forest only in a certain way. -/
def Respects (r : Forest → Forest → Prop) (callback : Authored σ α) : Prop :=
  ∀ f w, r f (callback.run (f, w)).2.1

/-- All callbacks and methods of a behaviour change the forest only in a certain way. -/
structure Behaviour.Respects (r : Forest → Forest → Prop) (b : Behaviour σ) : Prop where
  /-- When the element goes live. -/
  connected : ∀ stage, Live.Respects r (b.connected stage)
  /-- When the element is no longer live. -/
  disconnected : ∀ stage, Live.Respects r (b.disconnected stage)
  attributeChanged : ∀ stage name old new, Live.Respects r (b.attributeChanged stage name old new)
  /-- When the element is adopted. -/
  adopted : ∀ stage, Live.Respects r (b.adopted stage)
  call : ∀ method stage event, Live.Respects r (b.call method stage event)

/-- All behaviours that a component makes change the forest only in a certain way. -/
def Component.Respects (r : Forest → Forest → Prop) (c : Component σ) : Prop :=
  ∀ w, (c.construct.run w).1.Respects r

/-- A component whose authors do nothing. -/
def Component.still (description : Description) : Component Unit where
  description
  construct := pure { call := fun _ _ _ => pure (.ok ()) }

theorem Component.respects_still {r : Forest → Forest → Prop} (hr : ∀ f, r f f) (d : Description) :
    (still d).Respects r := fun _ =>
  { connected := fun _ f _ => hr f
    disconnected := fun _ f _ => hr f
    attributeChanged := fun _ _ _ _ f _ => hr f
    adopted := fun _ f _ => hr f
    call := fun _ _ _ f _ => hr f }

/-- What an instance is: its element, its component and its behaviour. -/
def Instance.identity (i : Instance σ) : NodeId × ClassId × Behaviour σ :=
  (i.element, i.cls, i.behaviour)

/-- All of an instance but its parameters and its sheet. -/
def Instance.plain (i : Instance σ) : Instance σ := { i with params := {}, scopedSheet := none }

namespace Page

variable {s t u : Page σ} {id : InstanceId} {i : Instance σ} {p : Page σ → Prop}
  {g : Instance σ → Instance σ} {cls : ClassId} {n : NodeId} {sourceId : String}
  {visit : Page σ → NodeId → Page σ}

/-! ### Looking up -/

theorem instance?_congr (h : t.instances = s.instances) (id : InstanceId) :
    t.instance? id = s.instance? id := by rw [instance?, instance?, h]

theorem instance?_start_ne {world : σ} : (Page.start world).instance? id ≠ some i :=
  (Option.some_ne_none i).symm

theorem instance?_updateInstance (s : Page σ) (id id' : InstanceId) (g : Instance σ → Instance σ) :
    (s.updateInstance id g).instance? id' =
      if id' = id then (s.instance? id').map g else s.instance? id' := by
  unfold instance? updateInstance
  induction s.instances with
  | nil => simp
  | cons x l ih =>
    obtain ⟨i, x⟩ := x
    by_cases hi : i = id'
    · subst hi
      by_cases hid : i = id
      · simp [hid]
      · simp [hid]
    · rw [map_cons, find?_cons_of_neg, find?_cons_of_neg, ih]
      · simpa using hi
      · by_cases hid : i = id <;> simpa [hid] using hi

theorem instance?_updateInstance_self (h : s.instance? id = some i) (g : Instance σ → Instance σ) :
    (s.updateInstance id g).instance? id = some (g i) := by
  rw [instance?_updateInstance, if_pos rfl, h]
  rfl

theorem instance?_updateInstance_ne {id' : InstanceId} (h : id' ≠ id)
    (g : Instance σ → Instance σ) : (s.updateInstance id g).instance? id' = s.instance? id' := by
  rw [instance?_updateInstance, if_neg h]

theorem forall_updateInstance {p : InstanceId → Instance σ → Prop} (hi : s.instance? id = some i)
    (hself : p id (g i)) (hothers : ∀ id' j, id' ≠ id → s.instance? id' = some j → p id' j)
    (id' : InstanceId) (j : Instance σ) (hj : (s.updateInstance id g).instance? id' = some j) :
    p id' j := by
  by_cases hne : id' = id
  · subst hne
    rw [instance?_updateInstance_self hi] at hj
    exact Option.some.inj hj ▸ hself
  · exact hothers id' j hne (instance?_updateInstance_ne hne g ▸ hj)

theorem keys_updateInstance (s : Page σ) (id : InstanceId) (g : Instance σ → Instance σ) :
    (s.updateInstance id g).instances.map (·.1) = s.instances.map (·.1) := by
  unfold updateInstance
  rw [map_map]
  refine map_congr_left fun x _ => ?_
  simp only [Function.comp]
  split <;> rfl

theorem numbered_of_keys (hk : t.instances.map (·.1) = s.instances.map (·.1))
    (hl : t.lastId = s.lastId) (hn : ∀ x ∈ s.instances, x.1 ≤ s.lastId) :
    ∀ x ∈ t.instances, x.1 ≤ t.lastId := by
  intro x hx
  have hm := hk ▸ mem_map_of_mem hx
  obtain ⟨y, hy, he⟩ := mem_map.mp hm
  rw [hl, ← he]
  exact hn y hy

theorem updateInstance_self (s : Page σ) (id : InstanceId) (hg : ∀ i, g i = i) :
    s.updateInstance id g = s := by
  refine congrArg (fun l => { s with instances := l }) ?_
  refine (map_congr_left fun x _ => ?_).trans (map_id _)
  simp only [hg, ite_self]
  rfl

theorem updateInstance_updateInstance (s : Page σ) (id : InstanceId)
    (g h : Instance σ → Instance σ) :
    (s.updateInstance id g).updateInstance id h = s.updateInstance id fun i => h (g i) := by
  unfold updateInstance
  rw [map_map]
  refine congrArg (fun l => { s with instances := l }) (map_congr_left fun x _ => ?_)
  obtain ⟨i, x⟩ := x
  by_cases hid : i = id <;> simp [hid]

theorem mem_of_instance? (h : s.instance? id = some i) : (id, i) ∈ s.instances := by
  obtain ⟨x, hx, rfl⟩ := Option.map_eq_some_iff.mp h
  obtain ⟨hm, rfl⟩ := Keyed.mem_of_find? hx
  exact hm

theorem instance?_eq_some_iff (h : Keyed (·.1) s.instances) :
    s.instance? id = some i ↔ (id, i) ∈ s.instances :=
  ⟨mem_of_instance?, fun hm =>
    Option.map_eq_some_iff.mpr ⟨(id, i), h.find?_eq_some_iff.mpr ⟨hm, rfl⟩, rfl⟩⟩

theorem instance?_snoc {new : Instance σ} (hn : ∀ x ∈ s.instances, x.1 ≠ id)
    (ht : t.instances = s.instances ++ [(id, new)]) (id' : InstanceId) :
    t.instance? id' = if id' = id then some new else s.instance? id' := by
  unfold instance?
  rw [ht, find?_append]
  by_cases he : id' = id
  · subst he
    have hnone := Keyed.find?_eq_none_iff.mpr hn
    rw [hnone]
    simp
  · rw [if_neg he]
    cases s.instances.find? fun x => x.1 == id' with
    | none => simp [Ne.symm he]
    | some x => rfl

theorem instance?_unwire (s : Page σ) (id id' : InstanceId) :
    (s.unwire id).instance? id' = if id' = id then
      (s.instance? id').map fun i => { i with listeners := [], wired := false }
    else s.instance? id' := by
  unfold unwire
  split
  next hi =>
    split
    next he => rw [he, hi]; rfl
    next => rfl
  next i hi => exact instance?_updateInstance ..

theorem mem_of_class? (h : s.class? cls = some c) : (cls, c) ∈ s.classes := by
  obtain ⟨x, hx, rfl⟩ := Option.map_eq_some_iff.mp h
  obtain ⟨hm, rfl⟩ := Keyed.mem_of_find? hx
  exact hm

theorem class?_cons {cls' : ClassId} {c' : Component σ} (hn : ∀ x ∈ s.classes, x.1 ≠ cls)
    (ht : t.classes = (cls, c) :: s.classes) (h : s.class? cls' = some c') :
    t.class? cls' = some c' := by
  have hne : cls' ≠ cls := hn _ (mem_of_class? h)
  unfold class? at h ⊢
  rw [ht, find?_cons_of_neg (by simpa using hne.symm)]
  exact h

theorem class?_map {g : Component σ → Component σ}
    (ht : t.classes = s.classes.map fun (cls, c) => (cls, g c)) (cls : ClassId) :
    t.class? cls = (s.class? cls).map g := by
  unfold class?
  rw [ht, find?_map, Option.map_map, Option.map_map]
  rfl

theorem owner?_cons (ht : t.owners = (n, id) :: s.owners) (m : NodeId) :
    t.owner? m = if m = n then some id else s.owner? m := by
  unfold owner?
  rw [ht]
  by_cases he : m = n
  · rw [if_pos he, find?_cons_of_pos (by simp [he])]
    rfl
  · rw [if_neg he, find?_cons_of_neg (by simpa using Ne.symm he)]

/-! ### The instance of an element -/

def withInstance (s : Page σ) (n : NodeId) (cls : ClassId) (c : Component σ) : Page σ :=
  { s with
    world := (c.construct.run s.world).2
    lastId := s.lastId + 1
    instances := s.instances ++ [(s.lastId + 1,
      { element := n, cls, behaviour := (c.construct.run s.world).1, root := n })]
    owners := (n, s.lastId + 1) :: s.owners }

section

variable (hn : ∀ x ∈ s.instances, x.1 ≤ s.lastId)

include hn

theorem instance?_withInstance (n : NodeId) (cls : ClassId) (c : Component σ) (id : InstanceId) :
    (s.withInstance n cls c).instance? id = if id = s.lastId + 1 then
      some { element := n, cls, behaviour := (c.construct.run s.world).1, root := n }
    else s.instance? id :=
  instance?_snoc (fun x hx => (Nat.lt_succ_of_le (hn x hx)).ne) rfl id

theorem instance?_next : s.instance? (s.lastId + 1) = none := by
  have hfresh : ∀ x ∈ s.instances, x.1 ≠ s.lastId + 1 := fun x hx =>
    (Nat.lt_succ_of_le (hn x hx)).ne
  unfold instance?
  rw [Keyed.find?_eq_none_iff.mpr hfresh]
  rfl

theorem forall_withInstance {p : InstanceId → Instance σ → Prop}
    (hnew : p (s.lastId + 1) { element := n, cls, behaviour := (c.construct.run s.world).1, root := n })
    (hold : ∀ id i, s.instance? id = some i → p id i) (id : InstanceId) (i : Instance σ)
    (hi : (s.withInstance n cls c).instance? id = some i) : p id i := by
  rw [instance?_withInstance hn] at hi
  split at hi
  next he => exact he ▸ Option.some.inj hi ▸ hnew
  next => exact hold id i hi

theorem numbered_withInstance (n : NodeId) (cls : ClassId) (c : Component σ) :
    ∀ x ∈ (s.withInstance n cls c).instances, x.1 ≤ (s.withInstance n cls c).lastId := by
  intro x hx
  rcases mem_append.mp hx with hx | hx
  · exact Nat.le_succ_of_le (hn x hx)
  · rw [mem_singleton.mp hx]
    exact le_rfl

theorem owner?_withInstance_iff
    (howner : ∀ m id, s.owner? m = some id ↔ ∃ i, s.instance? id = some i ∧ i.element = m)
    (ho : s.owner? n = none) (cls : ClassId) (c : Component σ) (m : NodeId) (id : InstanceId) :
    (s.withInstance n cls c).owner? m = some id ↔
      ∃ i, (s.withInstance n cls c).instance? id = some i ∧ i.element = m := by
  rw [owner?_cons rfl, instance?_withInstance hn]
  by_cases hid : id = s.lastId + 1
  · rw [if_pos hid]
    by_cases hm : m = n
    · rw [if_pos hm, hid, hm]
      exact ⟨fun _ => ⟨_, rfl, rfl⟩, fun _ => rfl⟩
    · rw [if_neg hm, howner, hid, instance?_next hn]
      refine ⟨nofun, fun ⟨i, hi, he⟩ => ?_⟩
      exact absurd (he.symm.trans (congrArg Instance.element (Option.some.inj hi)).symm) hm
  · rw [if_neg hid, ← howner]
    by_cases hm : m = n
    · rw [if_pos hm, hm, ho]
      exact ⟨fun he => absurd (Option.some.inj he).symm hid, nofun⟩
    · rw [if_neg hm]

end

theorem ensureInstance_cases (s : Page σ) (n : NodeId) :
    (∃ id, s.owner? n = some id ∧ s.ensureInstance n = (s, some id)) ∨
    (s.owner? n = none ∧ s.ensureInstance n = (s, none) ∧
      ∀ tag cls, s.forest.tag? n = some tag → s.registry.find? tag = some cls →
        s.class? cls = none) ∨
    (s.owner? n = none ∧ ∃ tag cls c, s.forest.tag? n = some tag ∧
      s.registry.find? tag = some cls ∧ s.class? cls = some c ∧
      s.ensureInstance n = (s.withInstance n cls c, some (s.lastId + 1))) := by
  cases ho : s.owner? n with
  | some id => exact .inl ⟨id, rfl, by rw [ensureInstance, ho]⟩
  | none =>
    refine .inr ?_
    cases ht : s.forest.tag? n with
    | none => exact .inl ⟨rfl, by simp [ensureInstance, ho, ht], nofun⟩
    | some tag =>
      cases hr : s.registry.find? tag with
      | none =>
        refine .inl ⟨rfl, by simp [ensureInstance, ho, ht, hr], fun tag' cls he hf => ?_⟩
        rw [← Option.some.inj he, hr] at hf
        cases hf
      | some cls =>
        cases hc : s.class? cls with
        | none =>
          refine .inl ⟨rfl, by simp [ensureInstance, ho, ht, hr, hc], fun tag' cls' he hf => ?_⟩
          rw [← Option.some.inj he, hr] at hf
          exact Option.some.inj hf ▸ hc
        | some c =>
          refine .inr ⟨rfl, tag, cls, c, rfl, hr, hc, ?_⟩
          simp only [ensureInstance, ho, ht, hr, hc, Option.bind_eq_bind, Option.bind_some]
          rfl

theorem ensureInstance_keeps (hs : p s)
    (hmade : ∀ {tag cls c}, s.owner? n = none → s.forest.tag? n = some tag →
      s.registry.find? tag = some cls → s.class? cls = some c → p (s.withInstance n cls c)) :
    p (s.ensureInstance n).1 := by
  rcases s.ensureInstance_cases n with ⟨id, -, he⟩ | ⟨-, he, -⟩ | ⟨ho, tag, cls, c, ht, hr, hc, he⟩
  · rw [he]
    exact hs
  · rw [he]
    exact hs
  · rw [he]
    exact hmade ho ht hr hc

/-! ### Connecting and disconnecting -/

theorem connect_keeps (hs : p s) (hrun : ∀ i, s.instance? id = some i → i.state ≠ .connected →
      p (s.runConnection id (!i.mounted))) : p (s.connect id) := by
  unfold connect
  split
  · exact hs
  next i hi =>
    split
    · exact hs
    next hstate => exact hrun i hi fun he => hstate (by simp [he])

theorem disconnect_keeps (hs : p s)
    (hrun : ∀ i stage, s.instance? id = some i → i.state = .connecting ∨ i.state = .connected →
      p (((s.updateInstance id fun i => { i with state := .disconnected }).unwire id).run
        (i.behaviour.disconnected stage)).1) : p (s.disconnect id) := by
  unfold disconnect
  split
  · exact hs
  next i hi =>
    split
    next hstate => exact hrun i _ hi (by simpa using hstate)
    next => exact hs

/-! ### Walks -/

/-- A walk with a stack: nodes wait with the levels that are left for them, and what is under a node
after its visit goes on top, unless no level is left. -/
inductive Steps (visit : Page σ → NodeId → Page σ) : Page σ → List (Nat × NodeId) → Page σ → Prop where
  | done (s : Page σ) : Steps visit s [] s
  | skip {s t : Page σ} {n : NodeId} {stack : List (Nat × NodeId)} (h : Steps visit s stack t) :
    Steps visit s ((0, n) :: stack) t
  | next {s t : Page σ} {depth : Nat} {n : NodeId} {stack : List (Nat × NodeId)}
    (h : Steps visit (visit s n) ((((visit s n).forest.shadow n).toList ++
      (visit s n).forest.children n).map (depth, ·) ++ stack) t) :
    Steps visit s ((depth + 1, n) :: stack) t

theorem Steps.walk {stack : List (Nat × NodeId)} (depth : Nat) (s : Page σ) (n : NodeId)
    (h : Steps visit (walk visit depth s n) stack t) : Steps visit s ((depth, n) :: stack) t := by
  induction depth generalizing s n stack with
  | zero => exact .skip h
  | succ depth ih =>
    refine .next ?_
    rw [Page.walk] at h
    generalize visit s n = s at h ⊢
    generalize (s.forest.shadow n).toList ++ s.forest.children n = cs at h ⊢
    induction cs generalizing s with
    | nil => exact h
    | cons c cs ihcs => exact ih s c (ihcs (Page.walk visit depth s c) h)

theorem walk_keeps (hvisit : ∀ s n, p s → p (visit s n))
    (depth : Nat) (hs : p s) (n : NodeId) : p (walk visit depth s n) := by
  have hsteps := Steps.walk depth s n (.done (walk visit depth s n))
  generalize walk visit depth s n = t, [(depth, n)] = stack at hsteps ⊢
  induction hsteps with
  | done => exact hs
  | skip _ ih => exact ih hs
  | next _ ih => exact ih (hvisit _ _ hs)

section

variable (hensure : ∀ s n, p s → p (s.ensureInstance n).1) (hconnect : ∀ s id, p s → p (s.connect id))

include hensure hconnect

theorem connectNode_keeps (hs : p s) (n : NodeId) : p (s.connectNode n) := by
  have hn := hensure s n hs
  unfold connectNode
  split
  · split
    next s' id he =>
      rw [he] at hn
      exact hconnect s' id hn
    next s' he =>
      rw [he] at hn
      exact hn
  · exact hs

theorem connectTree_keeps (hs : p s) (root : NodeId) : p (s.connectTree root) := by
  refine walk_keeps (fun s n hs => ?_) _ hs root
  exact connectNode_keeps hensure hconnect hs n

end

theorem disconnectNode_keeps (hdisconnect : ∀ s id, p s → p (s.disconnect id)) (hs : p s)
    (n : NodeId) : p (s.disconnectNode n) := by
  unfold disconnectNode
  split
  · exact hdisconnect s _ hs
  · exact hs

theorem disconnectTree_keeps (hdisconnect : ∀ s id, p s → p (s.disconnect id)) (hs : p s)
    (root : NodeId) : p (s.disconnectTree root) := by
  refine walk_keeps (fun s n hs => ?_) _ hs root
  exact disconnectNode_keeps hdisconnect hs n

/-- What connecting trees in the document and disconnecting them elsewhere keep, appending a node keeps
once the node is moved. -/
theorem append_keeps {parent child : NodeId}
    (hconnect : (s.forest.append parent child).isConnected parent = true →
      ∀ s n, p s → p (s.connectTree n))
    (hdisconnect : (s.forest.append parent child).isConnected parent = false →
      ∀ s n, p s → p (s.disconnectTree n))
    (hs : p { s with forest := s.forest.append parent child }) : p (s.append parent child) := by
  unfold append
  dsimp only
  generalize (inserted s.forest child).map (fun n => (n, s.forest.isConnected n)) = nodes
  generalize (s.forest.append parent child).isConnected parent = live at hconnect hdisconnect
  generalize ({ s with forest := s.forest.append parent child } : Page σ) = s' at hs
  induction nodes generalizing s' with
  | nil => exact hs
  | cons x nodes ih =>
    refine ih _ ?_
    dsimp only
    split
    next hout =>
      have hlive : live = false := by simpa using (Bool.and_eq_true_iff.mp hout).2
      exact hdisconnect hlive _ _ hs
    next =>
      split
      next hlive => exact hconnect hlive _ _ hs
      next => exact hs

theorem remove_keeps (hdisconnect : ∀ s n, p s → p (s.disconnectTree n)) {node : NodeId}
    (hs : p { s with forest := s.forest.detach node }) : p (s.remove node) := by
  unfold remove
  dsimp only
  split
  · exact hdisconnect _ _ hs
  · exact hs

theorem define_keeps (hs : p s) (hd : Tag.isValid c.description.tag → s.mayDefine c.description →
      p ((s.register c).connectTree s.document)) : p (s.define c).1 := by
  unfold define
  split
  · exact hs
  next hvalid =>
    split
    · exact hs
    next hmay => exact hd (by simpa using hvalid) (by simpa using hmay)

theorem tellAttribute_keeps (hs : p s) {old new : Option String}
    (hrun : ∀ id i stage name, s.instance? id = some i →
      p (s.run (i.behaviour.attributeChanged stage name old new)).1) (element : NodeId) (name : String) :
    p (s.tellAttribute element name old new) := by
  unfold tellAttribute
  split
  · exact hs
  next i hi =>
    obtain ⟨id, -, hi⟩ := Option.bind_eq_some_iff.mp hi
    dsimp only
    split
    · exact hrun id i _ _ hi
    · exact hs

theorem adopt_keeps (hs : p s)
    (hrun : ∀ id i stage, s.instance? id = some i → p (s.run (i.behaviour.adopted stage)).1)
    (element : NodeId) : p (s.adopt element).1 := by
  unfold adopt
  split
  · exact hs
  next i hi =>
    obtain ⟨id, -, hi⟩ := Option.bind_eq_some_iff.mp hi
    exact hrun id i _ hi

/-- What listeners, held-back methods, plans and the mark of a wired instance leave alone, wiring leaves
alone. -/
theorem wire_keeps (hs : p s) (hplans : ∀ plans, p { s with plans })
    (hlisten : ∀ t method event target, p t → p (listen id method event t target))
    (hhold : ∀ t i method kind delay, t.instance? id = some i → Instance.wrapper? i method = none →
      p t → p (t.updateInstance id fun i => { i with timing := i.timing ++ [(method, { kind, delay })] }))
    (hmark : ∀ t, p t → p (t.updateInstance id fun i => { i with wired := true })) :
    p (s.wire id) := by
  have hentry : ∀ t entry, p t → p (wireEntry id t entry) := by
    intro t entry ht
    unfold wireEntry
    split
    · exact ht
    next i hi =>
      split
      · exact ht
      · split
        next method kind delay _ =>
          split
          · exact ht
          next hany =>
            refine hhold t i method kind delay hi ?_ ht
            rw [Instance.wrapper?, Option.map_eq_none_iff, Keyed.find?_eq_none_iff]
            exact fun x hx he => hany (any_eq_true.mpr ⟨x, hx, by simpa using he⟩)
        next method event _ _ =>
          exact foldlRecOn _ _ ht fun t ht target _ => hlisten t method event target ht
  unfold wire
  split
  · exact hs
  · split
    · exact hs
    · split
      · exact hs
      · exact hmark _ (foldlRecOn _ _ (hplans _) fun t ht entry _ => hentry t entry ht)

/-! ### Hot updates -/

/-- The components generated from a unit with another template and other styles. -/
def recast (s : Page σ) (sourceId template : String) (styles globalStyles : Option String) : Page σ :=
  { s with classes := s.classes.map fun (id, c) => (id,
    if c.description.sourceId == some sourceId then replaced template styles globalStyles c else c) }

theorem class?_recast (s : Page σ) (sourceId template : String) (styles globalStyles : Option String)
    (cls : ClassId) :
    (s.recast sourceId template styles globalStyles).class? cls = (s.class? cls).map fun c =>
      if c.description.sourceId == some sourceId then replaced template styles globalStyles c else c :=
  class?_map rfl cls

theorem shadow_recast (c : Component σ) (sourceId template : String)
    (styles globalStyles : Option String) :
    (if c.description.sourceId == some sourceId then replaced template styles globalStyles c
      else c).description.shadow = c.description.shadow := by
  split <;> rfl

/-- The instances that take part in a hot update, in order. -/
def updated (s : Page σ) (sourceId : String) : List InstanceId :=
  (s.instances.filter fun (_, i) => i.state = .connected &&
    ((s.classes.filter fun c => c.2.description.sourceId == some sourceId).map (·.1)).contains
      i.cls).map (·.1)

/-- The instances that take part are the connected ones whose component was generated from the
unit. -/
theorem mem_updated_iff (hk : Keyed (·.1) s.instances) (hck : Keyed (·.1) s.classes) :
    id ∈ s.updated sourceId ↔ ∃ i, s.instance? id = some i ∧ i.state = .connected ∧
      ∃ c, s.class? i.cls = some c ∧ c.description.sourceId = some sourceId := by
  have hclass : ∀ cls, (∃ c, s.class? cls = some c ∧ c.description.sourceId = some sourceId) ↔
      cls ∈ (s.classes.filter fun c => c.2.description.sourceId == some sourceId).map (·.1) := by
    intro cls
    simp only [mem_map, mem_filter, beq_iff_eq, class?, Option.map_eq_some_iff]
    constructor
    · rintro ⟨c, ⟨x, hx, rfl⟩, hs⟩
      obtain ⟨hm, he⟩ := Keyed.mem_of_find? hx
      exact ⟨x, ⟨hm, hs⟩, he⟩
    · rintro ⟨x, ⟨hm, hs⟩, he⟩
      exact ⟨x.2, ⟨x, hck.find?_eq_some_iff.mpr ⟨hm, he⟩, rfl⟩, hs⟩
  unfold updated
  simp only [mem_map, mem_filter, Bool.and_eq_true, decide_eq_true_eq, contains_iff_mem, ← hclass]
  constructor
  · rintro ⟨x, ⟨hm, hu⟩, rfl⟩
    exact ⟨x.2, (instance?_eq_some_iff hk).mpr hm, hu⟩
  · rintro ⟨i, hi, hu⟩
    exact ⟨(id, i), ⟨mem_of_instance? hi, hu⟩, rfl⟩

theorem nodup_updated (hk : Keyed (·.1) s.instances) (sourceId : String) :
    (s.updated sourceId).Nodup := hk.sublist filter_sublist

theorem hotUpdate_eq (s : Page σ) (sourceId template : String) (styles globalStyles : Option String) :
    (s.hotUpdate sourceId template styles globalStyles).1 =
      (s.updated sourceId).foldl (fun t id => (t.unwire id).runConnection id true)
        (s.recast sourceId template styles globalStyles) := rfl

theorem hotUpdate_keeps {template : String} {styles globalStyles : Option String}
    (hs : p (s.recast sourceId template styles globalStyles))
    (hreconnect : ∀ t id, p t → p ((t.unwire id).runConnection id true)) :
    p (s.hotUpdate sourceId template styles globalStyles).1 :=
  foldlRecOn _ _ hs fun t ht id _ => hreconnect t id ht

/-! ### Instances left alone -/

theorem exists_of_map_eq {β : Type} {f : β → α} {a b : Option β} (h : a.map f = b.map f) {y : β}
    (hb : b = some y) : ∃ x, a = some x ∧ f x = f y :=
  Option.map_eq_some_iff.mp (h.trans (congrArg _ hb))

/-- There are the same instances, and a certain part of each is as it was. -/
structure KeepsInstances (part : Instance σ → α) (s t : Page σ) : Prop where
  /-- There are the same numbers, in the same order. -/
  keys : t.instances.map (·.1) = s.instances.map (·.1)
  same : ∀ id, (t.instance? id).map part = (s.instance? id).map part

namespace KeepsInstances

variable {part : Instance σ → α}

theorem of_eq (h : t.instances = s.instances) : KeepsInstances part s t :=
  ⟨by rw [h], fun id => by rw [instance?_congr h]⟩

theorem refl (s : Page σ) : KeepsInstances part s s := of_eq rfl

theorem trans (hst : KeepsInstances part s t) (htu : KeepsInstances part t u) :
    KeepsInstances part s u :=
  ⟨htu.keys.trans hst.keys, fun id => (htu.same id).trans (hst.same id)⟩

theorem update (s : Page σ) (id : InstanceId)
    (hg : ∀ i, s.instance? id = some i → part (g i) = part i) :
    KeepsInstances part s (s.updateInstance id g) := by
  refine ⟨keys_updateInstance .., fun id' => ?_⟩
  rw [instance?_updateInstance]
  by_cases hid : id' = id
  · subst hid
    rw [if_pos rfl]
    cases hi : s.instance? id' with
    | none => rfl
    | some i => simpa using hg i hi
  · rw [if_neg hid]

theorem update_of (hi : s.instance? id = Option.some i) (hg : part (g i) = part i) :
    KeepsInstances part s (s.updateInstance id g) := by
  refine .update s id fun i' hi' => ?_
  rw [hi] at hi'
  exact Option.some.inj hi' ▸ hg

variable (h : KeepsInstances part s t)

include h

theorem map {β : Type} (g : α → β) : KeepsInstances (fun i => g (part i)) s t := by
  refine ⟨h.keys, fun id => ?_⟩
  have hid := congrArg (Option.map g) (h.same id)
  rwa [Option.map_map, Option.map_map] at hid

theorem of_some {j : Instance σ} (hj : t.instance? id = some j) :
    ∃ i, s.instance? id = some i ∧ part j = part i := by
  obtain ⟨i, hi, he⟩ := exists_of_map_eq (h.same id).symm hj
  exact ⟨i, hi, he.symm⟩

theorem some (hi : s.instance? id = some i) : ∃ j, t.instance? id = some j ∧ part j = part i :=
  exists_of_map_eq (h.same id) hi

theorem all {p : α → Prop} (hs : ∀ id i, s.instance? id = Option.some i → p (part i))
    (id : InstanceId) (j : Instance σ) (hj : t.instance? id = Option.some j) : p (part j) := by
  obtain ⟨i, hi, he⟩ := h.of_some hj
  exact he ▸ hs id i hi

theorem instanceOf?_eq (ho : t.owners = s.owners) (n : NodeId) :
    (t.instanceOf? n).map part = (s.instanceOf? n).map part := by
  unfold instanceOf? owner?
  rw [ho]
  cases (s.owners.find? fun o => o.1 == n).map (·.2) with
  | none => rfl
  | some id => exact h.same id

end KeepsInstances

end Page

end Componentry.Live
