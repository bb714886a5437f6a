import Componentry.Document.Instantiate
import Componentry.Params
import Mathlib.Order.Nat

/-!
# What a change of a forest leaves alone

A forest changes by making a node or by changing one, and operations are made of such changes. Two
relations say what a change leaves alone: the listeners of every node, or the tree that the nodes form.
Each operation on forests is placed under the relations it keeps, so that what rests on listeners or on
the tree alone survives it.
-/

namespace Componentry.Document

/-! ### Shapes -/

def Kind.bare : Kind → Kind
  | .element tag _ => .element tag .empty
  | .text _ => .text ""
  | .comment _ => .comment ""
  | k => k

/-- Kinds of nodes that stand alone when they are made and can be put anywhere. -/
def Kind.isLoose : Kind → Bool
  | .element .. | .text _ | .comment _ | .fragment => true
  | .document | .shadow _ => false

/-- What a node contributes to the tree. -/
structure Shape where
  /-- What it is, up to attributes and text. -/
  kind : Kind
  parent : Option NodeId := none
  children : List NodeId := []
  /-- The root of its hidden tree. -/
  shadow : Option NodeId := none

def Node.shape (n : Node) : Shape := ⟨n.kind.bare, n.parent, n.children, n.shadow⟩

@[simp] theorem Kind.isLoose_bare (k : Kind) : k.bare.isLoose = k.isLoose := by cases k <;> rfl

namespace Forest

variable {f g h : Forest} {n : NodeId} {k : Node → Node}

/-! ### Single nodes -/

@[simp] theorem size_update (f : Forest) (id : NodeId) (k : Node → Node) :
    (f.update id k).nodes.size = f.nodes.size := Array.size_modify ..

theorem node_update (f : Forest) (id n : NodeId) (k : Node → Node) :
    (f.update id k).node n = if n = id ∧ n < f.nodes.size then k (f.node n) else f.node n := by
  unfold update node
  rw [Array.getElem?_modify]
  by_cases hid : id = n
  · subst hid
    by_cases hlt : id < f.nodes.size
    · simp [hlt]
    · simp [hlt]
  · rw [if_neg hid, if_neg fun h => hid h.1.symm]

theorem node_of_size_le (h : f.nodes.size ≤ n) : f.node n = default := by
  rw [node, Array.getElem?_eq_none h]
  rfl

theorem node_update_of_default (hk : k default = default) (f : Forest) (id n : NodeId) :
    (f.update id k).node n = if n = id then k (f.node n) else f.node n := by
  rw [node_update]
  by_cases hlt : n < f.nodes.size
  · simp [hlt]
  · rw [if_neg fun h => hlt h.2, node_of_size_le (not_lt.mp hlt), hk, ite_self]

theorem eq_of_nodes (hs : f.nodes.size = g.nodes.size) (hl : f.lastListener = g.lastListener)
    (hn : ∀ n, f.node n = g.node n) : f = g := by
  have hnodes : f.nodes = g.nodes := by
    refine Array.ext hs fun n hf hg => ?_
    simpa [node, hf, hg] using hn n
  cases f
  simp_all

theorem update_congr {k' : Node → Node} {id : NodeId} (h : k (f.node id) = k' (f.node id)) :
    f.update id k = f.update id k' := by
  refine eq_of_nodes ((size_update ..).trans (size_update ..).symm) rfl fun n => ?_
  rw [node_update, node_update]
  split
  next hn => rw [hn.1, h]
  next => rfl

theorem update_of_eq {id : NodeId} (h : k (f.node id) = f.node id) : f.update id k = f := by
  refine eq_of_nodes (size_update ..) rfl fun n => ?_
  rw [node_update]
  split
  next hn => rw [hn.1, h]
  next => rfl

/-- What a change leaves alone on every node is the same on the nodes of the forest. -/
theorem part_update {α : Type} (part : Node → α) (f : Forest) (id n : NodeId)
    (hk : ∀ m, part (k m) = part m := by intros; rfl) :
    part ((f.update id k).node n) = part (f.node n) := by
  rw [node_update]
  split
  · exact hk _
  · rfl

theorem isElement_iff : f.isElement n ↔ ∃ tag, f.tag? n = some tag := by
  unfold isElement tag?
  cases f.kind n <;> simp

theorem lt_size_of_tag? {tag : String} (h : f.tag? n = some tag) : n < f.nodes.size := by
  refine lt_of_not_ge fun hn => ?_
  rw [tag?, kind, node_of_size_le hn] at h
  cases h

theorem lt_size_of_isLoose (h : (f.kind n).isLoose) : n < f.nodes.size := by
  refine lt_of_not_ge fun hn => ?_
  rw [kind, node_of_size_le hn] at h
  cases h

theorem lt_size_of_shadow {host : NodeId} (h : f.kind n = .shadow host) : n < f.nodes.size := by
  refine lt_of_not_ge fun hn => ?_
  rw [kind, node_of_size_le hn] at h
  cases h

theorem lt_size_of_isElement (h : f.isElement n) : n < f.nodes.size := by
  obtain ⟨tag, ht⟩ := isElement_iff.mp h
  exact lt_size_of_tag? ht

@[simp] theorem size_create (f : Forest) (kind : Kind) :
    (f.create kind).1.nodes.size = f.nodes.size + 1 := Array.size_push ..

theorem node_create (f : Forest) (kind : Kind) (n : NodeId) :
    (f.create kind).1.node n = if n = f.nodes.size then { kind } else f.node n := by
  unfold create node
  rw [Array.getElem?_push]
  split <;> rfl

theorem part_create {α : Type} (part : Node → α) (f : Forest) (kind : Kind) (n : NodeId)
    (h : part { kind } = part default := by rfl) :
    part ((f.create kind).1.node n) = part (f.node n) := by
  rw [node_create]
  split
  next hn => rw [node_of_size_le hn.symm.le, h]
  next => rfl

theorem fillTree_forest (params : Params) (f : Forest) (root : NodeId) :
    (params.fillTree f root).1 = if params.isEmpty then f
      else (f.textNodes root).foldl (fun f id => (params.fillNode f id).1) f := by
  unfold Params.fillTree
  split
  · rfl
  · generalize f.textNodes root = l
    generalize 0 = n
    induction l generalizing f n with
    | nil => rfl
    | cons id l ih => exact ih ..

/-! ### Changes made of others -/

/-- A relation that holds when nothing happens, and over two changes if it holds over each. -/
structure Frame (r : Forest → Forest → Prop) : Prop where
  refl : ∀ f, r f f
  /-- One change after the other. -/
  trans : ∀ {f g h}, r f g → r g h → r f h

/-- A relation that also holds whenever a node is hung elsewhere or its children are others. -/
structure Frame.Loose (r : Forest → Forest → Prop) : Prop extends Frame r where
  relink : ∀ (f : Forest) id (parent : Option NodeId → Option NodeId)
    (children : List NodeId → List NodeId), r f (f.update id fun n =>
      { n with parent := parent n.parent, children := children n.children })

/-- A relation that also holds when nodes are made and attributes change. -/
structure Frame.Open (r : Forest → Forest → Prop) : Prop extends Frame.Loose r where
  create : ∀ (f : Forest) kind, r f (f.create kind).1
  attributes : ∀ (f : Forest) id k, r f (f.updateAttributes id k)

namespace Frame

variable {r : Forest → Forest → Prop}

theorem foldl (hr : Frame r) {α : Type} {step : Forest → α → Forest} (hstep : ∀ f a, r f (step f a))
    (f : Forest) (l : List α) : r f (l.foldl step f) :=
  List.foldlRecOn l step (hr.refl f) fun g hg a _ => hr.trans hg (hstep g a)

theorem size : Frame fun f g => g.nodes.size = f.nodes.size := ⟨fun _ => rfl, fun h h' => h'.trans h⟩

theorem unlisten (hr : Frame r) (hone : ∀ f id listener, r f (f.removeListener id listener))
    (f : Forest) (l : List (NodeId × ListenerId)) :
    r f (l.foldl (fun f x => f.removeListener x.1 x.2) f) :=
  hr.foldl (fun f x => hone f x.1 x.2) f l

theorem fillTree (hr : Frame r) (htext : ∀ f id value, r f (f.setText id value)) (params : Params)
    (f : Forest) (root : NodeId) : r f (params.fillTree f root).1 := by
  have hnode : ∀ f id, r f (params.fillNode f id).1 := by
    intro f id
    unfold Params.fillNode
    split
    · dsimp only
      split
      · exact hr.refl f
      · split
        · exact hr.refl f
        · exact htext f id _
    · exact hr.refl f
  rw [fillTree_forest]
  split
  · exact hr.refl f
  · exact hr.foldl hnode ..

theorem attach (hr : Frame r) {f : Forest} {root : NodeId} (hone : ∀ sheet, r f (f.adoptSheet root sheet))
    (c : SheetCache) (css : String) : r f (c.attach f root css).2.1 := by
  unfold SheetCache.attach
  split
  · exact hr.refl f
  · exact hone _

theorem Loose.detach (hr : Loose r) (f : Forest) (id : NodeId) : r f (f.detach id) := by
  unfold Forest.detach
  split
  · exact hr.refl f
  · exact hr.trans (hr.relink f id (fun _ => none) fun l => l)
      (hr.relink _ _ (fun p => p) (List.filter (· != id)))

theorem Loose.link (hr : Loose r) (f : Forest) (parent child : NodeId) : r f (f.link parent child) :=
  hr.trans (hr.trans (hr.detach f child) (hr.relink _ child (fun _ => some parent) id))
    (hr.relink _ parent id (· ++ [child]))

theorem Loose.clearChildren (hr : Loose r) (f : Forest) (id : NodeId) : r f (f.clearChildren id) :=
  hr.trans (hr.relink f id (fun p => p) fun _ => [])
    (hr.foldl (fun f c => hr.relink f c (fun _ => none) fun l => l) ..)

theorem Loose.append (hr : Loose r) (f : Forest) (parent child : NodeId) :
    r f (f.append parent child) := by
  unfold Forest.append
  split
  · exact hr.trans (hr.clearChildren f child) (hr.foldl (fun f c => hr.link f parent c) ..)
  · exact hr.link f parent child

mutual

theorem Open.build (hr : Open r) (f : Forest) : ∀ t, r f (f.build t).1
  | .text _ | .comment _ => hr.create f _
  | .element tag attributes children => by
    have hnew := hr.create f (.element tag.toLower .empty)
    have hset : ∀ (g : Forest) (a : String × String), r g (g.setAttribute f.nodes.size a.1 a.2).1 :=
      fun g a => hr.attributes g _ _
    exact hr.trans (hr.trans hnew (hr.foldl hset _ attributes)) (Open.buildAll hr _ _ children)

theorem Open.buildAll (hr : Open r) (f : Forest) (parent : NodeId) : ∀ l, r f (f.buildAll parent l).1
  | [] => hr.refl f
  | t :: rest => hr.trans (hr.trans (Open.build hr f t) (hr.append _ parent _))
      (Open.buildAll hr _ parent rest)

end

end Frame

/-! ### Listeners left alone -/

/-- Every node has the listeners it had; no node is given up and no number of a listener is used
again. -/
structure KeepsListeners (f g : Forest) : Prop where
  size_le : f.nodes.size ≤ g.nodes.size
  /-- Numbers of listeners only grow. -/
  last_le : f.lastListener ≤ g.lastListener
  listeners_eq : ∀ n, (g.node n).listeners = (f.node n).listeners

namespace KeepsListeners

theorem refl (f : Forest) : KeepsListeners f f := ⟨le_rfl, le_rfl, fun _ => rfl⟩

theorem trans (hfg : KeepsListeners f g) (hgh : KeepsListeners g h) : KeepsListeners f h :=
  ⟨hfg.size_le.trans hgh.size_le, hfg.last_le.trans hgh.last_le,
    fun n => (hgh.listeners_eq n).trans (hfg.listeners_eq n)⟩

variable (f)

variable (id : NodeId)

theorem update (hk : ∀ n, (k n).listeners = n.listeners) : KeepsListeners f (f.update id k) :=
  ⟨(size_update ..).symm.le, le_rfl, fun n => part_update _ f id n hk⟩

theorem create (kind : Kind) : KeepsListeners f (f.create kind).1 :=
  ⟨by rw [size_create]; exact Nat.le_succ _, le_rfl, part_create _ f kind⟩

theorem updateAttributes (k : Dictionary String → Dictionary String) :
    KeepsListeners f (f.updateAttributes id k) := by
  refine update f id fun n => ?_
  cases n.kind <;> rfl

theorem frame : Frame.Open KeepsListeners where
  refl := refl
  trans := trans
  relink f id _ _ := update f id fun _ => rfl
  create := create
  attributes := updateAttributes

theorem attachShadow (host : NodeId) : KeepsListeners f (f.attachShadow host).1 := by
  unfold Forest.attachShadow
  split
  · exact refl f
  · exact (create f _).trans (update _ host fun _ => rfl)

theorem setText (value : String) : KeepsListeners f (f.setText id value) := by
  refine update f id fun n => ?_
  cases n.kind <;> rfl

theorem adoptSheet (sheet : Sheet) : KeepsListeners f (f.adoptSheet id sheet) := by
  refine update f id fun n => ?_
  split <;> rfl

end KeepsListeners

/-! ### The tree left alone -/

/-- The nodes there were form the same tree; new nodes stand alone. -/
structure KeepsTree (f g : Forest) : Prop where
  size_le : f.nodes.size ≤ g.nodes.size
  shape_eq : ∀ n < f.nodes.size, (g.node n).shape = (f.node n).shape
  /-- What is new is part of no tree. -/
  loose : ∀ n, f.nodes.size ≤ n → n < g.nodes.size →
    ∃ k : Kind, k.isLoose ∧ (g.node n).shape = { kind := k }

namespace KeepsTree

theorem refl (f : Forest) : KeepsTree f f :=
  ⟨le_rfl, fun _ _ => rfl, fun _ hn hlt => absurd hlt hn.not_gt⟩

theorem trans (hfg : KeepsTree f g) (hgh : KeepsTree g h) : KeepsTree f h where
  size_le := hfg.size_le.trans hgh.size_le
  shape_eq n hn :=
    (hgh.shape_eq n (hn.trans_le hfg.size_le)).trans (hfg.shape_eq n hn)
  loose n hn hlt := by
    by_cases hg : n < g.nodes.size
    · rw [hgh.shape_eq n hg]
      exact hfg.loose n hn hg
    · exact hgh.loose n (not_lt.mp hg) hlt

theorem frame : Frame KeepsTree := ⟨refl, trans⟩

theorem update (f : Forest) (id : NodeId) (hk : ∀ n, (k n).shape = n.shape) :
    KeepsTree f (f.update id k) := by
  refine ⟨(size_update ..).symm.le, fun n _ => part_update _ f id n hk, fun n hn hlt => ?_⟩
  rw [size_update] at hlt
  exact absurd hlt hn.not_gt

theorem create (f : Forest) {kind : Kind} (hk : kind.isLoose) : KeepsTree f (f.create kind).1 := by
  refine ⟨by rw [size_create]; exact Nat.le_succ _, fun n hn => ?_, fun n hn hlt => ?_⟩
  · rw [node_create, if_neg hn.ne]
  · rw [size_create] at hlt
    have he : n = f.nodes.size := by omega
    rw [node_create, if_pos he]
    exact ⟨kind.bare, by rw [Kind.isLoose_bare]; exact hk, rfl⟩

theorem updateAttributes (f : Forest) (id : NodeId) (k : Dictionary String → Dictionary String) :
    KeepsTree f (f.updateAttributes id k) := by
  refine update f id fun n => ?_
  unfold Node.shape
  cases hn : n.kind <;> simp [hn, Kind.bare]

theorem setText (f : Forest) (id : NodeId) (value : String) : KeepsTree f (f.setText id value) := by
  refine update f id fun n => ?_
  unfold Node.shape
  cases hn : n.kind <;> simp [hn, Kind.bare]

theorem adoptSheet (f : Forest) (id : NodeId) (sheet : Sheet) :
    KeepsTree f (f.adoptSheet id sheet) := by
  refine update f id fun n => ?_
  split <;> rfl

theorem addListener (f : Forest) (id : NodeId) (event : String) (binding : Binding) :
    KeepsTree f (f.addListener id event binding).1 := by
  have hnumber : KeepsTree f { f with lastListener := f.lastListener + 1 } :=
    ⟨le_rfl, fun _ _ => rfl, fun _ hn hlt => absurd hlt hn.not_gt⟩
  refine hnumber.trans (update _ id ?_)
  exact fun _ => rfl

end KeepsTree

end Forest

end Componentry.Document
