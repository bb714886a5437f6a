import Componentry.Proofs.Document.Growth
import Componentry.Proofs.Live.Cast
import Mathlib.Algebra.Order.BigOperators.Group.List
import Mathlib.Algebra.Order.Ring.Nat
import Mathlib.Logic.Relation

/-!
# How elements stand

The template of a component may hold elements of other components, whose templates are copied in turn
when it is. As long as no template holds itself in this way, what a copy can add is bounded: every
component weighs as many levels as its own template and all those it leads to can add, and that is
more than any component that its template holds weighs.

An element without an instance, or one whose instance was never connected, is connected or was
disconnected, with its template copied or not: this is how it stands. Connecting and disconnecting turn
one element, and what its author is told turns with it. Authors keep a log of it in the world they carry.
-/

namespace Componentry.Live

open Document Relation List

variable {σ : Type}

def Component.tags (c : Component σ) : List String :=
  Markup.FragmentNode.tagsAll (Markup.parse c.description.template)

namespace Page

variable {s t : Page σ} {a b cls : ClassId} {c : Component σ}

/-! ### Components that lead to others -/

/-- The components for the tags in the template of a component. -/
def held (s : Page σ) (cls : ClassId) : List ClassId :=
  match s.class? cls with
  | some c => c.tags.filterMap s.registry.find?
  | none => []

/-- The template of one component holds an element of another. -/
def Holds (s : Page σ) (a b : ClassId) : Prop := b ∈ s.held a

/-- No template holds itself, at any remove. -/
def Acyclic (s : Page σ) : Prop := ∀ cls, ¬ TransGen s.Holds cls cls

theorem holds_of_tag (hc : s.class? a = some c) {tag : String} (ht : tag ∈ c.tags)
    (hr : s.registry.find? tag = some b) : s.Holds a b := by
  unfold Holds held
  rw [hc]
  exact mem_filterMap.mpr ⟨tag, ht, hr⟩

theorem holds_congr (hc : t.classes = s.classes) (hr : t.registry = s.registry) :
    t.Holds = s.Holds := by
  funext a b
  rw [Holds, Holds, held, held, class?, class?, hc, hr]

theorem Acyclic.congr (h : s.Acyclic) (hc : t.classes = s.classes) (hr : t.registry = s.registry) :
    t.Acyclic := by
  rwa [Acyclic, holds_congr hc hr]

theorem acyclic_of_lt (h : ∀ x ∈ s.classes, ∀ b ∈ s.held x.1, b < x.1) : s.Acyclic := by
  have hstep : ∀ a b, s.Holds a b → b < a := by
    intro a b hab
    cases hc : s.class? a with
    | none =>
      rw [Holds, held, hc] at hab
      cases hab
    | some c =>
      obtain ⟨x, hx, -⟩ := Option.map_eq_some_iff.mp hc
      have ha : x.1 = a := by simpa using find?_some hx
      exact ha ▸ h x (mem_of_find?_eq_some hx) b (ha ▸ hab)
  have hlt : ∀ a b, TransGen s.Holds a b → b < a := by
    intro a b hab
    induction hab with
    | single hab => exact hstep _ _ hab
    | tail _ hbc ih => exact (hstep _ _ hbc).trans ih
  exact fun cls h => lt_irrefl cls (hlt cls cls h)

/-! ### Weights -/

theorem sum_add_le {α : Type} {l : List α} {f g : α → Nat} (hle : ∀ x, f x ≤ g x) {x : α}
    (hx : x ∈ l) {d : Nat} (hd : f x + d ≤ g x) : (l.map f).sum + d ≤ (l.map g).sum := by
  induction l with
  | nil => cases hx
  | cons y l ih =>
    simp only [map_cons, sum_cons]
    rcases mem_cons.mp hx with rfl | hx
    · have hrest : (l.map f).sum ≤ (l.map g).sum := sum_le_sum fun y _ => hle y
      omega
    · have hrest := ih hx
      have hy := hle y
      omega

open Classical in
/-- The levels that copies of the template of a component can add, with all they hold. -/
noncomputable def weight (s : Page σ) (cls : ClassId) : Nat :=
  (s.classes.map fun x => if ReflTransGen s.Holds cls x.1 then levels x.2 else 0).sum

theorem weight_congr (hc : t.classes = s.classes) (hr : t.registry = s.registry) (cls : ClassId) :
    t.weight cls = s.weight cls := by
  rw [weight, weight, hc, holds_congr hc hr]

theorem weight_le (s : Page σ) (cls : ClassId) :
    s.weight cls ≤ (s.classes.map fun x => levels x.2).sum := by
  refine sum_le_sum fun x _ => ?_
  split
  · exact le_rfl
  · exact Nat.zero_le _

theorem Acyclic.weight_add_levels_le (h : s.Acyclic) (hc : (a, c) ∈ s.classes) (hab : s.Holds a b) :
    s.weight b + levels c ≤ s.weight a := by
  refine sum_add_le (fun x => ?_) hc ?_
  · -- Whatever the held component leads to, its holder leads to.
    split
    next hb => exact (if_pos (ReflTransGen.head hab hb)).symm.le
    next => exact Nat.zero_le _
  · have hno : ¬ ReflTransGen s.Holds b a := fun hba => h a (TransGen.head' hab hba)
    rw [if_neg hno, if_pos ReflTransGen.refl, Nat.zero_add]

theorem levels_le_weight (hc : (a, c) ∈ s.classes) : levels c ≤ s.weight a := by
  refine le_sum_of_mem (mem_map.mpr ⟨(a, c), hc, ?_⟩)
  exact if_pos ReflTransGen.refl

end Page

/-! ### What authors report -/

variable {α : Type}

/-- Elements that went live or are no longer live, in the order in which their authors were told. -/
abbrev Diary := List (NodeId × Bool)

/-- What was noted for an element, in order: whether it went live or not. -/
def Diary.of (diary : Diary) (n : NodeId) : List Bool := (diary.filter fun e => e.1 == n).map (·.2)

def Writes (log : σ → Diary) (entries : Diary) (callback : Authored σ α) : Prop :=
  ∀ f w, log (callback.run (f, w)).2.2 = log w ++ entries

/-- A behaviour logs that its element went live or is no longer live, and nothing else. -/
structure Behaviour.Reports (log : σ → Diary) (b : Behaviour σ) : Prop where
  /-- When the element goes live. -/
  connected : ∀ stage, Writes log [(stage.element, true)] (b.connected stage)
  /-- When the element is no longer live. -/
  disconnected : ∀ stage, Writes log [(stage.element, false)] (b.disconnected stage)
  attributeChanged : ∀ stage name old new, Writes log [] (b.attributeChanged stage name old new)
  /-- When the element is adopted. -/
  adopted : ∀ stage, Writes log [] (b.adopted stage)
  call : ∀ method stage event, Writes log [] (b.call method stage event)

/-- The behaviours that a component makes report, and making them does not. -/
def Component.Reports (log : σ → Diary) (c : Component σ) : Prop :=
  ∀ w, log (c.construct.run w).2 = log w ∧ (c.construct.run w).1.Reports log

/-! ### Standings -/

/-- How an element stands. -/
structure Standing where
  /-- The component of its instance. -/
  cls : ClassId
  /-- How far its life has come. -/
  state : Lifecycle
  mounted : Bool

def Instance.standing (i : Instance σ) : Standing := ⟨i.cls, i.state, i.mounted⟩

/-- What an instance is, where its content is, and how its element stands. -/
def Instance.footing (i : Instance σ) : (NodeId × ClassId × Behaviour σ) × NodeId × Standing :=
  (i.identity, i.root, i.standing)

namespace Page

variable {s t u : Page σ} {id : InstanceId} {i j : Instance σ} {n m : NodeId}
  {log : σ → Diary}

/-- How an element stands. -/
def standing (s : Page σ) (n : NodeId) : Option Standing := (s.instanceOf? n).map Instance.standing

/-- What was logged for an element, in order: whether it went live or not. -/
def calls (log : σ → Diary) (s : Page σ) (n : NodeId) : List Bool := (log s.world).of n

theorem calls_append {b : Bool} (h : log t.world = log s.world ++ [(m, b)]) (n : NodeId) :
    t.calls log n = if n = m then s.calls log n ++ [b] else s.calls log n := by
  unfold calls Diary.of
  rw [h, filter_append, map_append]
  by_cases he : n = m
  · rw [if_pos he, filter_cons_of_pos (by simp [he])]
    rfl
  · rw [if_neg he, filter_cons_of_neg (by simpa using Ne.symm he)]
    exact append_nil _

/-! ### Changes that turn no element -/

/-- The tree is kept, and all instances keep their footing. -/
structure Undisturbed (s t : Page σ) : Prop extends SameCast Instance.footing s t where
  tree : s.forest.KeepsTree t.forest
  /-- The same templates were read. -/
  templates : t.templates = s.templates

namespace Undisturbed

theorem refl (s : Page σ) : Undisturbed s s := ⟨.of_eq rfl, .refl _, rfl⟩

theorem trans (hst : Undisturbed s t) (htu : Undisturbed t u) : Undisturbed s u :=
  ⟨hst.toSameCast.trans htu.toSameCast, hst.tree.trans htu.tree, htu.templates.trans hst.templates⟩

theorem standing_eq (h : Undisturbed s t) (n : NodeId) : t.standing n = s.standing n :=
  (h.instances.map (·.2.2)).instanceOf?_eq h.owners n

theorem forest_only (s : Page σ) {f : Forest} (h : s.forest.KeepsTree f) :
    Undisturbed s { s with forest := f } := ⟨.of_eq rfl, h, rfl⟩

theorem scheduler_only (s : Page σ) (scheduler : Scheduler Task) :
    Undisturbed s { s with scheduler } := ⟨.of_eq rfl, .refl _, rfl⟩

theorem update (s : Page σ) (id : InstanceId) {g : Instance σ → Instance σ}
    (hg : ∀ i, s.instance? id = some i → (g i).footing = i.footing) :
    Undisturbed s (s.updateInstance id g) := ⟨.update s id hg, .refl _, rfl⟩

theorem run (s : Page σ) {callback : Authored σ α} (h : Live.Respects Forest.KeepsTree callback) :
    Undisturbed s (s.run callback).1 := ⟨.of_eq rfl, h s.forest s.world, rfl⟩

theorem decorated (h : Decorated s t) : Undisturbed s t :=
  ⟨h.toSameCast.map Instance.footing, h.tree, h.templates⟩

theorem unwire (s : Page σ) (id : InstanceId) : Undisturbed s (s.unwire id) := by
  unfold Page.unwire
  split
  · exact refl s
  next i hi =>
    have htree := Forest.KeepsTree.frame.unlisten (fun f id _ => .update f id fun _ => rfl) s.forest
      i.listeners
    exact (forest_only s htree).trans (.update _ id fun _ _ => rfl)

end Undisturbed

end Page

end Componentry.Live
