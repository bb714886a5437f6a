import Componentry.Proofs.Live.Instances

/-!
# Who is on a page

Most of what happens to a page leaves its components alone, and its instances but for some part of
each. Applying styles and parameters does. What a page knows about its components and instances is kept
by all such changes, and it is kept when a component is taken up, an instance is made or templates are
replaced.
-/

namespace Componentry.Live

open Document List

variable {σ α : Type}

namespace Page

variable {s t u : Page σ} {id : InstanceId} {i : Instance σ} {c : Component σ}

/-! ### The same cast -/

/-- The components, their tags, the elements that have instances and the document are the same, and so
is a certain part of each instance. -/
structure SameCast (part : Instance σ → α) (s t : Page σ) : Prop where
  instances : KeepsInstances part s t
  owners : t.owners = s.owners
  classes : t.classes = s.classes
  registry : t.registry = s.registry
  document : t.document = s.document
  lastId : t.lastId = s.lastId

/-- All that tells who is on a page. -/
def cast (s : Page σ) :=
  (s.instances, s.owners, s.classes, s.registry, s.document, s.lastId)

namespace SameCast

variable {part : Instance σ → α}

theorem of_eq (h : t.cast = s.cast) : SameCast part s t := by
  simp only [cast, Prod.mk.injEq] at h
  obtain ⟨hi, ho, hc, hr, hd, hl⟩ := h
  exact ⟨.of_eq hi, ho, hc, hr, hd, hl⟩

theorem trans (hst : SameCast part s t) (htu : SameCast part t u) : SameCast part s u :=
  ⟨hst.instances.trans htu.instances, htu.owners.trans hst.owners, htu.classes.trans hst.classes,
    htu.registry.trans hst.registry, htu.document.trans hst.document, htu.lastId.trans hst.lastId⟩

theorem update (s : Page σ) (id : InstanceId) {g : Instance σ → Instance σ}
    (hg : ∀ i, s.instance? id = some i → part (g i) = part i) :
    SameCast part s (s.updateInstance id g) := ⟨.update s id hg, rfl, rfl, rfl, rfl, rfl⟩

variable (h : SameCast part s t)

include h

theorem map {β : Type} (g : α → β) : SameCast (fun i => g (part i)) s t :=
  { h with instances := h.instances.map g }

theorem class?_eq (cls : ClassId) : t.class? cls = s.class? cls := by
  rw [class?, class?, h.classes]

theorem owner?_eq (n : NodeId) : t.owner? n = s.owner? n := by
  rw [owner?, owner?, h.owners]

end SameCast

/-! ### Styles and parameters -/

/-- Sheets are applied, placeholders are filled, and instances change their parameters and sheets. -/
structure Decorated (s t : Page σ) : Prop extends SameCast Instance.plain s t where
  tree : s.forest.KeepsTree t.forest
  listeners : s.forest.KeepsListeners t.forest
  /-- The same templates were read. -/
  templates : t.templates = s.templates
  plans : t.plans = s.plans
  scheduler : t.scheduler = s.scheduler
  /-- Authors carry along what they did. -/
  world : t.world = s.world
  /-- No nodes are made. -/
  size_eq : t.forest.nodes.size = s.forest.nodes.size
  location : t.location = s.location

namespace Decorated

theorem refl (s : Page σ) : Decorated s s :=
  ⟨.of_eq rfl, .refl _, .refl _, rfl, rfl, rfl, rfl, rfl, rfl⟩

theorem trans (hst : Decorated s t) (htu : Decorated t u) : Decorated s u :=
  ⟨hst.toSameCast.trans htu.toSameCast, hst.tree.trans htu.tree, hst.listeners.trans htu.listeners,
    htu.templates.trans hst.templates, htu.plans.trans hst.plans,
    htu.scheduler.trans hst.scheduler, htu.world.trans hst.world, htu.size_eq.trans hst.size_eq,
    htu.location.trans hst.location⟩

theorem attach (s : Page σ) (root : NodeId) (css : String) : Decorated s (s.attach root css).1 :=
  ⟨.of_eq rfl, Forest.KeepsTree.frame.attach (.adoptSheet _ _) ..,
    Forest.KeepsListeners.frame.attach (.adoptSheet _ _) .., rfl, rfl, rfl, rfl,
    Forest.Frame.size.attach (fun _ => Forest.size_update ..) .., rfl⟩

theorem shareStyles (s : Page σ) (styles : Option String) : Decorated s (s.shareStyles styles) := by
  unfold Page.shareStyles
  split
  · exact attach ..
  · exact refl s

theorem fillTree (s : Page σ) (params : Params) (root : NodeId) :
    Decorated s { s with forest := (params.fillTree s.forest root).1 } :=
  ⟨.of_eq rfl, Forest.KeepsTree.frame.fillTree .setText .., Forest.KeepsListeners.frame.fillTree .setText ..,
    rfl, rfl, rfl, rfl, Forest.Frame.size.fillTree (fun _ _ _ => Forest.size_update ..) .., rfl⟩

theorem store {j : Instance σ} (h : s.instance? id = some i) (hj : j.plain = i.plain) :
    Decorated s (s.updateInstance id fun _ => j) :=
  ⟨⟨.update_of h hj, rfl, rfl, rfl, rfl, rfl⟩, .refl _, .refl _, rfl, rfl, rfl, rfl, rfl, rfl⟩

end Decorated

/-- A page is decorated, and the instance that is handed on is the one it holds. -/
structure Decorates (id : InstanceId) (s : Page σ) (r : Page σ × Instance σ) : Prop where
  decorated : Decorated s r.1
  stored : r.1.instance? id = some r.2

namespace Decorates

theorem trans {r r' : Page σ × Instance σ} (h : Decorates id s r) (h' : Decorates id r.1 r') :
    Decorates id s r' := ⟨h.decorated.trans h'.decorated, h'.stored⟩

theorem plain_eq {r : Page σ × Instance σ} (h : Decorates id s r) (hi : s.instance? id = some i) :
    r.2.plain = i.plain := by
  obtain ⟨j, hj, he⟩ := h.decorated.instances.some hi
  rw [h.stored] at hj
  exact Option.some.inj hj ▸ he

theorem applyStyles (h : s.instance? id = some i) (d : Description) :
    Decorates id s (s.applyStyles id i d) := by
  have hown : Decorates id s (s.applyOwnStyles id i d.styles) := by
    unfold applyOwnStyles
    split
    next css _ =>
      have hattach : (s.attach i.root css).1.instance? id = some i := h
      exact ⟨(Decorated.attach ..).trans (.store hattach rfl), instance?_updateInstance_self hattach _⟩
    next => exact ⟨.refl s, h⟩
  refine ⟨hown.decorated.trans ?_, ?_⟩
  all_goals
    unfold Page.applyStyles applyGlobalStyles
    dsimp only
    split
  · split
    · exact (Decorated.attach ..).trans (.attach ..)
    · exact .attach ..
  · exact .refl _
  · split <;> exact hown.stored
  · exact hown.stored

theorem applyParams (h : s.instance? id = some i) (d : Description) :
    Decorates id s (s.applyParams id i d) := by
  unfold Page.applyParams
  generalize Params.ofLocation (d.route.map (·.path)) s.location = params
  have hstored := instance?_updateInstance_self h fun _ => { i with params }
  have hstore : Decorated s (s.updateInstance id fun _ => { i with params }) := .store h rfl
  exact ⟨hstore.trans (.fillTree _ params.merged i.root), hstored⟩

theorem furnish {d : Description} {fresh : Bool} {r : Page σ × Instance σ}
    (hr : (if fresh then s.mount id i d else (s, i)) = r) (h : r.1.instance? id = some r.2) :
    Decorates id r.1 (s.furnish id i d fresh) := by
  subst hr
  exact (applyStyles h d).trans (applyParams (applyStyles h d).stored d)

end Decorates

/-- Copying a template keeps what making, moving and emptying nodes keeps, and hidden trees and taking off
sheets do. -/
theorem mount_forest {r : Forest → Forest → Prop} (hr : Forest.Frame.Open r)
    (hshadow : ∀ f host, r f (f.attachShadow host).1)
    (hremove : ∀ f root digest, r f (f.removeSheet root digest).1) (s : Page σ) (id : InstanceId)
    (i : Instance σ) (d : Description) : r s.forest (s.mount id i d).1.forest := by
  have hroot : r s.forest (contentRoot s.forest i d).1 := by
    unfold contentRoot
    split
    · exact hshadow ..
    · exact hr.refl _
  have hempty : ∀ f root, r f (emptied f i root).1 := by
    intro f root
    unfold emptied
    split
    · split
      · exact hr.trans (hr.clearChildren ..) (hremove ..)
      · exact hr.clearChildren ..
    · exact hr.refl _
  exact hr.trans (hr.trans hroot (hempty ..)) (hr.buildAll ..)

theorem SameCast.mount {part : Instance σ → α} (hi : s.instance? id = some i) (d : Description)
    (hpart : part (s.mount id i d).2 = part i) : SameCast part s (s.mount id i d).1 := by
  let copied : Page σ := { s with
    forest := (s.mount id i d).1.forest
    templates := (s.mount id i d).1.templates }
  have hcopied : SameCast part s copied := .of_eq rfl
  have hstored : copied.instance? id = some i := hi
  exact hcopied.trans ⟨.update_of (g := fun _ => (s.mount id i d).2) hstored hpart, rfl, rfl, rfl, rfl, rfl⟩

/-! ### What a page knows -/

variable {rel : Forest → Forest → Prop}

/-- Numbers are used once, elements and instances belong to each other, every instance has its
component, and callbacks change the forest only in a certain way. -/
structure Staffed (rel : Forest → Forest → Prop) (s : Page σ) : Prop where
  /-- Instances have distinct numbers, which were given out before. -/
  keyed : Keyed (·.1) s.instances
  numbered : ∀ x ∈ s.instances, x.1 ≤ s.lastId
  /-- So have components. -/
  classKeyed : Keyed (·.1) s.classes
  classNumbered : ∀ x ∈ s.classes, x.1 ≤ s.lastId
  /-- Elements and instances belong to each other. -/
  owner_iff : ∀ n id, s.owner? n = some id ↔ ∃ i, s.instance? id = some i ∧ i.element = n
  /-- Every instance has its component. -/
  known : ∀ id i, s.instance? id = some i → ∃ c, s.class? i.cls = some c
  /-- The behaviours of instances change the forest only so. -/
  gentle : ∀ id i, s.instance? id = some i → i.behaviour.Respects rel
  /-- The behaviours that components make do, too. -/
  gentleClasses : ∀ x ∈ s.classes, x.2.Respects rel

namespace Staffed

section

variable (h : s.Staffed rel)

include h

theorem sameCast (ht : SameCast Instance.identity s t) : t.Staffed rel where
  keyed := by
    unfold Keyed
    rw [ht.instances.keys]
    exact h.keyed
  numbered := numbered_of_keys ht.instances.keys ht.lastId h.numbered
  classKeyed := ht.classes ▸ h.classKeyed
  classNumbered := by
    rw [ht.classes, ht.lastId]
    exact h.classNumbered
  owner_iff n id := by
    rw [ht.owner?_eq, h.owner_iff]
    constructor
    · rintro ⟨i, hi, rfl⟩
      obtain ⟨j, hj, he⟩ := ht.instances.some hi
      exact ⟨j, hj, congrArg (·.1) he⟩
    · rintro ⟨j, hj, rfl⟩
      obtain ⟨i, hi, he⟩ := ht.instances.of_some hj
      exact ⟨i, hi, (congrArg (·.1) he).symm⟩
  known := by
    simp only [ht.class?_eq]
    exact ht.instances.all (p := fun x => ∃ c, s.class? x.2.1 = some c) h.known
  gentle := ht.instances.all (p := fun x => x.2.2.Respects rel) h.gentle
  gentleClasses := ht.classes ▸ h.gentleClasses

theorem withInstance {n : NodeId} (ho : s.owner? n = none) {cls : ClassId}
    (hc : s.class? cls = some c) : (s.withInstance n cls c).Staffed rel where
  keyed := h.keyed.snoc fun x hx => (Nat.lt_succ_of_le (h.numbered x hx)).ne
  numbered := numbered_withInstance h.numbered n cls c
  classKeyed := h.classKeyed
  classNumbered x hx := Nat.le_succ_of_le (h.classNumbered x hx)
  owner_iff := owner?_withInstance_iff h.numbered h.owner_iff ho cls c
  known := forall_withInstance h.numbered ⟨c, hc⟩ h.known
  gentle := forall_withInstance h.numbered (h.gentleClasses _ (mem_of_class? hc) s.world) h.gentle
  gentleClasses := h.gentleClasses

theorem next : ({ s with lastId := s.lastId + 1 } : Page σ).Staffed rel :=
  { h with
    numbered := fun x hx => Nat.le_succ_of_le (h.numbered x hx)
    classNumbered := fun x hx => Nat.le_succ_of_le (h.classNumbered x hx) }

/-- A component is taken up under a number that was not given out, once its styles are applied to the
whole document. -/
theorem register (hc : c.Respects rel) :
    ∃ t : Page σ, t = ({ s with lastId := s.lastId + 1 } : Page σ).shareStyles
        c.description.globalStyles ∧
      Decorated { s with lastId := s.lastId + 1 } t ∧ (∀ x ∈ t.classes, x.1 ≠ s.lastId + 1) ∧
      s.register c = { t with
        registry := t.registry.insert c.description.tag (s.lastId + 1)
        classes := (s.lastId + 1, c) :: t.classes } ∧ (s.register c).Staffed rel := by
  have hshare := Decorated.shareStyles { s with lastId := s.lastId + 1 } c.description.globalStyles
  have hfresh : ∀ x ∈ s.classes, x.1 ≠ s.lastId + 1 := fun x hx =>
    (Nat.lt_succ_of_le (h.classNumbered x hx)).ne
  rw [← show _ = s.classes from hshare.classes] at hfresh
  have ht := h.next.sameCast (hshare.toSameCast.map Instance.identity)
  refine ⟨_, rfl, hshare, hfresh, rfl, { ht with
    classKeyed := Keyed.cons_iff.mpr ⟨hfresh, ht.classKeyed⟩
    classNumbered := forall_mem_cons.mpr ⟨hshare.lastId.symm.le, ht.classNumbered⟩
    known := fun id i hi => (ht.known id i hi).imp fun _ => class?_cons hfresh rfl
    gentleClasses := forall_mem_cons.mpr ⟨hc, ht.gentleClasses⟩ }⟩

theorem recast (sourceId template : String) (styles globalStyles : Option String) :
    (s.recast sourceId template styles globalStyles).Staffed rel :=
  { h with
    classKeyed := by
      unfold Keyed Page.recast
      rw [map_map]
      exact h.classKeyed
    classNumbered := by
      intro x hx
      obtain ⟨y, hy, rfl⟩ := mem_map.mp hx
      exact h.classNumbered y hy
    known := by
      intro id i hi
      obtain ⟨c, hc⟩ := h.known id i hi
      exact ⟨_, (class?_recast ..).trans (congrArg _ hc)⟩
    gentleClasses := by
      intro x hx w
      obtain ⟨y, hy, rfl⟩ := mem_map.mp hx
      dsimp only
      split
      · exact h.gentleClasses y hy w
      · exact h.gentleClasses y hy w }

end

theorem start (world : σ) : (Page.start world).Staffed rel where
  keyed := .nil
  numbered _ hx := absurd hx not_mem_nil
  classKeyed := .nil
  classNumbered _ hx := absurd hx not_mem_nil
  owner_iff n id := by
    constructor
    · intro ho
      exact absurd ho (Option.some_ne_none id).symm
    · rintro ⟨i, hi, -⟩
      exact absurd hi instance?_start_ne
  known _ _ hi := absurd hi instance?_start_ne
  gentle _ _ hi := absurd hi instance?_start_ne
  gentleClasses _ hx := absurd hx not_mem_nil

end Staffed

end Page

end Componentry.Live
