import Componentry.Proofs.Document.Refill
import Componentry.Proofs.Live.Operation
import Componentry.Proofs.Live.Standing

/-!
# Pages in order

What every run keeps, also when templates are replaced and callbacks move nodes about: the forest is
well-formed, elements and instances belong to each other, and the content of an instance is where its
component puts it, in the hidden tree of its element or in the element itself. Whether instances agree
with the tree is left open, and so is whether a template holds itself.
-/

namespace Componentry.Document

theorem TemplateCache.fragment_parsed (c : TemplateCache)
    (h : ∀ e ∈ c.fragments, e.2 = Markup.parse e.1) (text : String) :
    (c.fragment text).2 = Markup.parse text ∧
      ∀ e ∈ (c.fragment text).1.fragments, e.2 = Markup.parse e.1 := by
  unfold fragment
  split
  next e he =>
    obtain ⟨hm, rfl⟩ := Keyed.mem_of_find? he
    exact ⟨h e hm, h⟩
  next =>
    refine ⟨rfl, fun e he => ?_⟩
    rcases List.mem_cons.mp he with rfl | he
    · rfl
    · exact h e he

end Componentry.Document

namespace Componentry.Live

open Document

variable {σ : Type}

/-- What an element is told when it goes live or is no longer live. -/
def Behaviour.turned (b : Behaviour σ) (live : Bool) (stage : Stage) : Authored σ Unit :=
  if live then b.connected stage else b.disconnected stage

theorem Behaviour.Respects.turned {rel : Forest → Forest → Prop} {b : Behaviour σ} (h : b.Respects rel)
    (live : Bool) (stage : Stage) : Live.Respects rel (b.turned live stage) := by
  cases live with
  | true => exact h.connected stage
  | false => exact h.disconnected stage

namespace Page

variable {s t u : Page σ} {id : InstanceId} {i j : Instance σ} {n m : NodeId} {c : Component σ}
  {rel : Forest → Forest → Prop}

/-- Changes that keep a forest in order: a well-formed one stays so, and nodes stay what they are. -/
class Orderly (rel : Forest → Forest → Prop) : Prop where
  /-- Such a change keeps a forest in order. -/
  keepsOrder : ∀ {f g}, rel f g → f.KeepsOrder g

instance : Orderly Forest.KeepsTree where
  keepsOrder h := ⟨h.extends.toKeepsNodes, h.wellFormed⟩

instance : Orderly Forest.KeepsOrder where
  keepsOrder h := h

instance : Orderly Eq where
  keepsOrder h := h ▸ .refl _

/-! ### Pages in order -/

/-- The content of an instance is where it belongs. -/
structure Seated (s : Page σ) (i : Instance σ) : Prop where
  /-- Before its template is copied it is the element. -/
  unmounted : i.mounted = false → i.root = i.element
  /-- What is connected has its template copied. -/
  mounted : i.state = .connected → i.mounted = true
  /-- Once it is copied, the component says whether it is in a hidden tree. -/
  place : i.mounted = true → ∀ c, s.class? i.cls = some c →
    if c.description.shadow then s.forest.kind i.root = .shadow i.element else i.root = i.element

/-- The tree, the components and the instances of a page fit together, whatever was replaced, and
callbacks change the forest only in a certain way. -/
structure Housed (rel : Forest → Forest → Prop) (s : Page σ) : Prop extends Staffed rel s where
  wellFormed : s.forest.WellFormed
  document_lt : s.document < s.forest.nodes.size
  document : s.forest.kind s.document = .document
  element : ∀ id i, s.instance? id = some i → ∃ tag, s.forest.tag? i.element = some tag
  /-- Templates that were read are what their text says. -/
  parsed : ∀ e ∈ s.templates.fragments, e.2 = Markup.parse e.1
  /-- The content of every instance is where it belongs. -/
  seated : ∀ id i, s.instance? id = some i → s.Seated i

/-- Nodes, instances and components stay what they are, wherever they are. -/
structure Persists (s t : Page σ) : Prop extends SameCast Instance.identity s t where
  wellFormed : t.forest.WellFormed
  nodes : s.forest.KeepsNodes t.forest
  /-- Templates are read as their text says. -/
  parsed : (∀ e ∈ s.templates.fragments, e.2 = Markup.parse e.1) →
    ∀ e ∈ t.templates.fragments, e.2 = Markup.parse e.1

theorem Undisturbed.persists (h : Undisturbed s t) (hs : s.forest.WellFormed) : Persists s t :=
  ⟨h.toSameCast.map (·.1), h.tree.wellFormed hs, h.tree.extends.toKeepsNodes, fun hp => h.templates ▸ hp⟩

namespace Persists

theorem trans (hst : Persists s t) (htu : Persists t u) : Persists s u :=
  ⟨hst.toSameCast.trans htu.toSameCast, htu.wellFormed, hst.nodes.trans htu.nodes,
    fun h => htu.parsed (hst.parsed h)⟩

/-- The content of an instance that keeps its footing is still where it belongs. -/
theorem seated (h : Persists s t) (hi : s.Seated i) (hj : j.footing = i.footing) : t.Seated j := by
  have helement : j.element = i.element := congrArg (·.1.1) hj
  have hcls : j.cls = i.cls := congrArg (·.1.2.1) hj
  have hroot : j.root = i.root := congrArg (·.2.1) hj
  have hstate : j.state = i.state := congrArg (·.2.2.state) hj
  have hmounted : j.mounted = i.mounted := congrArg (·.2.2.mounted) hj
  constructor
  · rw [hmounted, hroot, helement]
    exact hi.unmounted
  · rw [hstate, hmounted]
    exact hi.mounted
  · intro hm c hc
    rw [hmounted] at hm
    rw [hcls, h.class?_eq] at hc
    rw [hroot, helement]
    exact h.nodes.placed (hi.place hm c hc)

end Persists

/-- A page stays in order while all persists and content stays where it belongs. -/
theorem Housed.persists (h : s.Housed rel) (hp : Persists s t)
    (hseated : ∀ id j, t.instance? id = some j → t.Seated j) : t.Housed rel := by
  refine { h.toStaffed.sameCast hp.toSameCast with
    wellFormed := hp.wellFormed, document_lt := ?_, document := ?_, element := ?_
    parsed := hp.parsed h.parsed, seated := hseated }
  · rw [hp.document]
    exact hp.nodes.lt_size h.document_lt
  · rw [hp.document]
    exact (hp.nodes.document_iff h.document_lt).mpr h.document
  · refine hp.instances.all (p := fun x => ∃ tag, t.forest.tag? x.1 = some tag) fun id i hi => ?_
    obtain ⟨tag, ht⟩ := h.element id i hi
    exact ⟨tag, (hp.nodes.tag_eq (Forest.lt_size_of_tag? ht)).trans ht⟩

theorem Persists.run [Orderly rel] {α : Type} {callback : Authored σ α} (hs : s.forest.WellFormed)
    (h : Live.Respects rel callback) : Persists s (s.run callback).1 := by
  have horder := Orderly.keepsOrder (h s.forest s.world)
  exact ⟨.of_eq rfl, horder.wellFormed hs, horder.toKeepsNodes, id⟩

variable (h : s.Housed rel)

include h

theorem Housed.run [Orderly rel] {α : Type} {callback : Authored σ α}
    (hc : Live.Respects rel callback) : (s.run callback).1.Housed rel := by
  have hp := Persists.run h.wellFormed hc
  exact h.persists hp fun id j hj => hp.seated (h.seated id j hj) rfl

/-- What disturbs no element keeps a page in order. -/
theorem Housed.undisturbed (hu : Undisturbed s t) : t.Housed rel := by
  have hp := hu.persists h.wellFormed
  refine h.persists hp fun id j hj => ?_
  obtain ⟨i, hi, he⟩ := hu.instances.of_some hj
  exact hp.seated (h.seated id i hi) he

theorem Housed.document_root : s.forest.composedParent s.document = none := by
  have hne : ∀ host, s.forest.kind s.document ≠ .shadow host := by simp [h.document]
  rw [Forest.composedParent_of_ne_shadow hne]
  exact h.wellFormed.parent_eq_none (by rw [h.document]; rfl)

/-- A node stands in the document. -/
def InDocument (s : Page σ) (n : NodeId) : Prop := s.forest.Under s.document n

theorem Housed.rootOf_eq_document : s.forest.rootOf n = s.document ↔ s.InDocument n := by
  rw [h.wellFormed.rootOf_eq_iff]
  exact ⟨And.left, fun hu => ⟨hu, h.document_root⟩⟩

theorem Housed.element_lt (hi : s.instance? id = some i) : i.element < s.forest.nodes.size := by
  obtain ⟨tag, ht⟩ := h.element id i hi
  exact Forest.lt_size_of_tag? ht

theorem Housed.lt_size_of_owner? (ho : s.owner? n = some id) : n < s.forest.nodes.size := by
  obtain ⟨i, hi, rfl⟩ := (h.owner_iff n id).mp ho
  exact h.element_lt hi

theorem Housed.instanceOf?_iff :
    s.instanceOf? n = some i ↔ ∃ id, s.instance? id = some i ∧ i.element = n := by
  constructor
  · intro hi
    obtain ⟨id, ho, hi⟩ := Option.bind_eq_some_iff.mp hi
    obtain ⟨j, hj, he⟩ := (h.owner_iff n id).mp ho
    cases hi.symm.trans hj
    exact ⟨id, hi, he⟩
  · rintro ⟨id, hi, he⟩
    exact Option.bind_eq_some_iff.mpr ⟨id, (h.owner_iff n id).mpr ⟨i, hi, he⟩, hi⟩

theorem Housed.instanceOf?_withInstance (n : NodeId) (cls : ClassId)
    (c : Component σ) (m : NodeId) : (s.withInstance n cls c).instanceOf? m = if m = n then
      some { element := n, cls, behaviour := (c.construct.run s.world).1, root := n }
    else s.instanceOf? m := by
  have howner : (s.withInstance n cls c).owner? m = if m = n then some (s.lastId + 1) else s.owner? m :=
    owner?_cons rfl m
  have hmade := instance?_withInstance h.numbered n cls c
  unfold instanceOf?
  rw [howner]
  by_cases hm : m = n
  · rw [if_pos hm, if_pos hm]
    exact (hmade _).trans (if_pos rfl)
  · rw [if_neg hm, if_neg hm]
    cases ho : s.owner? m with
    | none => rfl
    | some id =>
      obtain ⟨i, hi, -⟩ := (h.owner_iff m id).mp ho
      refine (hmade id).trans (if_neg ?_)
      rintro rfl
      rw [instance?_next h.numbered] at hi
      cases hi

omit h

/-! ### Seating an instance -/

/-- One instance is seated anew, and the others keep their footing. -/
structure Reseats (id : InstanceId) (s t : Page σ) (j : Instance σ) : Prop where
  persists : Persists s t
  stored : t.instance? id = some j
  /-- Other instances keep their footing. -/
  others : ∀ id', id' ≠ id →
    (t.instance? id').map Instance.footing = (s.instance? id').map Instance.footing

namespace Reseats

theorem undisturbed (h : Reseats id s t j) (hu : Undisturbed t u) {k : Instance σ}
    (hk : u.instance? id = some k) : Reseats id s u k :=
  ⟨h.persists.trans (hu.persists h.persists.wellFormed), hk,
    fun id' hne => (hu.instances.same id').trans (h.others id' hne)⟩

theorem trans {k : Instance σ} (hst : Reseats id s t j) (htu : Reseats id t u k) :
    Reseats id s u k :=
  ⟨hst.persists.trans htu.persists, htu.stored,
    fun id' hne => (htu.others id' hne).trans (hst.others id' hne)⟩

theorem update (hs : s.forest.WellFormed) (hi : s.instance? id = some i)
    {g : Instance σ → Instance σ} (hg : (g i).identity = i.identity) :
    Reseats id s (s.updateInstance id g) (g i) :=
  ⟨⟨⟨.update_of hi hg, rfl, rfl, rfl, rfl, rfl⟩, hs, .refl _, fun h => h⟩,
    instance?_updateInstance_self hi g, fun id' hne => by rw [instance?_updateInstance_ne hne]⟩

/-- If the instance is seated then, the page stays in order. -/
theorem housed (h : Reseats id s t j) (hs : s.Housed rel) (hj : t.Seated j) : t.Housed rel := by
  refine hs.persists h.persists fun id' k hk => ?_
  by_cases he : id' = id
  · subst he
    cases h.stored.symm.trans hk
    exact hj
  · obtain ⟨i, hi, hfoot⟩ := exists_of_map_eq (h.others id' he).symm hk
    exact h.persists.seated (hs.seated id' i hi) hfoot.symm

theorem instanceOf?_self (h : Reseats id s t j) (ht : t.Housed rel) (hi : s.instance? id = some i) :
    t.instanceOf? i.element = some j := by
  obtain ⟨i', hi', hid⟩ := h.persists.instances.of_some h.stored
  cases hi'.symm.trans hi
  exact ht.instanceOf?_iff.mpr ⟨id, h.stored, congrArg (·.1) hid⟩

theorem apart (h : Reseats id s t j) (hs : s.Housed rel) (hi : s.instance? id = some i)
    (hm : m ≠ i.element) :
    (t.instanceOf? m).map Instance.footing = (s.instanceOf? m).map Instance.footing := by
  unfold instanceOf?
  rw [h.persists.owner?_eq]
  cases ho : s.owner? m with
  | none => rfl
  | some id' =>
    refine h.others id' fun he => hm ?_
    subst he
    obtain ⟨k, hk, hkm⟩ := (hs.owner_iff m id').mp ho
    cases hi.symm.trans hk
    exact hkm.symm

end Reseats

/-! ### Copying templates -/

/-- What an instance held is taken out. -/
theorem emptied_of_mounted (f : Forest) (hm : i.mounted = true) (root : NodeId) :
    (f.clearChildren root).KeepsTree (emptied f i root).1 ∧
      (emptied f i root).1.nodes.size = f.nodes.size := by
  have hsize := (Forest.SameNodes.clearChildren f root).size_eq
  unfold emptied
  rw [if_pos hm]
  cases i.scopedSheet with
  | none => exact ⟨.refl _, hsize⟩
  | some old => exact ⟨.update _ _ fun _ => rfl, (Forest.size_update ..).trans hsize⟩

/-- Where the template of an instance goes: into its hidden tree or into its element. -/
theorem Housed.contentRoot (h : s.Housed rel) (hi : s.instance? id = some i) (hseated : s.Seated i)
    (hc : s.class? i.cls = some c) :
    let r := Page.contentRoot s.forest i c.description
    s.forest.Grown r.1 i.element 2 [] ∧ r.2 < r.1.nodes.size ∧
      (if c.description.shadow then r.1.kind r.2 = .shadow i.element else r.2 = i.element) ∧
      (i.mounted = true → r = (s.forest, i.root)) := by
  have hlt := h.element_lt hi
  unfold Page.contentRoot
  cases hd : c.description.shadow with
  | true =>
    obtain ⟨hg, hp⟩ := Forest.attachShadow_grown h.wellFormed hlt
    have hkind : (s.forest.attachShadow i.element).1.kind (s.forest.attachShadow i.element).2 =
        .shadow i.element := by
      rw [← hg.wellFormed.shadow_iff, Forest.attachShadow_eq]
      split
      next root hs => exact hs
      next => rw [Forest.shadow_addShadow hlt, if_pos rfl]
    refine ⟨hg, Forest.lt_size_of_composedParent hp, hkind, fun hm => ?_⟩
    have hplace := hseated.place hm c hc
    rw [if_pos hd, ← h.wellFormed.shadow_iff] at hplace
    change s.forest.attachShadow i.element = _
    rw [Forest.attachShadow_eq, hplace]
  | false =>
    have hroot : i.root = i.element := by
      cases hm : i.mounted with
      | false => exact hseated.unmounted hm
      | true => simpa [hd] using hseated.place hm c hc
    exact ⟨.refl h.wellFormed .., hroot ▸ hlt, hroot, fun _ => rfl⟩

/-- The content of an instance is put in its place. -/
structure Opens (c : Component σ) (id : InstanceId) (s : Page σ) (i : Instance σ)
    (r : Page σ × Instance σ) : Prop extends Reseats id s r.1 r.2 where
  identity : r.2.identity = i.identity
  mounted : r.2.mounted = true
  /-- It is in the hidden tree of the element, or in the element. -/
  place : if c.description.shadow then r.1.forest.kind r.2.root = .shadow i.element
    else r.2.root = i.element
  world : r.1.world = s.world

/-- Copying the template of an instance puts its content in place. What it held before is replaced,
and if there was nothing, nodes are added under its element. -/
theorem Housed.mount (h : s.Housed rel) (hi : s.instance? id = some i) (hseated : s.Seated i)
    (hc : s.class? i.cls = some c) : let r := s.mount id i c.description
    Opens c id s i r ∧ (i.mounted = true → s.forest.Refilled r.1.forest i.root c.tags) ∧
      (i.mounted = false → s.forest.Grown r.1.forest i.element (levels c) c.tags) := by
  obtain ⟨hgrown, hlt, hplace, hsame⟩ := h.contentRoot hi hseated hc
  obtain ⟨hf, hp⟩ := s.templates.fragment_parsed h.parsed c.description.template
  have hfilled : ∀ r q, Page.contentRoot s.forest i c.description = r →
      s.templates.fragment c.description.template = q →
      ((emptied r.1 i r.2).1.buildAll r.2 q.2).1.WellFormed ∧
      r.1.KeepsNodes ((emptied r.1 i r.2).1.buildAll r.2 q.2).1 ∧
      (i.mounted = true →
        s.forest.Refilled ((emptied r.1 i r.2).1.buildAll r.2 q.2).1 i.root c.tags) ∧
      (i.mounted = false →
        s.forest.Grown ((emptied r.1 i r.2).1.buildAll r.2 q.2).1 i.element (levels c) c.tags) := by
    rintro r q rfl rfl
    generalize Page.contentRoot s.forest i c.description = r at hgrown hlt hplace hsame ⊢
    rw [hf]
    cases hm : i.mounted with
    | false =>
      have hempty : emptied r.1 i r.2 = (r.1, i.scopedSheet) := by simp [emptied, hm]
      obtain ⟨hbuild, -⟩ := Forest.buildAll_grown r.1 hgrown.wellFormed hlt (Markup.parse c.description.template)
      obtain ⟨k, hk, hup⟩ := Forest.ascend_of_placed hplace
      rw [hempty]
      refine ⟨hbuild.wellFormed, hbuild.extends_.toKeepsNodes, nofun, fun _ => ?_⟩
      refine hgrown.trans hbuild hlt k hup (Nat.le_add_left ..) ?_
      unfold levels
      omega
    | true =>
      obtain rfl := hsame hm
      obtain ⟨hkeep, hsize⟩ := emptied_of_mounted s.forest hm i.root
      have hrefilled := h.wellFormed.refilled hlt hkeep hsize (Markup.parse c.description.template)
      exact ⟨hrefilled.wellFormed, hrefilled.nodes, fun _ => hrefilled, nofun⟩
  unfold Page.mount
  obtain ⟨hg, hnodes, hrefilled, hgrown'⟩ := hfilled _ _ rfl rfl
  generalize Page.contentRoot s.forest i c.description = r at hgrown hplace hg hnodes hrefilled hgrown' ⊢
  generalize s.templates.fragment c.description.template = q at hp hg hnodes hrefilled hgrown' ⊢
  let copied : Page σ :=
    { s with forest := ((emptied r.1 i r.2).1.buildAll r.2 q.2).1, templates := q.1 }
  have hpersists : Persists s copied :=
    ⟨.of_eq rfl, hg, hgrown.extends_.toKeepsNodes.trans hnodes, fun _ => hp⟩
  have hstored : copied.instance? id = some i := hi
  have hcopied : Reseats id s copied i := ⟨hpersists, hstored, fun _ _ => rfl⟩
  let seated : Instance σ → Instance σ := fun _ =>
    { i with root := r.2, scopedSheet := (emptied r.1 i r.2).2, mounted := true }
  exact ⟨⟨hcopied.trans (.update (g := seated) hg hstored rfl), rfl, rfl, hnodes.placed hplace, rfl⟩,
    hrefilled, hgrown'⟩

theorem Seated.of_place (hm : i.mounted = true) (hc : s.class? i.cls = some c)
    (hplace : if c.description.shadow then s.forest.kind i.root = .shadow i.element
      else i.root = i.element) : s.Seated i := by
  refine ⟨fun hf => absurd (hm.symm.trans hf) nofun, fun _ => hm, fun _ c' hc' => ?_⟩
  cases hc.symm.trans hc'
  exact hplace

/-- An instance that is to be connected has its content in place, once the template is copied if it is
to be. -/
theorem Housed.opened (h : s.Housed rel) (hi : s.instance? id = some i) (hc : s.class? i.cls = some c)
    (fresh : Bool) (hfresh : fresh = false → i.mounted = true) : ∃ r : Page σ × Instance σ,
      (if fresh then (s.updateInstance id fun _ => { i with state := .connecting }).mount id
          { i with state := .connecting } c.description
        else (s.updateInstance id fun _ => { i with state := .connecting },
          { i with state := .connecting })) = r ∧
      Opens c id s i r ∧
      (fresh = true → i.mounted = true → s.forest.Refilled r.1.forest i.root c.tags) ∧
      (fresh = !i.mounted →
        s.forest.Grown r.1.forest i.element (if i.mounted then 0 else levels c) c.tags) := by
  let connecting : Instance σ → Instance σ := fun _ => { i with state := .connecting }
  have hone := Reseats.update (g := connecting) h.wellFormed hi rfl
  have hseated := h.seated id i hi
  have hseatedOne : (s.updateInstance id connecting).Seated (connecting i) :=
    ⟨hseated.unmounted, nofun, hseated.place⟩
  cases fresh with
  | true =>
    obtain ⟨hopens, hrefilled, hgrown⟩ := (hone.housed h hseatedOne).mount hone.stored hseatedOne hc
    refine ⟨_, rfl, { hopens with toReseats := hone.trans hopens.toReseats }, fun _ => hrefilled,
      fun hm => ?_⟩
    have hm : i.mounted = false := by simpa using hm
    have hlevels : (if i.mounted then 0 else levels c) = levels c := by rw [hm]; rfl
    rw [hlevels]
    exact hgrown hm
  | false =>
    have hm := hfresh rfl
    refine ⟨_, rfl, ⟨hone, rfl, hm, hseated.place hm c hc, rfl⟩, nofun, fun _ => ?_⟩
    exact .refl h.wellFormed ..

/-! ### Going live and being no longer live -/

/-- An instance goes live or is no longer live: its content is in place in a certain forest, the tree is
kept from then on, its author is told, and all other instances keep their footing. -/
structure Shifts (live : Bool) (id : InstanceId) (s : Page σ) (i : Instance σ) (f : Forest) (t : Page σ)
    (j : Instance σ) : Prop extends Reseats id s t j where
  seated : t.Seated j
  state : j.state = if live then .connected else .disconnected
  /-- Only what goes live gets content. -/
  mounted : live = false → j.mounted = i.mounted
  told : ∃ g stage, f.KeepsTree g ∧ stage.element = i.element ∧
    (t.forest, t.world) = ((i.behaviour.turned live stage).run (g, s.world)).2

namespace Shifts

variable {live : Bool} {f : Forest}

theorem keepsTree (h : Shifts live id s i f t j) {r : Forest → Forest → Prop}
    (hb : i.behaviour.Respects r) (hr : ∀ {g g'}, r g g' → g.KeepsTree g') :
    f.KeepsTree t.forest := by
  obtain ⟨g, stage, hk, -, he⟩ := h.told
  have hforest : t.forest = _ := congrArg Prod.fst he
  rw [hforest]
  exact hk.trans (hr (hb.turned live stage g s.world))

theorem log_eq {log : σ → Diary} (h : Shifts live id s i f t j) (hb : i.behaviour.Reports log) :
    log t.world = log s.world ++ [(i.element, live)] := by
  obtain ⟨g, stage, -, hstage, he⟩ := h.told
  have hworld : t.world = _ := congrArg Prod.snd he
  rw [hworld, ← hstage]
  cases live with
  | true => exact hb.connected stage g s.world
  | false => exact hb.disconnected stage g s.world

end Shifts

section

variable (h : s.Housed rel)

include h

/-- Connecting an instance. If its template is copied again, what it held is replaced; if it is copied
for the first time, nodes are added under its element. -/
theorem Housed.runConnection [Orderly rel] (hi : s.instance? id = some i)
    (hc : s.class? i.cls = some c) (fresh : Bool) (hfresh : fresh = false → i.mounted = true) :
    ∃ f j, Shifts true id s i f (s.runConnection id fresh) j ∧
      (fresh = true → i.mounted = true → s.forest.Refilled f i.root c.tags) ∧
      (fresh = !i.mounted → s.forest.Grown f i.element (if i.mounted then 0 else levels c) c.tags) := by
  obtain ⟨r, he, hr, hrefilled, hgrown⟩ := h.opened hi hc fresh hfresh
  have hfurnish := Decorates.furnish he hr.stored
  have hplain := hfurnish.plain_eq hr.stored
  have hdecorated := hfurnish.decorated
  have hfurnished := hr.toReseats.undisturbed (.decorated hdecorated) hfurnish.stored
  unfold Page.runConnection
  simp only [hi, hc]
  generalize Page.furnish _ id _ c.description _ = q at hfurnish hplain hdecorated hfurnished ⊢
  have hidentity := (congrArg Instance.identity hplain).trans hr.identity
  have hb : q.2.behaviour = i.behaviour := congrArg (·.2.2) hidentity
  have helement : q.2.element = i.element := congrArg (·.1) hidentity
  have hcls : q.2.cls = i.cls := congrArg (·.2.1) hidentity
  have hgentle := hb ▸ h.gentle id i hi
  have hrun := Persists.run hfurnished.persists.wellFormed (hgentle.connected (q.1.stage q.2))
  have hcalled : Reseats id s (q.1.run (q.2.behaviour.connected (q.1.stage q.2))).1 q.2 :=
    ⟨hfurnished.persists.trans hrun, hfurnish.stored, hfurnished.others⟩
  let connected : Instance σ → Instance σ := fun i => { i with state := .connected }
  have hturned := hcalled.trans (.update (g := connected) hcalled.persists.wellFormed hcalled.stored rfl)
  have hworld : q.1.world = s.world := hdecorated.world.trans hr.world
  refine ⟨r.1.forest, connected q.2, {
    toReseats := hturned.undisturbed (.scheduler_only ..) hturned.stored
    seated := ?_
    state := rfl
    mounted := nofun
    told := ⟨q.1.forest, q.1.stage q.2, hdecorated.tree, helement, by rw [← hb, ← hworld]; rfl⟩ },
    hrefilled, hgrown⟩
  have hmounted : q.2.mounted = true := (congrArg Instance.mounted hplain).trans hr.mounted
  have hroot : q.2.root = r.2.root := (congrArg Instance.root hplain).trans rfl
  refine .of_place hmounted ((hturned.persists.class?_eq q.2.cls).trans (hcls ▸ hc)) ?_
  rw [hroot, helement]
  exact (hdecorated.tree.extends.toKeepsNodes.trans hrun.nodes).placed hr.place

theorem Housed.disconnect_shifts [Orderly rel] (hi : s.instance? id = some i)
    (hs : i.state = .connecting ∨ i.state = .connected) :
    ∃ j, Shifts false id s i s.forest (s.disconnect id) j := by
  let disconnected : Instance σ → Instance σ := fun i => { i with state := .disconnected }
  have hone := Reseats.update (g := disconnected) h.wellFormed hi rfl
  have hseated := h.seated id i hi
  have hseatedOne : (s.updateInstance id disconnected).Seated (disconnected i) :=
    ⟨hseated.unmounted, nofun, hseated.place⟩
  have hunwire := Undisturbed.unwire (s.updateInstance id disconnected) id
  have hstored : ((s.updateInstance id disconnected).unwire id).instance? id =
      some { disconnected i with listeners := [], wired := false } := by
    rw [instance?_unwire, if_pos rfl, hone.stored]
    rfl
  have hworld : ((s.updateInstance id disconnected).unwire id).world = s.world := by
    unfold unwire
    split <;> rfl
  unfold disconnect
  simp only [hi, Bool.or_eq_true, decide_eq_true_eq, if_pos hs]
  generalize (s.updateInstance id disconnected).unwire id = u at hunwire hstored hworld ⊢
  have hrun := Persists.run (hunwire.persists h.wellFormed).wellFormed
    ((h.gentle id i hi).disconnected (u.stage i))
  have hunwired := hone.undisturbed hunwire hstored
  exact ⟨_, {
    persists := hunwired.persists.trans hrun
    stored := hstored
    others := hunwired.others
    seated := ((hunwire.persists h.wellFormed).trans hrun).seated hseatedOne rfl
    state := rfl
    mounted := fun _ => rfl
    told := ⟨u.forest, u.stage i, hunwire.tree, rfl, by rw [← hworld]; rfl⟩ }⟩

/-! ### Instances that come and go -/

/-- Making an instance for an element that has none keeps a page in order. -/
theorem Housed.withInstance (ho : s.owner? n = none) {tag : String}
    (ht : s.forest.tag? n = some tag) {cls : ClassId} (hc : s.class? cls = some c) :
    (s.withInstance n cls c).Housed rel := by
  have hnew : (s.withInstance n cls c).Seated
      { element := n, cls, behaviour := (c.construct.run s.world).1, root := n } :=
    ⟨fun _ => rfl, nofun, fun hm => nomatch hm⟩
  exact { h.toStaffed.withInstance ho hc, h with
    element := forall_withInstance h.numbered ⟨tag, ht⟩ h.element
    seated := forall_withInstance h.numbered hnew fun id i hi =>
      ⟨(h.seated id i hi).unmounted, (h.seated id i hi).mounted, (h.seated id i hi).place⟩ }

theorem Housed.ensureInstance (n : NodeId) : (s.ensureInstance n).1.Housed rel :=
  ensureInstance_keeps h fun ho ht _ hc => h.withInstance ho ht hc

theorem Housed.connect [Orderly rel] (id : InstanceId) : (s.connect id).Housed rel := by
  refine connect_keeps h fun i hi _ => ?_
  obtain ⟨c, hc⟩ := h.known id i hi
  obtain ⟨f, j, hj, -⟩ := h.runConnection hi hc (!i.mounted) (by simp)
  exact hj.housed h hj.seated

theorem Housed.disconnect [Orderly rel] (id : InstanceId) : (s.disconnect id).Housed rel := by
  cases hi : s.instance? id with
  | none =>
    simp only [Page.disconnect, hi]
    exact h
  | some i =>
    by_cases hs : i.state = .connecting ∨ i.state = .connected
    · obtain ⟨j, hj⟩ := h.disconnect_shifts hi hs
      exact hj.housed h hj.seated
    · simp only [Page.disconnect, hi, Bool.or_eq_true, decide_eq_true_eq, if_neg hs]
      exact h

theorem Housed.connectNode [Orderly rel] (n : NodeId) : (s.connectNode n).Housed rel :=
  connectNode_keeps (fun _ n h => h.ensureInstance n) (fun _ id h => h.connect id) h n

theorem Housed.connectTree [Orderly rel] (root : NodeId) : (s.connectTree root).Housed rel :=
  connectTree_keeps (fun _ n h => h.ensureInstance n) (fun _ id h => h.connect id) h root

theorem Housed.disconnectNode [Orderly rel] (n : NodeId) : (s.disconnectNode n).Housed rel :=
  disconnectNode_keeps (fun _ id h => h.disconnect id) h n

theorem Housed.disconnectTree [Orderly rel] (root : NodeId) : (s.disconnectTree root).Housed rel :=
  disconnectTree_keeps (fun _ id h => h.disconnect id) h root

end

/-! ### Moving nodes and defining components -/

theorem Persists.relinked (s : Page σ) {g : Forest} (hg : g.WellFormed) (hs : s.forest.SameNodes g) :
    Persists s { s with forest := g } :=
  ⟨.of_eq rfl, hg, hs.keepsNodes, id⟩

theorem Housed.relinked (h : s.Housed rel) {g : Forest} (hg : g.WellFormed) (hs : s.forest.SameNodes g) :
    ({ s with forest := g } : Page σ).Housed rel := by
  have hp := Persists.relinked s hg hs
  exact h.persists hp fun id j hj => hp.seated (h.seated id j hj) rfl

/-- Connects or disconnects a tree that was moved, by where it was and where it is. -/
def follow (was live : Bool) (s : Page σ) (n : NodeId) : Page σ :=
  if was && !live then s.disconnectTree n else if live then s.connectTree n else s

theorem append_eq (s : Page σ) (parent child : NodeId) :
    s.append parent child = (s.forest.movedBy child).foldl (fun t c =>
      t.follow (s.forest.isConnected c) ((s.forest.append parent child).isConnected parent) c)
      { s with forest := s.forest.append parent child } := List.foldl_map

section

variable (h : s.Housed rel)

include h

theorem Housed.append [Orderly rel] {parent child : NodeId} (hp : parent < s.forest.nodes.size)
    (hl : (s.forest.kind child).isLoose) (hn : ¬ s.forest.Under child parent) :
    (s.append parent child).Housed rel := by
  have hmoved := h.wellFormed.append (Forest.lt_size_of_isLoose hl) hp (Kind.isInner_of_isLoose hl) hn
  exact append_keeps (fun _ _ n h => h.connectTree n) (fun _ _ n h => h.disconnectTree n)
    (h.relinked hmoved.wellFormed hmoved.same)

theorem Housed.remove [Orderly rel] (hn : (s.forest.kind n).isLoose) : (s.remove n).Housed rel := by
  have hne : ∀ host, s.forest.kind n ≠ .shadow host := by
    intro host he
    rw [he] at hn
    cases hn
  exact remove_keeps (fun _ n h => h.disconnectTree n)
    (h.relinked (h.wellFormed.detach hne) (.detach s.forest n))

/-- A number that is given out keeps a page in order. -/
theorem Housed.next : ({ s with lastId := s.lastId + 1 } : Page σ).Housed rel :=
  { h.toStaffed.next, h with
    seated := fun id i hi =>
      ⟨(h.seated id i hi).unmounted, (h.seated id i hi).mounted, (h.seated id i hi).place⟩ }

/-- Taking up a component keeps a page in order. -/
theorem Housed.register (hc : c.Respects rel) : (s.register c).Housed rel := by
  obtain ⟨t, -, hshare, hfresh, he, hstaffed⟩ := h.toStaffed.register hc
  have hs := h.next.undisturbed (.decorated hshare)
  rw [he] at hstaffed ⊢
  exact { hstaffed, hs with
    seated := by
      intro id i hi
      have hseated := hs.seated id i hi
      refine ⟨hseated.unmounted, hseated.mounted, fun hm c' hc' => ?_⟩
      obtain ⟨c'', hc''⟩ := hs.known id i hi
      cases hc'.symm.trans (class?_cons hfresh rfl hc'')
      exact hseated.place hm c' hc'' }

theorem Housed.define [Orderly rel] (hc : c.Respects rel) : (s.define c).1.Housed rel :=
  define_keeps h fun _ _ => (h.register hc).connectTree s.document

end

/-! ### Hot updates -/

/-- An instance takes part in a hot update: it is connected, and its component was generated from the
unit. -/
def Updates (s : Page σ) (sourceId : String) (i : Instance σ) : Prop :=
  i.state = .connected ∧ ∃ c, s.class? i.cls = some c ∧ c.description.sourceId = some sourceId

section

variable (h : s.Housed rel)

include h

theorem Housed.mem_updated (sourceId : String) :
    id ∈ s.updated sourceId ↔ ∃ i, s.instance? id = some i ∧ s.Updates sourceId i :=
  mem_updated_iff h.keyed h.classKeyed

theorem Housed.recast (sourceId template : String) (styles globalStyles : Option String) :
    (s.recast sourceId template styles globalStyles).Housed rel := by
  exact { h.toStaffed.recast sourceId template styles globalStyles, h with
    seated := by
      intro id i hi
      have hseated := h.seated id i hi
      refine ⟨hseated.unmounted, hseated.mounted, fun hm c' hc' => ?_⟩
      rw [class?_recast] at hc'
      obtain ⟨c, hc, rfl⟩ := Option.map_eq_some_iff.mp hc'
      rw [shadow_recast]
      exact hseated.place hm c hc }

theorem Housed.reconnect [Orderly rel] (id : InstanceId) :
    ((s.unwire id).runConnection id true).Housed rel := by
  have hu := h.undisturbed (.unwire s id)
  cases hi : (s.unwire id).instance? id with
  | none =>
    unfold Page.runConnection
    simp only [hi]
    exact hu
  | some i =>
    obtain ⟨c, hc⟩ := hu.known id i hi
    obtain ⟨f, j, hj, -⟩ := hu.runConnection hi hc true nofun
    exact hj.housed hu hj.seated

theorem Housed.hotUpdate [Orderly rel] (sourceId template : String)
    (styles globalStyles : Option String) :
    (s.hotUpdate sourceId template styles globalStyles).1.Housed rel :=
  hotUpdate_keeps (h.recast ..) fun _ id h => h.reconnect id

end

/-! ### Time and events -/

/-- A small change disturbs no element and tells no author, or it is the call of a method. -/
theorem Ripple.undisturbed_or_call (h : Ripple s t) :
    (Undisturbed s t ∧ t.world = s.world) ∨ ∃ id i method event, s.instance? id = some i ∧
      t = (s.run (i.behaviour.call method (s.stage i) event)).1 := by
  cases h with
  | plans plans => exact .inl ⟨⟨.of_eq rfl, .refl _, rfl⟩, rfl⟩
  | scheduler scheduler => exact .inl ⟨.scheduler_only s scheduler, rfl⟩
  | addListener target event binding => exact .inl ⟨.forest_only s (.addListener ..), rfl⟩
  | wiring id hg =>
    refine .inl ⟨.update s id fun i _ => ?_, rfl⟩
    have hstill : (Instance.still _).footing = i.still.footing := congrArg Instance.footing (hg i)
    exact hstill
  | @call id i hi method event => exact .inr ⟨id, i, method, event, hi, rfl⟩

variable (h : s.Housed rel)

include h

theorem Housed.ripple [Orderly rel] (ht : Ripple s t) : t.Housed rel := by
  rcases ht.undisturbed_or_call with ⟨hu, -⟩ | ⟨id, i, method, event, hi, rfl⟩
  · exact h.undisturbed hu
  · exact h.run ((h.gentle id i hi).call method _ event)

theorem Housed.evolves [Orderly rel] (ht : Evolves s t) : t.Housed rel :=
  ht.keeps_ripples (fun hr h => h.ripple hr) h

/-! ### Runs -/

/-- What may be asked of a page when templates may be replaced and may hold themselves. Documents and
roots of hidden trees are neither appended nor taken out, and nothing is hung under itself, not even
inside its own hidden tree. -/
def Admits (s : Page σ) : Operation σ → Prop
  | .append parent child => parent < s.forest.nodes.size ∧ (s.forest.kind child).isLoose ∧
    child ∉ s.forest.eventPath parent
  | .remove node => (s.forest.kind node).isLoose
  | _ => True

/-- Each operation may be asked of the page that those before it lead to. -/
def AdmitsAll (s : Page σ) : List (Operation σ) → Prop
  | [] => True
  | op :: ops => s.Admits op ∧ (s.perform op).AdmitsAll ops

/-- Every operation that may be asked keeps a page in order, if the callbacks of the component it may
define do. -/
theorem Housed.perform [Orderly rel] {op : Operation σ} (hop : s.Admits op)
    (hc : ∀ c, op = .define c → c.Respects rel) : (s.perform op).Housed rel := by
  have hforest : ∀ {f}, s.forest.KeepsTree f → ({ s with forest := f } : Page σ).Housed rel :=
    fun hf => h.undisturbed (.forest_only s hf)
  refine perform_keeps (fun _ => h.evolves) (fun hk => hforest (.create s.forest hk))
    (fun _ => (hforest (.create s.forest rfl)).ensureInstance _)
    (fun _ _ => hforest (.updateAttributes ..)) (fun element g name old new => ?_)
    (fun element => adopt_keeps h (fun id i _ hi => h.run ((h.gentle id i hi).adopted _)) element)
    (fun _ => h.undisturbed ⟨.of_eq rfl, .refl _, rfl⟩)
    (fun c he => h.define (hc c he)) ?_ ?_ (fun _ _ _ _ _ => h.hotUpdate ..)
  · have hs := hforest (.updateAttributes s.forest element g)
    refine tellAttribute_keeps hs (fun id i _ _ hi => ?_) element name
    exact hs.run ((hs.gentle id i hi).attributeChanged _ _ _ _)
  · rintro parent child rfl
    obtain ⟨hp, hl, hn⟩ := hop
    exact h.append hp hl fun hu => hn (h.wellFormed.mem_eventPath hp hu)
  · rintro node rfl
    exact h.remove hop

/-- Every run of operations that may be asked keeps a page in order. -/
theorem Housed.performAll [Orderly rel] (ops : List (Operation σ))
    (hops : s.AdmitsAll ops) (hc : ∀ c, .define c ∈ ops → c.Respects rel) :
    (s.performAll ops).Housed rel := by
  induction ops generalizing s with
  | nil => exact h
  | cons op ops ih =>
    refine ih (h.perform hops.1 fun c he => hc c ?_) hops.2 fun c hm => hc c (List.mem_cons_of_mem _ hm)
    exact he ▸ List.mem_cons_self

omit h

theorem kind_start (world : σ) (n : NodeId) : (Page.start world).forest.kind n = .document := by
  have hnode : (Page.start world).forest.node = ({} : Forest).node := Forest.node_createDocument {}
  rw [Forest.kind, hnode]
  rfl

theorem Housed.start (world : σ) : (Page.start world).Housed rel :=
  { Staffed.start world with
    wellFormed := Forest.wellFormed_empty.of_node_eq (Nat.zero_le _) (Forest.node_createDocument {})
    document_lt := Nat.zero_lt_one
    document := kind_start world _
    element := fun _ _ hi => absurd hi instance?_start_ne
    parsed := fun _ he => absurd he List.not_mem_nil
    seated := fun _ _ hi => absurd hi instance?_start_ne }

end Page

end Componentry.Live
