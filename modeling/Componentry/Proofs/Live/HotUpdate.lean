import Componentry.Proofs.Live.Lifecycle

/-!
# Lifecycle and hot updates

A hot update takes the content out of the instances of a unit and copies the new template into them. It
goes by the tree alone: instances whose elements were in the old content are not disconnected, and
elements in the new content get no instances. So lifecycle and tree still agree afterwards exactly if
the old content held no element with an instance and the new template holds no tag with a component.
-/

namespace Componentry.Live

open Document List

variable {σ : Type}

namespace Page

variable {s t u : Page σ} {id : InstanceId} {i j : Instance σ} {n m : NodeId} {c : Component σ}
  {sourceId template : String} {styles globalStyles : Option String}

/-! ### Pages whose callbacks leave the tree alone -/

/-- The page is in order, and callbacks leave the tree alone. -/
abbrev Formed (s : Page σ) : Prop := s.Housed Forest.KeepsTree

theorem Formed.ripple_undisturbed (h : s.Formed) (ht : Ripple s t) : Undisturbed s t := by
  rcases ht.undisturbed_or_call with ⟨hu, -⟩ | ⟨id, i, method, event, hi, rfl⟩
  · exact hu
  · exact .run s ((h.gentle id i hi).call method _ event)

theorem Formed.evolves_undisturbed (h : s.Formed) (ht : Evolves s t) : Undisturbed s t := by
  refine ht.keeps_ripples (fun hstep ih => ?_) (.refl s)
  exact ih.trans (Formed.ripple_undisturbed (h.undisturbed ih) hstep)

theorem Formed.start (world : σ) : (Page.start world).Formed := Housed.start world

/-! ### Connecting instances anew -/

variable (h : s.Formed)

include h

theorem Formed.root_cases (hi : s.instance? id = some i) (hm : i.mounted = true) :
    s.forest.kind i.root = .shadow i.element ∨ i.root = i.element := by
  obtain ⟨c, hc⟩ := h.known id i hi
  have hplace := (h.seated id i hi).place hm c hc
  split at hplace
  · exact .inl hplace
  · exact .inr hplace

theorem Formed.root_lt (hi : s.instance? id = some i) (hm : i.mounted = true) :
    i.root < s.forest.nodes.size := by
  rcases h.root_cases hi hm with hk | he
  · have hp : s.forest.composedParent i.root = some i.element := by rw [Forest.composedParent, hk]
    exact Forest.lt_size_of_composedParent hp
  · exact he ▸ h.element_lt hi

theorem Formed.root_eq (ht : t.Formed) (hp : Persists s t)
    (hi : s.instance? id = some i) (hj : t.instance? id = some j) (hid : j.identity = i.identity)
    (him : i.mounted = true) (hjm : j.mounted = true) : j.root = i.root := by
  obtain ⟨c, hc⟩ := h.known id i hi
  have helement : j.element = i.element := congrArg (·.1) hid
  have hcls : j.cls = i.cls := congrArg (·.2.1) hid
  have hiplace := (h.seated id i hi).place him c hc
  have hjplace := (ht.seated id j hj).place hjm c (by rw [hp.class?_eq, hcls, hc])
  rw [helement] at hjplace
  split at hiplace
  next hs =>
    -- An element has one hidden tree.
    rw [if_pos hs] at hjplace
    have hone := (ht.wellFormed.shadow_iff _ _).mpr (hp.nodes.kind_shadow hiplace)
    have hother := (ht.wellFormed.shadow_iff _ _).mpr hjplace
    exact Option.some.inj (hother.symm.trans hone)
  next hs =>
    rw [if_neg hs] at hjplace
    exact hjplace.trans hiplace.symm

theorem Formed.reconnect_refilled (hi : s.instance? id = some i)
    (hstate : i.state = .connected) (hc : s.class? i.cls = some c) :
    let t := (s.unwire id).runConnection id true
    Persists s t ∧ KeepsInstances Instance.footing s t ∧
      s.forest.Refilled t.forest i.root c.tags := by
  intro t
  have hmounted := (h.seated id i hi).mounted hstate
  have hunwired := Undisturbed.unwire s id
  have hu : (s.unwire id).Formed := h.undisturbed hunwired
  obtain ⟨i', hi', hfoot⟩ := hunwired.instances.some hi
  have hcls : i'.cls = i.cls := congrArg (·.1.2.1) hfoot
  have hroot : i'.root = i.root := congrArg (·.2.1) hfoot
  have hmounted' : i'.mounted = true := (congrArg (·.2.2.mounted) hfoot).trans hmounted
  have hstate' : i'.state = .connected := (congrArg (·.2.2.state) hfoot).trans hstate
  have hc' : (s.unwire id).class? i'.cls = some c := by
    rw [hunwired.class?_eq, hcls, hc]
  obtain ⟨f, j, hr, hrefilled, -⟩ := hu.runConnection hi' hc' true nofun
  have ht : t.Formed := hr.housed hu hr.seated
  have hj : j.state = .connected := hr.state
  have hjm := hr.seated.mounted hj
  obtain ⟨k, hk, hid⟩ := hr.persists.instances.of_some hr.stored
  cases hi'.symm.trans hk
  have hjroot := hu.root_eq ht hr.persists hi' hr.stored hid hmounted' hjm
  have hjfoot : j.footing = i'.footing := by
    have hjcls : j.cls = i'.cls := congrArg (·.2.1) hid
    unfold Instance.footing Instance.standing
    rw [hid, hjroot, hjcls, hj, hjm, hstate', hmounted']
  have hkeeps : KeepsInstances Instance.footing (s.unwire id) t := by
    refine ⟨hr.persists.instances.keys, fun id' => ?_⟩
    by_cases he : id' = id
    · subst he
      rw [hr.stored, hi', Option.map_some, Option.map_some, hjfoot]
    · exact hr.others id' he
  refine ⟨(hunwired.persists h.wellFormed).trans hr.persists, hunwired.instances.trans hkeeps, ?_⟩
  exact .of_keepsTree hunwired.tree h.wellFormed (h.root_lt hi hmounted)
    ((hroot ▸ hrefilled rfl hmounted').keepsTree (hr.keepsTree (hu.gentle id i' hi') fun h => h))

/-- The places of the contents of instances. -/
def roots (s : Page σ) (ids : List InstanceId) : List NodeId :=
  ids.filterMap fun id => (s.instance? id).map Instance.root

theorem Formed.reconnectAll {tags : List String} (ids : List InstanceId)
    (hids : ∀ id ∈ ids, ∃ i c, s.instance? id = some i ∧ i.state = .connected ∧
      s.class? i.cls = some c ∧ c.tags = tags) :
    let t := ids.foldl (fun t id => (t.unwire id).runConnection id true) s
    t.Formed ∧ Persists s t ∧ KeepsInstances Instance.footing s t ∧
      Forest.RefilledAll tags s.forest (s.roots ids) t.forest := by
  induction ids generalizing s with
  | nil => exact ⟨h, (Undisturbed.refl s).persists h.wellFormed, .refl s, .nil _⟩
  | cons id ids ih =>
    obtain ⟨i, c, hi, hstate, hc, rfl⟩ := hids id (.head _)
    obtain ⟨hp, hk, hrefilled⟩ := h.reconnect_refilled hi hstate hc
    have hnext : ∀ id' ∈ ids, ∃ j c', ((s.unwire id).runConnection id true).instance? id' = some j ∧
        j.state = .connected ∧ ((s.unwire id).runConnection id true).class? j.cls = some c' ∧
        c'.tags = c.tags := by
      intro id' hid'
      obtain ⟨i', c', hi', hstate', hc', htags⟩ := hids id' (.tail _ hid')
      obtain ⟨j, hj, hfoot⟩ := hk.some hi'
      have hcls : j.cls = i'.cls := congrArg (·.1.2.1) hfoot
      refine ⟨j, c', hj, (congrArg (·.2.2.state) hfoot).trans hstate', ?_, htags⟩
      rw [hp.class?_eq, hcls, hc']
    obtain ⟨ht, hp', hk', hall⟩ := ih (h.reconnect id) hnext
    refine ⟨ht, hp.trans hp', hk.trans hk', ?_⟩
    have hroots : s.roots (id :: ids) =
        i.root :: ((s.unwire id).runConnection id true).roots ids := by
      have hsame : (fun id' => (s.instance? id').map Instance.root) = fun id' =>
          (((s.unwire id).runConnection id true).instance? id').map Instance.root :=
        funext fun id' => ((hk.map (·.2.1)).same id').symm
      unfold roots
      rw [filterMap_cons, hi, hsame]
      rfl
    rw [hroots]
    exact .cons hrefilled hall

/-! ### What a hot update does -/

/-- A node is in the content that a hot update takes out. -/
def Replaced (s : Page σ) (sourceId : String) (n : NodeId) : Prop :=
  ∃ id i, s.instance? id = some i ∧ s.Updates sourceId i ∧ s.forest.Inside i.root n

/-- The instances that take part in a hot update are refilled, and all instances keep their
footing. -/
structure Refills (s t : Page σ) (sourceId : String) (tags : List String) (f : Forest) : Prop where
  formed : t.Formed
  /-- Instances keep their footing. -/
  instances : KeepsInstances Instance.footing s t
  /-- Elements keep their instances, and no other has one. -/
  owners : t.owners = s.owners
  /-- Tags keep their components. -/
  registry : t.registry = s.registry
  document : t.document = s.document
  /-- Contents are refilled one after the other. -/
  all : Forest.RefilledAll tags s.forest (s.roots (s.updated sourceId)) f
  tree : f.KeepsTree t.forest

theorem Formed.hotUpdate_refilled (sourceId template : String)
    (styles globalStyles : Option String) :
    ∃ f, s.Refills (s.hotUpdate sourceId template styles globalStyles).1.runMicrotasks.1 sourceId
      (Markup.FragmentNode.tagsAll (Markup.parse template)) f := by
  have hids : ∀ id ∈ s.updated sourceId, ∃ i c,
      (s.recast sourceId template styles globalStyles).instance? id = some i ∧ i.state = .connected ∧
      (s.recast sourceId template styles globalStyles).class? i.cls = some c ∧
      c.tags = Markup.FragmentNode.tagsAll (Markup.parse template) := by
    intro id hid
    obtain ⟨i, hi, hstate, c, hc, hsource⟩ := (h.mem_updated sourceId).mp hid
    refine ⟨i, replaced template styles globalStyles c, hi, hstate, ?_, rfl⟩
    rw [class?_recast, hc]
    simp [hsource]
  have hrecast : (s.recast sourceId template styles globalStyles).Formed := h.recast ..
  obtain ⟨hu, hp, hk, hall⟩ := hrecast.reconnectAll (s.updated sourceId) hids
  have hmicro : Undisturbed (s.hotUpdate sourceId template styles globalStyles).1
      (s.hotUpdate sourceId template styles globalStyles).1.runMicrotasks.1 :=
    hu.evolves_undisturbed (runMicrotasksUpTo_evolves ..)
  exact ⟨_,
    { formed := hu.undisturbed hmicro
      instances := KeepsInstances.trans ⟨hk.keys, hk.same⟩ hmicro.instances
      owners := hmicro.owners.trans hp.owners
      registry := hmicro.registry.trans hp.registry
      document := hmicro.document.trans hp.document
      all := hall
      tree := hmicro.tree }⟩

theorem Formed.mem_roots (sourceId : String) : n ∈ s.roots (s.updated sourceId) ↔
      ∃ id i, s.instance? id = some i ∧ s.Updates sourceId i ∧ i.root = n := by
  unfold roots
  simp only [mem_filterMap, Option.map_eq_some_iff, h.mem_updated]
  constructor
  · rintro ⟨id, ⟨i, hi, hu⟩, i', hi', rfl⟩
    cases hi.symm.trans hi'
    exact ⟨id, i, hi, hu, rfl⟩
  · rintro ⟨id, i, hi, hu, rfl⟩
    exact ⟨id, ⟨i, hi, hu⟩, i, hi, rfl⟩

theorem Formed.inside_element (hi : s.instance? id = some i) (hm : i.mounted = true)
    (hin : s.forest.Inside n i.root) : s.forest.Inside n i.element := by
  rcases h.root_cases hi hm with hk | he
  · obtain ⟨c, hc, hu⟩ := hin
    have hparent : s.forest.composedParent i.root = some i.element := by rw [Forest.composedParent, hk]
    have hne : i.root ≠ c := by
      rintro rfl
      have hinner := h.wellFormed.inner _ n ((h.wellFormed.child_iff n _).mp hc)
      rw [hk] at hinner
      cases hinner
    obtain ⟨p, hp, hu⟩ := hu.parent hne
    cases hparent.symm.trans hp
    exact ⟨c, hc, hu⟩
  · exact he ▸ hin

theorem Formed.under_document (hagrees : ∀ id i, s.instance? id = some i →
      (i.state = .connected ↔ s.forest.rootOf i.element = s.document))
    (hi : s.instance? id = some i) (hstate : i.state = .connected) :
    s.forest.Under s.document i.root := by
  have helement := h.rootOf_eq_document.mp ((hagrees id i hi).mp hstate)
  rcases h.root_cases hi ((h.seated id i hi).mounted hstate) with hk | he
  · exact helement.step (by rw [Forest.composedParent, hk])
  · exact he ▸ helement

omit h

/-! ### Lifecycle and tree after a hot update -/

/-- Lifecycle follows the tree over a hot update. -/
structure FollowsUpdate (s t : Page σ) (sourceId : String) : Prop where
  /-- Instances whose elements were in the old content are not connected and have no listeners. -/
  released : ∀ id i, s.instance? id = some i → s.Replaced sourceId i.element →
    ∃ j, t.instance? id = some j ∧ j.state ≠ .connected ∧ j.listeners = []
  /-- Elements in the new content whose tags have components have connected instances. -/
  taken : ∀ n tag cls, s.forest.nodes.size ≤ n → t.forest.rootOf n = t.document →
    t.forest.tag? n = some tag → t.registry.find? tag = some cls →
    ∃ id j, t.owner? n = some id ∧ t.instance? id = some j ∧ j.state = .connected

section Refills

variable {tags : List String} {tag : String} {f : Forest}

variable (hr : s.Refills t sourceId tags f)

include hr

theorem Refills.rootOf_eq_document : t.forest.rootOf n = t.document ↔ f.Under s.document n := by
  rw [hr.formed.rootOf_eq_document, InDocument, hr.document]
  exact hr.tree.under_iff

theorem Refills.replaced_leaves (h : s.Formed)
    (hn : s.Replaced sourceId n) : t.forest.rootOf n ≠ t.document := by
  obtain ⟨id, i, hi, hu, hin⟩ := hn
  intro hlive
  have hroot := (h.mem_roots sourceId).mpr ⟨id, i, hi, hu, rfl⟩
  exact hr.all.not_under h.wellFormed h.document_root h.document_lt hroot hin
    (hr.rootOf_eq_document.mp hlive)

/-- A tag in the document that was not there is one of the new template, and some instance takes
part. -/
theorem Refills.mem_tags (h : s.Formed)
    (hn : s.forest.nodes.size ≤ n) (hlive : t.forest.rootOf n = t.document)
    (htag : t.forest.tag? n = some tag) :
    tag ∈ tags ∧ ∃ id i, s.instance? id = some i ∧ s.Updates sourceId i := by
  have hne : n ≠ s.document := fun he => hn.not_gt (he ▸ h.document_lt)
  obtain ⟨p, hp, -⟩ := (hr.rootOf_eq_document.mp hlive).parent hne
  have hnf := Forest.lt_size_of_composedParent hp
  have hall := hr.all
  refine ⟨hall.tag_new hn hp ((hr.tree.extends.tag_eq hnf).symm.trans htag), ?_⟩
  cases hroots : s.roots (s.updated sourceId) with
  | nil =>
    rw [hroots] at hall
    cases hall
    exact absurd hnf hn.not_gt
  | cons r rs =>
    obtain ⟨id, i, hi, hu, -⟩ := (h.mem_roots sourceId).mp (hroots ▸ mem_cons_self)
    exact ⟨id, i, hi, hu⟩

omit hr

variable (hagrees : ∀ id i, s.instance? id = some i →
  (i.state = .connected ↔ s.forest.rootOf i.element = s.document))

include hagrees

theorem Formed.replaced_under (h : s.Formed) (hn : s.Replaced sourceId n) :
    s.forest.Under s.document n := by
  obtain ⟨id, i, hi, hu, c, hc, hin⟩ := hn
  have hroot := h.under_document hagrees hi hu.1
  exact (hroot.step (h.wellFormed.composedParent_of_child hc)).trans hin

variable (hr : s.Refills t sourceId tags f)

include hr

theorem Refills.not_replaced (h : s.Formed)
    (hf : s.FollowsUpdate t sourceId) (hi : s.instance? id = some i) :
    ¬ s.Replaced sourceId i.element := by
  intro hn
  obtain ⟨j, hj, hstate, -⟩ := hf.released id i hi hn
  obtain ⟨j', hj', hfoot⟩ := hr.instances.some hi
  cases hj.symm.trans hj'
  have hsame : j.state = i.state := congrArg (·.2.2.state) hfoot
  have hlive := h.rootOf_eq_document.mpr (h.replaced_under hagrees hn)
  exact hstate (hsame.trans ((hagrees id i hi).mpr hlive))

/-- If some instance takes part, and none in another, each tag of the new template is in the
document. -/
theorem Refills.exists_copy (h : s.Formed)
    (hnone : ∀ id i, s.instance? id = some i → ¬ s.Replaced sourceId i.element)
    (hi : s.instance? id = some i) (hu : s.Updates sourceId i) (htag : tag ∈ tags) :
    ∃ n, s.forest.nodes.size ≤ n ∧ t.forest.rootOf n = t.document ∧
      t.forest.tag? n = some tag := by
  have hroots : ∀ r ∈ s.roots (s.updated sourceId), s.forest.Under s.document r ∧
      ∀ r' ∈ s.roots (s.updated sourceId), ¬ s.forest.Inside r' r := by
    intro r hr
    obtain ⟨id, i, hi, hu, rfl⟩ := (h.mem_roots sourceId).mp hr
    refine ⟨h.under_document hagrees hi hu.1, fun r' hr' hin => ?_⟩
    obtain ⟨id', i', hi', hu', rfl⟩ := (h.mem_roots sourceId).mp hr'
    have hmounted := (h.seated _ _ hi).mounted hu.1
    exact hnone id i hi ⟨id', i', hi', hu', h.inside_element hi hmounted hin⟩
  have hne := ne_nil_of_mem ((h.mem_roots sourceId).mpr ⟨id, i, hi, hu, rfl⟩)
  obtain ⟨n, hn, hunder, hnt⟩ := hr.all.copied h.wellFormed h.document_lt hne hroots htag
  exact ⟨n, hn, hr.rootOf_eq_document.mpr hunder,
    (hr.tree.extends.tag_eq (Forest.lt_size_of_tag? hnt)).trans hnt⟩

theorem Refills.find?_eq_none (h : s.Formed)
    (hf : s.FollowsUpdate t sourceId) (hi : s.instance? id = some i) (hu : s.Updates sourceId i)
    (htag : tag ∈ tags) : s.registry.find? tag = none := by
  obtain ⟨n, hn, hlive, htagt⟩ :=
    hr.exists_copy hagrees h (fun _ _ hi => hr.not_replaced hagrees h hf hi) hi hu htag
  rw [← hr.registry]
  cases hfind : t.registry.find? tag with
  | none => rfl
  | some cls =>
    obtain ⟨id', j, ho, -, -⟩ := hf.taken n tag cls hn hlive htagt hfind
    have howner : s.owner? n = some id' := by
      rw [← ho, owner?, owner?, hr.owners]
    exact absurd (h.lt_size_of_owner? howner) hn.not_gt

end Refills

/-- Over every run in which callbacks leave the tree alone and nothing is hung under itself, and from
every page of it where instances are connected exactly while they stand in the document: a hot update
takes the old content out of the document, and lifecycle follows the tree over it exactly if no element
in the old content has an instance and, unless no instance takes part, no tag in the new template has
a component. -/
theorem hotUpdate_follows_iff (world : σ) (ops : List (Operation σ))
    (hgentle : ∀ c, .define c ∈ ops → c.Respects Forest.KeepsTree)
    (hadmitted : (Page.start world).AdmitsAll ops)
    (hagrees : ∀ id i, ((Page.start world).performAll ops).instance? id = some i →
      (i.state = .connected ↔ ((Page.start world).performAll ops).forest.rootOf i.element =
        ((Page.start world).performAll ops).document)) (sourceId template : String)
    (styles globalStyles : Option String) :
    let s := (Page.start world).performAll ops
    let t := (s.hotUpdate sourceId template styles globalStyles).1.runMicrotasks.1
    (∀ n, s.Replaced sourceId n → t.forest.rootOf n ≠ t.document) ∧
    (s.FollowsUpdate t sourceId ↔
      (∀ id i, s.instance? id = some i → ¬ s.Replaced sourceId i.element) ∧
      ((∃ id i, s.instance? id = some i ∧ s.Updates sourceId i) →
        ∀ tag ∈ Markup.FragmentNode.tagsAll (Markup.parse template), s.registry.find? tag = none)) := by
  intro s t
  have h : s.Formed := (Formed.start world).performAll ops hadmitted hgentle
  obtain ⟨f, hr⟩ := h.hotUpdate_refilled sourceId template styles globalStyles
  refine ⟨fun n hn => hr.replaced_leaves h hn, fun hf => ⟨fun id i hi => ?_, ?_⟩, ?_⟩
  · exact hr.not_replaced hagrees h hf hi
  · rintro ⟨id, i, hi, hu⟩ tag htag
    exact hr.find?_eq_none hagrees h hf hi hu htag
  · rintro ⟨hnone, htags⟩
    refine ⟨fun id i hi hn => absurd hn (hnone id i hi), fun n tag cls hn hlive htag hfind => ?_⟩
    obtain ⟨hmem, hsome⟩ := hr.mem_tags h hn hlive htag
    have hregistry : t.registry = s.registry := hr.registry
    rw [hregistry, htags hsome tag hmem] at hfind
    cases hfind

/-- A frame around some content, generated from a unit. -/
def framing (template : String) : Component Unit :=
  .still { tag := "x-frame", template, sourceId := some "/frame.sfc" }

/-- A frame around some content is hung up where pictures are known. -/
def framed (template : String) : List (Operation Unit) :=
  [.define picture, .define (framing template), .createElement "x-frame", .append 0 1, .advance 0]

theorem framed_gentle (template : String) :
    ∀ c, .define c ∈ framed template → c.Respects Forest.KeepsTree := by
  intro c hc
  simp only [framed, mem_cons, not_mem_nil, or_false, reduceCtorEq, Operation.define.injEq] at hc
  rcases hc with rfl | rfl
  · exact Component.respects_still .refl _
  · exact Component.respects_still .refl _

/-- A run that hangs up a frame is one that hot updates are asked about, whatever the frame holds. -/
theorem framed_agrees {template : String}
    (h : template = "<p>old</p>" ∨ template = "<x-picture></x-picture>") :
    let s := (Page.start ()).performAll (framed template)
    (Page.start ()).AdmitsAll (framed template) ∧ ∀ id i, s.instance? id = some i →
      (i.state = .connected ↔ s.forest.rootOf i.element = s.document) := by
  intro s
  have hall : ∀ x ∈ s.instances,
      (x.2.state = .connected ↔ s.forest.rootOf x.2.element = s.document) := by
    rcases h with rfl | rfl <;> decide +kernel
  refine ⟨⟨trivial, trivial, trivial, ?_, trivial, trivial⟩, fun id i hi => ?_⟩
  · unfold Admits
    rcases h with rfl | rfl <;> decide +kernel
  · exact hall _ (mem_of_instance? hi)

/-- A picture in the old content stays connected outside the document, and one in the new content has
no instance inside it. -/
theorem hotUpdate_forgets_picture :
    let s := (Page.start ()).performAll (framed "<x-picture></x-picture>")
    let t := (s.hotUpdate "/frame.sfc" "<x-picture id=\"new\"></x-picture>" none none).1.runMicrotasks.1
    ((∀ c, .define c ∈ framed "<x-picture></x-picture>" → c.Respects Forest.KeepsTree) ∧
      (Page.start ()).AdmitsAll (framed "<x-picture></x-picture>") ∧
      ∀ id i, s.instance? id = some i →
        (i.state = .connected ↔ s.forest.rootOf i.element = s.document)) ∧
    ¬ s.FollowsUpdate t "/frame.sfc" ∧
      (t.instanceOf? 2).map Instance.state = some .connected ∧ t.forest.rootOf 2 ≠ t.document ∧
      t.forest.rootOf 3 = t.document ∧ t.forest.tag? 3 = some "x-picture" ∧ t.owner? 3 = none := by
  intro s t
  have hnew : t.forest.rootOf 3 = t.document ∧ t.forest.tag? 3 = some "x-picture" ∧
      t.owner? 3 = none ∧ s.forest.nodes.size = 3 := by decide +kernel
  obtain ⟨hroot, htag, howner, hsize⟩ := hnew
  have hfind : ∃ cls, t.registry.find? "x-picture" = some cls := ⟨1, by decide +kernel⟩
  refine ⟨⟨framed_gentle _, framed_agrees (.inr rfl)⟩, fun hf => ?_, by decide +kernel,
    by decide +kernel, hroot, htag, howner⟩
  obtain ⟨cls, hcls⟩ := hfind
  obtain ⟨id, j, ho, -, -⟩ := hf.taken 3 _ cls hsize.le hroot htag hcls
  rw [howner] at ho
  cases ho

/-- A frame around a paragraph gets another text, and lifecycle follows the tree. -/
theorem hotUpdate_follows_iff_paragraph : let s := (Page.start ()).performAll (framed "<p>old</p>")
    (∀ c, .define c ∈ framed "<p>old</p>" → c.Respects Forest.KeepsTree) ∧
    (Page.start ()).AdmitsAll (framed "<p>old</p>") ∧
    (∀ id i, s.instance? id = some i →
      (i.state = .connected ↔ s.forest.rootOf i.element = s.document)) ∧
    s.updated "/frame.sfc" = [3] ∧
    s.FollowsUpdate (s.hotUpdate "/frame.sfc" "<p>new</p>" none none).1.runMicrotasks.1
      "/frame.sfc" := by
  intro s
  have hgentle := framed_gentle "<p>old</p>"
  obtain ⟨hadmitted, hagrees⟩ := framed_agrees (.inl rfl)
  have hiff := (hotUpdate_follows_iff () (framed "<p>old</p>") hgentle hadmitted hagrees
    "/frame.sfc" "<p>new</p>" none none).2
  refine ⟨hgentle, hadmitted, hagrees, by decide +kernel, hiff.mpr ⟨fun id i hi => ?_, fun _ => ?_⟩⟩
  · -- The only instance is the frame, and it holds no instance.
    have hframe : ∀ x ∈ s.instances, x.2.element = 1 ∧ x.2.root = 1 := by decide +kernel
    rintro ⟨id', i', hi', -, c, hc, hu⟩
    have hnot : ∀ c ∈ s.forest.children 1, c ∉ s.forest.eventPath 1 := by decide +kernel
    rw [(hframe _ (mem_of_instance? hi')).2] at hc
    rw [(hframe _ (mem_of_instance? hi)).1] at hu
    have hwf := ((Formed.start ()).performAll _ hadmitted hgentle).wellFormed
    exact hnot c hc (hwf.mem_eventPath (by decide +kernel) hu)
  · decide +kernel

end Page

end Componentry.Live
