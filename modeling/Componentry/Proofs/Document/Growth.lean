import Componentry.Proofs.Document.Rearrange

/-!
# Growing forests

A forest grows when new nodes are made and the old ones stay where they are. Copying a fragment under
a node and giving it a hidden tree are growth of this kind, and every new node comes under that node,
no further down than the fragment is high.
-/

namespace Componentry.Markup

open List

mutual

def FragmentNode.tags : FragmentNode → List String
  | .element tag _ children => tag.toLower :: FragmentNode.tagsAll children
  | .text _ | .comment _ => []

/-- The tags that the elements of a list of trees are made with. -/
def FragmentNode.tagsAll : List FragmentNode → List String
  | [] => []
  | n :: rest => n.tags ++ FragmentNode.tagsAll rest

end

end Componentry.Markup

namespace Componentry.Document

open List

open Markup (FragmentNode)

theorem Kind.bare_eq_document {k : Kind} : k.bare = .document ↔ k = .document := by
  cases k <;> simp [bare]

namespace Forest

variable {f g h : Forest} {a c m n p r root host element : NodeId} {k : Nat} {tags : List String}
  {levels : Nat} {shadow : Bool}

/-! ### Nodes that persist -/

/-- No node is given up, and nodes are what they were, but for attributes and text. -/
structure KeepsNodes (f g : Forest) : Prop where
  size_le : f.nodes.size ≤ g.nodes.size
  kind_eq : ∀ n < f.nodes.size, (g.kind n).bare = (f.kind n).bare

theorem SameNodes.keepsNodes (h : f.SameNodes g) : f.KeepsNodes g :=
  ⟨h.size_eq.symm.le, fun n _ => by rw [h.kind_eq]⟩

namespace KeepsNodes

theorem refl (f : Forest) : f.KeepsNodes f := ⟨le_rfl, fun _ _ => rfl⟩

theorem trans (hfg : f.KeepsNodes g) (hgh : g.KeepsNodes h) : f.KeepsNodes h :=
  ⟨hfg.size_le.trans hgh.size_le, fun n hn =>
    (hgh.kind_eq n (hn.trans_le hfg.size_le)).trans (hfg.kind_eq n hn)⟩

theorem lt_size (h : f.KeepsNodes g) (hn : n < f.nodes.size) : n < g.nodes.size :=
  hn.trans_le h.size_le

theorem tag_eq (h : f.KeepsNodes g) (hn : n < f.nodes.size) : g.tag? n = f.tag? n := by
  have hk := h.kind_eq n hn
  unfold tag?
  cases hf : f.kind n <;> cases hg : g.kind n <;> simp_all [Kind.bare]

theorem kind_shadow (h : f.KeepsNodes g) (hn : f.kind n = .shadow host) : g.kind n = .shadow host := by
  rw [← Kind.bare_eq_shadow, h.kind_eq n (lt_size_of_shadow hn), hn]
  rfl

theorem isInner_eq (h : f.KeepsNodes g) (hn : n < f.nodes.size) :
    (g.kind n).isInner = (f.kind n).isInner := by
  rw [← Kind.isInner_bare, h.kind_eq n hn, Kind.isInner_bare]

theorem placed (h : f.KeepsNodes g)
    (hplace : if shadow then f.kind root = .shadow element else root = element) :
    if shadow then g.kind root = .shadow element else root = element := by
  cases shadow with
  | true => exact h.kind_shadow hplace
  | false => exact hplace

theorem document_iff (h : f.KeepsNodes g) (hn : n < f.nodes.size) :
    g.kind n = .document ↔ f.kind n = .document := by
  rw [← Kind.bare_eq_document, h.kind_eq n hn, Kind.bare_eq_document]

end KeepsNodes

/-! ### Old nodes stay where they are -/

/-- There are more nodes, and the old ones have the composed parents they had. -/
structure Extends (f g : Forest) : Prop extends KeepsNodes f g where
  parent_eq : ∀ n < f.nodes.size, g.composedParent n = f.composedParent n

namespace Extends

theorem refl (f : Forest) : f.Extends f := ⟨.refl f, fun _ _ => rfl⟩

theorem trans (hfg : f.Extends g) (hgh : g.Extends h) : f.Extends h :=
  ⟨hfg.toKeepsNodes.trans hgh.toKeepsNodes, fun n hn =>
    (hgh.parent_eq n (hfg.lt_size hn)).trans (hfg.parent_eq n hn)⟩

variable (he : f.Extends g)

include he

theorem ascend_eq (hf : f.WellFormed) (hn : n < f.nodes.size) (k : Nat) :
    g.ascend k n = f.ascend k n :=
  ascend_eq_of (· < f.nodes.size) hn (fun n hn => ⟨he.parent_eq n hn, hf.inside n⟩) k

theorem under_iff (hf : f.WellFormed) (hn : n < f.nodes.size) : g.Under a n ↔ f.Under a n := by
  simp [Under, he.ascend_eq hf hn]

theorem under (hu : f.Under a n) : g.Under a n :=
  hu.of_links fun n _ hp => (he.parent_eq n (lt_size_of_composedParent hp)).trans hp

end Extends

theorem KeepsTree.extends (hk : f.KeepsTree g) : f.Extends g :=
  ⟨⟨hk.size_le, fun n hn => congrArg Shape.kind (hk.shape_eq n hn)⟩, fun n _ => hk.composedParent_eq n⟩

theorem KeepsTree.fresh (hk : f.KeepsTree g) (hn : f.nodes.size ≤ n) (hlt : n < g.nodes.size) :
    g.composedParent n = none ∧ g.kind n ≠ .document := by
  obtain ⟨k, hl, hs⟩ := hk.loose n hn hlt
  refine ⟨?_, fun he => ?_⟩
  · rw [composedParent_eq_shape, hs]
    cases k with
    | shadow host => cases hl
    | _ => rfl
  · have hb : (g.kind n).bare = k := congrArg Shape.kind hs
    rw [he] at hb
    subst hb
    cases hl

/-! ### New nodes under a node -/

/-- A node is fewer than so many levels under a root; it is no document, and if it is an element it has
one of the tags. -/
structure Offspring (g : Forest) (root : NodeId) (levels : Nat) (tags : List String) (n : NodeId) :
    Prop where
  under : ∃ k < levels, g.ascend k n = some root
  kind : g.kind n ≠ .document
  tag : ∀ tag, g.tag? n = some tag → tag ∈ tags

/-- The forest grows, and every new node is offspring of a root. -/
structure Grown (f g : Forest) (root : NodeId) (levels : Nat) (tags : List String) : Prop where
  wellFormed : g.WellFormed
  /-- Old nodes stay where they are. -/
  extends_ : f.Extends g
  fresh : ∀ n, f.nodes.size ≤ n → n < g.nodes.size → g.Offspring root levels tags n

namespace Grown

variable {levels levels' : Nat} {tags tags' : List String}

theorem refl (hf : f.WellFormed) (root : NodeId) (levels : Nat) (tags : List String) :
    f.Grown f root levels tags :=
  ⟨hf, .refl f, fun _ hn hlt => absurd hlt hn.not_gt⟩

theorem trans (hfg : f.Grown g root levels tags) (hgh : g.Grown h c levels' tags')
    (hc : c < g.nodes.size) (j : Nat) (hj : g.ascend j c = some root) {total : Nat}
    (hlevels : levels ≤ total) (hlevels' : levels' + j ≤ total) :
    f.Grown h root total (tags ++ tags') := by
  refine ⟨hgh.wellFormed, hfg.extends_.trans hgh.extends_, fun n hn hlt => ?_⟩
  by_cases hg : n < g.nodes.size
  · obtain ⟨⟨k, hk, ha⟩, hkind, htag⟩ := hfg.fresh n hn hg
    refine ⟨⟨k, hk.trans_le hlevels, ?_⟩, ?_, fun tag ht => ?_⟩
    · rwa [hgh.extends_.ascend_eq hfg.wellFormed hg]
    · rwa [ne_eq, hgh.extends_.document_iff hg]
    · exact mem_append_left _ (htag tag (hgh.extends_.tag_eq hg ▸ ht))
  · obtain ⟨⟨k, hk, ha⟩, hkind, htag⟩ := hgh.fresh n (not_lt.mp hg) hlt
    refine ⟨⟨k + j, by omega, ?_⟩, hkind, fun tag ht => mem_append_right _ (htag tag ht)⟩
    rw [ascend_add, ha, ← hj]
    exact hgh.extends_.ascend_eq hfg.wellFormed hc j

theorem of_keepsTree (hf : f.WellFormed) (hk : f.KeepsTree g)
    (hsize : g.nodes.size = f.nodes.size + 1) (hlevels : 0 < levels)
    (htag : ∀ tag, g.tag? f.nodes.size = some tag → tag ∈ tags) :
    f.Grown g f.nodes.size levels tags := by
  refine ⟨hk.wellFormed hf, hk.extends, fun n hn hlt => ?_⟩
  obtain rfl : n = f.nodes.size := by omega
  exact ⟨⟨0, hlevels, rfl⟩, (hk.fresh hn hlt).2, htag⟩

theorem kind_of_keepsTree (hg : f.Grown g root levels tags) (hk : g.KeepsTree h) (n : NodeId)
    (hn : f.nodes.size ≤ n) (hlt : n < h.nodes.size) : h.kind n ≠ .document := by
  by_cases hng : n < g.nodes.size
  · rw [ne_eq, hk.extends.document_iff hng]
    exact (hg.fresh n hn hng).kind
  · exact (hk.fresh (not_lt.mp hng) hlt).2

end Grown

theorem DifferAt.ascend_to (hd : f.DifferAt g c) (hf : f.WellFormed) (ha : f.ascend k n = some c) :
    g.ascend k n = some c := by
  induction k generalizing n with
  | zero => exact ha
  | succ k ih =>
    have hne : n ≠ c := by
      rintro rfl
      cases hf.ascend_self ha
    obtain ⟨p, hp, hk⟩ := Option.bind_eq_some_iff.mp ha
    rw [ascend, hd n hne, hp]
    exact ih hk

/-- There is a new element of every tag. -/
def Copied (f g : Forest) (tags : List String) : Prop :=
  ∀ tag ∈ tags, ∃ n, f.nodes.size ≤ n ∧ g.tag? n = some tag

theorem Copied.keep (hc : f.Copied g tags) (hk : g.KeepsNodes h) : f.Copied h tags := by
  intro tag htag
  obtain ⟨n, hn, ht⟩ := hc tag htag
  exact ⟨n, hn, (hk.tag_eq (lt_size_of_tag? ht)).trans ht⟩

theorem Copied.append {tags' : List String} (hfg : f.Copied g tags) (hgh : g.Copied h tags')
    (hf : f.Extends g) (hg : g.Extends h) : f.Copied h (tags ++ tags') :=
  forall_mem_append.mpr ⟨hfg.keep hg.toKeepsNodes, fun tag htag => (hgh tag htag).imp fun _ =>
    .imp_left (hf.size_le.trans)⟩

/-- A forest has sprouted a tree: all new nodes are under the first of them, which can be a child. -/
structure Sprouted (f g : Forest) (levels : Nat) (tags : List String) : Prop where
  /-- New nodes are under the first. -/
  grown : f.Grown g f.nodes.size levels tags
  /-- The first new node is there. -/
  lt_size : f.nodes.size < g.nodes.size
  /-- The first new node can be a child. -/
  inner : (g.kind f.nodes.size).isInner
  copied : f.Copied g tags

theorem Sprouted.append (hs : f.Sprouted g levels tags)
    (hf : f.WellFormed) (hroot : root < f.nodes.size) :
    f.Grown (g.append root f.nodes.size) root (levels + 1) tags ∧
      f.Copied (g.append root f.nodes.size) tags := by
  obtain ⟨hg, hlt, hi, hcopied⟩ := hs
  have hnot : ¬ g.Under f.nodes.size root := by
    rw [hg.extends_.under_iff hf hroot]
    rintro ⟨k, hk⟩
    exact lt_irrefl _ (hf.ascend_lt_size hroot hk)
  have hne : g.kind f.nodes.size ≠ .fragment := by
    intro he
    rw [he] at hi
    cases hi
  have hmoved := hg.wellFormed.append hlt (hg.extends_.lt_size hroot)
    (fun _ => hi) hnot
  rw [movedBy_of_ne_fragment hne] at hmoved
  have hdiffer : g.DifferAt (g.append root f.nodes.size) f.nodes.size := by
    intro n hn
    rw [hmoved.composedParent_eq, if_neg (by simpa using hn)]
  refine ⟨⟨hmoved.wellFormed, ⟨hg.extends_.toKeepsNodes.trans hmoved.same.keepsNodes, fun n hn => ?_⟩,
    fun n hn hlt' => ?_⟩, hcopied.keep hmoved.same.keepsNodes⟩
  · rw [hdiffer n hn.ne]
    exact hg.extends_.parent_eq n hn
  · obtain ⟨⟨k, hk, ha⟩, hkind, htag⟩ := hg.fresh n hn (hmoved.same.size_eq ▸ hlt')
    refine ⟨⟨k + 1, Nat.succ_lt_succ hk, ascend_succ_eq_some.mpr ⟨f.nodes.size, ?_, ?_⟩⟩, ?_, ?_⟩
    · exact hdiffer.ascend_to hg.wellFormed ha
    · rw [hmoved.composedParent_eq, if_pos mem_cons_self]
    · rwa [hmoved.same.kind_eq]
    · rwa [tag?, hmoved.same.kind_eq]

/-! ### Copies of fragments -/

theorem Sprouted.create (hf : f.WellFormed) {kind : Kind} (hi : kind.isInner)
    (htag : ∀ tag, tag ∈ tags ↔ ∃ attributes, kind = .element tag attributes) :
    f.Sprouted (f.create kind).1 1 tags := by
  have hnew : (f.create kind).1.kind f.nodes.size = kind := by
    rw [Forest.kind, node_create, if_pos rfl]
  have hsize := size_create f kind
  have hread : ∀ tag, (f.create kind).1.tag? f.nodes.size = some tag ↔ tag ∈ tags := by
    intro tag
    rw [tag?, hnew, htag]
    cases kind <;> simp
  exact ⟨.of_keepsTree hf (.create f (Kind.isLoose_of_isInner hi)) hsize Nat.one_pos fun tag =>
    (hread tag).mp, Nat.lt_of_lt_of_eq (Nat.lt_add_one _) hsize.symm, by rw [hnew]; exact hi,
    fun tag ht => ⟨_, le_rfl, (hread tag).mpr ht⟩⟩

theorem Sprouted.keepsTree (hs : f.Sprouted g levels tags)
    (hk : g.KeepsTree h) (hsize : h.nodes.size = g.nodes.size) : f.Sprouted h levels tags := by
  have hsame : g.Grown h f.nodes.size levels [] :=
    ⟨hk.wellFormed hs.grown.wellFormed, hk.extends, fun n hn hlt =>
      absurd hlt ((Nat.le_of_eq hsize).trans hn).not_gt⟩
  have htotal := hs.grown.trans hsame hs.lt_size 0 rfl le_rfl le_rfl
  exact ⟨append_nil tags ▸ htotal, Nat.lt_of_lt_of_eq hs.lt_size hsize.symm,
    (hk.extends.isInner_eq hs.lt_size).trans hs.inner, hs.copied.keep hk.extends.toKeepsNodes⟩

theorem Sprouted.grow {tags' : List String} (hs : f.Sprouted g 1 tags)
    (hg : g.Grown h f.nodes.size (levels + 1) tags') (hc : g.Copied h tags') :
    f.Sprouted h (levels + 1) (tags ++ tags') :=
  ⟨hs.grown.trans hg hs.lt_size 0 rfl (Nat.le_add_left ..) le_rfl,
    hg.extends_.lt_size hs.lt_size,
    (hg.extends_.isInner_eq hs.lt_size).trans hs.inner, hs.copied.append hc hs.grown.extends_ hg.extends_⟩

theorem setAttributes_keepsTree (f : Forest) (id : NodeId) (attributes : List (String × String)) :
    let g := attributes.foldl (fun f a => (f.setAttribute id a.1 a.2).1) f
    f.KeepsTree g ∧ g.nodes.size = f.nodes.size := by
  induction attributes generalizing f with
  | nil => exact ⟨.refl f, rfl⟩
  | cons a attributes ih =>
    obtain ⟨hk, hs⟩ := ih (f.setAttribute id a.1 a.2).1
    exact ⟨(KeepsTree.updateAttributes f id _).trans hk, hs.trans (size_update ..)⟩

theorem build_id (f : Forest) (t : FragmentNode) : (f.build t).2 = f.nodes.size := by
  cases t <;> rfl

theorem buildAll_cons (f : Forest) (root : NodeId) (t : FragmentNode) (rest : List FragmentNode) :
    (f.buildAll root (t :: rest)).1 =
      (((f.build t).1.append root f.nodes.size).buildAll root rest).1 := by
  rw [← build_id f t]
  rfl

mutual

theorem build_sprouted (f : Forest) (hf : f.WellFormed) :
    ∀ t : FragmentNode, f.Sprouted (f.build t).1 t.height t.tags
  | .text _ | .comment _ => .create hf rfl fun _ => by simp [FragmentNode.tags]
  | .element tag attributes children => by
    have hone : f.Sprouted (f.createElement tag).1 1 [tag.toLower] :=
      .create hf rfl fun _ => by simp [eq_comm]
    obtain ⟨hkeep, hsize⟩ :=
      setAttributes_keepsTree (f.createElement tag).1 f.nodes.size attributes
    have hset := hone.keepsTree hkeep hsize
    obtain ⟨hgrown, hcopied⟩ := buildAll_grown _ hset.grown.wellFormed hset.lt_size children
    exact hset.grow hgrown hcopied

theorem buildAll_grown (f : Forest) {root : NodeId} (hf : f.WellFormed)
    (hroot : root < f.nodes.size) : ∀ l : List FragmentNode,
      f.Grown (f.buildAll root l).1 root (FragmentNode.heightAll l + 1) (FragmentNode.tagsAll l) ∧
        f.Copied (f.buildAll root l).1 (FragmentNode.tagsAll l)
  | [] => ⟨.refl hf root _ _, nofun⟩
  | t :: rest => by
    obtain ⟨hone, hcopied⟩ := (build_sprouted f hf t).append hf hroot
    have hlt := hone.extends_.lt_size hroot
    obtain ⟨hrest, hcopied'⟩ := buildAll_grown _ hone.wellFormed hlt rest
    have hheight : FragmentNode.heightAll (t :: rest) =
        max t.height (FragmentNode.heightAll rest) := by rw [FragmentNode.heightAll]
    rw [buildAll_cons]
    exact ⟨hone.trans hrest hlt 0 rfl (by omega) (by omega),
      hcopied.append hcopied' hone.extends_ hrest.extends_⟩

end

/-! ### Hidden trees -/

variable (f)

variable (host)

/-- Gives a host a hidden tree. -/
def addShadow : Forest :=
  (f.create (.shadow host)).1.update host fun n => { n with shadow := some f.nodes.size }

theorem attachShadow_eq :
    f.attachShadow host = match f.shadow host with
      | some root => (f, root)
      | none => (f.addShadow host, f.nodes.size) := rfl

theorem size_addShadow : (f.addShadow host).nodes.size = f.nodes.size + 1 :=
  (size_update ..).trans (size_create ..)

theorem parent_addShadow (n : NodeId) : (f.addShadow host).parent n = f.parent n :=
  (part_update Node.parent ..).trans (part_create Node.parent ..)

theorem children_addShadow (n : NodeId) : (f.addShadow host).children n = f.children n :=
  (part_update Node.children ..).trans (part_create Node.children ..)

theorem kind_addShadow (n : NodeId) :
    (f.addShadow host).kind n = if n = f.nodes.size then .shadow host else f.kind n := by
  refine (part_update Node.kind ..).trans ?_
  rw [node_create]
  split <;> rfl

theorem composedParent_addShadow (n : NodeId) : (f.addShadow host).composedParent n =
      if n = f.nodes.size then some host else f.composedParent n := by
  unfold composedParent
  rw [kind_addShadow, parent_addShadow]
  by_cases hn : n = f.nodes.size
  · rw [if_pos hn, if_pos hn]
  · rw [if_neg hn, if_neg hn]

variable {host}

variable {f}

theorem shadow_addShadow (hh : host < f.nodes.size) (n : NodeId) :
    (f.addShadow host).shadow n = if n = host then some f.nodes.size else f.shadow n := by
  unfold addShadow shadow
  rw [node_update, size_create]
  by_cases hn : n = host
  · rw [if_pos ⟨hn, hn ▸ Nat.lt_succ_of_lt hh⟩, if_pos hn]
  · rw [if_neg fun h => hn h.1, if_neg hn, part_create Node.shadow]

theorem WellFormed.addShadow {documents : Bool} (hf : f.WellFormed documents)
    (hh : host < f.nodes.size) (hnone : f.shadow host = none) :
    (f.addShadow host).WellFormed documents := by
  have hlast : f.kind f.nodes.size = .document := by
    rw [kind, node_of_size_le le_rfl]
    rfl
  constructor
  · intro p c
    rw [children_addShadow, parent_addShadow, hf.child_iff]
  · intro p
    rw [children_addShadow]
    exact hf.nodup p
  · intro h r
    rw [shadow_addShadow hh, kind_addShadow]
    by_cases hr : r = f.nodes.size
    · rw [if_pos hr, hr, Kind.shadow.injEq]
      by_cases he : h = host
      · rw [if_pos he, he]
        exact ⟨fun _ => rfl, fun _ => rfl⟩
      · rw [if_neg he, hf.shadow_iff, hlast]
        exact ⟨fun hd => (by cases hd), fun h => absurd h.symm he⟩
    · rw [if_neg hr]
      by_cases he : h = host
      · rw [if_pos he, he, ← hf.shadow_iff, hnone]
        exact ⟨fun h => absurd (Option.some.inj h).symm hr, fun hr => by cases hr⟩
      · rw [if_neg he, hf.shadow_iff]
  · intro n p hp
    rw [parent_addShadow] at hp
    rw [kind_addShadow, if_neg (lt_size_of_parent hp).ne]
    exact hf.inner n p hp
  · intro n p hp
    rw [size_addShadow]
    rw [composedParent_addShadow] at hp
    split at hp
    · exact Nat.lt_succ_of_lt (Option.some.inj hp ▸ hh)
    · exact Nat.lt_succ_of_lt (hf.inside n p hp)
  · obtain ⟨level, hl⟩ := hf.grounded
    refine ⟨fun n => if n = f.nodes.size then level host + 1 else level n, fun n p hp => ?_⟩
    rw [composedParent_addShadow] at hp
    dsimp only
    split at hp
    next hn =>
      cases hp
      rw [if_pos hn, if_neg hh.ne]
      exact Nat.lt_add_one _
    next hn =>
      rw [if_neg hn, if_neg (hf.inside n p hp).ne]
      exact hl n p hp

theorem attachShadow_grown (hf : f.WellFormed) (hh : host < f.nodes.size) :
    f.Grown (f.attachShadow host).1 host 2 [] ∧
      (f.attachShadow host).1.composedParent (f.attachShadow host).2 = some host := by
  rw [attachShadow_eq]
  cases hs : f.shadow host with
  | some r =>
    refine ⟨.refl hf host 2 [], ?_⟩
    exact hf.composedParent_iff.mpr (mem_append_left _ (Option.mem_toList.mpr hs))
  | none =>
    have hparent : (f.addShadow host).composedParent f.nodes.size = some host := by
      rw [composedParent_addShadow, if_pos rfl]
    have hkind : (f.addShadow host).kind f.nodes.size = .shadow host := by
      rw [kind_addShadow, if_pos rfl]
    refine ⟨⟨hf.addShadow hh hs, ⟨⟨?_, fun n hn => ?_⟩, fun n hn => ?_⟩, fun n hn hlt => ?_⟩, hparent⟩
    · exact (Nat.le_succ _).trans (size_addShadow f host).symm.le
    · rw [kind_addShadow, if_neg hn.ne]
    · rw [composedParent_addShadow, if_neg hn.ne]
    · rw [size_addShadow] at hlt
      obtain rfl : n = f.nodes.size := by omega
      refine ⟨⟨1, Nat.one_lt_two, ?_⟩, ?_, fun tag htag => ?_⟩
      · rw [ascend, hparent]
        rfl
      · rw [hkind]
        rintro ⟨⟩
      · rw [tag?, hkind] at htag
        cases htag

end Forest

end Componentry.Document
