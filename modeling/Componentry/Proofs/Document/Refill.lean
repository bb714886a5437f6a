import Componentry.Proofs.Document.Growth

/-!
# Refilling a node

A node is emptied and the copy of a fragment is put in the place of what it held. What it held has
left its tree, all other old nodes stay where they were, and every element of the fragment has its
copy under the node.
-/

namespace Componentry.Document

open List

open Markup (FragmentNode)

namespace Forest

variable {f g h : Forest} {a c d m n p root host element : NodeId} {tag : String}
  {tags : List String} {shadow : Bool}

theorem ascend_of_placed (h : if shadow then f.kind root = .shadow element else root = element) :
    ∃ k ≤ 1, f.ascend k root = some element := by
  cases shadow with
  | true =>
    have hkind := h
    refine ⟨1, le_rfl, ?_⟩
    rw [ascend, composedParent, hkind]
    rfl
  | false => exact ⟨0, Nat.zero_le _, congrArg some h⟩

/-- Nodes stay what they are, and a well-formed forest stays so, wherever nodes are moved. -/
structure KeepsOrder (f g : Forest) : Prop extends KeepsNodes f g where
  wellFormed : f.WellFormed → g.WellFormed

theorem KeepsOrder.refl (f : Forest) : f.KeepsOrder f := ⟨.refl f, id⟩

/-! ### What a node holds -/

/-- A node is part of what another holds: it is under one of its children. -/
def Inside (f : Forest) (root n : NodeId) : Prop := ∃ c ∈ f.children root, f.Under c n

variable (hf : f.WellFormed)

include hf

theorem WellFormed.child_of_inner (hi : (f.kind c).isInner)
    (hp : f.composedParent c = some p) : c ∈ f.children p := by
  rw [composedParent_of_ne_shadow (Kind.ne_shadow_of_isInner hi)] at hp
  exact (hf.child_iff p c).mpr hp

theorem WellFormed.lt_size_of_under (hn : n < f.nodes.size) (hu : f.Under a n) :
    a < f.nodes.size := by
  obtain ⟨k, hk⟩ := hu
  exact hf.ascend_lt_size hn hk

theorem WellFormed.lt_size_of_inside (hin : f.Inside root n) : n < f.nodes.size := by
  obtain ⟨c, hc, hu⟩ := hin
  exact hu.lt_size (lt_size_of_composedParent (hf.composedParent_of_child hc))

/-! ### Refilling -/

/-- A node was emptied and filled again with elements of certain tags. -/
structure Refilled (f g : Forest) (root : NodeId) (tags : List String) : Prop where
  wellFormed : g.WellFormed
  nodes : f.KeepsNodes g
  root_lt : root < f.nodes.size
  /-- What was a child of the node has no parent, and all else has the one it had. -/
  parent_eq : ∀ n < f.nodes.size,
    g.composedParent n = if n ∈ f.children root then none else f.composedParent n
  /-- New nodes are under the node or stand alone. -/
  fresh : ∀ n, f.nodes.size ≤ n → n < g.nodes.size → g.Under root n ∨ g.composedParent n = none
  /-- New elements under the node have one of the tags. -/
  tag : ∀ n, f.nodes.size ≤ n → g.Under root n → ∀ tag, g.tag? n = some tag → tag ∈ tags
  /-- There is a new element of every tag under the node. -/
  copied : ∀ tag ∈ tags, ∃ n, f.nodes.size ≤ n ∧ g.Under root n ∧ g.tag? n = some tag

theorem WellFormed.refilled (hroot : root < f.nodes.size)
    (hk : (f.clearChildren root).KeepsTree g) (hsize : g.nodes.size = f.nodes.size)
    (l : List FragmentNode) : f.Refilled (g.buildAll root l).1 root (FragmentNode.tagsAll l) := by
  have hs := SameNodes.clearChildren f root
  have hg := hk.wellFormed (hf.clearChildren root)
  have hrootg : root < g.nodes.size := Nat.lt_of_lt_of_eq hroot hsize.symm
  obtain ⟨hgrown, hcopied⟩ := buildAll_grown g hg hrootg l
  have hunder : ∀ n, f.nodes.size ≤ n → n < (g.buildAll root l).1.nodes.size →
      (g.buildAll root l).1.Under root n := by
    intro n hn hlt
    obtain ⟨k, -, hup⟩ := (hgrown.fresh n ((Nat.le_of_eq hsize).trans hn) hlt).under
    exact ⟨k, hup⟩
  refine ⟨hgrown.wellFormed, ?_, hroot, ?_, ?_, ?_, ?_⟩
  · exact hs.keepsNodes.trans (hk.extends.toKeepsNodes.trans hgrown.extends_.toKeepsNodes)
  · intro n hn
    rw [hgrown.extends_.parent_eq n (Nat.lt_of_lt_of_eq hn hsize.symm), hk.composedParent_eq,
      (hf.uproots_children root).composedParent_eq]
  · exact fun n hn hlt => .inl (hunder n hn hlt)
  · intro n hn hu tag ht
    exact (hgrown.fresh n ((Nat.le_of_eq hsize).trans hn) (lt_size_of_tag? ht)).tag tag ht
  · intro tag htag
    obtain ⟨n, hn, ht⟩ := hcopied tag htag
    have hn' := (Nat.le_of_eq hsize.symm).trans hn
    exact ⟨n, hn', hunder n hn' (lt_size_of_tag? ht), ht⟩

omit hf

namespace Refilled

section

variable (hr : f.Refilled g root tags)

include hr

theorem keepsTree (hk : g.KeepsTree h) : f.Refilled h root tags := by
  refine ⟨hk.wellFormed hr.wellFormed, hr.nodes.trans hk.extends.toKeepsNodes, hr.root_lt, ?_, ?_, ?_, ?_⟩
  · intro n hn
    rw [hk.composedParent_eq]
    exact hr.parent_eq n hn
  · intro n hn hlt
    rw [hk.under_iff, hk.composedParent_eq]
    by_cases hng : n < g.nodes.size
    · exact hr.fresh n hn hng
    · refine .inr ?_
      rw [← hk.composedParent_eq]
      exact (hk.fresh (not_lt.mp hng) hlt).1
  · intro n hn hu tag ht
    rw [hk.under_iff] at hu
    have hng := hu.lt_size (hr.nodes.lt_size hr.root_lt)
    exact hr.tag n hn hu tag (hk.extends.tag_eq hng ▸ ht)
  · intro tag htag
    obtain ⟨n, hn, hu, ht⟩ := hr.copied tag htag
    exact ⟨n, hn, hk.under_iff.mpr hu, (hk.extends.tag_eq (lt_size_of_tag? ht)).trans ht⟩

theorem parent_of_some (hn : n < f.nodes.size) (hp : g.composedParent n = some p) :
    f.composedParent n = some p := by
  rw [hr.parent_eq n hn] at hp
  split at hp
  · cases hp
  · exact hp

variable (hf : f.WellFormed)

include hf

theorem under_old (hn : n < f.nodes.size) (hu : g.Under a n) : f.Under a n := by
  revert hn
  refine hu.induct (fun _ => .refl f a) fun n p hp _ ih hn => ?_
  have hfp := hr.parent_of_some hn hp
  exact (ih (hf.inside n p hfp)).step hfp

theorem under_iff (hn : n < f.nodes.size) (hout : ¬ f.Inside root n) :
    g.Under a n ↔ f.Under a n := by
  have hup := ascend_eq_of (fun n => n < f.nodes.size ∧ ¬ f.Inside root n) ⟨hn, hout⟩ fun n ⟨hn, hout⟩ => by
    refine ⟨?_, fun p hp => ⟨hf.inside n p hp, fun ⟨c, hc, hu⟩ => hout ⟨c, hc, hu.step hp⟩⟩⟩
    exact (hr.parent_eq n hn).trans (if_neg fun hm => hout ⟨n, hm, .refl f n⟩)
  simp [Under, hup]

theorem not_under (hd : f.composedParent d = none) (hin : f.Inside root n) : ¬ g.Under d n := by
  have hn := hf.lt_size_of_inside hin
  obtain ⟨c, hc, hu⟩ := hin
  intro hup
  revert hn hu
  refine hup.induct (fun hn hu => ?_) fun n p hp _ ih hn hu => ?_
  · -- The root of the tree is not among what the node held.
    have hcp := hf.composedParent_of_child hc
    rw [← hu.eq_of_root hd, hd] at hcp
    cases hcp
  · have hne : n ≠ c := by
      rintro rfl
      rw [hr.parent_eq n hn, if_pos hc] at hp
      cases hp
    have hfp := hr.parent_of_some hn hp
    obtain ⟨q, hq, hu⟩ := hu.parent hne
    rw [hfp] at hq
    exact ih (hf.inside n p hfp) (Option.some.inj hq ▸ hu)

theorem child_old (hc : c < f.nodes.size) (hm : c ∈ g.children a) : c ∈ f.children a := by
  have hinner := hr.wellFormed.inner c a ((hr.wellFormed.child_iff a c).mp hm)
  rw [hr.nodes.isInner_eq hc] at hinner
  exact hf.child_of_inner hinner (hr.parent_of_some hc (hr.wellFormed.composedParent_of_child hm))

theorem inside_old (hn : n < f.nodes.size) (hin : g.Inside a n) : f.Inside a n := by
  obtain ⟨c, hc, hu⟩ := hin
  have hfu := hr.under_old hf hn hu
  exact ⟨c, hr.child_old hf (hf.lt_size_of_under hn hfu) hc, hfu⟩

theorem inside_iff (hn : n < f.nodes.size) (hout : ¬ f.Inside root n) :
    g.Inside a n ↔ f.Inside a n := by
  refine ⟨hr.inside_old hf hn, ?_⟩
  rintro ⟨c, hc, hu⟩
  have hclt := hf.lt_size_of_under hn hu
  have hnot : c ∉ f.children root := fun hm => hout ⟨c, hm, hu⟩
  have hparent : g.composedParent c = some a := by
    rw [hr.parent_eq c hclt, if_neg hnot]
    exact hf.composedParent_of_child hc
  have hinner := hf.inner c a ((hf.child_iff a c).mp hc)
  rw [← hr.nodes.isInner_eq hclt] at hinner
  exact ⟨c, hr.wellFormed.child_of_inner hinner hparent, (hr.under_iff hf hn hout).mpr hu⟩

end

theorem of_keepsTree (hk : f.KeepsTree g) (hf : f.WellFormed) (hroot : root < f.nodes.size)
    (hr : g.Refilled h root tags) : f.Refilled h root tags := by
  have hg := hk.wellFormed hf
  have hold : ∀ n < f.nodes.size, n < g.nodes.size := fun n hn => hn.trans_le hk.size_le
  refine ⟨hr.wellFormed, hk.extends.toKeepsNodes.trans hr.nodes, hroot, ?_, ?_, ?_, ?_⟩
  · intro n hn
    rw [hr.parent_eq n (hold n hn), hk.children_eq, hk.composedParent_eq]
  · intro n hn hlt
    by_cases hng : n < g.nodes.size
    · refine .inr ?_
      rw [hr.parent_eq n hng, (hk.fresh hn hng).1]
      split <;> rfl
    · exact hr.fresh n (not_lt.mp hng) hlt
  · intro n hn hu tag ht
    by_cases hng : n < g.nodes.size
    · -- A node that stood alone is not under the node.
      have hgu := hr.under_old hg hng hu
      have he := hgu.eq_of_root (hk.fresh hn hng).1
      exact absurd (he ▸ hroot) hn.not_gt
    · exact hr.tag n (not_lt.mp hng) hu tag ht
  · intro tag htag
    obtain ⟨n, hn, hu, ht⟩ := hr.copied tag htag
    exact ⟨n, hk.size_le.trans hn, hu, ht⟩

end Refilled

/-! ### Refilling one node after the other -/

/-- Nodes were refilled one after the other. -/
inductive RefilledAll (tags : List String) : Forest → List NodeId → Forest → Prop where
  | nil (f : Forest) : RefilledAll tags f [] f
  /-- One node is refilled, and then the others. -/
  | cons {f g h : Forest} {root : NodeId} {roots : List NodeId} (head : f.Refilled g root tags)
    (tail : RefilledAll tags g roots h) : RefilledAll tags f (root :: roots) h

namespace RefilledAll

variable {roots : List NodeId}

variable (hr : RefilledAll tags f roots g)

include hr

theorem keepsNodes : f.KeepsNodes g := by
  induction hr with
  | nil f => exact .refl f
  | cons head _ ih => exact head.nodes.trans ih

theorem under_old (hf : f.WellFormed) (hn : n < f.nodes.size) (hu : g.Under a n) : f.Under a n := by
  induction hr with
  | nil f => exact hu
  | cons head _ ih =>
    exact head.under_old hf hn (ih head.wellFormed (head.nodes.lt_size hn) hu)

theorem not_under (hf : f.WellFormed) (hd : f.composedParent d = none) (hdlt : d < f.nodes.size)
    {r : NodeId} (hm : r ∈ roots) (hin : f.Inside r n) : ¬ g.Under d n := by
  induction hr with
  | nil f => cases hm
  | cons head tail ih =>
    rename_i f g h root roots
    intro hu
    have hn := hf.lt_size_of_inside hin
    have hnode := head.nodes.lt_size hn
    have hout : ¬ f.Inside root n := fun hone =>
      head.not_under hf hd hone (tail.under_old head.wellFormed hnode hu)
    have hroot : g.composedParent d = none := by
      rw [head.parent_eq d hdlt, hd]
      split <;> rfl
    rcases mem_cons.mp hm with rfl | hm
    · exact hout hin
    · exact ih head.wellFormed hroot (head.nodes.lt_size hdlt) hm
        ((head.inside_iff hf hn hout).mpr hin) hu

theorem tag_new (hn : f.nodes.size ≤ n) (hp : g.composedParent n = some p)
    (ht : g.tag? n = some tag) : tag ∈ tags := by
  induction hr with
  | nil f => exact absurd (lt_size_of_tag? ht) hn.not_gt
  | cons head tail ih =>
    rename_i f g h root roots
    by_cases hg : n < g.nodes.size
    · have hold : ∀ {f roots h}, RefilledAll tags f roots h → n < f.nodes.size →
          h.composedParent n = some p → f.composedParent n = some p := by
        intro f roots h hr
        induction hr with
        | nil f => exact fun _ hp => hp
        | cons head _ ih => exact fun hn hp =>
            head.parent_of_some hn (ih (head.nodes.lt_size hn) hp)
      have hparent := hold tail hg hp
      refine head.tag n hn ((head.fresh n hn hg).resolve_right ?_) tag ?_
      · simp [hparent]
      · rw [← tail.keepsNodes.tag_eq hg]
        exact ht
    · exact ih (not_lt.mp hg) hp ht

/-- If none of the nodes was held by another, there are new elements of every tag under the root of
their tree. -/
theorem copied (hf : f.WellFormed) (hdlt : d < f.nodes.size) (hne : roots ≠ [])
    (hroots : ∀ r ∈ roots, f.Under d r ∧ ∀ r' ∈ roots, ¬ f.Inside r' r) (htag : tag ∈ tags) :
    ∃ n, f.nodes.size ≤ n ∧ g.Under d n ∧ g.tag? n = some tag := by
  induction hr with
  | nil f => exact absurd rfl hne
  | cons head tail ih =>
    rename_i f g h root roots
    -- The last of the nodes keeps what it is filled with.
    cases roots with
    | nil =>
      cases tail
      obtain ⟨n, hn, hu, ht⟩ := head.copied tag htag
      obtain ⟨hd, hout⟩ := hroots root (.head _)
      have hroot := (head.under_iff hf head.root_lt (hout root (.head _))).mpr hd
      exact ⟨n, hn, hroot.trans hu, ht⟩
    | cons r roots =>
      have hrest : ∀ q ∈ r :: roots, g.Under d q ∧ ∀ r' ∈ r :: roots, ¬ g.Inside r' q := by
        intro q hq
        obtain ⟨hd, hout⟩ := hroots q (.tail _ hq)
        have hlt := hd.lt_size hdlt
        refine ⟨(head.under_iff hf hlt (hout root (.head _))).mpr hd, fun r' hr' hin => ?_⟩
        exact hout r' (.tail _ hr') (head.inside_old hf hlt hin)
      obtain ⟨n, hn, hu, ht⟩ := ih head.wellFormed
        (head.nodes.lt_size hdlt) (cons_ne_nil _ _) hrest
      exact ⟨n, head.nodes.size_le.trans hn, hu, ht⟩

end RefilledAll

end Forest

end Componentry.Document
