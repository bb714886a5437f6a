import Componentry.Proofs.Document.Ancestry

/-!
# Rearranging a forest

Nodes are taken out of their parent, hung under another, and emptied; hidden trees are added. Each of
these keeps a forest well-formed, if no node is hung under itself or what is under it, and each is
described by the composed parents it changes.
-/

namespace Componentry.Document

open List

variable {k : Kind} {host : NodeId} {documents : Bool}

theorem Kind.bare_eq_shadow : k.bare = .shadow host ↔ k = .shadow host := by
  cases k <;> simp [bare]

@[simp] theorem Kind.isInner_bare (k : Kind) (documents : Bool) :
    k.bare.isInner documents = k.isInner documents := by cases k <;> rfl

theorem Kind.ne_shadow_of_isInner (h : k.isInner documents) (host : NodeId) : k ≠ .shadow host := by
  rintro rfl
  cases h

theorem Kind.isLoose_of_isInner (h : k.isInner) : k.isLoose := by
  cases k with
  | document | shadow host | fragment => cases h
  | _ => rfl

theorem Kind.isInner_of_isLoose (hl : k.isLoose) (hk : k ≠ .fragment) : k.isInner documents := by
  cases k with
  | fragment => exact absurd rfl hk
  | document | shadow host => cases hl
  | _ => rfl

namespace Forest

variable {f g h : Forest} {a b c m n p parent child id : NodeId}

/-! ### The first documents -/

theorem wellFormed_empty : ({} : Forest).WellFormed documents := by
  have hnode : ∀ n, ({} : Forest).node n = { kind := .document } := fun n =>
    node_of_size_le (Nat.zero_le n)
  exact
    { child_iff := fun p c => by simp [children, parent, hnode]
      nodup := fun p => by simp [children, hnode]
      shadow_iff := fun host r => by simp [shadow, kind, hnode]
      inner := fun n p hp => by simp [parent, hnode] at hp
      inside := fun n p hp => by simp [composedParent, kind, parent, hnode] at hp
      grounded := ⟨fun _ => 0, fun n p hp => by simp [composedParent, kind, parent, hnode] at hp⟩ }

theorem WellFormed.of_node_eq (hf : f.WellFormed documents) (hs : f.nodes.size ≤ g.nodes.size)
    (hn : g.node = f.node) : g.WellFormed documents := by
  have hchildren : g.children = f.children := by unfold children; rw [hn]
  have hparent : g.parent = f.parent := by unfold parent; rw [hn]
  have hshadow : g.shadow = f.shadow := by unfold shadow; rw [hn]
  have hkind : g.kind = f.kind := by unfold kind; rw [hn]
  have hcomposed : g.composedParent = f.composedParent := by
    unfold composedParent
    rw [hkind, hparent]
  obtain ⟨hchild, hnodup, hhost, hinner, hinside, hgrounded⟩ := hf
  refine ⟨?_, ?_, ?_, ?_, ?_, ?_⟩
  · rwa [hchildren, hparent]
  · rwa [hchildren]
  · rwa [hshadow, hkind]
  · rwa [hparent, hkind]
  · rw [hcomposed]
    exact fun n p hp => (hinside n p hp).trans_le hs
  · rwa [hcomposed]

/-- A number that names no node reads as a document without anything, so a new document changes no
reading. -/
theorem node_createDocument (f : Forest) : f.createDocument.1.node = f.node := by
  funext n
  exact part_create id f .document n

/-! ### The tree left alone -/

namespace KeepsTree

variable (hk : f.KeepsTree g)

include hk

theorem cases (n : NodeId) : (g.node n).shape = (f.node n).shape ∨
      f.node n = default ∧ ∃ k : Kind, k.isLoose ∧ (g.node n).shape = { kind := k } := by
  by_cases hf : n < f.nodes.size
  · exact .inl (hk.shape_eq n hf)
  · have hdefault := node_of_size_le (not_lt.mp hf)
    by_cases hg : n < g.nodes.size
    · exact .inr ⟨hdefault, hk.loose n (not_lt.mp hf) hg⟩
    · rw [hdefault, node_of_size_le (not_lt.mp hg)]
      exact .inl rfl

theorem part_eq {α : Type} (part : Shape → α) (hpart : ∀ k k', part { kind := k } = part { kind := k' })
    (n : NodeId) : part (g.node n).shape = part (f.node n).shape := by
  rcases hk.cases n with hs | ⟨hd, k, -, hs⟩
  · rw [hs]
  · rw [hs, hd]
    exact hpart ..

theorem parent_eq (n : NodeId) : g.parent n = f.parent n := hk.part_eq Shape.parent (fun _ _ => rfl) n

theorem children_eq (n : NodeId) : g.children n = f.children n :=
  hk.part_eq Shape.children (fun _ _ => rfl) n

theorem shadow_eq (n : NodeId) : g.shadow n = f.shadow n := hk.part_eq Shape.shadow (fun _ _ => rfl) n

theorem shadow_iff : g.kind n = .shadow host ↔ f.kind n = .shadow host := by
  rw [← Kind.bare_eq_shadow, ← Kind.bare_eq_shadow (k := f.kind n)]
  rcases hk.cases n with hs | ⟨hd, k, hl, hs⟩
  · have hb : (g.kind n).bare = (f.kind n).bare := congrArg Shape.kind hs
    rw [hb]
  · have hb : (g.kind n).bare = k := congrArg Shape.kind hs
    rw [hb, kind, hd]
    constructor
    · rintro rfl
      cases hl
    · intro h
      cases h

theorem composedParent_eq (n : NodeId) : g.composedParent n = f.composedParent n := by
  rw [composedParent_eq_shape, composedParent_eq_shape]
  rcases hk.cases n with hs | ⟨hd, k, hl, hs⟩
  · rw [hs]
  · rw [hs, hd]
    cases k with
    | shadow host => cases hl
    | _ => rfl

theorem under_iff : g.Under a n ↔ f.Under a n := by
  simp [Under, ascend_congr hk.composedParent_eq]

theorem wellFormed (hf : f.WellFormed documents) : g.WellFormed documents where
  child_iff p c := by rw [hk.children_eq, hk.parent_eq, hf.child_iff]
  nodup p := by rw [hk.children_eq]; exact hf.nodup p
  shadow_iff host r := by rw [hk.shadow_eq, hk.shadow_iff, hf.shadow_iff]
  inner n p hp := by
    rcases hk.cases n with hs | ⟨hd, k, -, hs⟩
    · have hb : (g.kind n).bare = (f.kind n).bare := congrArg Shape.kind hs
      rw [← Kind.isInner_bare, hb, Kind.isInner_bare]
      rw [hk.parent_eq] at hp
      exact hf.inner n p hp
    · have hn : g.parent n = none := congrArg Shape.parent hs
      rw [hn] at hp
      cases hp
  inside n p hp := by
    rw [hk.composedParent_eq] at hp
    exact (hf.inside n p hp).trans_le hk.size_le
  grounded := by
    obtain ⟨level, hl⟩ := hf.grounded
    exact ⟨level, fun n p hp => hl n p (hk.composedParent_eq n ▸ hp)⟩

end KeepsTree

/-! ### Nodes that are only linked otherwise -/

/-- The nodes are the same, up to parents and children. -/
structure SameNodes (f g : Forest) : Prop where
  size_eq : g.nodes.size = f.nodes.size
  kind_eq : ∀ n, g.kind n = f.kind n
  /-- They have the hidden trees they had. -/
  shadow_eq : ∀ n, g.shadow n = f.shadow n

namespace SameNodes

theorem refl (f : Forest) : SameNodes f f := ⟨rfl, fun _ => rfl, fun _ => rfl⟩

theorem trans (hfg : SameNodes f g) (hgh : SameNodes g h) : SameNodes f h :=
  ⟨hgh.size_eq.trans hfg.size_eq, fun n => (hgh.kind_eq n).trans (hfg.kind_eq n),
    fun n => (hgh.shadow_eq n).trans (hfg.shadow_eq n)⟩

theorem loose : Frame.Loose SameNodes where
  refl := refl
  trans := trans
  relink f id _ _ := ⟨size_update .., part_update Node.kind f id,
    part_update Node.shadow f id⟩

theorem detach (f : Forest) (id : NodeId) : SameNodes f (f.detach id) := loose.detach f id

theorem clearChildren (f : Forest) (id : NodeId) : SameNodes f (f.clearChildren id) :=
  loose.clearChildren f id

theorem lt_size (h : SameNodes f g) (hn : n < f.nodes.size) : n < g.nodes.size :=
  Nat.lt_of_lt_of_eq hn h.size_eq.symm

theorem composedParent_eq (h : SameNodes f g) (hp : g.parent n = f.parent n) :
    g.composedParent n = f.composedParent n := by
  unfold composedParent
  rw [h.kind_eq, hp]

end SameNodes

theorem composedParent_of_ne_shadow (h : ∀ host, f.kind n ≠ .shadow host) :
    f.composedParent n = f.parent n := by
  unfold composedParent
  split
  next host hk => exact absurd hk (h host)
  next => rfl

theorem parent_update_children (f : Forest) (id n : NodeId) (k : List NodeId → List NodeId) :
    (f.update id fun m => { m with children := k m.children }).parent n = f.parent n :=
  part_update Node.parent f id n

theorem children_update_parent (f : Forest) (id n : NodeId) (q : Option NodeId) :
    (f.update id fun m => { m with parent := q }).children n = f.children n :=
  part_update Node.children f id n

theorem lt_size_of_parent (h : f.parent n = some p) : n < f.nodes.size := by
  by_contra hn
  rw [parent, node_of_size_le (not_lt.mp hn)] at h
  cases h

/-! ### Taking out -/

/-- Some nodes are taken out of their parents, and all else is as it was. -/
structure Uproots (f g : Forest) (out : List NodeId) : Prop where
  same : SameNodes f g
  parent_eq : ∀ n, g.parent n = if n ∈ out then none else f.parent n
  children_eq : ∀ n, g.children n = (f.children n).filter fun c => !out.contains c
  free : ∀ n ∈ out, ∀ host, f.kind n ≠ .shadow host

namespace Uproots

variable {out : List NodeId} (hu : f.Uproots g out)

include hu

theorem composedParent_eq (n : NodeId) :
    g.composedParent n = if n ∈ out then none else f.composedParent n := by
  split
  next hn =>
    have hne : ∀ host, g.kind n ≠ .shadow host := by
      rw [hu.same.kind_eq]
      exact hu.free n hn
    rw [composedParent_of_ne_shadow hne, hu.parent_eq, if_pos hn]
  next hn => exact hu.same.composedParent_eq ((hu.parent_eq n).trans (if_neg hn))

theorem links (n p : NodeId) (hp : g.composedParent n = some p) : f.composedParent n = some p := by
  rw [hu.composedParent_eq] at hp
  split at hp
  · cases hp
  · exact hp

theorem wellFormed (hf : f.WellFormed documents) : g.WellFormed documents where
  child_iff p c := by
    rw [hu.children_eq, hu.parent_eq, mem_filter, hf.child_iff]
    split <;> simp_all
  nodup p := by
    rw [hu.children_eq]
    exact (hf.nodup p).filter _
  shadow_iff host r := by rw [hu.same.shadow_eq, hu.same.kind_eq, hf.shadow_iff]
  inner n p hp := by
    rw [hu.same.kind_eq]
    rw [hu.parent_eq] at hp
    split at hp
    · cases hp
    · exact hf.inner n p hp
  inside n p hp := by
    rw [hu.same.size_eq]
    exact hf.inside n p (hu.links n p hp)
  grounded := hf.grounded.imp fun _ hl n p hp => hl n p (hu.links n p hp)

end Uproots

theorem parent_detach (f : Forest) (id n : NodeId) :
    (f.detach id).parent n = if n = id then none else f.parent n := by
  unfold detach
  split
  next hp =>
    split
    next he => rw [he, hp]
    next => rfl
  next p hp =>
    refine (parent_update_children ..).trans ?_
    rw [parent, node_update_of_default rfl]
    split <;> rfl

variable (hf : f.WellFormed documents)

include hf

theorem WellFormed.children_detach (id n : NodeId) :
    (f.detach id).children n = (f.children n).filter (· != id) := by
  have hkeep : f.parent id ≠ some n → (f.children n).filter (· != id) = f.children n := by
    intro hne
    refine filter_eq_self.mpr fun x hx => ?_
    have hx : x ≠ id := fun he => hne (he ▸ (hf.child_iff n x).mp hx)
    simpa using hx
  unfold detach
  split
  next hp => rw [hkeep (by rw [hp]; simp)]
  next p hp =>
    rw [children, node_update_of_default rfl]
    split
    next => exact congrArg (filter (· != id)) (children_update_parent f id n none)
    next hn => rw [hkeep (by rw [hp]; simpa using Ne.symm hn), ← children, children_update_parent]

variable (hid : ∀ host, f.kind id ≠ .shadow host)

include hid

theorem WellFormed.uproots_detach : f.Uproots (f.detach id) [id] where
  same := .detach f id
  parent_eq n := by simpa using parent_detach f id n
  children_eq n := (hf.children_detach id n).trans (filter_congr fun c _ => by grind)
  free n hn := mem_singleton.mp hn ▸ hid

theorem WellFormed.composedParent_detach
    (n : NodeId) :
    (f.detach id).composedParent n = if n = id then none else f.composedParent n := by
  simpa using (hf.uproots_detach hid).composedParent_eq n

theorem WellFormed.detach :
    (f.detach id).WellFormed documents := (hf.uproots_detach hid).wellFormed hf

omit hid

omit hf

/-! ### Hanging -/

variable (f)

def hang (parent child : NodeId) : Forest :=
  (f.update child fun n => { n with parent := some parent }).update parent fun n =>
    { n with children := n.children ++ [child] }

theorem link_eq (parent child : NodeId) :
    f.link parent child = (f.detach child).hang parent child := rfl

theorem SameNodes.hang (parent child : NodeId) : SameNodes f (f.hang parent child) :=
  .trans (loose.relink f child (fun _ => some parent) id) (loose.relink _ parent id (· ++ [child]))

theorem parent_hang (parent : NodeId) (hc : child < f.nodes.size) (n : NodeId) :
    (f.hang parent child).parent n = if n = child then some parent else f.parent n := by
  refine (parent_update_children _ _ _ fun l => l ++ [child]).trans ?_
  unfold Forest.parent
  rw [node_update]
  by_cases hn : n = child
  · rw [if_pos ⟨hn, hn ▸ hc⟩, if_pos hn]
  · rw [if_neg fun h => hn h.1, if_neg hn]

theorem children_hang (child : NodeId) (hp : parent < f.nodes.size) (n : NodeId) :
    (f.hang parent child).children n =
      if n = parent then f.children n ++ [child] else f.children n := by
  have hold := children_update_parent f child n (some parent)
  rw [children] at hold
  rw [hang, children, node_update, size_update]
  by_cases hn : n = parent
  · rw [if_pos ⟨hn, hn ▸ hp⟩, if_pos hn, hold]
  · rw [if_neg fun h => hn h.1, if_neg hn, hold]

theorem composedParent_hang (parent : NodeId) (hc : child < f.nodes.size)
    (hi : (f.kind child).isInner documents) (n : NodeId) : (f.hang parent child).composedParent n =
      if n = child then some parent else f.composedParent n := by
  have hs := SameNodes.hang f parent child
  by_cases hn : n = child
  · have hne : ∀ host, (f.hang parent child).kind n ≠ .shadow host := by
      rw [hs.kind_eq, hn]
      exact Kind.ne_shadow_of_isInner hi
    rw [composedParent_of_ne_shadow hne, parent_hang f parent hc, if_pos hn, if_pos hn]
  · rw [if_neg hn]
    exact hs.composedParent_eq ((parent_hang f parent hc n).trans (if_neg hn))

variable {f}

theorem WellFormed.hang (hf : f.WellFormed documents) (hc : child < f.nodes.size) (hp : parent < f.nodes.size)
    (hi : (f.kind child).isInner documents) (hroot : f.parent child = none) (hn : ¬ f.Under child parent) :
    (f.hang parent child).WellFormed documents := by
  have hs := SameNodes.hang f parent child
  constructor
  · intro q c
    rw [children_hang f child hp, parent_hang f parent hc]
    by_cases hcc : c = child
    · subst hcc
      have hno : c ∉ f.children q := by rw [hf.child_iff, hroot]; simp
      rw [if_pos rfl, Option.some.injEq]
      by_cases hq : q = parent
      · simp [hq]
      · rw [if_neg hq]
        exact ⟨fun h => absurd h hno, fun h => absurd h.symm hq⟩
    · rw [if_neg hcc, ← hf.child_iff]
      split
      · simp [hcc]
      · rfl
  · intro q
    rw [children_hang f child hp]
    split
    · have hno : child ∉ f.children q := by rw [hf.child_iff, hroot]; simp
      exact concat_eq_append ▸ (hf.nodup q).concat hno
    · exact hf.nodup q
  · intro host r
    rw [hs.shadow_eq, hs.kind_eq, hf.shadow_iff]
  · intro n q hq
    rw [hs.kind_eq]
    rw [parent_hang f parent hc] at hq
    split at hq
    next he => rw [he]; exact hi
    next => exact hf.inner n q hq
  · intro n q hq
    rw [hs.size_eq]
    rw [composedParent_hang f parent hc hi] at hq
    split at hq
    · exact Option.some.inj hq ▸ hp
    · exact hf.inside n q hq
  · -- What is under the node goes down as many levels as its new parent is deep.
    obtain ⟨level, hl⟩ := hf.grounded
    classical
    refine ⟨fun n => if f.Under child n then level n + level parent + 1 else level n, ?_⟩
    intro n q hq
    rw [composedParent_hang f parent hc hi] at hq
    split at hq
    next he =>
      cases hq
      subst he
      dsimp only
      rw [if_neg hn, if_pos (Under.refl f n)]
      omega
    next hne =>
      have hlt := hl n q hq
      by_cases hun : f.Under child n
      · obtain ⟨q', hq', huq⟩ := hun.parent hne
        rw [hq] at hq'
        cases hq'
        dsimp only
        rw [if_pos hun, if_pos huq]
        omega
      · have huq : ¬ f.Under child q := fun h => hun (h.step hq)
        dsimp only
        rw [if_neg hun, if_neg huq]
        exact hlt

/-! ### Linking -/

/-- Certain nodes, and only they, have a new composed parent. -/
structure MovedTo (f g : Forest) (moved : List NodeId) (parent : NodeId)
    (documents : Bool := false) : Prop where
  wellFormed : g.WellFormed documents
  same : SameNodes f g
  /-- What is moved has the new parent, and all else has its own. -/
  composedParent_eq : ∀ n, g.composedParent n = if n ∈ moved then some parent else f.composedParent n

namespace MovedTo

variable {moved : List NodeId}

theorem under_iff (h : f.MovedTo g moved parent documents) (hn : ∀ c ∈ moved, ¬ g.Under c n) :
    g.Under a n ↔ f.Under a n := by
  have hup := ascend_eq_of (fun n => ∀ c ∈ moved, ¬ g.Under c n) hn fun n hn => by
    have hp := (h.composedParent_eq n).trans (if_neg fun hm => hn n hm (.refl g n))
    exact ⟨hp, fun q hq c hc hu => hn c hc (hu.step (hp.trans hq))⟩
  simp [Under, hup]

theorem under_moved (h : f.MovedTo g moved parent documents) (hc : c ∈ moved) (hu : g.Under c n) :
    f.Under c n := by
  have hparent : ∀ x ∈ moved, g.composedParent x = some parent := fun x hx => by
    rw [h.composedParent_eq, if_pos hx]
  refine hu.induct (.refl f c) fun n p hp hup ih => ?_
  -- Moved nodes are side by side, so there is none on the way to another.
  have hm : n ∉ moved := by
    intro hm
    obtain rfl := h.wellFormed.eq_of_under_siblings (hparent n hm) (hparent c hc) (.refl g n)
      (hup.step hp)
    exact h.wellFormed.not_under_child hp hup
  rw [h.composedParent_eq, if_neg hm] at hp
  exact ih.step hp

end MovedTo

theorem ascend_of_links (hl : ∀ n p, g.composedParent n = some p → f.composedParent n = some p)
    {k : Nat} (hk : g.ascend k n = some a) : f.ascend k n = some a := by
  induction k generalizing n with
  | zero => exact hk
  | succ k ih =>
    obtain ⟨p, hp, hk⟩ := Option.bind_eq_some_iff.mp hk
    exact Option.bind_eq_some_iff.mpr ⟨p, hl n p hp, ih hk⟩

theorem Under.of_links (h : g.Under a n)
    (hl : ∀ n p, g.composedParent n = some p → f.composedParent n = some p) : f.Under a n :=
  h.imp fun _ => ascend_of_links hl

theorem WellFormed.link (hf : f.WellFormed documents) (hc : child < f.nodes.size) (hp : parent < f.nodes.size)
    (hi : (f.kind child).isInner documents) (hn : ¬ f.Under child parent) :
    f.MovedTo (f.link parent child) [child] parent documents := by
  have hshadow := Kind.ne_shadow_of_isInner hi
  have hs := SameNodes.detach f child
  have hc' := hs.lt_size hc
  have hi' : ((f.detach child).kind child).isInner documents := by rw [hs.kind_eq]; exact hi
  rw [link_eq]
  refine ⟨?_, hs.trans (.hang ..), fun n => ?_⟩
  · refine (hf.detach hshadow).hang hc' (hs.lt_size hp) hi' ?_ ?_
    · rw [parent_detach, if_pos rfl]
    · exact fun h => hn (h.of_links (hf.uproots_detach hshadow).links)
  · rw [composedParent_hang _ parent hc' hi', hf.composedParent_detach hshadow]
    by_cases hne : n = child
    · rw [if_pos hne, if_pos (by simp [hne])]
    · rw [if_neg hne, if_neg hne, if_neg (by simp [hne])]

theorem WellFormed.linkAll (hf : f.WellFormed documents) (hp : parent < f.nodes.size) {cs : List NodeId}
    (hc : ∀ c ∈ cs, c < f.nodes.size ∧ (f.kind c).isInner documents ∧ ¬ f.Under c parent) :
    f.MovedTo (cs.foldl (fun f c => f.link parent c) f) cs parent documents := by
  induction cs generalizing f with
  | nil => exact ⟨hf, .refl f, fun n => by simp⟩
  | cons c cs ih =>
    obtain ⟨⟨hlt, hi, hn⟩, hcs⟩ := forall_mem_cons.mp hc
    have hone := hf.link hlt hp hi hn
    have hdiffer : f.DifferAt (f.link parent c) c := by
      intro n hne
      rw [hone.composedParent_eq, if_neg (by simpa using hne)]
    have hrest := ih hone.wellFormed (hone.same.lt_size hp) (by
      intro x hx
      obtain ⟨hxlt, hxi, hxn⟩ := hcs x hx
      refine ⟨hone.same.lt_size hxlt, ?_, ?_⟩
      · rw [hone.same.kind_eq]
        exact hxi
      · rw [hdiffer.under_iff_of_not hn]
        exact hxn)
    refine ⟨hrest.wellFormed, hone.same.trans hrest.same, fun n => ?_⟩
    refine (hrest.composedParent_eq n).trans ?_
    rw [hone.composedParent_eq]
    by_cases hm : n ∈ cs
    · rw [if_pos hm, if_pos (.tail _ hm)]
    · simp [hm]

/-! ### Emptying -/

theorem node_clearChildren (f : Forest) (id n : NodeId) : (f.clearChildren id).node n =
      { f.node n with
        parent := if n ∈ f.children id then none else f.parent n
        children := if n = id then [] else f.children n } := by
  have hfold : ∀ (cs : List NodeId) (f : Forest),
      (cs.foldl (fun f c => f.update c fun n => { n with parent := none }) f).node n =
        { f.node n with parent := if n ∈ cs then none else f.parent n } := by
    intro cs
    induction cs with
    | nil => exact fun _ => rfl
    | cons c cs ih =>
      intro f
      rw [foldl_cons, ih, parent, node_update_of_default rfl]
      by_cases hn : n = c <;> simp [hn, parent]
  refine (hfold ..).trans ?_
  rw [parent, node_update_of_default rfl]
  split <;> rfl

theorem WellFormed.uproots_children (hf : f.WellFormed documents) (id : NodeId) :
    f.Uproots (f.clearChildren id) (f.children id) where
  same := .clearChildren f id
  parent_eq n := by rw [parent, node_clearChildren]
  children_eq n := by
    rw [children, node_clearChildren]
    dsimp only
    split
    next he => simp [he]
    next hne =>
      -- No other node has them as children.
      refine (filter_eq_self.mpr fun c hc => ?_).symm
      have hm : c ∉ f.children id := fun hm => hne
        (Option.some.inj (((hf.child_iff n c).mp hc).symm.trans ((hf.child_iff id c).mp hm)))
      simpa using hm
  free n hn := Kind.ne_shadow_of_isInner (hf.inner n id ((hf.child_iff id n).mp hn))

theorem WellFormed.clearChildren (hf : f.WellFormed documents) (id : NodeId) :
    (f.clearChildren id).WellFormed documents := (hf.uproots_children id).wellFormed hf

/-! ### Appending -/

def movedBy (f : Forest) (child : NodeId) : List NodeId :=
  match f.kind child with
  | .fragment => f.children child
  | _ => [child]

theorem movedBy_fragment (hk : f.kind child = .fragment) : f.movedBy child = f.children child := by
  unfold movedBy
  rw [hk]

theorem movedBy_of_ne_fragment (hk : f.kind child ≠ .fragment) : f.movedBy child = [child] := by
  unfold movedBy
  split
  next h => exact absurd h hk
  next => rfl

theorem WellFormed.append (hf : f.WellFormed documents) (hc : child < f.nodes.size)
    (hp : parent < f.nodes.size) (hl : f.kind child ≠ .fragment → (f.kind child).isInner documents)
    (hn : ¬ f.Under child parent) :
    f.MovedTo (f.append parent child) (f.movedBy child) parent documents := by
  unfold Forest.append
  split
  next hk =>
    rw [movedBy_fragment hk]
    have hs := SameNodes.clearChildren f child
    have hparent : ∀ c ∈ f.children child, f.composedParent c = some child := fun c hc =>
      hf.composedParent_of_parent ((hf.child_iff child c).mp hc)
    have hout := hf.uproots_children child
    have hfit : ∀ c ∈ f.children child, c < (f.clearChildren child).nodes.size ∧
        ((f.clearChildren child).kind c).isInner documents ∧ ¬ (f.clearChildren child).Under c parent := by
      intro c hc
      refine ⟨?_, ?_, ?_⟩
      · rw [hs.size_eq]
        exact lt_size_of_composedParent (hparent c hc)
      · rw [hs.kind_eq]
        exact hf.inner c child ((hf.child_iff child c).mp hc)
      · intro hu
        exact hn (((Under.refl f child).step (hparent c hc)).trans (hu.of_links hout.links))
    have hmoved := (hf.clearChildren child).linkAll (hs.lt_size hp) hfit
    refine ⟨hmoved.wellFormed, hs.trans hmoved.same, fun n => ?_⟩
    rw [hmoved.composedParent_eq, hout.composedParent_eq]
    split <;> rfl
  next hk =>
    rw [movedBy_of_ne_fragment hk]
    exact hf.link hc hp (hl hk) hn

end Forest

end Componentry.Document
