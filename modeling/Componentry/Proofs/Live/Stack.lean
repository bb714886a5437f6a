import Componentry.Proofs.Live.Turning

/-!
# Walks with a stack

Connecting a tree visits its nodes one by one. Those still to be visited wait on a stack, and what is
under a node after its visit goes on top. Visits copy templates, so the tree grows while it is walked,
but as long as no template leads to itself the stack runs empty: what a visit adds weighs less than
what it was added for. Authors may take nodes out meanwhile, but put none in. Then no node is visited
twice, and in the end every node under the root was visited.
-/

namespace Componentry.Document.Forest

variable {f g : Forest}

/-- Nodes may be taken out, but none is put in. -/
structure Prunes (f g : Forest) : Prop extends KeepsOrder f g where
  parent_of : ∀ n p, g.composedParent n = some p → f.composedParent n = some p

theorem KeepsTree.prunes (h : f.KeepsTree g) : f.Prunes g :=
  ⟨⟨h.extends.toKeepsNodes, h.wellFormed⟩, fun n _ hp => (h.composedParent_eq n).symm.trans hp⟩

end Componentry.Document.Forest

namespace Componentry.Live

open Document List

variable {σ : Type}

namespace Page

instance : Orderly Forest.Prunes where
  keepsOrder h := h.toKeepsOrder

variable {s t u : Page σ} {id : InstanceId} {i : Instance σ} {n m p a : NodeId} {tag : String}
  {cls : ClassId} {rel : Forest → Forest → Prop} {roots : List NodeId} {depth k : Nat}
  {visit : Page σ → NodeId → Page σ}

section

variable {c : Component σ} {tags : List String}

/-! ### Room -/

/-- The levels that can come to be under an element when it is connected: what its component weighs,
unless its template was copied. -/
noncomputable def growth (s : Page σ) (n : NodeId) : Nat :=
  match s.standing n with
  | some x => if x.mounted then 0 else s.weight x.cls
  | none =>
    match (s.forest.tag? n).bind s.registry.find? with
    | some cls => s.weight cls
    | none => 0

theorem growth_congr (hs : t.standing n = s.standing n) (ht : t.forest.tag? n = s.forest.tag? n)
    (hc : t.classes = s.classes) (hr : t.registry = s.registry) : t.growth n = s.growth n := by
  unfold growth
  rw [hs, ht, hr]
  simp [weight_congr hc hr]

/-- The most that can come to be under an element is what all templates together can add. -/
theorem growth_le (s : Page σ) (n : NodeId) :
    s.growth n ≤ (s.classes.map fun x => levels x.2).sum := by
  unfold growth
  split
  · split
    · exact Nat.zero_le _
    · exact s.weight_le _
  · split
    · exact s.weight_le _
    · exact Nat.zero_le _

theorem Housed.growth_eq (h : s.Housed rel) (hi : s.instance? id = some i) :
    s.growth i.element = if i.mounted then 0 else s.weight i.cls := by
  unfold growth
  rw [h.standing_eq hi]
  rfl

theorem Housed.room {g : Forest} {k : Nat} (h : s.Housed rel) (hacyclic : s.Acyclic)
    (hi : s.instance? id = some i) (hc : s.class? i.cls = some c)
    (hg : s.forest.Grown g i.element (if i.mounted then 0 else levels c) tags) (htags : tags ⊆ c.tags)
    (hm : s.forest.nodes.size ≤ m) (hup : g.ascend (k + 1) m = some i.element)
    (hnone : t.standing m = none) (htag : t.forest.tag? m = g.tag? m) (hclasses : t.classes = s.classes)
    (hregistry : t.registry = s.registry) : k + 1 + t.growth m ≤ s.growth i.element := by
  have hmg := Forest.lt_size_of_ascend hup
  obtain ⟨k', hk', hup'⟩ := (hg.fresh m hm hmg).under
  obtain rfl : k + 1 = k' := hg.wellFormed.ascend_inj hup hup'
  rw [h.growth_eq hi]
  cases hmount : i.mounted with
  | true =>
    rw [hmount] at hk'
    exact absurd hk' (Nat.not_lt_zero _)
  | false =>
    rw [hmount] at hk'
    have hlevel : k + 1 < levels c := hk'
    have hmem := mem_of_class? hc
    change k + 1 + t.growth m ≤ s.weight i.cls
    unfold growth
    rw [hnone]
    dsimp only
    split
    next b hb =>
      obtain ⟨tag, htag', hreg⟩ := Option.bind_eq_some_iff.mp hb
      rw [htag] at htag'
      rw [hregistry] at hreg
      have hholds := holds_of_tag hc (htags ((hg.fresh m hm hmg).tag tag htag')) hreg
      have hweight := hacyclic.weight_add_levels_le hmem hholds
      rw [weight_congr hclasses hregistry]
      omega
    next =>
      have hweight := levels_le_weight hmem
      omega

theorem Housed.growth_withInstance (h : s.Housed rel) (ho : s.owner? n = none)
    (ht : s.forest.tag? n = some tag) (hr : s.registry.find? tag = some cls)
    (hc : s.class? cls = some c) : (s.withInstance n cls c).growth n = s.growth n := by
  have hstored := (instance?_withInstance h.numbered n cls c _).trans (if_pos rfl)
  unfold growth
  rw [(h.withInstance ho ht hc).standing_eq hstored, standing_of_owner?_none ho, ht, Option.bind_some, hr]
  exact weight_congr rfl rfl cls

end

/-- A walk of a certain depth from a node reaches all that is under it and can come to be under it. -/
def Fits (s : Page σ) (depth : Nat) (n : NodeId) : Prop :=
  ∀ m k, s.forest.ascend k m = some n → k + s.growth m < depth

theorem fits_reach (h : s.forest.WellFormed) (hn : n < s.forest.nodes.size) : s.Fits s.reach n := by
  intro m k ha
  have hk := h.steps_lt_size (Forest.Under.lt_size ⟨k, ha⟩ hn) ha
  have hg := s.growth_le m
  rw [sum_eq_foldr] at hg
  unfold reach
  omega

variable {c : NodeId}

/-! ### Trees that grow under roots -/

/-- Under one of some roots. -/
def Beneath (s : Page σ) (roots : List NodeId) (n : NodeId) : Prop :=
  ∃ r ∈ roots, s.forest.Under r n

theorem ne_of_not_beneath (h : ¬ s.Beneath [n] m) : m ≠ n := fun he =>
  h ⟨n, mem_singleton_self n, he ▸ .refl _ _⟩

/-- Nodes are made under the roots only, no other node is put into a tree, and away from the roots
elements stand as they did. -/
structure Spreads (s t : Page σ) (roots : List NodeId) : Prop where
  nodes : s.forest.KeepsNodes t.forest
  wellFormed : t.forest.WellFormed
  classes : t.classes = s.classes
  registry : t.registry = s.registry
  old : ∀ m p, m < s.forest.nodes.size → t.forest.composedParent m = some p →
    s.forest.composedParent m = some p
  new : ∀ m p, s.forest.nodes.size ≤ m → p < s.forest.nodes.size →
    t.forest.composedParent m = some p → s.Beneath roots p
  standing : ∀ m < s.forest.nodes.size, ¬ s.Beneath roots m → t.standing m = s.standing m

namespace Spreads

theorem refl (h : s.forest.WellFormed) (roots : List NodeId) : s.Spreads s roots :=
  ⟨⟨le_rfl, fun _ _ => rfl⟩, h, rfl, rfl, fun _ _ _ h => h,
    fun _ _ hm _ hp => absurd (Forest.lt_size_of_composedParent hp) hm.not_gt,
    fun _ _ _ => rfl⟩

variable (h : s.Spreads t roots)

include h

theorem ascend_of (hs : s.forest.WellFormed) (hm : m < s.forest.nodes.size)
    (ha : t.forest.ascend k m = some a) : s.forest.ascend k m = some a := by
  induction k generalizing m with
  | zero => exact ha
  | succ k ih =>
    obtain ⟨p, hp, ha⟩ := Option.bind_eq_some_iff.mp ha
    have hp := h.old m p hm hp
    exact Option.bind_eq_some_iff.mpr ⟨p, hp, ih (hs.inside m p hp) ha⟩

theorem under_of (hs : s.forest.WellFormed) (hm : m < s.forest.nodes.size) :
    t.forest.Under a m → s.forest.Under a m := fun ⟨k, ha⟩ => ⟨k, h.ascend_of hs hm ha⟩

theorem beneath_of (hs : s.forest.WellFormed) (hm : s.forest.nodes.size ≤ m)
    (ha : a < s.forest.nodes.size) (hu : t.forest.Under a m) :
    ∃ p, s.Beneath roots p ∧ s.forest.Under a p := by
  revert hm
  refine hu.induct (fun hm => absurd ha hm.not_gt) fun m p hp hu ih hm => ?_
  by_cases hlt : p < s.forest.nodes.size
  · exact ⟨p, h.new m p hm hlt hp, h.under_of hs hlt hu⟩
  · exact ih (not_lt.mp hlt)

theorem weaken {roots' : List NodeId}
    (hr : ∀ r ∈ roots, s.Beneath roots' r) : s.Spreads t roots' := by
  have hbeneath : ∀ m, s.Beneath roots m → s.Beneath roots' m := by
    rintro m ⟨r, hr', hu⟩
    obtain ⟨q, hq, hu'⟩ := hr r hr'
    exact ⟨q, hq, hu'.trans hu⟩
  exact { h with
    new := fun m p hm hlt hp => hbeneath p (h.new m p hm hlt hp)
    standing := fun m hm hb => h.standing m hm fun hb' => hb (hbeneath m hb') }

omit h

theorem trans (hst : s.Spreads t roots) (htu : t.Spreads u roots) (hs : s.forest.WellFormed) :
    s.Spreads u roots := by
  have hle := hst.nodes.size_le
  have hbeneath : ∀ m < s.forest.nodes.size, t.Beneath roots m → s.Beneath roots m :=
    fun m hm ⟨r, hr, hu⟩ => ⟨r, hr, hst.under_of hs hm hu⟩
  refine ⟨hst.nodes.trans htu.nodes, htu.wellFormed, htu.classes.trans hst.classes,
    htu.registry.trans hst.registry, fun m p hm hp => ?_, fun m p hm hlt hp => ?_, fun m hm hb => ?_⟩
  · exact hst.old m p hm (htu.old m p (hm.trans_le hle) hp)
  · by_cases ht : m < t.forest.nodes.size
    · exact hst.new m p hm hlt (htu.old m p ht hp)
    · exact hbeneath p hlt (htu.new m p (not_lt.mp ht) (hlt.trans_le hle) hp)
  · rw [htu.standing m (hm.trans_le hle) fun hb' => hb (hbeneath m hm hb')]
    exact hst.standing m hm hb

theorem fits (h : s.Spreads t roots) (hs : s.forest.WellFormed) (hn : n < s.forest.nodes.size)
    (hapart : ∀ m, s.Beneath roots m → ¬ s.forest.Under n m) (hf : s.Fits depth n) :
    t.Fits depth n := by
  intro m k ha
  have hm : m < s.forest.nodes.size := by
    by_contra hm
    obtain ⟨p, hp, hu⟩ := h.beneath_of hs (not_lt.mp hm) hn ⟨k, ha⟩
    exact hapart p hp hu
  have ha := h.ascend_of hs hm ha
  have hgrowth := growth_congr (h.standing m hm fun hb => hapart m hb ⟨k, ha⟩)
    (h.nodes.tag_eq hm) h.classes h.registry
  have := hf m k ha
  omega

end Spreads

/-- A visit puts new nodes under its node, which fit into the room there was for them, and no other
element turns. -/
structure Calls (s t : Page σ) (n : NodeId) : Prop extends Spreads s t [n] where
  apart : ∀ m, m ≠ n → t.standing m = s.standing m
  room : ∀ m k, s.forest.nodes.size ≤ m → t.forest.ascend (k + 1) m = some n →
    k + 1 + t.growth m ≤ s.growth n

theorem Calls.fits (h : s.Calls t n) (hs : s.forest.WellFormed) (hf : s.Fits (depth + 1) n)
    (hc : t.forest.composedParent c = some n) : t.Fits depth c := by
  intro m k ha
  have hup := Forest.ascend_succ_eq_some.mpr ⟨c, ha, hc⟩
  by_cases hm : m < s.forest.nodes.size
  · have hne : m ≠ n := by
      rintro rfl
      cases h.wellFormed.ascend_self hup
    have hgrowth := growth_congr (h.apart m hne) (h.nodes.tag_eq hm) h.classes h.registry
    have hlt := hf m (k + 1) (h.ascend_of hs hm hup)
    omega
  · have hroom := h.room m k (not_lt.mp hm) hup
    have hlt := hf n 0 rfl
    omega

/-! ### Walks -/

/-- A walk with a stack: from a page and the stack, the nodes that are visited until the stack is empty
and the page then. -/
inductive Runs (visit : Page σ → NodeId → Page σ) :
    Page σ → List NodeId → List NodeId → Page σ → Prop where
  | done (s : Page σ) : Runs visit s [] [] s
  | next {s t : Page σ} {n : NodeId} {stack order : List NodeId}
    (h : Runs visit (visit s n) ((((visit s n).forest.shadow n).toList ++
      (visit s n).forest.children n) ++ stack) order t) : Runs visit s (n :: stack) (n :: order) t

theorem Runs.steps_eq {order : List NodeId} {stack : List (Nat × NodeId)}
    (h : Runs visit s (stack.map (·.2)) order t) (hsteps : Steps visit s stack u)
    (hdepth : ∀ x ∈ stack, order.length ≤ x.1) : u = t := by
  induction hsteps generalizing order with
  | done =>
    cases h
    rfl
  | skip =>
    cases h
    exact absurd (hdepth _ (.head _)) (Nat.not_succ_le_zero _)
  | @next s u depth n stack _ ih =>
    cases h with
    | @next _ _ _ _ order hruns =>
      obtain ⟨hlevels, hrest⟩ := forall_mem_cons.mp hdepth
      refine @ih order ?_ (forall_mem_append.mpr ⟨?_, fun x hx => ?_⟩)
      · simpa [Function.comp_def] using hruns
      · exact forall_mem_map.mpr fun _ _ => Nat.le_of_succ_le_succ hlevels
      · exact Nat.le_of_succ_le (hrest x hx)

/-- Whatever callbacks do, trees are connected and disconnected by a loop over a stack: where it ends,
after no more visits than there can be nodes, the walk does. -/
theorem Runs.walk_reach_eq {order : List NodeId} (h : Runs visit s [n] order t)
    (hlength : order.length ≤ 2 ^ 62) : walk visit s.reach s n = t := by
  have hreach : order.length ≤ s.reach := hlength.trans (Nat.le_add_right ..)
  exact h.steps_eq (Steps.walk s.reach s n (.done _)) (forall_mem_singleton.mpr hreach)

/-- A walk over the trees under some roots: the stack runs empty, no node is visited twice, and all that
is under the roots in the end was visited. -/
structure Walked (visit : Page σ → NodeId → Page σ) (s t : Page σ) (roots order : List NodeId) :
    Prop where
  spreads : s.Spreads t roots
  runs : Runs visit s roots order t
  nodup : order.Nodup
  covers : ∀ m, t.Beneath roots m → m ∈ order
  old : ∀ m ∈ order, m < s.forest.nodes.size → s.Beneath roots m

theorem Steps.walked {inv : Page σ → Prop} {stack : List (Nat × NodeId)}
    (hwf : ∀ s, inv s → s.forest.WellFormed)
    (hvisit : ∀ s n, inv s → n < s.forest.nodes.size → inv (visit s n) ∧ s.Calls (visit s n) n)
    (h : Steps visit s stack t) (hs : inv s)
    (hstack : ∀ x ∈ stack, x.2 < s.forest.nodes.size ∧ s.Fits x.1 x.2)
    (hapart : s.forest.Apart (stack.map (·.2))) : ∃ order, Walked visit s t (stack.map (·.2)) order := by
  induction h with
  | done s =>
    refine ⟨[], .refl (hwf s hs) [], .done s, nodup_nil, ?_, fun _ hm => absurd hm not_mem_nil⟩
    rintro m ⟨r, hr, -⟩
    exact absurd hr not_mem_nil
  | skip => exact absurd ((hstack _ (.head _)).2 _ 0 rfl) (Nat.not_lt_zero _)
  | @next s t depth n stack _ ih =>
    obtain ⟨⟨hn, hfits⟩, hrest⟩ := forall_mem_cons.mp hstack
    obtain ⟨hinv, hv⟩ := hvisit s n hs hn
    have hsw := hwf s hs
    have hlt : ∀ r ∈ n :: stack.map (·.2), r < s.forest.nodes.size :=
      forall_mem_cons.mpr ⟨hn, forall_mem_map.mpr fun x hx => (hrest x hx).1⟩
    have hparent := fun c => hv.wellFormed.composedParent_iff (c := c) (n := n)
    have htops := hapart.of_under fun a b hb => hv.under_of hsw (hlt b hb)
    have hsides := htops.descend hv.wellFormed
    have hnext := @Runs.next _ visit s t n (stack.map (·.2))
    generalize ((visit s n).forest.shadow n).toList ++ (visit s n).forest.children n = cs at *
    rw [map_append, map_map, Function.comp_def, map_id'] at ih
    have hunder : ∀ c ∈ cs, (visit s n).forest.Under n c := fun c hc =>
      (Forest.Under.refl _ n).step ((hparent c).mpr hc)
    obtain ⟨order, hw⟩ := ih hinv (by
      refine forall_mem_append.mpr ⟨forall_mem_map.mpr fun c hc => ?_, fun x hx => ?_⟩
      · have hc := (hparent c).mpr hc
        exact ⟨Forest.lt_size_of_composedParent hc, hv.fits hsw hfits hc⟩
      · obtain ⟨hx', hfits⟩ := hrest x hx
        refine ⟨hv.nodes.lt_size hx', hv.toSpreads.fits hsw hx' ?_ hfits⟩
        rintro m ⟨_, hr, hnm⟩
        exact hapart.not_under (mem_map_of_mem hx) (mem_singleton.mp hr ▸ hnm)) hsides
    have hnv := hv.nodes.lt_size hn
    have hout : ¬ (visit s n).Beneath (cs ++ stack.map (·.2)) n := by
      rintro ⟨r, hr, hrn⟩
      rcases mem_append.mp hr with hr | hr
      · exact hv.wellFormed.not_under_child ((hparent r).mpr hr) hrn
      · exact htops.not_under hr (.refl _ n) hrn
    have hroots : ∀ r ∈ cs ++ stack.map (·.2), (visit s n).Beneath (n :: stack.map (·.2)) r :=
      forall_mem_append.mpr ⟨fun r hr => ⟨n, (.head _), hunder r hr⟩,
        fun r hr => ⟨r, mem_cons_of_mem n hr, .refl _ r⟩⟩
    refine ⟨n :: order, (hv.toSpreads.weaken ?_).trans (hw.spreads.weaken hroots) hsw, hnext hw.runs,
      nodup_cons.mpr ⟨fun hm => hout (hw.old n hm hnv), hw.nodup⟩, ?_, fun m hm hms => ?_⟩
    · exact fun r hr => ⟨r, mem_cons.mpr (.inl (mem_singleton.mp hr)), .refl _ r⟩
    · rintro m ⟨r, hr, hrm⟩
      rcases mem_cons.mp hr with rfl | hr
      · by_cases hne : m = r
        · exact mem_cons.mpr (.inl hne)
        · obtain ⟨c, hc, hcm⟩ := hrm.child hne
          have hcv : c < (visit s r).forest.nodes.size := by
            by_contra hcv
            exact hout (hw.spreads.new c r (not_lt.mp hcv) hnv hc)
          exact .tail _ (hw.covers m
            ⟨c, mem_append_left _ ((hparent c).mp (hw.spreads.old c r hcv hc)), hcm⟩)
      · exact .tail _ (hw.covers m ⟨r, mem_append_right _ hr, hrm⟩)
    · rcases mem_cons.mp hm with rfl | hm
      · exact ⟨m, (.head _), .refl _ m⟩
      · obtain ⟨r, hr, hrm⟩ := hw.old m hm (hv.nodes.lt_size hms)
        obtain ⟨r', hr', hr'r⟩ := hroots r hr
        exact ⟨r', hr', hv.under_of hsw hms (hr'r.trans hrm)⟩

theorem walked_reach {inv : Page σ → Prop} (hwf : ∀ s, inv s → s.forest.WellFormed)
    (hvisit : ∀ s n, inv s → n < s.forest.nodes.size → inv (visit s n) ∧ s.Calls (visit s n) n)
    (hs : inv s) (hn : n < s.forest.nodes.size) :
    ∃ order, Walked visit s (walk visit s.reach s n) [n] order := by
  refine (Steps.walk s.reach s n (.done _)).walked hwf hvisit hs ?_ (pairwise_singleton _ n)
  exact forall_mem_singleton.mpr ⟨hn, fits_reach (hwf s hs) hn⟩

/-! ### Connecting -/

theorem Calls.of_keepsTree (hs : s.forest.WellFormed) (hk : s.forest.KeepsTree t.forest)
    (hclasses : t.classes = s.classes) (hregistry : t.registry = s.registry)
    (hapart : ∀ m, m ≠ n → t.standing m = s.standing m) : s.Calls t n := by
  have hold : ∀ m p, t.forest.composedParent m = some p → s.forest.composedParent m = some p := hk.prunes.parent_of
  have hlt : ∀ {m p}, t.forest.composedParent m = some p → ¬ s.forest.nodes.size ≤ m := fun hp =>
    (Forest.lt_size_of_composedParent (hold _ _ hp)).not_ge
  refine ⟨⟨hk.prunes.toKeepsNodes, hk.wellFormed hs, hclasses, hregistry, fun m p _ => hold m p,
    fun m p hm _ hp => absurd hm (hlt hp), fun m _ hb => hapart m (ne_of_not_beneath hb)⟩, hapart,
    fun m k hm hup => ?_⟩
  obtain ⟨p, hp, -⟩ := Option.bind_eq_some_iff.mp hup
  exact absurd hm (hlt hp)

theorem Calls.refl (h : s.forest.WellFormed) (n : NodeId) : s.Calls s n :=
  .of_keepsTree h (.refl _) rfl rfl fun _ _ => rfl

section

variable [Orderly rel] (hrel : ∀ {f g}, rel f g → f.Prunes g) (h : s.Housed rel) (hacyclic : s.Acyclic)

include hrel h hacyclic

theorem Housed.calls_connect (hi : s.instance? id = some i) : s.Calls (s.connect id) i.element := by
  unfold Page.connect
  simp only [hi]
  split
  next => exact .refl h.wellFormed _
  next =>
    obtain ⟨c, hc⟩ := h.known id i hi
    obtain ⟨f, j, hj, -, hg⟩ := h.runConnection hi hc (!i.mounted) (by simp)
    have hg := hg rfl
    generalize s.runConnection id (!i.mounted) = t at hj
    obtain ⟨g, stage, hfg, -, hrun⟩ := hj.told
    have hforest : t.forest = _ := congrArg Prod.fst hrun
    have hgt : g.Prunes t.forest := hforest ▸ hrel ((h.gentle id i hi).turned true stage g s.world)
    have hp : f.Prunes t.forest := ⟨⟨hfg.extends.toKeepsNodes.trans hgt.toKeepsNodes,
      fun hf => hgt.wellFormed (hfg.wellFormed hf)⟩, fun n p hp =>
        (hfg.composedParent_eq n).symm.trans (hgt.parent_of n p hp)⟩
    have hstanding : ∀ m, m ≠ i.element → t.standing m = s.standing m := fun m hm =>
      hj.standing_of_ne h hi hm
    have hlt := h.element_lt hi
    have hne : ∀ m, s.forest.nodes.size ≤ m → m ≠ i.element := fun m hm he =>
      hm.not_gt (he ▸ hlt)
    refine ⟨⟨hg.extends_.toKeepsNodes.trans hp.toKeepsNodes, hp.wellFormed hg.wellFormed,
      hj.persists.classes, hj.persists.registry, fun m p hm hcp => ?_, fun m p hm hplt hcp => ?_,
      fun m _ hb => hstanding m (ne_of_not_beneath hb)⟩, hstanding, fun m k hm hup => ?_⟩
    · exact hg.extends_.parent_eq m hm ▸ hp.parent_of m p hcp
    · have hcp := hp.parent_of m p hcp
      obtain ⟨k, -, hk⟩ := (hg.fresh m hm (Forest.lt_size_of_composedParent hcp)).under
      cases k with
      | zero => exact absurd (Option.some.inj hk) (hne m hm)
      | succ k =>
        obtain ⟨q, hq, hk⟩ := Option.bind_eq_some_iff.mp hk
        cases hcp.symm.trans hq
        exact ⟨_, mem_singleton_self _, k, hg.extends_.ascend_eq h.wellFormed hplt k ▸ hk⟩
    · have hup := Forest.ascend_of_links hp.parent_of hup
      exact h.room hacyclic hi hc hg (Subset.refl _) hm hup
        ((hstanding m (hne m hm)).trans (h.standing_of_size_le hm))
        (hp.toKeepsNodes.tag_eq (Forest.lt_size_of_ascend hup)) hj.persists.classes hj.persists.registry

theorem Housed.calls_connectNode (n : NodeId) : s.Calls (s.connectNode n) n := by
  unfold Page.connectNode
  split
  next =>
    rcases s.ensureInstance_cases n with ⟨id, ho, hm⟩ | ⟨ho, hm, -⟩ | ⟨ho, tag, cls, c, ht, hr, hc, hm⟩
    · rw [hm]
      obtain ⟨i, hi, rfl⟩ := (h.owner_iff _ _).mp ho
      exact h.calls_connect hrel hacyclic hi
    · rw [hm]
      exact .refl h.wellFormed n
    · rw [hm]
      have hi := (instance?_withInstance h.numbered n cls c _).trans (if_pos rfl)
      have hv := (h.withInstance ho ht hc).calls_connect hrel (hacyclic.congr rfl rfl) hi
      have hsame : ∀ m, m ≠ n → _ := fun m hm => h.standing_withInstance cls c hm
      exact { hv with
        standing := fun m hm hb => (hv.standing m hm hb).trans (hsame m (ne_of_not_beneath hb))
        apart := fun m hm => (hv.apart m hm).trans (hsame m hm)
        room := fun m k hm hup => h.growth_withInstance ho ht hr hc ▸ hv.room m k hm hup }
  next => exact .refl h.wellFormed n

theorem Housed.walked_connectTree (hn : n < s.forest.nodes.size) :
    ∃ order, Walked Page.connectNode s (s.connectTree n) [n] order := by
  refine walked_reach (fun s (hs : s.Housed rel ∧ s.Acyclic) => hs.1.wellFormed)
    (fun s n hs _ => ?_) ⟨h, hacyclic⟩ hn
  have hv := hs.1.calls_connectNode hrel hs.2 n
  exact ⟨⟨hs.1.connectNode n, hs.2.congr hv.classes hv.registry⟩, hv⟩

end

theorem Housed.walked_disconnectTree (h : s.Housed Forest.KeepsTree) (hn : n < s.forest.nodes.size) :
    ∃ order, Walked Page.disconnectNode s (s.disconnectTree n) [n] order := by
  refine walked_reach (fun s hs => hs.wellFormed) (fun s n hs _ => ⟨hs.disconnectNode n, ?_⟩) h hn
  unfold Page.disconnectNode
  split
  next id ho =>
    obtain ⟨i, hi, rfl⟩ := (hs.owner_iff _ _).mp ho
    by_cases hstate : i.state = .connecting ∨ i.state = .connected
    · obtain ⟨j, hj⟩ := hs.disconnect_shifts hi hstate
      exact .of_keepsTree hs.wellFormed (hj.keepsTree (hs.gentle id i hi) fun h => h)
        hj.persists.classes hj.persists.registry fun m hm => hj.standing_of_ne hs hi hm
    · simp only [Page.disconnect, hi, Bool.or_eq_true, decide_eq_true_eq, if_neg hstate]
      exact .refl hs.wellFormed _
  next => exact .refl hs.wellFormed n

/-- Connecting a tree ends, if no template leads to itself and authors put no nodes in: the stack runs
empty, and every node that is under the root in the end was visited once. -/
theorem connectTree_visits (h : s.Housed Forest.Prunes) (hacyclic : s.Acyclic) {root : NodeId}
    (hroot : root < s.forest.nodes.size) :
    ∃ order, Runs Page.connectNode s [root] order (s.connectTree root) ∧ order.Nodup ∧
      ∀ n, (s.connectTree root).forest.Under root n → n ∈ order := by
  obtain ⟨order, hw⟩ := h.walked_connectTree id hacyclic hroot
  exact ⟨order, hw.runs, hw.nodup, fun n hn => hw.covers n ⟨root, mem_singleton_self root, hn⟩⟩

def picture : Component Unit := .still { tag := "x-picture" }

/-- A frame that holds a picture in its hidden tree. -/
def frame : Component Unit :=
  .still { tag := "x-frame", template := "<x-picture></x-picture>", shadow := true }

/-- A frame is connected, and with it the picture that its template holds. -/
theorem connectTree_visits_frame :
    let s := (Page.start ()).performAll [.define picture, .define frame, .createElement "x-frame"]
    s.forest.nodes.size = 2 ∧ (s.connectTree 1).forest.tag? 3 = some "x-picture" ∧
    ∃ order, Runs connectNode s [1] order (s.connectTree 1) ∧ order.Nodup ∧ 3 ∈ order := by
  intro s
  have hhoused : s.Housed Forest.Prunes := by
    refine (Housed.start ()).performAll _ ⟨trivial, trivial, trivial, trivial⟩ fun c hc => ?_
    have hc : c = picture ∨ c = frame := by simpa using hc
    rcases hc with rfl | rfl <;>
      exact Component.respects_still (fun f => (Forest.KeepsTree.refl f).prunes) _
  obtain ⟨order, hruns, hnodup, hcovers⟩ := connectTree_visits hhoused
    (acyclic_of_lt (by decide +kernel)) (show 1 < _ by decide +kernel)
  exact ⟨by decide +kernel, by decide +kernel, order, hruns, hnodup,
    hcovers 3 ⟨2, by decide +kernel⟩⟩

end Page

end Componentry.Live
