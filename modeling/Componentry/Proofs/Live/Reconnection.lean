import Componentry.Proofs.Live.Refilling

/-!
# Taking an element out and putting it back

An element that is taken out of the document and appended to the same parent again has all instances
under it disconnected and connected anew, from the top down. Each of them fills the texts of its content
once more. So a text afterwards is what the elements on the way down to it make of it, one after the
other, and it is as before exactly if they leave it alone; a parameter whose value holds a placeholder is
enough for a text to change.
-/

namespace Componentry.Live

open Document List

variable {σ : Type}

namespace Page

variable {s t u : Page σ} {id : InstanceId} {i j : Instance σ} {n m x c e p : NodeId}
  {rel : Forest → Forest → Prop} {k : Nat} {stack : List (Nat × NodeId)}

/-! ### What stays while others are visited -/

theorem awake_congr
    (h : (t.instanceOf? m).map Instance.footing = (s.instanceOf? m).map Instance.footing) :
    t.Awake m ↔ s.Awake m := by
  have hstate : (t.instanceOf? m).map (·.state) = (s.instanceOf? m).map (·.state) := by
    have hs := congrArg (Option.map fun x => x.2.2.state) h
    rwa [Option.map_map, Option.map_map] at hs
  have hof : ∀ v : Page σ, v.Awake m ↔ ∃ state, (v.instanceOf? m).map (·.state) = some state ∧
      (state = .connecting ∨ state = .connected) := by
    intro v
    unfold Awake
    cases v.instanceOf? m <;> simp
  rw [hof, hof, hstate]

theorem Made.congr (h : s.Made m) (hc : t.componentOf? m = s.componentOf? m)
    (hf : (t.instanceOf? m).map Instance.footing = (s.instanceOf? m).map Instance.footing) :
    t.Made m := by
  intro c hm
  rw [hc] at hm
  obtain ⟨i, hi, hmounted⟩ := h c hm
  obtain ⟨j, hj, he⟩ := exists_of_map_eq hf hi
  have hsame : j.mounted = i.mounted := congrArg (·.2.2.mounted) he
  exact ⟨j, hj, hsame.trans hmounted⟩

/-- After a visit, the callbacks under a node leave the forest alone if they did under one above it. -/
theorem Visits.docile (h : Visits n s t) (hs : s.Housed rel) (hd : s.Docile e)
    (hne : ¬ t.forest.Under c n) (hold : ∀ m < s.forest.nodes.size, t.forest.Under c m → s.forest.Under e m)
    (hlt : s.Made e → ∀ m, t.forest.Under c m → m < s.forest.nodes.size) : t.Docile c := by
  have hfoot : ∀ m, t.forest.Under c m → (t.instanceOf? m).map Instance.footing = _ := fun m hm =>
    h.apart m fun he => hne (he ▸ hm)
  constructor
  · intro m j hm hj
    obtain ⟨i, hi, he⟩ := exists_of_map_eq (hfoot m hm).symm hj
    have hb : j.behaviour = i.behaviour := (congrArg (·.1.2.2) he).symm
    obtain ⟨id, hid, rfl⟩ := hs.instanceOf?_iff.mp hi
    exact hb ▸ hd.instances _ i (hold _ (hs.element_lt hid) hm) hi
  · rcases hd.classes with hmade | hclasses
    · refine .inl fun m hm => ?_
      have hm' := hlt (hmade e (.refl ..)) m hm
      exact (hmade m (hold m hm' hm)).congr (h.component m hm') (hfoot m hm)
    · exact .inr (h.classes ▸ hclasses)

/-! ### Connecting a tree -/

/-- What the elements from a text up to some level make of it, from the top down. -/
def refillUp (s : Page σ) (k : Nat) (x : NodeId) (text : String) : String :=
  (s.forest.climb k x).reverse.foldl (fun text n => s.refill x n text) text

theorem refillUp_succ (hk : s.forest.ascend (k + 1) x = some n) (text : String) :
    s.refillUp (k + 1) x text = s.refillUp k x (s.refill x n text) := by
  unfold refillUp
  rw [Forest.climb_succ, hk, Option.toList_some, reverse_append]
  rfl

theorem refillUp_congr (he : s.forest.Extends t.forest) (hs : s.forest.WellFormed)
    (ht : t.forest.WellFormed) (hc : ∀ m < s.forest.nodes.size, t.componentOf? m = s.componentOf? m)
    (hl : t.location = s.location) (hx : x < s.forest.nodes.size) (k : Nat) :
    t.refillUp k x = s.refillUp k x := by
  funext text
  unfold refillUp
  rw [he.climb_eq hs hx]
  refine foldl_ext _ _ _ fun text m hm => ?_
  obtain ⟨j, -, hj⟩ := Forest.mem_climb.mp (mem_reverse.mp hm)
  exact refill_congr he hs ht (hc m (hs.ascend_lt_size hx hj)) hl hx text

/-- In a walk that connects trees side by side, texts are filled by all that is above them down to the
last level, if nothing of it is awake. -/
theorem Steps.filled [Orderly rel] (h : Steps Page.connectNode s stack t)
    (hs : s.Housed rel) (hstack : ∀ x ∈ stack, x.2 < s.forest.nodes.size ∧ s.Docile x.2)
    (hapart : s.forest.Apart (stack.map (·.2))) (hx : x < s.forest.nodes.size) :
    ((∀ r ∈ stack.map (·.2), ¬ s.forest.Under r x) → t.forest.text? x = s.forest.text? x) ∧
      ∀ depth n, (depth, n) ∈ stack → ∀ k < depth, s.forest.ascend k x = some n →
        (∀ m, s.forest.Under n m → s.forest.Under m x → ¬ s.Awake m) →
        t.forest.text? x = (s.forest.text? x).map (s.refillUp k x) := by
  induction h with
  | done => exact ⟨fun _ => rfl, fun _ _ hr => absurd hr not_mem_nil⟩
  | skip _ ih =>
    obtain ⟨hout, hin⟩ := ih hs (forall_mem_cons.mp hstack).2 (pairwise_cons.mp hapart).2 hx
    refine ⟨fun h => hout (forall_mem_cons.mp h).2, fun depth n hr k hk => ?_⟩
    rcases mem_cons.mp hr with he | hr
    · exact absurd ((Prod.mk.inj he).1 ▸ hk) (Nat.not_lt_zero k)
    · exact hin depth n hr k hk
  | @next s t depth n stack _ ih =>
    obtain ⟨⟨hn, hd⟩, hrest⟩ := forall_mem_cons.mp hstack
    have hwf := hs.wellFormed
    have hv : Visits n s _ := hs.visits_connectNode hd
    have ht := hs.connectNode n
    generalize s.connectNode n = v at *
    have hlt : ∀ r ∈ n :: stack.map (·.2), r < s.forest.nodes.size :=
      forall_mem_cons.mpr ⟨hn, forall_mem_map.mpr fun x hx => (hrest x hx).1⟩
    have hparent := fun c => ht.wellFormed.composedParent_iff (c := c) (n := n)
    have htops := hapart.of_under fun a b hb => (hv.forest.under_iff hwf (hlt b hb)).mp
    have hsides := htops.descend ht.wellFormed
    generalize (v.forest.shadow n).toList ++ v.forest.children n = cs at *
    rw [map_append, map_map, Function.comp_def, map_id'] at ih
    have hbelow : ∀ {c}, v.forest.composedParent c = some n → v.forest.Under n c :=
      (Forest.Under.refl _ n).step
    obtain ⟨hout, hin⟩ := ih ht (by
      refine forall_mem_append.mpr ⟨forall_mem_map.mpr fun c hc => ?_, fun y hy => ?_⟩
      · have hc := (hparent c).mpr hc
        have hclt := Forest.lt_size_of_composedParent hc
        exact ⟨hclt, hv.docile hs hd (ht.wellFormed.not_under_child hc)
          (fun m hm hu => (hv.forest.under_iff hwf hm).mp ((hbelow hc).trans hu))
          fun hmade m hu => hv.made hmade ▸ hu.lt_size hclt⟩
      · obtain ⟨hy', hd⟩ := hrest y hy
        have hlt' := hv.forest.lt_size hy'
        refine ⟨hlt', hv.docile hs hd (htops.not_under (mem_map_of_mem hy) (.refl ..))
          (fun m hm => (hv.forest.under_iff hwf hm).mp) fun _ m hu => ?_⟩
        by_contra hge
        exact htops.not_under (mem_map_of_mem hy) (hv.fresh m (not_lt.mp hge) (hu.lt_size hlt')) hu)
      hsides (hv.forest.lt_size hx)
    have hunder : ∀ {r}, v.forest.Under r x ↔ s.forest.Under r x := hv.forest.under_iff hwf hx
    have hup' := fun k => hv.forest.ascend_eq hwf hx k
    have hrefill := refillUp_congr hv.forest hwf ht.wellFormed hv.component hv.location hx
    have hsleep : ∀ r, ¬ v.forest.Under r n →
        (∀ m, s.forest.Under r m → s.forest.Under m x → ¬ s.Awake m) →
        ∀ m, v.forest.Under r m → v.forest.Under m x → ¬ v.Awake m := by
      intro r hr hasleep m hm hmx
      have hmx := hunder.mp hmx
      rw [awake_congr (hv.apart m fun he => hr (he ▸ hm))]
      exact hasleep m ((hv.forest.under_iff hwf (hwf.lt_size_of_under hx hmx)).mp hm) hmx
    refine ⟨fun hnone => ?_, fun depth' r hr k hk hup hasleep => ?_⟩
    · rw [hout (forall_mem_append.mpr ⟨fun c hc hu => hnone n (.head _)
        (hunder.mp ((hbelow ((hparent c).mpr hc)).trans hu)), fun r hr hu =>
          hnone r (mem_cons_of_mem n hr) (hunder.mp hu)⟩)]
      exact hv.texts x hx (hnone n (.head _))
    · rcases mem_cons.mp hr with he | hr
      · obtain ⟨rfl, rfl⟩ := Prod.mk.inj he
        have hvisit := hv.filled (hasleep r (.refl ..) ⟨k, hup⟩) x hx
        cases k with
        | zero =>
          -- the text is the node itself
          cases hup
          rw [hout (forall_mem_append.mpr ⟨fun c hc => ht.wellFormed.not_under_child
            ((hparent c).mpr hc), fun r hr => htops.not_under hr (.refl ..)⟩), hvisit]
          rfl
        | succ k =>
          obtain ⟨c, hcx, hc⟩ := Forest.ascend_succ_eq_some.mp hup
          have hc' := (hv.forest.parent_eq c (Forest.lt_size_of_composedParent hc)).trans hc
          rw [hin depth c (mem_append_left _ (mem_map_of_mem ((hparent c).mp hc'))) k
            (Nat.lt_of_succ_lt_succ hk) ((hup' k).trans hcx) (hsleep c
              (ht.wellFormed.not_under_child hc') fun m hm => hasleep m
                (((Forest.Under.refl _ r).step hc).trans hm)), hvisit, hrefill, Option.map_map]
          exact congrFun (congrArg Option.map (funext fun text => (refillUp_succ hup text).symm)) _
      · have hmem := mem_map_of_mem (f := (·.2)) hr
        rw [hin depth' r (mem_append_right _ hr) k hk ((hup' k).trans hup)
          (hsleep r (htops.not_under hmem (.refl ..)) hasleep), hrefill]
        rw [hv.texts x hx fun hu => hapart.not_under hmem hu ⟨k, hup⟩]

/-! ### Disconnecting a tree -/

/-- Instances may fall asleep, and nodes may be linked otherwise; texts and all else that decides how
texts are filled stay as they are. -/
structure Rests (s t : Page σ) : Prop where
  /-- Nodes, instances and components persist. -/
  persists : Persists s t
  size_eq : t.forest.nodes.size = s.forest.nodes.size
  texts : s.forest.KeepsTexts t.forest
  location : t.location = s.location
  /-- Instances keep their content. -/
  mounted : ∀ m, (t.instanceOf? m).map (·.mounted) = (s.instanceOf? m).map (·.mounted)
  asleep : ∀ m, t.Awake m → s.Awake m

namespace Rests

theorem trans (hst : Rests s t) (htu : Rests t u) : Rests s u :=
  ⟨hst.persists.trans htu.persists, htu.size_eq.trans hst.size_eq, hst.texts.trans htu.texts,
    htu.location.trans hst.location, fun m => (htu.mounted m).trans (hst.mounted m),
    fun m h => hst.asleep m (htu.asleep m h)⟩

theorem relinked (s : Page σ) {g : Forest} (hg : g.WellFormed) (hs : s.forest.SameNodes g) :
    Rests s { s with forest := g } :=
  ⟨.relinked s hg hs, hs.size_eq, .of_sameNodes hs, rfl, fun _ => rfl, fun _ => (awake_congr rfl).mp⟩

theorem respects (h : Rests s t) {r : Forest → Forest → Prop}
    (hr : ∀ i, s.instanceOf? m = some i → i.behaviour.Respects r) :
    ∀ j, t.instanceOf? m = some j → j.behaviour.Respects r := by
  intro j hj
  have hsame := h.persists.instances.instanceOf?_eq h.persists.owners m
  obtain ⟨i, hi, he⟩ := exists_of_map_eq hsame.symm hj
  have hb : j.behaviour = i.behaviour := (congrArg (·.2.2) he).symm
  exact hb ▸ hr i hi

theorem made (h : Rests s t) (hm : m < s.forest.nodes.size) (hs : s.Made m) : t.Made m := by
  intro c hc
  rw [h.persists.componentOf?_eq hm] at hc
  obtain ⟨i, hi, hmounted⟩ := hs c hc
  obtain ⟨j, hj, he⟩ := exists_of_map_eq (h.mounted m) hi
  exact ⟨j, hj, he.trans hmounted⟩

theorem docile (h : Rests s t) (hs : s.forest.WellFormed) (he : s.forest.Extends t.forest)
    (hn : n < s.forest.nodes.size) (hd : s.Docile n) : t.Docile n := by
  have hold : ∀ m, t.forest.Under n m → m < s.forest.nodes.size ∧ s.forest.Under n m := by
    intro m hm
    have hlt := h.size_eq ▸ hm.lt_size (h.size_eq.symm ▸ hn)
    exact ⟨hlt, (he.under_iff hs hlt).mp hm⟩
  constructor
  · exact fun m j hm => h.respects (hd.instances m · (hold m hm).2) j
  · refine hd.classes.imp (fun hmade m hm => ?_) fun hclasses => ?_
    · obtain ⟨hlt, hu⟩ := hold m hm
      exact h.made hlt (hmade m hu)
    · rw [h.persists.classes]
      exact hclasses

end Rests

/-- Instances may fall asleep, and nothing else happens that matters to texts. -/
structure Lulls (s t : Page σ) : Prop extends Rests s t where
  tree : s.forest.KeepsTree t.forest

namespace Lulls

theorem refl (hs : s.forest.WellFormed) : Lulls s s where
  persists := (Undisturbed.refl s).persists hs
  size_eq := rfl
  texts := .refl _
  location := rfl
  mounted _ := rfl
  asleep _ h := h
  tree := .refl _

theorem trans (hst : Lulls s t) (htu : Lulls t u) : Lulls s u :=
  ⟨hst.toRests.trans htu.toRests, hst.tree.trans htu.tree⟩

end Lulls

/-- Disconnecting an instance whose callback leaves the forest alone leaves texts and the location alone
and makes no node. -/
theorem disconnect_texts (hb : ∀ i, s.instance? id = some i → i.behaviour.Respects Eq) :
    s.forest.KeepsTexts (s.disconnect id).forest ∧
      (s.disconnect id).forest.nodes.size = s.forest.nodes.size ∧
      (s.disconnect id).location = s.location := by
  refine disconnect_keeps (p := fun t => s.forest.KeepsTexts t.forest ∧
    t.forest.nodes.size = s.forest.nodes.size ∧ t.location = s.location) ⟨.refl _, rfl, rfl⟩
    fun i stage hi _ => ?_
  have hforest (u : Page σ) : (u.run (i.behaviour.disconnected stage)).1.forest = u.forest :=
    ((hb i hi).disconnected stage u.forest u.world).symm
  rw [hforest]
  unfold unwire
  split
  · exact ⟨.refl _, rfl, rfl⟩
  · exact ⟨Forest.KeepsTexts.frame.unlisten (fun f id _ => .update f id fun _ => rfl) ..,
      Forest.Frame.size.unlisten (fun _ _ _ => Forest.size_update ..) .., rfl⟩

theorem Housed.lulls_disconnect [Orderly rel] (h : s.Housed rel) (hi : s.instance? id = some i)
    (hb : i.behaviour.Respects Eq) :
    Lulls s (s.disconnect id) ∧ ¬ (s.disconnect id).Awake i.element := by
  have hof := h.instanceOf?_iff.mpr ⟨id, hi, rfl⟩
  by_cases hs : i.state = .connecting ∨ i.state = .connected
  · obtain ⟨j, hj⟩ := h.disconnect_shifts hi hs
    obtain ⟨htexts, hsize, hlocation⟩ := disconnect_texts fun k hk =>
      Option.some.inj (hi.symm.trans hk) ▸ hb
    have hself := hj.instanceOf?_self (hj.housed h hj.seated) hi
    have hasleep : ¬ (s.disconnect id).Awake i.element := by
      rw [awake_iff hself, hj.state]
      simp
    refine ⟨⟨⟨hj.persists, hsize, htexts, hlocation, fun m => ?_, fun m hm => ?_⟩,
      hj.keepsTree hb fun he => he ▸ .refl _⟩, hasleep⟩
    · by_cases he : m = i.element
      · rw [he, hself, hof]
        exact congrArg some (hj.mounted rfl)
      · have hfoot := congrArg (Option.map (·.2.2.mounted)) (hj.apart h hi he)
        rwa [Option.map_map, Option.map_map] at hfoot
    · have he : m ≠ i.element := by
        rintro rfl
        exact hasleep hm
      exact (awake_congr (hj.apart h hi he)).mp hm
  · have hsame : s.disconnect id = s := by
      simp [Page.disconnect, hi, if_neg hs]
    rw [hsame]
    exact ⟨.refl h.wellFormed, fun hawake => hs ((awake_iff hof).mp hawake)⟩

theorem Housed.lulls_disconnectNode [Orderly rel] (h : s.Housed rel)
    (hd : ∀ i, s.instanceOf? n = some i → i.behaviour.Respects Eq) :
    Lulls s (s.disconnectNode n) ∧ ¬ (s.disconnectNode n).Awake n := by
  unfold Page.disconnectNode
  split
  next id ho =>
    obtain ⟨i, hi, rfl⟩ := (h.owner_iff n id).mp ho
    exact h.lulls_disconnect hi (hd i (h.instanceOf?_iff.mpr ⟨id, hi, rfl⟩))
  next ho =>
    refine ⟨.refl h.wellFormed, fun ⟨i, hi, _⟩ => ?_⟩
    rw [instanceOf?, ho] at hi
    cases hi

theorem Steps.lulls [Orderly rel]
    (h : Steps Page.disconnectNode s stack t) (hs : s.Housed rel)
    (hd : ∀ x ∈ stack, ∀ m i, s.forest.Under x.2 m → s.instanceOf? m = some i →
      i.behaviour.Respects Eq) :
    Lulls s t ∧ ∀ depth n, (depth, n) ∈ stack → ∀ k < depth, ∀ x, s.forest.ascend k x = some n →
      ¬ t.Awake x := by
  induction h with
  | done => exact ⟨.refl hs.wellFormed, fun _ _ hr => absurd hr not_mem_nil⟩
  | skip _ ih =>
    obtain ⟨hlulls, hdone⟩ := ih hs (forall_mem_cons.mp hd).2
    refine ⟨hlulls, fun depth n hr k hk => ?_⟩
    rcases mem_cons.mp hr with he | hr
    · exact absurd ((Prod.mk.inj he).1 ▸ hk) (Nat.not_lt_zero k)
    · exact hdone depth n hr k hk
  | @next s t depth n stack _ ih =>
    obtain ⟨hn, hrest⟩ := forall_mem_cons.mp hd
    obtain ⟨hv, hasleep⟩ := hs.lulls_disconnectNode (hn n · (.refl ..))
    have ht := hs.disconnectNode n
    generalize s.disconnectNode n = v at *
    have hparent : ∀ c, c ∈ (v.forest.shadow n).toList ++ v.forest.children n ↔
        s.forest.composedParent c = some n := fun c => by
      rw [← hv.tree.composedParent_eq]
      exact ht.wellFormed.composedParent_iff.symm
    have hunder : ∀ {r m}, v.forest.Under r m → s.forest.Under r m := hv.tree.under_iff.mp
    obtain ⟨hlater, hdone⟩ := ih ht (forall_mem_append.mpr ⟨forall_mem_map.mpr fun c hc m i hm =>
      hv.respects (hn m · (((Forest.Under.refl _ n).step ((hparent c).mp hc)).trans (hunder hm))) i,
      fun x hx m i hm => hv.respects (hrest x hx m · (hunder hm)) i⟩)
    have hup' := Forest.ascend_congr hv.tree.composedParent_eq
    refine ⟨hv.trans hlater, fun depth' r hr k hk x hup => ?_⟩
    rcases mem_cons.mp hr with he | hr
    · obtain ⟨rfl, rfl⟩ := Prod.mk.inj he
      cases k with
      | zero =>
        obtain rfl : x = r := Option.some.inj hup
        exact fun hawake => hasleep (hlater.asleep x hawake)
      | succ k =>
        obtain ⟨c, hcx, hc⟩ := Forest.ascend_succ_eq_some.mp hup
        exact hdone depth c (mem_append_left _ (mem_map_of_mem ((hparent c).mpr hc))) k
          (Nat.lt_of_succ_lt_succ hk) x ((hup' k x).trans hcx)
    · exact hdone depth' r (mem_append_right _ hr) k hk x ((hup' k x).trans hup)

/-! ### Out and back in -/

theorem refillAll_eq (hs : s.forest.WellFormed) (hx : x < s.forest.nodes.size)
    (hk : s.forest.ascend k x = some e) : s.refillAll e x = s.refillUp k x := by
  unfold refillAll refillUp
  rw [hs.way_eq hx hk]

theorem refillAll_of_not_names {text : String}
    (h : ∀ n ∈ s.forest.way e x, ∀ c, s.componentOf? n = some c → s.Contains n c x →
      ¬ (s.paramsFor c).Names text.toList) : s.refillAll e x text = text := by
  unfold refillAll
  generalize s.forest.way e x = l at h
  induction l with
  | nil => rfl
  | cons n l ih =>
    obtain ⟨hn, hl⟩ := forall_mem_cons.mp h
    have hone : s.refill x n text = text := by
      cases hc : s.componentOf? n with
      | none => rw [refill_of_none hc]
      | some c =>
        by_cases hx : s.Contains n c x
        · rw [refill_of_contains hc hx]
          exact Params.fill_of_not_names (hn c hc hx)
        · rw [refill_of_not_contains hc hx]
    rw [foldl_cons, hone]
    exact ih hl

theorem lt_reach (hk : k < s.forest.nodes.size) : k < s.reach := by
  unfold reach
  omega

/-- Taking an element out of the document lulls all under it, and nothing is linked otherwise but the
element. -/
theorem Housed.rests_remove [Orderly rel] (h : s.Housed rel) (hl : (s.forest.kind n).isInner)
    (hc : s.forest.isConnected n) (hn : n < s.forest.nodes.size)
    (hd : ∀ m i, s.forest.Under n m → s.instanceOf? m = some i → i.behaviour.Respects Eq) :
    Rests s (s.remove n) ∧
      (∀ m, (s.remove n).forest.composedParent m =
        if m = n then none else s.forest.composedParent m) ∧
      ∀ m, s.forest.Under n m → ¬ (s.remove n).Awake m := by
  have hne := Kind.ne_shadow_of_isInner hl
  have hparent := h.wellFormed.composedParent_detach hne
  have hunder : ∀ m, (s.forest.detach n).Under n m ↔ s.forest.Under n m := fun m =>
    Forest.DifferAt.under_iff fun k hk => (hparent k).trans (if_neg hk)
  have hwf := h.wellFormed.detach hne
  have hsame := Forest.SameNodes.detach s.forest n
  have hrests := Rests.relinked s hwf hsame
  have hout : s.remove n = ({ s with forest := s.forest.detach n } : Page σ).disconnectTree n := by
    simp [Page.remove, hc]
  rw [hout]
  obtain ⟨hlulls, hasleep⟩ := (Steps.walk _ _ n (.done _)).lulls (h.relinked hwf hsame)
    (forall_mem_singleton.mpr fun m i hm hi => hd m i ((hunder m).mp hm) hi)
  refine ⟨hrests.trans hlulls.toRests, fun m => (hlulls.tree.composedParent_eq m).trans (hparent m),
    fun m hu => ?_⟩
  obtain ⟨k, hk⟩ := (hunder m).mpr hu
  exact hasleep _ n (mem_singleton_self _) k (lt_reach (hwf.steps_lt_size (hsame.size_eq ▸ hu.lt_size hn) hk)) m hk

theorem Housed.rests_relinked [Orderly rel] (h : s.Housed rel) (hp : s.forest.parent e = some p)
    (hc : s.forest.isConnected e)
    (hd : ∀ m i, s.forest.Under e m → s.instanceOf? m = some i → i.behaviour.Respects Eq) :
    let t : Page σ := { s.remove e with forest := (s.remove e).forest.append p e }
    t.Housed rel ∧ Rests s t ∧ s.forest.Extends t.forest ∧ (s.remove e).forest.movedBy e = [e] ∧
      ∀ m, s.forest.Under e m → ¬ t.Awake m := by
  have hwf := h.wellFormed
  have hinner := hwf.inner e p hp
  have hcp := hwf.composedParent_of_parent hp
  have hlt := Forest.lt_size_of_parent hp
  have hout := h.remove (Kind.isLoose_of_isInner hinner)
  obtain ⟨hrests, hparent, hasleep⟩ := h.rests_remove hinner hc hlt hd
  generalize s.remove e = out at hout hrests hparent hasleep
  have hinner' := (hrests.persists.nodes.isInner_eq hlt).trans hinner
  have hnot : ¬ out.forest.Under e p := by
    rintro ⟨k, hk⟩
    have hdiffer : out.forest.DifferAt s.forest e := fun m hm => ((hparent m).trans (if_neg hm)).symm
    exact hwf.not_under_child hcp (hdiffer.under ⟨k, hk⟩)
  have hmoved := hout.wellFormed.append (hrests.size_eq.symm ▸ hlt)
    (hrests.size_eq.symm ▸ hwf.inside e p hcp) (fun _ => hinner') hnot
  have hmovedBy : out.forest.movedBy e = [e] := by
    refine Forest.movedBy_of_ne_fragment fun hk => ?_
    rw [hk] at hinner'
    cases hinner'
  have hback := hrests.trans (.relinked out hmoved.wellFormed hmoved.same)
  refine ⟨hout.relinked hmoved.wellFormed hmoved.same, hback, ?_, hmovedBy, fun m hu hawake => ?_⟩
  · refine ⟨hback.persists.nodes, fun m _ => ?_⟩
    rw [hmoved.composedParent_eq, hmovedBy, hparent]
    by_cases hm : m = e
    · rw [if_pos (mem_singleton.mpr hm), hm, hcp]
    · rw [if_neg fun h => hm (mem_singleton.mp h), if_neg hm]
  · exact hasleep m hu ((awake_congr rfl).mp hawake)

/-- A text under an element that is taken out and put back is what the elements on the way down to it
make of it. -/
theorem Housed.text?_reconnected [Orderly rel] (h : s.Housed rel) (hp : s.forest.parent e = some p)
    (hc : s.forest.isConnected e) (hd : s.Docile e) (hx : s.forest.Under e x) :
    ((s.remove e).append p e).forest.text? x = (s.forest.text? x).map (s.refillAll e x) := by
  have hwf := h.wellFormed
  have hcp := hwf.composedParent_of_parent hp
  have hlt := Forest.lt_size_of_parent hp
  have hxlt := hx.lt_size hlt
  obtain ⟨ht, hrests, hextends, hmovedBy, hasleep⟩ := h.rests_relinked hp hc hd.instances
  have hlive : ((s.remove e).forest.append p e).isConnected p = true := by
    rw [hextends.isConnected_eq hwf ht.wellFormed (hwf.inside e p hcp), ← hwf.isConnected_eq hcp]
    exact hc
  rw [append_eq, hmovedBy, hlive, foldl_cons, foldl_nil]
  simp only [follow, Bool.not_true, Bool.and_false, Bool.false_eq_true, if_false, if_true]
  generalize ({ s.remove e with forest := (s.remove e).forest.append p e } : Page σ) = t
    at ht hrests hextends hasleep
  obtain ⟨k, hk⟩ := hx
  have hk' := (hextends.ascend_eq hwf hxlt k).trans hk
  have hxt := hrests.size_eq.symm ▸ hxlt
  have hfilled := (Steps.walk t.reach t e (.done _)).filled ht (forall_mem_singleton.mpr
    ⟨hrests.size_eq.symm ▸ hlt, hrests.docile hwf hextends hlt hd⟩) (pairwise_singleton _ e) hxt
  have htext := hfilled.2 _ e (mem_singleton_self _) k (lt_reach (ht.wellFormed.steps_lt_size hxt hk')) hk' (by
    intro m hm hmx
    have hm' := hrests.size_eq ▸ ht.wellFormed.lt_size_of_under hxt hmx
    exact hasleep m ((hextends.under_iff hwf hm').mp hm))
  unfold Page.connectTree
  rw [htext, hrests.texts.text_eq x hxlt, refillAll_eq hwf hxlt hk,
    refillUp_congr hextends hwf ht.wellFormed (fun _ => hrests.persists.componentOf?_eq)
      hrests.location hxlt]

theorem Housed.docile (h : s.Housed Eq) (n : NodeId) : s.Docile n := by
  refine ⟨fun m i _ hi => ?_, .inr h.gentleClasses⟩
  obtain ⟨id, hi, -⟩ := h.instanceOf?_iff.mp hi
  exact h.gentle id i hi

/-- After every run, taking a node of the document out and appending it to its parent again, while the
callbacks under it leave the forest alone, makes of each text under it what the elements on the way down
to it make of it, one after the other. So texts stay as they are exactly if these leave them alone, and a
text does in particular if it holds no placeholder that has a value for one of them. -/
theorem reconnecting_refills_texts (world : σ) (ops : List (Operation σ))
    (horder : ∀ c, .define c ∈ ops → c.Respects Forest.KeepsOrder)
    (hadmitted : (Page.start world).AdmitsAll ops) : let s := (Page.start world).performAll ops
    ∀ e p, s.forest.parent e = some p → s.forest.isConnected e → s.Docile e →
      let t := (s.remove e).append p e
      (∀ x, s.forest.Under e x → t.forest.text? x = (s.forest.text? x).map (s.refillAll e x)) ∧
      ((∀ x, s.forest.Under e x → t.forest.text? x = s.forest.text? x) ↔
        ∀ x text, s.forest.Under e x → s.forest.text? x = some text → s.refillAll e x text = text) ∧
      ∀ x text, s.forest.Under e x → s.forest.text? x = some text →
        (∀ n ∈ s.forest.way e x, ∀ c, s.componentOf? n = some c → s.Contains n c x →
          ¬ (s.paramsFor c).Names text.toList) →
        t.forest.text? x = some text := by
  intro s e p hp hc hd t
  have h : s.Housed Forest.KeepsOrder := (Housed.start world).performAll ops hadmitted horder
  have htext : ∀ x, s.forest.Under e x → t.forest.text? x = (s.forest.text? x).map (s.refillAll e x) :=
    fun x hx => h.text?_reconnected hp hc hd hx
  refine ⟨htext, ⟨fun hsame x text hx ht => ?_, fun hsame x hx => ?_⟩, fun x text hx ht hn => ?_⟩
  · have hx := (htext x hx).symm.trans (hsame x hx)
    rw [ht] at hx
    exact Option.some.inj hx
  · rw [htext x hx]
    cases ht : s.forest.text? x with
    | none => rfl
    | some text => exact congrArg some (hsame x text hx ht)
  · rw [htext x hx, ht]
    exact congrArg some (refillAll_of_not_names hn)

def badge : Component Unit := .still
  { tag := "x-badge", template := "<b>\x7b\x7bname\x7d\x7d</b> of \x7b\x7btotal\x7d\x7d" }

/-- A board that shows a title and a badge in a hidden tree. -/
def board : Component Unit := .still
  { tag := "x-board", template := "<p>\x7b\x7btitle\x7d\x7d</p><x-badge></x-badge>", shadow := true }

/-- A board is hung up at a location that names its title and its badge. -/
def boarded : List (Operation Unit) :=
  [.setLocation "/?title=Hi&name=Ann", .define badge, .define board, .createElement "x-board",
    .append 0 1]

/-- It shows the same when it is taken down and hung up again. -/
theorem reconnecting_refills_texts_boarded : let s := (Page.start ()).performAll boarded
    (∀ c, .define c ∈ boarded → c.Respects Forest.KeepsOrder) ∧
    (Page.start ()).AdmitsAll boarded ∧
    s.forest.parent 1 = some 0 ∧ s.forest.isConnected 1 ∧ s.Docile 1 ∧
    (s.forest.text? 4, s.forest.text? 7, s.forest.text? 8) =
      (some "Hi", some "Ann", some " of \x7b\x7btotal\x7d\x7d") ∧
    ∀ x, s.forest.Under 1 x → ((s.remove 1).append 0 1).forest.text? x = s.forest.text? x := by
  intro s
  have hquiet : ∀ {rel : Forest → Forest → Prop}, (∀ f, rel f f) →
      ∀ c, .define c ∈ boarded → c.Respects rel := by
    intro rel hrel c hc
    simp only [boarded, mem_cons, not_mem_nil, or_false, reduceCtorEq,
      Operation.define.injEq, false_or] at hc
    rcases hc with rfl | rfl
    · exact Component.respects_still hrel _
    · exact Component.respects_still hrel _
  have hadmitted : (Page.start ()).AdmitsAll boarded := by
    refine ⟨trivial, trivial, trivial, trivial, ?_, trivial⟩
    unfold Admits
    decide +kernel
  have hdocile : s.Docile 1 :=
    ((Housed.start ()).performAll boarded hadmitted (hquiet fun _ => rfl)).docile 1
  have hpage : s.forest.parent 1 = some 0 ∧ s.forest.isConnected 1 ∧ 1 < s.forest.nodes.size ∧
      (s.forest.text? 4, s.forest.text? 7, s.forest.text? 8) =
        (some "Hi", some "Ann", some " of \x7b\x7btotal\x7d\x7d") ∧
      ∀ x < s.forest.nodes.size, ∀ text ∈ s.forest.text? x, s.refillAll 1 x text = text := by
    decide +kernel
  obtain ⟨hparent, hconnected, hlt, htexts, hnodes⟩ := hpage
  have hstable : ∀ x text, s.forest.Under 1 x → s.forest.text? x = some text →
      s.refillAll 1 x text = text := fun x text hx ht => hnodes x (hx.lt_size hlt) text ht
  refine ⟨hquiet .refl, hadmitted, hparent, hconnected, hdocile, htexts, ?_⟩
  exact (reconnecting_refills_texts () boarded (hquiet .refl) hadmitted 1 0 hparent hconnected
    hdocile).2.1.mpr hstable

/-- A note that shows a parameter. -/
def note : Component Unit := .still { tag := "x-note", template := "<p>\x7b\x7ba\x7d\x7d</p>" }

/-- A note is hung up at a location where the value of its parameter is a placeholder. -/
def noted : List (Operation Unit) :=
  [.setLocation "/?a=%7B%7Bb%7D%7D&b=x", .define note, .createElement "x-note", .append 0 1]

/-- It shows the placeholder, and another value once it is taken down and hung up again. -/
theorem reconnecting_changes_note : let s := (Page.start ()).performAll noted
    let t := (s.remove 1).append 0 1
    s.forest.parent 1 = some 0 ∧ s.forest.isConnected 1 ∧ s.Docile 1 ∧ s.forest.Under 1 3 ∧
      t.location = s.location ∧ s.forest.text? 3 = some "\x7b\x7bb\x7d\x7d" ∧
      t.forest.text? 3 = some "x" := by
  intro s t
  have hquiet : ∀ c, .define c ∈ noted → c.Respects Eq := by
    intro c hc
    simp only [noted, mem_cons, not_mem_nil, or_false, reduceCtorEq,
      Operation.define.injEq, false_or] at hc
    exact hc ▸ Component.respects_still (fun _ => rfl) _
  have hadmitted : (Page.start ()).AdmitsAll noted := by
    refine ⟨trivial, trivial, trivial, ?_, trivial⟩
    unfold Admits
    decide +kernel
  have hpage : s.forest.parent 1 = some 0 ∧ s.forest.isConnected 1 ∧ s.forest.ascend 2 3 = some 1 ∧
      t.location = s.location ∧ s.forest.text? 3 = some "\x7b\x7bb\x7d\x7d" ∧
      t.forest.text? 3 = some "x" := by decide +kernel
  obtain ⟨hparent, hconnected, hunder, htexts⟩ := hpage
  exact ⟨hparent, hconnected, ((Housed.start ()).performAll noted hadmitted hquiet).docile 1,
    ⟨2, hunder⟩, htexts⟩

end Page

end Componentry.Live
