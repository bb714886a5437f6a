import Componentry.Proofs.Document.Texts
import Componentry.Proofs.Live.Housed

/-!
# Filling contents again

Connecting an element fills the placeholders in its content with the parameters of the location, also
if they were filled before. The content goes down to the next hidden trees, through whatever components
are nested in it. Which texts an element fills, and how, depends on the components of elements and on
the place of old nodes only, so it is settled before anything is connected.
-/

namespace Componentry.Live

open Document

variable {σ : Type}

namespace Page

variable {s t u : Page σ} {id : InstanceId} {i j : Instance σ} {n m x e : NodeId} {c : Component σ}
  {r : Page σ × Instance σ} {rel : Forest → Forest → Prop}

/-! ### What an element fills -/

/-- The component of an element: that of its instance, or else the one that its tag has. -/
def componentOf? (s : Page σ) (n : NodeId) : Option (Component σ) :=
  match s.instanceOf? n with
  | some i => s.class? i.cls
  | none => (s.forest.tag? n).bind fun tag => (s.registry.find? tag).bind s.class?

/-- Where the content of an element with a component is: in its hidden tree, or in the element. -/
def home? (s : Page σ) (n : NodeId) (c : Component σ) : Option NodeId :=
  if c.description.shadow then s.forest.shadow n else some n

/-- A text is in the content of an element with a component. -/
def Contains (s : Page σ) (n : NodeId) (c : Component σ) (x : NodeId) : Prop :=
  ∃ home ∈ s.home? n c, x ∈ s.forest.textNodes home

instance : Decidable (s.Contains n c x) :=
  inferInstanceAs (Decidable (∃ home, home ∈ s.home? n c ∧ x ∈ s.forest.textNodes home))

def paramsFor (s : Page σ) (c : Component σ) : Params :=
  (Params.ofLocation (c.description.route.map (·.path)) s.location).merged

/-- What connecting an element makes of a text. -/
def refill (s : Page σ) (x n : NodeId) (text : String) : String :=
  match s.componentOf? n with
  | some c => if s.Contains n c x then (s.paramsFor c).fill text else text
  | none => text

theorem refill_of_contains (hc : s.componentOf? n = some c) (hx : s.Contains n c x) :
    s.refill x n = (s.paramsFor c).fill := by
  funext text
  simp [refill, hc, if_pos hx]

theorem refill_of_not_contains (hc : s.componentOf? n = some c) (hx : ¬ s.Contains n c x) :
    s.refill x n = fun text => text := by
  funext text
  simp [refill, hc, if_neg hx]

theorem refill_of_none (hc : s.componentOf? n = none) (x : NodeId) :
    s.refill x n = fun text => text := by
  funext text
  simp [refill, hc]

/-- What connecting all elements on the way down from one makes of a text. -/
def refillAll (s : Page σ) (e x : NodeId) (text : String) : String :=
  (s.forest.way e x).foldl (fun text n => s.refill x n text) text

theorem contains_iff {g : Forest} {root : NodeId} (he : s.forest.Extends g) (hf : s.forest.WellFormed)
    (hg : g.WellFormed) (hplace : if c.description.shadow then g.kind root = .shadow n else root = n)
    (hx : x < s.forest.nodes.size) : x ∈ g.textNodes root ↔ s.Contains n c x := by
  have hsame : ∀ {r}, x ∈ g.textNodes r ↔ x ∈ s.forest.textNodes r := he.mem_textNodes_iff hf hg hx
  unfold Contains home?
  cases hd : c.description.shadow with
  | false =>
    rw [hd] at hplace
    rw [hplace]
    simpa using hsame
  | true =>
    rw [hd, ← hg.shadow_iff] at hplace
    constructor
    · intro hm
      have hm' := hsame.mp hm
      -- what holds an old text is old
      have hroot := hf.lt_size_of_under hx (hf.under_of_mem_textNodes hm').1
      have hkind : s.forest.kind root = .shadow n := by
        rw [← Kind.bare_eq_shadow, ← he.kind_eq root hroot, (hg.shadow_iff n root).mp hplace]
        rfl
      exact ⟨root, (hf.shadow_iff n root).mpr hkind, hm'⟩
    · rintro ⟨home, hhome, hm⟩
      have hkind := he.kind_shadow ((hf.shadow_iff n home).mp hhome)
      cases hplace.symm.trans ((hg.shadow_iff n home).mpr hkind)
      exact hsame.mpr hm

theorem Contains.under (h : s.Contains n c x) (hf : s.forest.WellFormed) :
    s.forest.Under n x ∧ x ≠ n := by
  obtain ⟨home, hhome, hm⟩ := h
  obtain ⟨hu, hne⟩ := hf.under_of_mem_textNodes hm
  unfold home? at hhome
  split at hhome
  · have hparent : s.forest.composedParent home = some n := by
      rw [Forest.composedParent, (hf.shadow_iff n home).mp hhome]
    have hup := (Forest.Under.refl s.forest n).step hparent |>.trans hu
    refine ⟨hup, fun he => ?_⟩
    subst he
    exact hf.not_under_child hparent hu
  · cases hhome
    exact ⟨hu, hne⟩

theorem contains_congr (he : s.forest.Extends t.forest) (hf : s.forest.WellFormed)
    (hg : t.forest.WellFormed) (hx : x < s.forest.nodes.size) : t.Contains n c x ↔ s.Contains n c x := by
  cases hhome : t.home? n c with
  | some home =>
    have hplace : if c.description.shadow then t.forest.kind home = .shadow n else home = n := by
      unfold home? at hhome
      split at hhome
      next hd => rw [if_pos hd]; exact (hg.shadow_iff n home).mp hhome
      next hd => rw [if_neg hd]; exact (Option.some.inj hhome).symm
    rw [← contains_iff he hf hg hplace hx]
    unfold Contains
    rw [hhome]
    simp
  | none =>
    have hnone : s.home? n c = none := by
      unfold home? at hhome ⊢
      split at hhome
      next hd =>
        rw [if_pos hd]
        cases hs : s.forest.shadow n with
        | none => rfl
        | some r =>
          have hkind := he.kind_shadow ((hf.shadow_iff n r).mp hs)
          rw [(hg.shadow_iff n r).mpr hkind] at hhome
          cases hhome
      next => cases hhome
    unfold Contains
    rw [hhome, hnone]
    simp

theorem refill_congr (he : s.forest.Extends t.forest) (hf : s.forest.WellFormed)
    (hg : t.forest.WellFormed) (hc : t.componentOf? n = s.componentOf? n)
    (hl : t.location = s.location) (hx : x < s.forest.nodes.size) (text : String) :
    t.refill x n text = s.refill x n text := by
  unfold refill paramsFor
  rw [hc, hl]
  split
  · simp [contains_congr he hf hg hx]
  · rfl

theorem refill_of_not_under (hf : s.forest.WellFormed) (hn : ¬ s.forest.Under n x) :
    s.refill x n = fun text => text := by
  cases hc : s.componentOf? n with
  | none => exact refill_of_none hc x
  | some c => exact refill_of_not_contains hc fun hx => hn (hx.under hf).1

/-! ### Furnishing an instance -/

theorem applyStyles_texts (s : Page σ) (id : InstanceId) (i : Instance σ) (d : Description) :
    s.forest.KeepsTexts (s.applyStyles id i d).1.forest := by
  have hattach : ∀ (s : Page σ) root css, s.forest.KeepsTexts (s.attach root css).1.forest :=
    fun _ _ _ => Forest.KeepsTexts.frame.attach (.adoptSheet _ _) ..
  have hown : s.forest.KeepsTexts (s.applyOwnStyles id i d.styles).1.forest := by
    unfold applyOwnStyles
    split
    · exact hattach ..
    · exact .refl _
  unfold applyStyles applyGlobalStyles
  dsimp only
  split
  · split
    · exact (hown.trans (hattach ..)).trans (hattach ..)
    · exact hown.trans (hattach ..)
  · exact hown

theorem furnish_texts {d : Description} {fresh : Bool}
    (hr : (if fresh then s.mount id i d else (s, i)) = r) (hs : r.1.forest.WellFormed)
    (hi : r.1.instance? id = some r.2) : ∀ x < r.1.forest.nodes.size,
      (s.furnish id i d fresh).1.forest.text? x =
        if x ∈ r.1.forest.textNodes r.2.root then
          (r.1.forest.text? x).map
            (Params.ofLocation (d.route.map (·.path)) r.1.location).merged.fill
        else r.1.forest.text? x := by
  subst hr
  unfold furnish applyParams
  dsimp only
  generalize (if fresh then s.mount id i d else (s, i)) = r at hs hi ⊢
  have htexts := r.1.applyStyles_texts id r.2 d
  have hstyles := Decorates.applyStyles hi d
  have hroot : (r.1.applyStyles id r.2 d).2.root = r.2.root :=
    (congrArg Instance.root (hstyles.plain_eq hi) :)
  obtain ⟨hdecorated, -⟩ := hstyles
  have hwf := hdecorated.tree.wellFormed hs
  generalize r.1.applyStyles id r.2 d = q at htexts hroot hdecorated hwf
  intro x hx
  change (Params.fillTree _ q.1.forest q.2.root).1.text? x = _
  rw [hwf.text?_fillTree, hdecorated.location, htexts.text_eq x hx]
  simp [← hroot, hdecorated.tree.extends.mem_textNodes_iff hs hwf hx]

/-! ### Visiting an element -/

/-- An element is awake: its instance is connected, or about to be. -/
def Awake (s : Page σ) (n : NodeId) : Prop :=
  ∃ i, s.instanceOf? n = some i ∧ (i.state = .connecting ∨ i.state = .connected)

theorem awake_iff (hi : s.instanceOf? n = some i) :
    s.Awake n ↔ i.state = .connecting ∨ i.state = .connected := by
  simp [Awake, hi]

/-- An element has the content of its component, if it has one. -/
def Made (s : Page σ) (n : NodeId) : Prop :=
  ∀ c, s.componentOf? n = some c → ∃ i, s.instanceOf? n = some i ∧ i.mounted = true

/-- A visit turns a single element, and if it is not awake it fills the texts in its content. -/
structure Visits (n : NodeId) (s t : Page σ) : Prop where
  forest : s.forest.Extends t.forest
  fresh : ∀ m, s.forest.nodes.size ≤ m → m < t.forest.nodes.size → t.forest.Under n m
  location : t.location = s.location
  /-- The components are the same. -/
  classes : t.classes = s.classes
  /-- Elements have the components they had. -/
  component : ∀ m < s.forest.nodes.size, t.componentOf? m = s.componentOf? m
  /-- All other instances keep their footing. -/
  apart : ∀ m, m ≠ n →
    (t.instanceOf? m).map Instance.footing = (s.instanceOf? m).map Instance.footing
  /-- Texts that are not under the element stay as they are. -/
  texts : ∀ x < s.forest.nodes.size, ¬ s.forest.Under n x → t.forest.text? x = s.forest.text? x
  /-- Nodes are made only for an element that had no content. -/
  made : s.Made n → t.forest.nodes.size = s.forest.nodes.size
  filled : ¬ s.Awake n → ∀ x < s.forest.nodes.size,
    t.forest.text? x = (s.forest.text? x).map (s.refill x n)

theorem Persists.componentOf?_eq (h : Persists s t) (hm : m < s.forest.nodes.size) :
    t.componentOf? m = s.componentOf? m := by
  have hinstance := h.instances.instanceOf?_eq h.owners m
  have hclass : t.class? = s.class? := funext h.class?_eq
  unfold componentOf?
  rw [h.nodes.tag_eq hm, h.registry, hclass]
  cases hi : s.instanceOf? m with
  | none =>
    rw [hi] at hinstance
    rw [Option.map_eq_none_iff.mp hinstance]
  | some i =>
    obtain ⟨j, hj, he⟩ := exists_of_map_eq hinstance hi
    have hcls : j.cls = i.cls := congrArg (·.2.1) he
    rw [hj]
    exact congrArg s.class? hcls

theorem Housed.visits_runConnection [Orderly rel] (h : s.Housed rel) (hi : s.instance? id = some i)
    (hb : i.behaviour.Respects Eq) : Visits i.element s (s.runConnection id (!i.mounted)) := by
  obtain ⟨c, hc⟩ := h.known id i hi
  have hof := h.instanceOf?_iff.mpr ⟨id, hi, rfl⟩
  have hcomponent : s.componentOf? i.element = some c := by
    unfold componentOf?
    rw [hof]
    exact hc
  obtain ⟨_, j, hreseats, -⟩ := h.runConnection hi hc (!i.mounted) (by simp)
  -- the content, when it is in place
  obtain ⟨r, he, hr, -, hgrown⟩ := h.opened hi hc (!i.mounted) (by simp)
  have hgrown := hgrown rfl
  have hextends := hgrown.extends_
  obtain ⟨htexts, hlocation⟩ : s.forest.KeepsTexts r.1.forest ∧ r.1.location = s.location := by
    -- whether or not the template has to be copied, old texts stay
    rw [← he]
    split
    · exact ⟨mount_forest Forest.KeepsTexts.frame .attachShadow (fun _ _ _ => .update _ _ fun _ => rfl)
        (s.updateInstance id _) .., rfl⟩
    · exact ⟨.refl _, rfl⟩
  have hfilled := furnish_texts he hr.persists.wellFormed hr.stored
  have hfurnish := Decorates.furnish he hr.stored
  generalize hq : Page.furnish _ id _ c.description (!i.mounted) = q at hfilled hfurnish
  have hbehaviour := (congrArg Instance.behaviour (hfurnish.plain_eq hr.stored)).trans (congrArg
    (·.2.2) hr.identity)
  obtain ⟨hforest, hlocation'⟩ : (s.runConnection id (!i.mounted)).forest = q.1.forest ∧
      (s.runConnection id (!i.mounted)).location = q.1.location := by
    have hb : q.2.behaviour.Respects Eq := hbehaviour ▸ hb
    simp only [Page.runConnection, hi, hc, hq]
    exact ⟨(hb.connected _ _ _).symm, rfl⟩
  have htree := hfurnish.decorated.tree
  have hsize := hfurnish.decorated.size_eq
  have htext : ∀ x < s.forest.nodes.size, (s.runConnection id (!i.mounted)).forest.text? x =
      (s.forest.text? x).map (s.refill x i.element) := by
    intro x hx
    have hcontains := contains_iff hextends h.wellFormed hr.persists.wellFormed hr.place hx
    rw [hforest, hfilled x (hextends.lt_size hx), htexts.text_eq x hx, hlocation]
    simp only [hcontains]
    by_cases hx : s.Contains i.element c x
    · rw [if_pos hx, refill_of_contains hcomponent hx]
      rfl
    · rw [if_neg hx, refill_of_not_contains hcomponent hx]
      exact Option.map_id'.symm
  exact {
    forest := hforest ▸ hextends.trans htree.extends
    fresh := by
      intro m hle hm
      rw [hforest] at hm ⊢
      obtain ⟨k, -, hk⟩ := (hgrown.fresh m hle (hsize ▸ hm)).under
      exact htree.under_iff.mpr ⟨k, hk⟩
    location := hlocation'.trans (hfurnish.decorated.location.trans hlocation)
    classes := hreseats.persists.classes
    component := fun m hm => hreseats.persists.componentOf?_eq hm
    texts := by
      intro x hx hn
      rw [htext x hx, refill_of_not_under h.wellFormed hn]
      exact Option.map_id'
    apart := fun m hm => hreseats.apart h hi hm
    made := by
      intro hm
      obtain ⟨k, hk, hmounted⟩ := hm c hcomponent
      cases hof.symm.trans hk
      rw [hforest, hsize]
      refine (not_lt.mp fun hlt => ?_).antisymm hextends.size_le
      -- what is mounted has no room for new nodes
      obtain ⟨l, hl, -⟩ := (hgrown.fresh _ le_rfl hlt).under
      rw [if_pos hmounted] at hl
      exact Nat.not_lt_zero l hl
    filled := fun _ => htext }

/-- The callbacks under a node leave the forest alone, also those of instances that are still to be
made. -/
structure Docile (s : Page σ) (n : NodeId) : Prop where
  instances : ∀ m i, s.forest.Under n m → s.instanceOf? m = some i → i.behaviour.Respects Eq
  /-- No instance is to be made, or all components make such instances. -/
  classes : (∀ m, s.forest.Under n m → s.Made m) ∨ ∀ x ∈ s.classes, x.2.Respects Eq

theorem Visits.refl (h : s.Awake n ∨ s.componentOf? n = none) : Visits n s s where
  forest := .refl _
  fresh _ hle hlt := absurd hlt hle.not_gt
  location := rfl
  classes := rfl
  component _ _ := rfl
  texts _ _ _ := rfl
  apart _ _ := rfl
  made _ := rfl
  filled hawake x _ := by
    rw [refill_of_none (h.resolve_left hawake)]
    exact Option.map_id'.symm

theorem componentOf?_of_owner?_none (ho : s.owner? n = none) :
    s.componentOf? n = (s.forest.tag? n).bind fun tag => (s.registry.find? tag).bind s.class? := by
  unfold componentOf? instanceOf?
  rw [ho]
  rfl

theorem Housed.visits_withInstance (h : s.Housed rel) (hcls : s.componentOf? n = some c)
    (ho : s.owner? n = none) {cls : ClassId} (hc : s.class? cls = some c)
    (hv : Visits n (s.withInstance n cls c) t) : Visits n s t := by
  have hof := h.instanceOf?_withInstance n cls c
  have hcomponent : ∀ m, (s.withInstance n cls c).componentOf? m = s.componentOf? m := by
    intro m
    by_cases hm : m = n
    · rw [hm, hcls, componentOf?, hof, if_pos rfl]
      exact hc
    · unfold componentOf?
      rw [hof, if_neg hm]
      rfl
  have happart : ∀ m, m ≠ n → (s.withInstance n cls c).instanceOf? m = s.instanceOf? m :=
    fun m hm => (hof m).trans (if_neg hm)
  have hasleep : ¬ (s.withInstance n cls c).Awake n := by
    rw [awake_iff ((hof n).trans (if_pos rfl))]
    simp
  exact {
    forest := hv.forest
    fresh := hv.fresh
    location := hv.location
    classes := hv.classes
    component := fun m hlt => (hv.component m hlt).trans (hcomponent m)
    texts := hv.texts
    apart := fun m hm => (hv.apart m hm).trans (by rw [happart m hm])
    made := by
      intro hmade
      obtain ⟨i, hi, -⟩ := hmade c hcls
      rw [instanceOf?, ho] at hi
      cases hi
    filled := by
      intro _ x hx
      have hsame : (s.withInstance n cls c).refill x n = s.refill x n :=
        funext (refill_congr (.refl _) h.wellFormed h.wellFormed (hcomponent n) rfl hx)
      rw [← hsame]
      exact hv.filled hasleep x hx }

theorem Housed.visits_connectNode [Orderly rel] (h : s.Housed rel) (hd : s.Docile n) :
    Visits n s (s.connectNode n) := by
  unfold Page.connectNode
  split
  next he =>
    rcases s.ensureInstance_cases n with ⟨id, ho, hm⟩ | ⟨ho, hm, hno⟩ | ⟨ho, tag, cls, c, ht, hr, hc, hm⟩
    · rw [hm]
      obtain ⟨i, hi, rfl⟩ := (h.owner_iff _ _).mp ho
      have hof := h.instanceOf?_iff.mpr ⟨id, hi, rfl⟩
      simp only [Page.connect, hi]
      split
      next hawake => exact .refl (.inl ((awake_iff hof).mpr (by simpa using hawake)))
      next => exact h.visits_runConnection hi (hd.instances _ i (.refl ..) hof)
    · rw [hm]
      refine .refl (.inr ?_)
      rw [componentOf?_of_owner?_none ho]
      cases ht : s.forest.tag? n with
      | none => rfl
      | some tag =>
        cases hr : s.registry.find? tag with
        | none => simp [hr]
        | some cls => simpa [hr] using hno tag cls ht hr
    · rw [hm]
      have hcls : s.componentOf? n = some c := by
        rw [componentOf?_of_owner?_none ho, ht, Option.bind_some, hr, Option.bind_some, hc]
      have hclasses : ∀ x ∈ s.classes, x.2.Respects Eq := by
        refine hd.classes.resolve_left fun hmade => ?_
        obtain ⟨i, hi, -⟩ := hmade n (.refl ..) c hcls
        rw [instanceOf?, ho] at hi
        cases hi
      have hi := (instance?_withInstance h.numbered n cls c _).trans (if_pos rfl)
      refine h.visits_withInstance hcls ho hc ?_
      have hv := (h.withInstance ho ht hc).visits_runConnection hi
        (hclasses _ (mem_of_class? hc) s.world)
      have hconnect : (s.withInstance n cls c).connect (s.lastId + 1) =
          (s.withInstance n cls c).runConnection (s.lastId + 1) (!false) := by
        simp [Page.connect, hi]
      dsimp only
      rw [hconnect]
      exact hv
  next he =>
    have htag : s.forest.tag? n = none := by
      rw [Option.eq_none_iff_forall_ne_some]
      exact fun tag ht => he (Forest.isElement_iff.mpr ⟨tag, ht⟩)
    have ho : s.owner? n = none := by
      rw [Option.eq_none_iff_forall_ne_some]
      intro id ho
      obtain ⟨i, hi, rfl⟩ := (h.owner_iff n id).mp ho
      obtain ⟨tag, ht⟩ := h.element id i hi
      rw [htag] at ht
      cases ht
    refine .refl (.inr ?_)
    rw [componentOf?_of_owner?_none ho, htag]
    rfl

end Page

end Componentry.Live
