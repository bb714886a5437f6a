import Componentry.Proofs.Live.Wardrobe

/-!
# How operations turn outfits

What every operation does to the outfits of a page, one outfit at a time: connecting lets instances
enter, disconnecting lets them leave, a hot update renews those that are live and restyles those that
are not, and nothing else bears on outfits. A run turns each outfit step by step.
-/

namespace Componentry.Live

open Document List

variable {σ α : Type}

namespace Page

variable {s t u : Page σ} {id : InstanceId} {i j : Instance σ} {c : Component σ}
  {turns : Option Outfit → Option Outfit → Prop}

/-- Every outfit turns in a certain way, and the page goes on knowing what it knows. -/
structure Turns (turns : Option Outfit → Option Outfit → Prop) (s t : Page σ) : Prop where
  /-- The page goes on knowing what it knows. -/
  fitted : t.Fitted
  stock : ∀ x ∈ s.sheets.sheets, x ∈ t.sheets.sheets
  turn : ∀ id, turns (s.outfit? id) (t.outfit? id)

namespace Turns

theorem trans (hturns : ∀ {a b c}, turns a b → turns b c → turns a c) (hst : Turns turns s t)
    (htu : Turns turns t u) : Turns turns s u :=
  ⟨htu.fitted, fun x hx => htu.stock x (hst.stock x hx), fun id => hturns (hst.turn id) (htu.turn id)⟩

theorem imp {turns' : Option Outfit → Option Outfit → Prop} (h : Turns turns s t)
    (himp : ∀ {a b}, turns a b → turns' a b) : Turns turns' s t :=
  ⟨h.fitted, h.stock, fun id => himp (h.turn id)⟩

theorem idle (hstay : ∀ o, turns o o) (h : s.Fitted) (hs : Idle s t) : Turns turns s t := by
  refine ⟨h.idle hs, hs.stock, fun id => ?_⟩
  rw [h.outfit?_idle hs]
  exact hstay _

theorem reclothes (hstay : ∀ o, turns o o) {g : Outfit → Outfit} (h : Reclothes id g s t)
    (hturn : ∀ o, s.outfit? id = some o → turns (some o) (some (g o))) : Turns turns s t := by
  refine ⟨h.fitted, h.stock, fun id' => ?_⟩
  by_cases hne : id' = id
  · rw [hne, h.self]
    cases ho : s.outfit? id with
    | none => exact hstay none
    | some o => exact hturn o ho
  · rw [h.others id' hne]
    exact hstay _

end Turns

theorem of_outfit? {o : Outfit} (hi : s.instance? id = some i) (ho : s.outfit? id = some o) :
    o.live = decide (i.state = .connected) ∧ o.mounted = i.mounted := by
  obtain ⟨i', hi', ho⟩ := Option.bind_eq_some_iff.mp ho
  obtain ⟨c, -, ho⟩ := Option.bind_eq_some_iff.mp ho
  cases hi.symm.trans hi'
  split at ho
  · cases ho
  · exact Option.some.inj ho ▸ ⟨rfl, rfl⟩

/-! ### Entering -/

section

variable (h : s.Fitted)

include h

variable (id)

theorem Fitted.connect : Turns Outfit.Enters s (s.connect id) := by
  refine connect_keeps (.idle .stay h (.refl s)) fun i hi hstate => ?_
  have hmounted : (!i.mounted) = false → i.mounted = true := by simp
  refine .reclothes .stay (h.runConnection hi hmounted) fun o ho => ?_
  obtain ⟨hlive, hom⟩ := of_outfit? hi ho
  have hsame : (!i.mounted && o.mounted) = false := by
    rw [hom]
    exact Bool.not_and_self _
  simp only [hsame]
  exact .enter (hlive.trans (decide_eq_false hstate))

theorem Fitted.withInstance {n : NodeId} {cls : ClassId} (ho : s.owner? n = none)
    (hn : s.forest.isElement n) (hc : s.class? cls = some c) :
    Turns Outfit.Enters s (s.withInstance n cls c) := by
  have hsuits : ∀ i, s.Suits i → (s.withInstance n cls c).Suits i := fun i hi =>
    ⟨hi.settled, hi.mounted, hi.plain, hi.hidden⟩
  refine ⟨?_, fun _ hx => hx, fun id => ?_⟩
  · exact { h.toStaffed.withInstance ho hc, h with
      element := forall_withInstance h.numbered hn h.element
      suits := forall_withInstance h.numbered
        ⟨nofun, nofun, fun _ _ _ => rfl, fun _ _ _ hm => nomatch hm⟩
        fun id i hi => hsuits i (h.suits id i hi)
      bare := by
        intro m hm hnone
        rw [owner?_cons rfl] at hnone
        split at hnone
        · cases hnone
        · exact h.bare m hm hnone }
  · have hlookup := instance?_withInstance h.numbered n cls c id
    split at hlookup
    next he =>
      have hnone : s.outfit? id = none := outfit?_of_none (he ▸ instance?_next h.numbered)
      have hbare : s.forest.worn n = [] := by
        rw [Forest.worn, h.bare n hn ho]
        rfl
      rw [hnone, outfit?_of_instance hlookup hc]
      cases hd : c.description.shadow with
      | true => exact .stay none
      | false =>
        change Outfit.Enters none (some ⟨_, _, _, s.forest.worn n, _⟩)
        rw [hbare]
        exact .made c.description.styles
    next =>
      have hsame : (s.withInstance n cls c).outfit? id = s.outfit? id := by
        unfold outfit?
        rw [hlookup]
        rfl
      rw [hsame]
      exact .stay _

theorem Fitted.ensureInstance (n : NodeId) : Turns Outfit.Enters s (s.ensureInstance n).1 :=
  ensureInstance_keeps (.idle .stay h (.refl s)) fun {tag _ _} ho ht _ hc =>
    h.withInstance ho (Forest.isElement_iff.mpr ⟨tag, ht⟩) hc

theorem Fitted.connectTree (root : NodeId) : Turns Outfit.Enters s (s.connectTree root) :=
  connectTree_keeps
    (fun _ n ht => ht.trans .trans (ht.fitted.ensureInstance n))
    (fun _ id ht => ht.trans .trans (ht.fitted.connect id)) (.idle .stay h (.refl s)) root

theorem Fitted.register (hc : c.Respects Forest.KeepsSheets) :
    Turns Outfit.Enters s (s.register c) := by
  let s₁ : Page σ := { s with lastId := s.lastId + 1 }
  have hnext : s₁.Fitted :=
    { h.toStaffed.next, h with
      suits := fun id i hi => ⟨(h.suits id i hi).settled, (h.suits id i hi).mounted,
        (h.suits id i hi).plain, (h.suits id i hi).hidden⟩ }
  obtain ⟨s', rfl, -, hfresh, he, hstaffed⟩ := h.toStaffed.register hc
  have hshare : Idle s₁ (s₁.shareStyles c.description.globalStyles) := by
    unfold shareStyles
    split
    · refine ⟨.attach s₁ _ fun he => ?_, .of_eq rfl⟩
      exact absurd (h.document.2.symm.trans he) Bool.false_ne_true
    · exact .refl s₁
  have hs := hnext.idle hshare
  have houtfit := hnext.outfit?_idle hshare
  have hstock := hshare.stock
  rw [he] at hstaffed ⊢
  change ∀ id, (s₁.shareStyles c.description.globalStyles).outfit? id = s.outfit? id at houtfit
  generalize s₁.shareStyles c.description.globalStyles = s' at hs houtfit hfresh hstock hstaffed ⊢
  let t : Page σ := { s' with
    registry := s'.registry.insert c.description.tag (s.lastId + 1)
    classes := (s.lastId + 1, c) :: s'.classes }
  have hold : ∀ {id i c'}, s'.instance? id = some i → s'.class? i.cls = some c' →
      t.class? i.cls = some c' := fun _ hc' => class?_cons hfresh rfl hc'
  have hsame : ∀ {id i c'}, s'.instance? id = some i → t.class? i.cls = some c' →
      s'.class? i.cls = some c' := by
    intro id i c' hi hc'
    obtain ⟨d, hd⟩ := hs.known id i hi
    rw [hold hi hd] at hc'
    exact Option.some.inj hc' ▸ hd
  have ht : t.Fitted := { hstaffed, hs with
    suits := by
      intro id i hi
      have hi' := hs.suits id i hi
      exact ⟨hi'.settled, hi'.mounted, fun c' hc' => hi'.plain c' (hsame hi hc'),
        fun c' hc' => hi'.hidden c' (hsame hi hc')⟩ }
  refine ⟨ht, hstock, fun id => ?_⟩
  have hequal : t.outfit? id = s.outfit? id := by
    rw [← houtfit id]
    cases hi : s'.instance? id with
    | none => rw [outfit?_of_none hi, outfit?_of_none (s := t) hi]
    | some i =>
      obtain ⟨c', hc'⟩ := hs.known id i hi
      rw [outfit?_of_instance hi hc', outfit?_of_instance (s := t) hi (hold hi hc')]
      rfl
  rw [← hequal]
  exact .stay _

theorem Fitted.define (hc : c.Respects Forest.KeepsSheets) :
    Turns Outfit.Enters s (s.define c).1 := by
  refine define_keeps (.idle .stay h (.refl s)) fun _ _ => ?_
  have hregister := h.register hc
  exact hregister.trans .trans (hregister.fitted.connectTree s.document)

/-! ### Leaving -/

theorem Fitted.disconnect : Turns Outfit.Leaves s (s.disconnect id) := by
  refine disconnect_keeps (.idle .stay h (.refl s)) fun i stage hi hstate => ?_
  obtain ⟨c, hc⟩ := h.known id i hi
  have hfit := h.suits id i hi
  have hmark : Dresses id s i _ :=
    .store hi (.refl s) rfl (g := fun i => { i with state := .disconnected }) rfl
  have hleave : Turns Outfit.Leaves s
      (s.updateInstance id fun i => { i with state := .disconnected }) := by
    refine .reclothes .stay (hmark.reclothes h hi hc
      ⟨nofun, nofun, hfit.plain, hfit.hidden⟩ fun _ => rfl) fun o ho => .leave ?_
    rw [(of_outfit? hi ho).1, hstate.resolve_left hfit.settled]
    rfl
  have hunwire := hleave.trans .trans (.idle .stay hleave.fitted (.unwire _ id))
  exact hunwire.trans .trans (.idle .stay hunwire.fitted (.run _ ((h.gentle id i hi).disconnected _)))

theorem Fitted.disconnectTree (root : NodeId) : Turns Outfit.Leaves s (s.disconnectTree root) :=
  disconnectTree_keeps
    (fun _ id ht => ht.trans .trans (ht.fitted.disconnect id)) (.idle .stay h (.refl s)) root

/-! ### Renewing -/

theorem Fitted.refresh :
    Reclothes id (fun o => if o.mounted then o.renew else o.enter) s
      ((s.unwire id).runConnection id true) := by
  have hunwire := Idle.unwire s id
  have hs := h.idle hunwire
  have houtfit := h.outfit?_idle hunwire
  have hstock := hunwire.stock
  generalize s.unwire id = s' at hs houtfit hstock ⊢
  cases hi : s'.instance? id with
  | none =>
    have hnone : s'.outfit? id = none := outfit?_of_none hi
    unfold Page.runConnection
    simp only [hi]
    refine ⟨hs, hstock, fun id' _ => houtfit id', ?_⟩
    rw [← houtfit, hnone]
    rfl
  | some i =>
    have hrun : Reclothes id _ s' (s'.runConnection id true) := hs.runConnection hi nofun
    exact ⟨hrun.fitted, fun x hx => hrun.stock x (hstock x hx),
      fun id' hne => (hrun.others id' hne).trans (houtfit id'), houtfit id ▸ hrun.self⟩

/-- Connecting instances anew, no two the same, renews what each has on. -/
theorem Fitted.refreshAll {ids : List InstanceId} (hids : ids.Nodup) :
    let t := ids.foldl (fun t id => (t.unwire id).runConnection id true) s
    t.Fitted ∧ (∀ x ∈ s.sheets.sheets, x ∈ t.sheets.sheets) ∧ ∀ id, t.outfit? id =
      if id ∈ ids then (s.outfit? id).map fun o => if o.mounted then o.renew else o.enter
      else s.outfit? id := by
  induction ids generalizing s with
  | nil => exact ⟨h, fun _ hx => hx, fun _ => (if_neg not_mem_nil).symm⟩
  | cons a ids ih =>
    obtain ⟨hnot, hids⟩ := nodup_cons.mp hids
    have hfirst := h.refresh a
    obtain ⟨hfitted, hstock, houtfit⟩ := ih hfirst.fitted hids
    refine ⟨hfitted, fun x hx => hstock x (hfirst.stock x hx), fun id => ?_⟩
    rw [foldl_cons, houtfit]
    by_cases he : id = a
    · rw [he, if_neg hnot, if_pos mem_cons_self]
      exact hfirst.self
    · rw [hfirst.others id he]
      simp [he]

theorem Fitted.recast (sourceId template : String) (styles globalStyles : Option String) :
    (s.recast sourceId template styles globalStyles).Fitted := by
  have hplace : ∀ {cls c'}, (s.recast sourceId template styles globalStyles).class? cls = some c' →
      ∃ c, s.class? cls = some c ∧ c.description.shadow = c'.description.shadow := by
    intro cls c' hc'
    rw [class?_recast] at hc'
    obtain ⟨c, hc, rfl⟩ := Option.map_eq_some_iff.mp hc'
    exact ⟨c, hc, (shadow_recast ..).symm⟩
  exact { h.toStaffed.recast sourceId template styles globalStyles, h with
    suits := by
      intro id i hi
      have hfit := h.suits id i hi
      refine ⟨hfit.settled, hfit.mounted, fun c' hc' hd => ?_, fun c' hc' hd => ?_⟩
      · obtain ⟨c, hc, he⟩ := hplace hc'
        exact hfit.plain c hc (he.trans hd)
      · obtain ⟨c, hc, he⟩ := hplace hc'
        exact hfit.hidden c hc (he.trans hd) }

end

theorem outfit?_recast (hi : s.instance? id = some i) (hc : s.class? i.cls = some c)
    (sourceId template : String) (styles globalStyles : Option String) :
    (s.recast sourceId template styles globalStyles).outfit? id = (s.outfit? id).map fun o =>
      if c.description.sourceId == some sourceId then o.restyle styles else o := by
  have hc' : (s.recast sourceId template styles globalStyles).class? i.cls = some _ :=
    (class?_recast ..).trans (congrArg _ hc)
  rw [outfit?_of_instance hi hc, outfit?_of_instance (s := s.recast ..) hi hc', shadow_recast]
  cases c.description.shadow with
  | true => rfl
  | false =>
    simp only [Bool.false_eq_true, if_false]
    split <;> rfl

section

variable (h : s.Fitted)

include h

theorem Fitted.hotUpdate (sourceId template : String) (styles globalStyles : Option String) :
    Turns Outfit.Turn s (s.hotUpdate sourceId template styles globalStyles).1 := by
  rw [hotUpdate_eq]
  obtain ⟨hfitted, hstock, houtfit⟩ := (h.recast sourceId template styles globalStyles).refreshAll
    (nodup_updated h.keyed sourceId)
  refine ⟨hfitted, hstock, fun id => ?_⟩
  rw [houtfit]
  have hupdated : id ∈ s.updated sourceId ↔ _ := mem_updated_iff h.keyed h.classKeyed
  cases hi : s.instance? id with
  | none =>
    have hnot : id ∉ s.updated sourceId := by
      rw [hupdated]
      rintro ⟨i, hi', -⟩
      rw [hi] at hi'
      cases hi'
    rw [if_neg hnot, outfit?_of_none hi, outfit?_of_none (s := s.recast ..) hi]
    exact .enters (.stay none)
  | some i =>
    obtain ⟨c, hc⟩ := h.known id i hi
    have hmem : id ∈ s.updated sourceId ↔
        i.state = .connected ∧ c.description.sourceId = some sourceId := by
      rw [hupdated]
      simp [hi, hc]
    rw [outfit?_recast hi hc]
    cases ho : s.outfit? id with
    | none =>
      rw [Option.map_none, Option.map_none, ite_self]
      exact .enters (.stay none)
    | some o =>
      obtain ⟨hlive, hmounted⟩ := of_outfit? hi ho
      by_cases hunit : c.description.sourceId = some sourceId
      · simp only [hunit, beq_self_eq_true, if_true, Option.map_some]
        by_cases hstate : i.state = .connected
        · have hm : (o.restyle styles).mounted = true := hmounted.trans ((h.suits id i hi).mounted hstate)
          rw [if_pos (hmem.mpr ⟨hstate, hunit⟩), if_pos hm]
          exact .renew (hlive.trans (decide_eq_true hstate)) styles
        · rw [if_neg fun hu => hstate (hmem.mp hu).1]
          exact .restyle (hlive.trans (decide_eq_false hstate)) styles
      · have hother : (c.description.sourceId == some sourceId) = false := by simpa using hunit
        rw [if_neg fun hu => hunit (hmem.mp hu).2]
        simp only [hother]
        exact .enters (.stay _)

/-! ### Runs -/

/-- A small change bears on no outfit. -/
theorem Fitted.ripple (ht : Ripple s t) : Idle s t := by
  cases ht with
  | plans plans =>
    exact ⟨⟨.of_eq rfl, .refl _, fun _ h => h, id⟩, .of_eq rfl⟩
  | scheduler scheduler => exact .scheduler_only s scheduler
  | addListener target event binding => exact .forest_only s (.addListener ..)
  | wiring id hg =>
    refine .update s id fun i _ => ?_
    have hstill : (Instance.still _).attire = i.still.attire := congrArg Instance.attire (hg i)
    exact hstill
  | call hi method event => exact .run s ((h.gentle _ _ hi).call _ _ _)

theorem Fitted.evolves (ht : Evolves s t) : Idle s t :=
  ht.keeps_ripples (fun hr ih => ih.trans ((h.idle ih).ripple hr)) (.refl s)

/-- Appending lets instances enter, or lets them leave. -/
theorem Fitted.append (parent child : NodeId) : Turns Outfit.Turn s (s.append parent child) := by
  have hforest : Idle s { s with forest := s.forest.append parent child } :=
    .forest_only s (Forest.KeepsSheetsBut.frame.append ..)
  cases hlive : (s.forest.append parent child).isConnected parent with
  | true =>
    refine (append_keeps (p := Turns Outfit.Enters s)
      (fun _ _ n ht => ht.trans .trans (ht.fitted.connectTree n)) (fun hdead => ?_)
      (.idle .stay h hforest)).imp .enters
    exact absurd (hlive.symm.trans hdead) nofun
  | false =>
    refine (append_keeps (p := Turns Outfit.Leaves s) (fun hlive' => ?_)
      (fun _ _ n ht => ht.trans .trans (ht.fitted.disconnectTree n)) (.idle .stay h hforest)).imp .leaves
    exact absurd (hlive.symm.trans hlive') nofun

theorem Fitted.remove (node : NodeId) : Turns Outfit.Leaves s (s.remove node) := by
  have hdetach : Turns Outfit.Leaves s { s with forest := s.forest.detach node } :=
    .idle .stay h (.forest_only s (Forest.KeepsSheetsBut.frame.detach ..))
  exact remove_keeps
    (fun _ n ht => ht.trans .trans (ht.fitted.disconnectTree n)) hdetach

theorem Fitted.perform (op : Operation σ)
    (hc : ∀ c, op = .define c → c.Respects Forest.KeepsSheets) :
    Turns Outfit.Turn s (s.perform op) := by
  have hidle : ∀ {t}, Idle s t → Turns Outfit.Turn s t := .idle (fun o => .enters (.stay o)) h
  have hforest : ∀ {f}, s.forest.KeepsSheets f → Turns Outfit.Turn s { s with forest := f } :=
    fun hf => hidle (.forest_only s hf)
  refine perform_keeps (fun _ _ ht => hidle (h.evolves ht)) (fun _ => hforest (.create ..)) (fun tag => ?_)
    (fun _ _ => hforest (.updateAttributes ..)) (fun element g name old new => ?_)
    (fun element => adopt_keeps (hidle (.refl s)) ?_ element) (fun _ => hidle ?_)
    (fun c he => (h.define (hc c he)).imp .enters) (fun parent child _ => h.append parent child)
    (fun node _ => (h.remove node).imp .leaves) (fun _ _ _ _ _ => h.hotUpdate ..)
  · have hmade : Turns Outfit.Enters s { s with forest := (s.forest.createElement tag).1 } :=
      .idle .stay h (.forest_only s (.create ..))
    have hensure := hmade.trans .trans (hmade.fitted.ensureInstance (s.forest.createElement tag).2)
    exact hensure.imp .enters
  · have hs : Idle s { s with forest := s.forest.updateAttributes element g } :=
      .forest_only s (.updateAttributes ..)
    refine hidle (tellAttribute_keeps hs (fun id i _ _ hi => hs.trans ?_) element name)
    exact .run _ (((h.idle hs).gentle id i hi).attributeChanged _ _ _ _)
  · exact fun id i _ hi => hidle (.run s ((h.gentle id i hi).adopted _))
  · exact ⟨⟨.of_eq rfl, .refl _, fun _ h => h, id⟩, .of_eq rfl⟩

end

theorem Fitted.start (world : σ) : (Page.start world).Fitted := by
  have hnode : ∀ n, (Page.start world).forest.isElement n = false ∧
      (Page.start world).forest.shadow n = none := by
    rintro (_ | n) <;> exact ⟨rfl, rfl⟩
  have hnone : ∀ {n} {p : Prop}, (Page.start world).forest.isElement n → p := fun hn =>
    absurd ((hnode _).1.symm.trans hn) Bool.false_ne_true
  exact { Staffed.start world with
    document := ⟨Nat.one_pos, rfl⟩
    hidden := fun n r hr => absurd ((hnode n).2.symm.trans hr) (Option.some_ne_none r).symm
    element := fun _ _ hi => absurd hi instance?_start_ne
    suits := fun _ _ hi => absurd hi instance?_start_ne
    supplied := ⟨.nil, fun _ hn => hnone hn⟩
    bare := fun _ hn => hnone hn }

end Page

end Componentry.Live
