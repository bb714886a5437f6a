import Componentry.Proofs.Live.Operation
import Componentry.Proofs.Live.Outfit

/-!
# The outfits of a page

Each instance without a hidden tree has an outfit: its state, what its element wears and the styles
of its component. A page is followed through what it knows about its components, instances and
sheets. Bringing an instance into the document changes its own outfit only, and just as the outfits
say; taking it out changes nothing it wears.
-/

namespace Componentry.Live

open Document

variable {σ α : Type}

/-- What bears on the sheets of an instance. -/
def Instance.attire (i : Instance σ) :
    (NodeId × ClassId × Behaviour σ) × Lifecycle × NodeId × Bool × Option String :=
  (i.identity, i.state, i.root, i.mounted, i.scopedSheet)

namespace Page

variable {s t u : Page σ} {id : InstanceId} {i j : Instance σ} {c : Component σ}
  {changed : NodeId → Prop} {f : Forest} {g : Instance σ → Instance σ} {callback : Authored σ α}
  {root : NodeId} {fresh : Bool}

/-- The digest that an instance holds for its own, and what its element wears. -/
def clothes (s : Page σ) (i : Instance σ) : Option String × List String :=
  (i.scopedSheet, s.forest.worn i.element)

def outfit (s : Page σ) (i : Instance σ) (c : Component σ) : Outfit :=
  ⟨i.state = .connected, i.mounted, i.scopedSheet, s.forest.worn i.element, c.description.styles⟩

/-- The outfit of an instance whose component has no hidden tree. -/
def outfit? (s : Page σ) (id : InstanceId) : Option Outfit := do
  let i ← s.instance? id
  let c ← s.class? i.cls
  if c.description.shadow then none else some (s.outfit i c)

theorem outfit?_of_instance (hi : s.instance? id = some i) (hc : s.class? i.cls = some c) :
    s.outfit? id = if c.description.shadow then none else some (s.outfit i c) := by
  simp [outfit?, hi, hc]

theorem outfit?_of_none (h : s.instance? id = none) : s.outfit? id = none := by
  simp [outfit?, h]

/-! ### What a page knows -/

/-- An instance between two operations: it is not on its way, it is mounted if it is connected, and
its content is where its component puts it. -/
structure Suits (s : Page σ) (i : Instance σ) : Prop where
  settled : i.state ≠ .connecting
  mounted : i.state = .connected → i.mounted = true
  /-- Without a hidden tree its content is in its element. -/
  plain : ∀ c, s.class? i.cls = some c → c.description.shadow = false → i.root = i.element
  hidden : ∀ c, s.class? i.cls = some c → c.description.shadow = true → i.mounted = true →
    ∃ host, s.forest.kind i.root = .shadow host

/-- The document is what it is, and hidden trees hang from their own roots. -/
structure Firm (s : Page σ) : Prop where
  document : s.document < s.forest.nodes.size ∧ s.forest.isElement s.document = false
  /-- Hidden trees hang from their own roots. -/
  hidden : ∀ n r, s.forest.shadow n = some r → ∃ host, s.forest.kind r = .shadow host

/-- Every instance has its component and its own element, sheets come from stock, and callbacks apply
none to elements. -/
structure Fitted (s : Page σ) : Prop extends Firm s, Staffed Forest.KeepsSheets s where
  /-- Instances belong to elements. -/
  element : ∀ id i, s.instance? id = some i → s.forest.isElement i.element
  /-- Instances are between two operations. -/
  suits : ∀ id i, s.instance? id = some i → s.Suits i
  supplied : s.sheets.Supplies s.forest
  /-- Elements without an instance wear nothing. -/
  bare : ∀ n, s.forest.isElement n → s.owner? n = none → s.forest.sheets n = []

/-- Instances change, but not what they are, and only some elements change their sheets. -/
structure Retouches (changed : NodeId → Prop) (s t : Page σ) : Prop
    extends SameCast Instance.identity s t where
  /-- Only some elements change their sheets. -/
  forest : s.forest.KeepsSheetsBut changed t.forest
  stock : ∀ x ∈ s.sheets.sheets, x ∈ t.sheets.sheets
  /-- Sheets still come from stock. -/
  supplies : s.sheets.Supplies s.forest → t.sheets.Supplies t.forest

namespace Retouches

theorem refl (s : Page σ) : Retouches changed s s := ⟨.of_eq rfl, .refl _, fun _ h => h, id⟩

theorem trans (hst : Retouches changed s t) (htu : Retouches changed t u) : Retouches changed s u :=
  ⟨hst.toSameCast.trans htu.toSameCast, hst.forest.trans htu.forest,
    fun x hx => htu.stock x (hst.stock x hx), fun h => htu.supplies (hst.supplies h)⟩

theorem weaken (h : Retouches (fun _ => False) s t) : Retouches changed s t :=
  { h with forest := h.forest.weaken }

theorem isElement (h : Retouches changed s t) {n : NodeId} (hn : s.forest.isElement n) :
    t.forest.isElement n := (h.forest.isElement_eq (Forest.lt_size_of_isElement hn)).trans hn

theorem firm (h : Retouches changed s t) (hs : s.Firm) : t.Firm where
  document := by
    obtain ⟨hlt, hno⟩ := hs.document
    rw [h.document]
    exact ⟨hlt.trans_le h.forest.size_le, (h.forest.isElement_eq hlt).trans hno⟩
  hidden n r hr := by
    rcases h.forest.hidden n r hr with hr | hr
    · obtain ⟨host, hr⟩ := hs.hidden n r hr
      exact ⟨host, h.forest.kind_shadow hr⟩
    · exact hr

variable (s)

theorem forest_only (h : s.forest.KeepsSheets f) :
    Retouches (fun _ => False) s { s with forest := f } :=
  ⟨.of_eq rfl, h, fun _ h => h, fun hs => hs.keeps h⟩

theorem update (id : InstanceId)
    (hg : ∀ i, s.instance? id = some i → (g i).identity = i.identity) :
    Retouches changed s (s.updateInstance id g) :=
  ⟨.update s id hg, .refl _, fun _ h => h, fun h => h⟩

theorem run (h : Live.Respects Forest.KeepsSheets callback) :
    Retouches (fun _ => False) s (s.run callback).1 :=
  ⟨.of_eq rfl, h s.forest s.world, fun _ h => h, fun hs => hs.keeps (h s.forest s.world)⟩

theorem attach (css : String) (h : s.forest.isElement root → changed root) :
    Retouches changed s (s.attach root css).1 :=
  ⟨.of_eq rfl, Forest.KeepsSheetsBut.frame.attach (fun sheet => .adoptSheet _ sheet h) ..,
    fun _ hx => SheetCache.mem_attach_of_mem hx s.forest root css, fun hs => hs.attach root css⟩

theorem unwire (id : InstanceId) : Retouches changed s (s.unwire id) := by
  unfold Page.unwire
  split
  · exact refl s
  next i _ =>
    have hforest : s.forest.KeepsSheets
        (i.listeners.foldl (fun f x => f.removeListener x.1 x.2) s.forest) :=
      Forest.KeepsSheetsBut.frame.unlisten (fun f id _ => .update f id fun _ => rfl) ..
    exact (forest_only s hforest).weaken.trans (update _ id fun _ _ => rfl)

end Retouches

theorem Suits.retouches (h : s.Suits i) (ha : Retouches changed s t) (he : j.attire = i.attire) :
    t.Suits j := by
  simp only [Instance.attire, Instance.identity, Prod.mk.injEq] at he
  obtain ⟨⟨helement, hcls, -⟩, hstate, hroot, hmounted, -⟩ := he
  constructor
  · exact hstate ▸ h.settled
  · exact hstate ▸ hmounted ▸ h.mounted
  · intro c hc hshadow
    rw [ha.class?_eq, hcls] at hc
    rw [hroot, helement]
    exact h.plain c hc hshadow
  · intro c hc hshadow hm
    rw [ha.class?_eq, hcls] at hc
    obtain ⟨host, hk⟩ := h.hidden c hc hshadow (hmounted ▸ hm)
    exact ⟨host, hroot ▸ ha.forest.kind_shadow hk⟩

/-- What a page knows it goes on knowing while its instances fit and only elements that have one
change their sheets. -/
theorem Fitted.retouches (h : s.Fitted) (ha : Retouches changed s t)
    (howned : ∀ n, changed n → ∃ id, s.owner? n = some id)
    (hsuits : ∀ id j, t.instance? id = some j → t.Suits j) : t.Fitted := by
  refine { ha.firm h.toFirm, h.toStaffed.sameCast ha.toSameCast with
    element := ha.instances.all (p := fun x => t.forest.isElement x.1)
      fun id i hi => ha.isElement (h.element id i hi)
    suits := hsuits, supplied := ha.supplies h.supplied, bare := ?_ }
  · intro n hn ho
    rw [ha.owner?_eq] at ho
    have hc : ¬ changed n := by
      intro hc
      obtain ⟨id, hid⟩ := howned n hc
      rw [ho] at hid
      cases hid
    rw [ha.forest.sheets_eq n hn hc]
    by_cases hlt : n < s.forest.nodes.size
    · exact h.bare n (ha.forest.isElement_eq hlt ▸ hn) ho
    · rw [Forest.sheets, Forest.node_of_size_le (not_lt.mp hlt)]
      rfl

/-! ### Nothing that bears on outfits -/

/-- Nothing happens that bears on outfits. -/
structure Idle (s t : Page σ) : Prop extends Retouches (fun _ => False) s t where
  attire : KeepsInstances Instance.attire s t

namespace Idle

theorem refl (s : Page σ) : Idle s s := ⟨.refl s, .refl s⟩

theorem trans (hst : Idle s t) (htu : Idle t u) : Idle s u :=
  ⟨hst.toRetouches.trans htu.toRetouches, hst.attire.trans htu.attire⟩

theorem forest_only (s : Page σ) (h : s.forest.KeepsSheets f) :
    Idle s { s with forest := f } := ⟨.forest_only s h, .of_eq rfl⟩

theorem scheduler_only (s : Page σ) (scheduler : Scheduler Task) : Idle s { s with scheduler } :=
  ⟨⟨.of_eq rfl, .refl _, fun _ h => h, id⟩, .of_eq rfl⟩

theorem update (s : Page σ) (id : InstanceId)
    (hg : ∀ i, s.instance? id = some i → (g i).attire = i.attire) : Idle s (s.updateInstance id g) :=
  ⟨.update s id fun i hi => congrArg (·.1) (hg i hi), .update s id hg⟩

theorem run (s : Page σ) (h : Live.Respects Forest.KeepsSheets callback) :
    Idle s (s.run callback).1 := ⟨.run s h, .of_eq rfl⟩

theorem unwire (s : Page σ) (id : InstanceId) : Idle s (s.unwire id) := by
  refine ⟨.unwire s id, ?_⟩
  unfold Page.unwire
  split
  · exact .refl s
  next i _ =>
    have hsame : KeepsInstances Instance.attire s
        { s with forest := i.listeners.foldl (fun f x => f.removeListener x.1 x.2) s.forest } :=
      .of_eq rfl
    exact hsame.trans (.update _ id fun _ _ => rfl)

end Idle

theorem Fitted.idle (h : s.Fitted) (hs : Idle s t) : t.Fitted := by
  refine h.retouches hs.toRetouches nofun fun id j hj => ?_
  obtain ⟨i, hi, he⟩ := hs.attire.of_some hj
  exact (h.suits id i hi).retouches hs.toRetouches he

theorem Fitted.outfit?_eq (h : s.Fitted) (ha : Retouches changed s t)
    (he : (t.instance? id).map Instance.attire = (s.instance? id).map Instance.attire)
    (hc : ∀ i, s.instance? id = some i → ¬ changed i.element) : t.outfit? id = s.outfit? id := by
  cases hi : s.instance? id with
  | none =>
    rw [hi, Option.map_none, Option.map_eq_none_iff] at he
    rw [outfit?_of_none hi, outfit?_of_none he]
  | some i =>
    rw [hi] at he
    obtain ⟨j, hj, he⟩ := Option.map_eq_some_iff.mp he
    simp only [Instance.attire, Instance.identity, Prod.mk.injEq] at he
    obtain ⟨⟨helement, hcls, -⟩, hstate, -, hmounted, hsheet⟩ := he
    obtain ⟨c, hknown⟩ := h.known id i hi
    have hknown' : t.class? j.cls = some c := by rw [ha.class?_eq, hcls, hknown]
    have hworn : t.forest.worn j.element = s.forest.worn i.element := by
      rw [helement]
      exact ha.forest.worn_eq (h.element id i hi) (hc i hi)
    rw [outfit?_of_instance hi hknown, outfit?_of_instance hj hknown', outfit, outfit, hstate, hmounted,
      hsheet, hworn]

theorem Fitted.outfit?_idle (h : s.Fitted) (hs : Idle s t) (id : InstanceId) :
    t.outfit? id = s.outfit? id := h.outfit?_eq hs.toRetouches (hs.attire.same id) fun _ _ hf => hf

/-! ### Bringing an instance into the document -/

/-- A step of a connection: the instance it hands on is the one the page holds, and nothing but the
attire of that instance and the sheets of its element changes. -/
structure Dresses (id : InstanceId) (s : Page σ) (i : Instance σ) (r : Page σ × Instance σ) :
    Prop where
  /-- Only its element changes its sheets. -/
  retouches : Retouches (· = i.element) s r.1
  /-- The other instances keep their attire. -/
  others : ∀ id', id' ≠ id →
    (r.1.instance? id').map Instance.attire = (s.instance? id').map Instance.attire
  /-- The page holds the instance. -/
  stored : r.1.instance? id = some r.2
  identity : r.2.identity = i.identity

namespace Dresses

theorem refl (h : s.instance? id = some i) : Dresses id s i (s, i) :=
  ⟨.refl s, fun _ _ => rfl, h, rfl⟩

variable {r : Page σ × Instance σ}

theorem element_eq (h : Dresses id s i r) : r.2.element = i.element :=
  congrArg (·.1) h.identity

theorem trans {r' : Page σ × Instance σ} (h : Dresses id s i r) (h' : Dresses id r.1 r.2 r') :
    Dresses id s i r' := by
  have hretouches := h'.retouches
  rw [h.element_eq] at hretouches
  exact ⟨h.retouches.trans hretouches, fun id' hne => (h'.others id' hne).trans (h.others id' hne),
    h'.stored, h'.identity.trans h.identity⟩

theorem store (hi : s.instance? id = some i) (ht : Retouches (· = i.element) s t)
    (hsame : t.instances = s.instances) (hg : (g i).identity = i.identity) :
    Dresses id s i (t.updateInstance id g, g i) := by
  have hti := (instance?_congr hsame id).trans hi
  have hstore : Retouches (· = i.element) t (t.updateInstance id g) :=
    ⟨⟨.update_of hti hg, rfl, rfl, rfl, rfl, rfl⟩, .refl _, fun _ h => h, fun h => h⟩
  refine ⟨ht.trans hstore, fun id' hne => ?_, instance?_updateInstance_self hti g, hg⟩
  rw [instance?_updateInstance_ne hne, instance?_congr hsame]

theorem idle (h : Dresses id s i r) (ht : Idle r.1 t)
    (hsame : t.instances = r.1.instances) : Dresses id s i (t, r.2) :=
  ⟨h.retouches.trans ht.toRetouches.weaken, fun id' hne => by
    rw [instance?_congr hsame]
    exact h.others id' hne, (instance?_congr hsame id).trans h.stored, h.identity⟩

end Dresses

/-- Where the content of an instance may be: in its element, or in a hidden tree. -/
def Seat (f : Forest) (i : Instance σ) (root : NodeId) : Prop :=
  root = i.element ∨ ∃ host, f.kind root = .shadow host

theorem Seat.eq_of_isElement (h : Seat f i root) (he : f.isElement root) : root = i.element := by
  rcases h with h | ⟨host, h⟩
  · exact h
  · rw [Forest.isElement_of_shadow h] at he
    cases he

theorem Seat.keeps {g : Forest} (h : Seat f i root) (hg : f.KeepsSheetsBut changed g) :
    Seat g i root :=
  h.imp_right fun ⟨host, hk⟩ => ⟨host, hg.kind_shadow hk⟩

theorem contentRoot_spec (hf : ∀ n r, f.shadow n = some r → ∃ host, f.kind r = .shadow host)
    (he : f.isElement i.element) (d : Description) (hplain : d.shadow = false → i.root = i.element) :
    f.KeepsSheets (contentRoot f i d).1 ∧ (d.shadow = false → (contentRoot f i d).2 = i.element) ∧
    (d.shadow = true → ∃ host, (contentRoot f i d).1.kind (contentRoot f i d).2 = .shadow host) := by
  unfold contentRoot
  cases hd : d.shadow with
  | false => exact ⟨.refl _, fun _ => hplain hd, nofun⟩
  | true =>
    exact ⟨.attachShadow .., nofun,
      fun _ => Forest.kind_attachShadow hf (Forest.lt_size_of_isElement he)⟩

theorem emptied_spec (hroot : Seat f i root) :
    f.KeepsSheetsBut (· = i.element) (emptied f i root).1 ∧
    (∀ c : SheetCache, c.Supplies f → c.Supplies (emptied f i root).1) ∧
    (root = i.element → f.isElement i.element →
      ((emptied f i root).2, (emptied f i root).1.worn i.element) =
        if i.mounted then takeOff (i.scopedSheet, f.worn i.element)
        else (i.scopedSheet, f.worn i.element)) := by
  have hclear : f.KeepsSheets (f.clearChildren root) :=
    Forest.KeepsSheetsBut.frame.clearChildren ..
  unfold emptied
  cases hm : i.mounted with
  | false => exact ⟨.refl f, fun _ h => h, fun _ _ => rfl⟩
  | true =>
    cases hsheet : i.scopedSheet with
    | none =>
      refine ⟨hclear.weaken, fun c h => h.keeps hclear, fun hr he => ?_⟩
      exact Prod.ext rfl (hclear.worn_eq he not_false)
    | some old =>
      refine ⟨hclear.weaken.trans (.removeSheet _ old (hroot.keeps hclear).eq_of_isElement),
        fun c h => (h.keeps hclear).removeSheet root old, fun hr he => ?_⟩
      have hlt := (Forest.lt_size_of_isElement he).trans_le hclear.size_le
      have hremoved := Forest.worn_removeSheet hlt old
      rw [hclear.worn_eq he not_false, ← hr] at hremoved
      rw [← hr]
      exact Prod.ext rfl hremoved

/-- A connection on its way: nothing but the outfit of its instance has changed, the instance is
mounted where its component puts it, and its clothes are as given. -/
structure Furnishes (d : Description) (clothes : Option String × List String) (id : InstanceId)
    (s : Page σ) (i : Instance σ) (r : Page σ × Instance σ) : Prop extends Dresses id s i r where
  mounted : r.2.mounted = true
  /-- Without a hidden tree its content is in its element, which wears what is given. -/
  plain : d.shadow = false → r.2.root = i.element ∧ r.1.clothes r.2 = clothes
  /-- With one its content is there. -/
  hidden : d.shadow = true → ∃ host, r.1.forest.kind r.2.root = .shadow host

namespace Furnishes

variable {d : Description} {clothes : Option String × List String} {r r' : Page σ × Instance σ}

theorem seat (h : Furnishes d clothes id s i r) : Seat r.1.forest r.2 r.2.root := by
  cases hd : d.shadow with
  | false => exact .inl ((h.plain hd).1.trans h.element_eq.symm)
  | true => exact .inr (h.hidden hd)

theorem step (h : Furnishes d clothes id s i r) (h' : Dresses id r.1 r.2 r')
    (hplain : r'.2.plain = r.2.plain) {clothes' : Option String × List String}
    (hclothes : r.2.root = r.2.element → r.1.clothes r.2 = clothes → r'.1.clothes r'.2 = clothes') :
    Furnishes d clothes' id s i r' := by
  have hroot : r'.2.plain.root = r.2.plain.root := congrArg Instance.root hplain
  have hmounted : r'.2.plain.mounted = r.2.plain.mounted := congrArg Instance.mounted hplain
  refine { h.toDresses.trans h' with
    mounted := hmounted.trans h.mounted
    plain := fun hd => ⟨hroot.trans (h.plain hd).1, ?_⟩, hidden := fun hd => ?_ }
  · exact hclothes ((h.plain hd).1.trans h.element_eq.symm) (h.plain hd).2
  · obtain ⟨host, hk⟩ := h.hidden hd
    exact ⟨host, hroot ▸ h'.retouches.forest.kind_shadow hk⟩

theorem mount (hs : s.Firm) (hi : s.instance? id = some i) (helement : s.forest.isElement i.element)
    (hplain : d.shadow = false → i.root = i.element) :
    Furnishes d (if i.mounted then takeOff (s.clothes i) else s.clothes i) id s i
      (s.mount id i d) := by
  obtain ⟨hcontent, hopen, hhidden⟩ := contentRoot_spec hs.hidden helement d hplain
  unfold Page.mount
  generalize contentRoot s.forest i d = r at hcontent hopen hhidden
  obtain ⟨f, root⟩ := r
  have hseat : Seat f i root := by
    cases hd : d.shadow with
    | false => exact .inl (hopen hd)
    | true => exact .inr (hhidden hd)
  obtain ⟨hempty, hsupplies, hclothes⟩ := emptied_spec hseat
  dsimp only at hcontent hopen hhidden hempty hsupplies hclothes ⊢
  generalize emptied f i root = r at hempty hsupplies hclothes
  obtain ⟨g, own⟩ := r
  generalize s.templates.fragment d.template = r
  obtain ⟨templates, fragment⟩ := r
  have hbuild : g.KeepsSheets (g.buildAll root fragment).1 :=
    Forest.KeepsSheetsBut.frame.buildAll ..
  have hall := (hcontent.weaken.trans hempty).trans hbuild.weaken
  have hretouches : Retouches (· = i.element) s
      { s with forest := (g.buildAll root fragment).1, templates } :=
    ⟨.of_eq rfl, hall, fun _ h => h, fun h => (hsupplies _ (h.keeps hcontent)).keeps hbuild⟩
  have hstore : Dresses id s i _ :=
    .store hi hretouches rfl (g := fun _ => { i with root, scopedSheet := own, mounted := true }) rfl
  refine { hstore with
    mounted := rfl, plain := fun hd => ⟨hopen hd, ?_⟩, hidden := fun hd => ?_ }
  · have hf : f.isElement i.element :=
      (hcontent.isElement_eq (Forest.lt_size_of_isElement helement)).trans helement
    have hg : g.isElement i.element :=
      (hempty.isElement_eq (Forest.lt_size_of_isElement hf)).trans hf
    have hboth := hclothes (hopen hd) hf
    rw [← hbuild.worn_eq hg not_false, hcontent.worn_eq helement not_false] at hboth
    exact hboth
  · obtain ⟨host, hk⟩ := hhidden hd
    exact ⟨host, hbuild.kind_shadow (hempty.kind_shadow hk)⟩

section

variable (h : Furnishes d clothes id s i r)

include h

theorem applyOwnStyles (helement : r.1.forest.isElement r.2.element) (styles : Option String) :
    Furnishes d (putOn styles clothes) id s i (r.1.applyOwnStyles id r.2 styles) := by
  cases styles with
  | none => exact h
  | some css =>
    have hattach : Retouches (· = r.2.element) r.1 (r.1.attach r.2.root css).1 :=
      .attach r.1 css h.seat.eq_of_isElement
    have hstore : Dresses id r.1 r.2 _ := .store h.stored hattach rfl
      (g := fun _ => { r.2 with scopedSheet := (r.1.attach r.2.root css).2 }) rfl
    refine h.step hstore rfl fun hroot hclothes => ?_
    have hput := putOn_attach r.1.sheets (Forest.lt_size_of_isElement helement) r.2.scopedSheet css
    have hgiven : (r.2.scopedSheet, r.1.forest.worn r.2.element) = clothes := hclothes
    rw [hgiven, ← hroot] at hput
    unfold Page.clothes
    rw [← hroot]
    exact hput

theorem applyGlobalStyles (hfirm : r.1.Firm) (helement : r.1.forest.isElement r.2.element)
    (styles : Option String) :
    Furnishes d clothes id s i (r.1.applyGlobalStyles r.2 styles, r.2) := by
  unfold Page.applyGlobalStyles
  cases styles with
  | none => exact h
  | some css =>
    have hshared : Idle r.1 (r.1.attach r.1.document css).1 := by
      refine ⟨.attach r.1 css fun he => ?_, .of_eq rfl⟩
      exact absurd (hfirm.document.2.symm.trans he) Bool.false_ne_true
    have hall : ∀ {t : Page σ}, Idle r.1 t → t.instances = r.1.instances →
        Furnishes d clothes id s i (t, r.2) := by
      intro t ht hsame
      refine h.step ((Dresses.refl h.stored).idle ht hsame) rfl fun _ hclothes => ?_
      have hworn : t.clothes r.2 = r.1.clothes r.2 :=
        Prod.ext rfl (ht.forest.worn_eq helement not_false)
      exact hworn.trans hclothes
    dsimp only
    split
    next hne =>
      refine hall (hshared.trans ⟨.attach _ css fun he => ?_, .of_eq rfl⟩) rfl
      exact absurd ((h.seat.keeps hshared.forest).eq_of_isElement he) (by simpa using hne)
    next => exact hall hshared rfl

theorem applyParams (helement : r.1.forest.isElement r.2.element) (d' : Description) :
    Furnishes d clothes id s i (r.1.applyParams id r.2 d') := by
  unfold Page.applyParams
  generalize Params.ofLocation (d'.route.map (·.path)) r.1.location = params
  have hstore : Dresses id r.1 r.2 _ :=
    .store h.stored (.refl r.1) rfl (g := fun _ => { r.2 with params }) rfl
  have hfill : r.1.forest.KeepsSheets (params.merged.fillTree r.1.forest r.2.root).1 :=
    Forest.KeepsSheetsBut.frame.fillTree .setText ..
  refine h.step (hstore.idle (.forest_only _ hfill) rfl) rfl fun _ hclothes => ?_
  rw [← hclothes]
  exact Prod.ext rfl (hfill.worn_eq helement not_false)

end

/-- Furnishing takes off what was held for the own if the content is made anew, and puts on what the
styles ask for. -/
theorem furnish (hs : s.Firm) (hi : s.instance? id = some i) (helement : s.forest.isElement i.element)
    (hplain : d.shadow = false → i.root = i.element)
    (hhidden : d.shadow = true → fresh = false → ∃ host, s.forest.kind i.root = .shadow host)
    (hfresh : fresh = false → i.mounted = true) :
    Furnishes d (putOn d.styles (if fresh && i.mounted then takeOff (s.clothes i) else s.clothes i))
      id s i (s.furnish id i d fresh) := by
  have hmount : Furnishes d (if fresh && i.mounted then takeOff (s.clothes i) else s.clothes i)
      id s i (if fresh then s.mount id i d else (s, i)) := by
    cases fresh with
    | true => simpa using mount hs hi helement hplain
    | false =>
      exact { Dresses.refl hi with
        mounted := hfresh rfl, plain := fun hd => ⟨hplain hd, rfl⟩
        hidden := fun hd => hhidden hd rfl }
  -- the element is one all the way
  have hstays : ∀ {clothes : Option String × List String} {r : Page σ × Instance σ},
      Furnishes d clothes id s i r → r.1.forest.isElement r.2.element := fun h =>
    h.element_eq ▸ h.retouches.isElement helement
  have hown := hmount.applyOwnStyles (hstays hmount) d.styles
  have hglobal := hown.applyGlobalStyles (hown.retouches.firm hs) (hstays hown) d.globalStyles
  exact hglobal.applyParams (hstays hglobal) d

end Furnishes

/-- One outfit changes, and the page goes on knowing what it knows. -/
structure Reclothes (id : InstanceId) (g : Outfit → Outfit) (s t : Page σ) : Prop where
  /-- The page goes on knowing what it knows. -/
  fitted : t.Fitted
  stock : ∀ x ∈ s.sheets.sheets, x ∈ t.sheets.sheets
  others : ∀ id', id' ≠ id → t.outfit? id' = s.outfit? id'
  self : t.outfit? id = (s.outfit? id).map g

theorem Fitted.eq_of_element (h : s.Fitted) {id' : InstanceId} (hi : s.instance? id = some i)
    (hj : s.instance? id' = some j) (he : j.element = i.element) : id' = id := by
  have howner := (h.owner_iff i.element id).mpr ⟨i, hi, rfl⟩
  have howner' := (h.owner_iff i.element id').mpr ⟨j, hj, he⟩
  exact Option.some.inj (howner'.symm.trans howner)

theorem Dresses.reclothes {r : Page σ × Instance σ} (hr : Dresses id s i r) (h : s.Fitted)
    (hi : s.instance? id = some i) (hc : s.class? i.cls = some c) (hsuits : r.1.Suits r.2)
    {g : Outfit → Outfit} (hself : c.description.shadow = false → r.1.outfit r.2 c = g (s.outfit i c)) :
    Reclothes id g s r.1 where
  fitted := by
    refine h.retouches hr.retouches ?_ fun id' j hj => ?_
    · rintro n rfl
      exact ⟨id, (h.owner_iff _ _).mpr ⟨i, hi, rfl⟩⟩
    · by_cases hne : id' = id
      · subst hne
        exact Option.some.inj (hr.stored.symm.trans hj) ▸ hsuits
      · obtain ⟨k, hk, he⟩ := exists_of_map_eq (hr.others id' hne).symm hj
        exact (h.suits id' k hk).retouches hr.retouches he.symm
  stock := hr.retouches.stock
  others id' hne := h.outfit?_eq hr.retouches (hr.others id' hne) fun j hj he =>
    hne (h.eq_of_element hi hj he)
  self := by
    have hcls : r.2.cls = i.cls := congrArg (·.2.1) hr.identity
    have hc' : r.1.class? r.2.cls = some c := by rw [hr.retouches.class?_eq, hcls, hc]
    rw [outfit?_of_instance hi hc, outfit?_of_instance hr.stored hc']
    cases hd : c.description.shadow with
    | true => rfl
    | false => exact congrArg some (hself hd)

/-- Bringing an instance into the document makes its outfit enter, or renews it if its content is
made anew. -/
theorem Fitted.runConnection (h : s.Fitted) (hi : s.instance? id = some i)
    (hfresh : fresh = false → i.mounted = true) :
    Reclothes id (fun o => if fresh && o.mounted then o.renew else o.enter) s
      (s.runConnection id fresh) := by
  obtain ⟨c, hc⟩ := h.known id i hi
  have hfit := h.suits id i hi
  have hopen : Dresses id s i (s.updateInstance id fun _ => { i with state := .connecting },
      { i with state := .connecting }) := .store hi (.refl s) rfl rfl
  have hr := Furnishes.furnish (hopen.retouches.firm h.toFirm) hopen.stored (h.element id i hi)
    (hfit.plain c hc)
    (fun hd hf => hfit.hidden c hc hd (hfresh hf)) hfresh
  unfold Page.runConnection
  simp only [hi, hc]
  generalize Page.furnish _ id _ c.description fresh = r at hr
  have hcallback : Live.Respects Forest.KeepsSheets (r.2.behaviour.connected (r.1.stage r.2)) := by
    have hbehaviour : r.2.behaviour = i.behaviour := congrArg (·.2.2) hr.identity
    rw [hbehaviour]
    exact (h.gentle id i hi).connected _
  have hrun := (hopen.trans hr.toDresses).idle (.run r.1 hcallback) rfl
  have hforest : r.1.forest.KeepsSheets (r.1.run (r.2.behaviour.connected (r.1.stage r.2))).1.forest :=
    hcallback r.1.forest r.1.world
  generalize (r.1.run (r.2.behaviour.connected (r.1.stage r.2))).1 = t at hrun hforest
  have hmark : Dresses id t r.2 _ :=
    .store hrun.stored (.refl t) rfl (g := fun i => { i with state := .connected }) rfl
  have hall := hrun.trans (hmark.idle
    (.scheduler_only _ (t.scheduler.queueMicrotask (.wire id))) rfl)
  have hcls : r.2.cls = i.cls := congrArg (·.2.1) hr.identity
  have hclass : ∀ {c'}, t.class? r.2.cls = some c' → c' = c := by
    intro c' hc'
    rw [hcls, hrun.retouches.class?_eq, hc] at hc'
    exact (Option.some.inj hc').symm
  refine hall.reclothes h hi hc ⟨nofun, fun _ => hr.mounted, fun c' hc' hd => ?_, fun c' hc' hd _ => ?_⟩
    fun hd => ?_
  · rw [hclass hc'] at hd
    exact (hr.plain hd).1.trans hr.element_eq.symm
  · rw [hclass hc'] at hd
    obtain ⟨host, hk⟩ := hr.hidden hd
    exact ⟨host, hforest.kind_shadow hk⟩
  · have hworn := hforest.worn_eq (hr.retouches.isElement (h.element id i hi)) not_false
    have hclothes := (hr.plain hd).2
    rw [clothes, hr.element_eq] at hclothes
    have hsheet := congrArg (·.1) hclothes
    have hrest := congrArg (·.2) hclothes
    dsimp only at hsheet hrest ⊢
    change (⟨true, r.2.mounted, r.2.scopedSheet, t.forest.worn r.2.element, _⟩ : Outfit) =
      if fresh && i.mounted then _ else _
    generalize (fresh && i.mounted) = anew at hsheet hrest ⊢
    rw [hr.element_eq, hr.mounted, hworn, hsheet, hrest]
    cases anew <;> rfl

end Page

end Componentry.Live
