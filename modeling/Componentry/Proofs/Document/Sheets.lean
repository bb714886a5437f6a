import Componentry.Proofs.Document.Frame
import Componentry.Proofs.Keyed

/-!
# Who wears which sheets

Style sheets are applied to nodes and taken off again by their digest. A relation between forests
says that nodes stay what they are and that elements, but for some, wear the sheets they wore; each
operation on forests is placed under it. Sheets come from a shared stock, in which no digest occurs
twice.
-/

namespace Componentry.Document

open List

def Node.look (n : Node) : Kind × Option NodeId × List Sheet := (n.kind.bare, n.shadow, n.sheets)

namespace Forest

variable {changed : NodeId → Prop} {f g h : Forest} {n host m : NodeId}

def worn (f : Forest) (n : NodeId) : List String := (f.sheets n).map (·.digest)

/-- Nodes stay what they are, hidden trees hang from their own roots, and elements wear the sheets
they wore, but for those that may change. -/
structure KeepsSheetsBut (changed : NodeId → Prop) (f g : Forest) : Prop where
  size_le : f.nodes.size ≤ g.nodes.size
  /-- What was there stays what it is, up to attributes and text. -/
  kind_eq : ∀ n < f.nodes.size, (g.kind n).bare = (f.kind n).bare
  /-- A new hidden tree has a root of its own. -/
  hidden : ∀ n r, g.shadow n = some r → f.shadow n = some r ∨ ∃ host, g.kind r = .shadow host
  /-- Elements keep their sheets; new ones have none. -/
  sheets_eq : ∀ n, g.isElement n → ¬ changed n → g.sheets n = f.sheets n

/-- Nodes stay what they are, and elements wear the sheets they wore. -/
abbrev KeepsSheets : Forest → Forest → Prop := KeepsSheetsBut fun _ => False

theorem isElement_congr (h : (g.kind n).bare = (f.kind n).bare) : g.isElement n = f.isElement n := by
  unfold isElement
  cases hf : f.kind n <;> cases hg : g.kind n <;> rw [hf, hg] at h <;> first | rfl | cases h

theorem kind_eq_shadow (h : (g.kind n).bare = (f.kind n).bare) (hf : f.kind n = .shadow host) :
    g.kind n = .shadow host := by
  rw [hf] at h
  cases hg : g.kind n <;> rw [hg] at h <;> first | exact h | cases h

theorem isElement_of_shadow (h : f.kind n = .shadow host) : f.isElement n = false := by
  rw [isElement, h]

namespace KeepsSheetsBut

theorem refl (f : Forest) : KeepsSheetsBut changed f f :=
  ⟨le_rfl, fun _ _ => rfl, fun _ _ h => .inl h, fun _ _ _ => rfl⟩

theorem isElement_eq (h : KeepsSheetsBut changed f g) (hn : n < f.nodes.size) :
    g.isElement n = f.isElement n := isElement_congr (h.kind_eq n hn)

theorem kind_shadow (h : KeepsSheetsBut changed f g) (hn : f.kind n = .shadow host) :
    g.kind n = .shadow host := kind_eq_shadow (h.kind_eq n (lt_size_of_shadow hn)) hn

theorem trans (hfg : KeepsSheetsBut changed f g) (hgh : KeepsSheetsBut changed g h) :
    KeepsSheetsBut changed f h where
  size_le := hfg.size_le.trans hgh.size_le
  kind_eq n hn := (hgh.kind_eq n (hn.trans_le hfg.size_le)).trans (hfg.kind_eq n hn)
  hidden n r hr := by
    rcases hgh.hidden n r hr with hr | hr
    · rcases hfg.hidden n r hr with hr | ⟨host, hr⟩
      · exact .inl hr
      · exact .inr ⟨host, hgh.kind_shadow hr⟩
    · exact .inr hr
  sheets_eq n hn hc := by
    rw [hgh.sheets_eq n hn hc]
    by_cases hlt : n < g.nodes.size
    · exact hfg.sheets_eq n (hgh.isElement_eq hlt ▸ hn) hc
    · have hg : g.nodes.size ≤ n := not_lt.mp hlt
      rw [sheets, sheets, node_of_size_le hg, node_of_size_le (hfg.size_le.trans hg)]

theorem worn_eq (h : KeepsSheetsBut changed f g) (hn : f.isElement n) (hc : ¬ changed n) :
    g.worn n = f.worn n := by
  have hg : g.isElement n := (h.isElement_eq (lt_size_of_isElement hn)).trans hn
  rw [worn, h.sheets_eq n hg hc, ← worn]

theorem isElement_of_mem (h : KeepsSheetsBut changed f g) (hn : g.isElement n) {x : Sheet}
    (hx : x ∈ f.sheets n) : f.isElement n := by
  by_cases hlt : n < f.nodes.size
  · exact h.isElement_eq hlt ▸ hn
  · rw [sheets, node_of_size_le (not_lt.mp hlt)] at hx
    cases hx

theorem weaken (h : KeepsSheets f g) : KeepsSheetsBut changed f g :=
  { h with sheets_eq := fun n hn _ => h.sheets_eq n hn id }

variable (f) (id : NodeId)

theorem update {k : Node → Node} (hk : ∀ n, (k n).look = n.look) :
    KeepsSheetsBut changed f (f.update id k) := by
  have hlook := fun n => part_update Node.look f id n hk
  exact ⟨(size_update ..).symm.le, fun n _ => congrArg (·.1) (hlook n),
    fun n r hr => .inl ((congrArg (·.2.1) (hlook n)).symm.trans hr),
    fun n _ _ => congrArg (·.2.2) (hlook n)⟩

theorem updateSheets {id : NodeId} (k : List Sheet → List Sheet)
    (hid : f.isElement id → changed id) :
    KeepsSheetsBut changed f (f.update id fun n => { n with sheets := k n.sheets }) := by
  have hkind : ∀ n, (f.update id fun n => { n with sheets := k n.sheets }).kind n = f.kind n :=
    part_update Node.kind f id
  refine ⟨(size_update ..).symm.le, fun n _ => by rw [hkind], fun n r hr => .inl ?_,
    fun n hn hc => ?_⟩
  · exact (part_update Node.shadow f id n).symm.trans hr
  · have hne : n ≠ id := by
      rintro rfl
      rw [isElement, hkind] at hn
      exact hc (hid hn)
    rw [sheets, node_update, if_neg fun h => hne h.1]
    rfl

theorem create (kind : Kind) : KeepsSheetsBut changed f (f.create kind).1 := by
  refine ⟨by rw [size_create]; exact Nat.le_succ _, fun n hn => ?_,
    fun n r hr => .inl ((part_create Node.shadow f kind n).symm.trans hr),
    fun n _ _ => part_create Node.sheets f kind n⟩
  rw [Forest.kind, node_create, if_neg hn.ne]
  rfl

theorem updateAttributes (k : Dictionary String → Dictionary String) :
    KeepsSheetsBut changed f (f.updateAttributes id k) := by
  refine update f id fun n => ?_
  unfold Node.look
  cases hn : n.kind <;> simp [hn, Kind.bare]

theorem frame : Frame.Open (KeepsSheetsBut changed) where
  refl := refl
  trans := trans
  relink f id _ _ := update f id fun _ => rfl
  create := create
  attributes := updateAttributes

theorem attachShadow (host : NodeId) : KeepsSheetsBut changed f (f.attachShadow host).1 := by
  unfold Forest.attachShadow
  split
  · exact refl f
  · let made := (f.create (.shadow host)).1
    have hmade : KeepsSheetsBut changed f made := create f _
    have hroot : made.kind f.nodes.size = .shadow host := by
      rw [kind, node_create, if_pos rfl]
    -- only the hidden tree of the host is new, and its root was just made
    have hkind := fun n => part_update (k := fun m => { m with shadow := some f.nodes.size }) Node.kind made host n
    refine hmade.trans ⟨(size_update ..).symm.le, fun n _ => congrArg Kind.bare (hkind n),
      fun n r hr => ?_, fun n _ _ => part_update Node.sheets made host n⟩
    rw [shadow, node_update] at hr
    split at hr
    · cases hr
      exact .inr ⟨host, (hkind _).trans hroot⟩
    · exact .inl hr

theorem setText (value : String) : KeepsSheetsBut changed f (f.setText id value) := by
  refine update f id fun n => ?_
  unfold Node.look
  cases hn : n.kind <;> simp [hn, Kind.bare]

theorem addListener (event : String) (binding : Binding) :
    KeepsSheetsBut changed f (f.addListener id event binding).1 := by
  have hnumber : KeepsSheetsBut changed f { f with lastListener := f.lastListener + 1 } :=
    ⟨le_rfl, fun _ _ => rfl, fun _ _ h => .inl h, fun _ _ _ => rfl⟩
  refine hnumber.trans (update _ id ?_)
  exact fun _ => rfl

theorem adoptSheet {id : NodeId} (sheet : Sheet) (hid : f.isElement id → changed id) :
    KeepsSheetsBut changed f (f.adoptSheet id sheet) := by
  let put (l : List Sheet) : List Sheet :=
    if l.any (·.digest == sheet.digest) then l else l ++ [sheet]
  have hput : f.adoptSheet id sheet = f.update id fun n => { n with sheets := put n.sheets } := by
    unfold Forest.adoptSheet put
    refine congrArg (f.update id) (funext fun n => ?_)
    split <;> rfl
  rw [hput]
  exact updateSheets f put hid

theorem removeSheet {id : NodeId} (digest : String) (hid : f.isElement id → changed id) :
    KeepsSheetsBut changed f (f.removeSheet id digest).1 := updateSheets f _ hid

end KeepsSheetsBut

/-- The hidden tree that an element has or gets hangs from its own root. -/
theorem kind_attachShadow (hf : ∀ n r, f.shadow n = some r → ∃ host, f.kind r = .shadow host)
    (hlt : host < f.nodes.size) :
    ∃ host', (f.attachShadow host).1.kind (f.attachShadow host).2 = .shadow host' := by
  have hall : (f.attachShadow host).1.shadow host = some (f.attachShadow host).2 := by
    unfold attachShadow
    split
    next root hroot => exact hroot
    next =>
      have hlt' : host < (f.create (.shadow host)).1.nodes.size := by
        rw [size_create]
        exact Nat.lt_succ_of_lt hlt
      rw [shadow, node_update, if_pos ⟨rfl, hlt'⟩]
  have hkeeps : KeepsSheets f (f.attachShadow host).1 := .attachShadow f host
  rcases hkeeps.hidden _ _ hall with hr | hr
  · obtain ⟨host', hr⟩ := hf _ _ hr
    exact ⟨host', hkeeps.kind_shadow hr⟩
  · exact hr

/-! ### Digests -/

/-- A digest more, unless it is there. -/
def wear (digest : String) (worn : List String) : List String :=
  if digest ∈ worn then worn else worn ++ [digest]

theorem sheets_adoptSheet (hn : n < f.nodes.size) (sheet : Sheet) :
    (f.adoptSheet n sheet).sheets n =
      if sheet.digest ∈ f.worn n then f.sheets n else f.sheets n ++ [sheet] := by
  have hany : (f.sheets n).any (·.digest == sheet.digest) = true ↔ sheet.digest ∈ f.worn n := by
    simp [worn]
  unfold adoptSheet
  rw [sheets, node_update, if_pos ⟨rfl, hn⟩]
  change (if (f.sheets n).any (·.digest == sheet.digest) then f.node n
    else { f.node n with sheets := f.sheets n ++ [sheet] }).sheets = _
  by_cases h : sheet.digest ∈ f.worn n
  · rw [if_pos (hany.mpr h), if_pos h]
    rfl
  · rw [if_neg (mt hany.mp h), if_neg h]

theorem worn_adoptSheet (hn : n < f.nodes.size) (sheet : Sheet) :
    (f.adoptSheet n sheet).worn n = wear sheet.digest (f.worn n) := by
  rw [worn, sheets_adoptSheet hn, wear]
  split
  · rfl
  · rw [map_append]
    rfl

theorem worn_removeSheet (hn : n < f.nodes.size) (digest : String) :
    (f.removeSheet n digest).1.worn n = (f.worn n).filter (· != digest) := by
  unfold removeSheet worn
  rw [sheets, node_update, if_pos ⟨rfl, hn⟩, filter_map]
  rfl

theorem mem_of_mem_removeSheet {digest : String} {x : Sheet}
    (h : x ∈ (f.removeSheet m digest).1.sheets n) : x ∈ f.sheets n := by
  unfold removeSheet at h
  rw [sheets, node_update] at h
  split at h
  · exact mem_of_mem_filter h
  · exact h

theorem mem_of_mem_adoptSheet {sheet : Sheet} {x : Sheet}
    (h : x ∈ (f.adoptSheet m sheet).sheets n) : x = sheet ∨ x ∈ f.sheets n := by
  unfold adoptSheet at h
  rw [sheets, node_update] at h
  split at h
  · split at h
    · exact .inr h
    · rcases mem_append.mp h with h | h
      · exact .inr h
      · exact .inl (mem_singleton.mp h)
  · exact .inr h

end Forest

/-! ### The stock -/

namespace SheetCache

variable {c : SheetCache} {css : String} {x : Sheet}

theorem sheet_cases (c : SheetCache) (css : String) :
    (∃ x, c.sheets.find? (fun s => s.digest == Digest.ofText css) = some x ∧ c.sheet css = (c, x)) ∨
    (c.sheets.find? (fun s => s.digest == Digest.ofText css) = none ∧
      c.sheet css = ({ sheets := .ofCss css :: c.sheets, constructions := c.constructions + 1 },
        .ofCss css)) := by
  unfold sheet
  cases h : c.sheets.find? fun s => s.digest == Digest.ofText css with
  | some x =>
    refine .inl ⟨x, rfl, ?_⟩
    dsimp [Sheet.ofCss]
    rw [h]
  | none =>
    refine .inr ⟨rfl, ?_⟩
    dsimp [Sheet.ofCss]
    rw [h]

/-- A sheet of the text is in stock afterwards, with all that was there, and still no digest occurs
twice. -/
theorem sheet_spec (c : SheetCache) (css : String) : let r := c.sheet css
    r.2.digest = Digest.ofText css ∧ r.2 ∈ r.1.sheets ∧ c.sheets ⊆ r.1.sheets ∧
      (Keyed (·.digest) c.sheets → Keyed (·.digest) r.1.sheets) := by
  rcases c.sheet_cases css with ⟨x, hx, h⟩ | ⟨hnone, h⟩
  · rw [h]
    obtain ⟨hm, hd⟩ := Keyed.mem_of_find? hx
    exact ⟨hd, hm, Subset.refl _, id⟩
  · rw [h]
    have hnew := Keyed.find?_eq_none_iff.mp hnone
    exact ⟨rfl, (.head _), subset_cons_self .., fun hk => Keyed.cons_iff.mpr ⟨hnew, hk⟩⟩

theorem sheet_eq_of_mem (h : Keyed (·.digest) c.sheets) (hx : x ∈ c.sheets)
    (hd : x.digest = Digest.ofText css) : (c.sheet css).2 = x := by
  have hfind := h.find?_eq_some_iff.mpr ⟨hx, hd⟩
  rcases c.sheet_cases css with ⟨y, hy, he⟩ | ⟨hnone, -⟩
  · rw [he]
    exact Option.some.inj (hy.symm.trans hfind)
  · rw [hnone] at hfind
    cases hfind

/-- No digest occurs twice in stock, and elements wear sheets from stock. -/
structure Supplies (c : SheetCache) (f : Forest) : Prop where
  keyed : Keyed (·.digest) c.sheets
  mem_stock : ∀ n, f.isElement n → ∀ x ∈ f.sheets n, x ∈ c.sheets

variable {f g : Forest} {root : NodeId}

theorem Supplies.keeps (h : c.Supplies f) (hg : f.KeepsSheets g) : c.Supplies g := by
  refine ⟨h.keyed, fun n hn x hx => ?_⟩
  rw [hg.sheets_eq n hn id] at hx
  exact h.mem_stock n (hg.isElement_of_mem hn hx) x hx

theorem Supplies.removeSheet (h : c.Supplies f) (root : NodeId) (digest : String) :
    c.Supplies (f.removeSheet root digest).1 := by
  have hkeeps : f.KeepsSheetsBut (fun _ => True) (f.removeSheet root digest).1 :=
    .removeSheet f digest fun _ => trivial
  refine ⟨h.keyed, fun n hn x hx => ?_⟩
  have hx := Forest.mem_of_mem_removeSheet hx
  exact h.mem_stock n (hkeeps.isElement_of_mem hn hx) x hx

theorem mem_attach_of_mem (h : x ∈ c.sheets) (f : Forest) (root : NodeId) (css : String) :
    x ∈ (c.attach f root css).1.sheets := by
  unfold attach
  split
  · exact h
  · exact (c.sheet_spec css).2.2.1 h

theorem Supplies.attach (h : c.Supplies f) (root : NodeId) (css : String) :
    (c.attach f root css).1.Supplies (c.attach f root css).2.1 := by
  have hkeeps : f.KeepsSheetsBut (fun _ => True) (c.attach f root css).2.1 :=
    Forest.KeepsSheetsBut.frame.attach (fun sheet => .adoptSheet f sheet fun _ => trivial) c css
  unfold SheetCache.attach at hkeeps ⊢
  split
  · exact h
  next hblank =>
    rw [if_neg hblank] at hkeeps
    obtain ⟨-, hmem, hsub, hkeyed⟩ := c.sheet_spec css
    refine ⟨hkeyed h.keyed, fun n hn x hx => ?_⟩
    rcases Forest.mem_of_mem_adoptSheet hx with rfl | hx
    · exact hmem
    · exact hsub (h.mem_stock n (hkeeps.isElement_of_mem hn hx) x hx)

end SheetCache

end Componentry.Document
