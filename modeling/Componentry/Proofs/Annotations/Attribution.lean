import Componentry.Proofs.Annotations.Markers

/-!
# Annotations and their methods

Each annotation of a script belongs to one method at most, because the gaps before members lie apart,
and becomes one entry or one finding there. The entries are listed by owner and by method, in the order
of the script. The table of the module repeats those of its default export, and the statements that
attach entries to methods repeat all that have a method to be attached to.
-/

namespace Componentry.Annotations

open Text Script List

/-- What an annotation of a method becomes: an entry, or a finding. -/
def Method.contribution (m : Method) (f : Found) : Metadata ⊕ Diagnostic :=
  match f.args with
  | .ok args => .inl (classify m.name f.name args)
  | .error e =>
    .inr (.on .annotations ("@" ++ f.name ++ " on \x60" ++ m.name ++ "\x60 dropped: " ++ e))

theorem Method.entries_eq (m : Method) :
    m.entries = m.annotations.filterMap fun f => (m.contribution f).getLeft? := by
  refine filterMap_congr fun f _ => ?_
  unfold contribution
  cases f.args <;> rfl

theorem Method.diagnostics_eq (m : Method) :
    m.diagnostics = m.annotations.filterMap fun f => (m.contribution f).getRight? := by
  refine filterMap_congr fun f _ => ?_
  unfold contribution
  cases f.args <;> rfl

/-! ### Default exports -/

def defaultName : TopLevel → Option String
  | .names false specs => ((specs.filter fun s => s.2 == "default").getLast?).map (·.1)
  | .exportDefault _ (.class_ c) => some (c.name.getD defaultOwner)
  | .exportDefault _ (.value (.object _)) => some defaultOwner
  | .exportDefault _ (.value (.name n)) => some n
  | _ => none

theorem addDeclaration_default (f : Finder) (o : Owners) (d : DeclarationOutline) :
    (o.addDeclaration f d).default = o.default := by
  have hvariable (o : Owners) (v : VariableOutline) : (o.addVariable f v).default = o.default := by
    unfold Owners.addVariable
    split <;> rfl
  unfold Owners.addDeclaration
  split
  · split <;> rfl
  next vs =>
    exact foldlRecOn vs (motive := fun x => x.default = o.default) _ rfl
      fun x hx v _ => (hvariable x v).trans hx
  · rfl

theorem add_default (f : Finder) (text : List Char) (o : Owners) (t : TopLevel) :
    (o.add f text t).default = (defaultName t).or o.default := by
  cases t with
  | declaration d | exported d => exact addDeclaration_default f o d
  | names foreign specs =>
    cases foreign with
    | true => rfl
    | false =>
      simp only [Owners.add, defaultName]
      cases (specs.filter fun s => s.2 == "default").getLast? <;> rfl
  | exportDefault at_ d =>
    cases d with
    | class_ c =>
      simp only [Owners.add, defaultName]
      cases c.name <;> rfl
    | value v => cases v <;> rfl
    | function | type => rfl
  | other => rfl

theorem ownersOf_default (f : Finder) (text : List Char) (outline : Outline) :
    (ownersOf f text outline).default = (outline.filterMap defaultName).getLast? := by
  unfold ownersOf
  induction outline using reverseRecOn with
  | nil => rfl
  | append_singleton outline t ih =>
    rw [foldl_concat, add_default, ih]
    cases h : defaultName t <;> simp [h]

/-! ### Bodies that lie apart -/

/-- Members of a body follow each other, and bodies lie apart. -/
structure Separate (outline : Outline) : Prop where
  members : ∀ b ∈ outline.flatMap bodies, b.places.Pairwise (· ≤ ·)
  bodies : (outline.flatMap bodies).Pairwise fun b b' =>
    (∀ x ∈ b.places, ∀ y ∈ b'.places, x ≤ y) ∨ ∀ x ∈ b.places, ∀ y ∈ b'.places, y ≤ x

theorem Body.gaps_ordered {b : Body} (h : b.places.Pairwise (· ≤ ·)) :
    (b.gaps.map (·.1)).Pairwise fun g g' => g.stop ≤ g'.start := by
  obtain ⟨-, hpair⟩ := pairwise_flatMap.mp (h.sublist b.gaps_sublist)
  exact hpair.imp fun h => h _ (by simp) _ (by simp)

variable {outline : Outline}

theorem Separate.gaps (h : Separate outline) : (gapsOf outline).Pairwise Span.Apart := by
  have hmem {b : Body} {g : Span} (hg : g ∈ b.gaps.map (·.1)) {x : Nat} (hx : x ∈ [g.start, g.stop]) :
      x ∈ b.places := b.gaps_sublist.subset (mem_flatMap.mpr ⟨g, hg, hx⟩)
  rw [gapsOf, ← flatMap_assoc]
  refine pairwise_flatMap.mpr ⟨fun b hb => (Body.gaps_ordered (h.members b hb)).imp .inl,
    h.bodies.imp fun {b b'} hb g hg g' hg' => ?_⟩
  rcases hb with hb | hb
  · exact .inl (hb _ (hmem hg (by simp)) _ (hmem hg' (by simp)))
  · exact .inr (hb _ (hmem hg (by simp)) _ (hmem hg' (by simp)))

section Order

variable {script : List Char}

theorem markersOf_ordered (script : List Char) : (markersOf script).Pairwise fun p p' =>
    p.at_.stop ≤ p'.at_.start ∧ p.occurrence.at_.stop ≤ p'.occurrence.at_.start := by
  have hnotes := (spread_occurrences script).pairwise.2
  rw [← markersOf_occurrence, pairwise_map] at hnotes
  have hplaced := pairwise_placedIn 0 (segments script)
  rw [← markersOf_eq] at hplaced
  exact hplaced.and hnotes

theorem stop_le_start {p p' : Placed} (hp : p ∈ markersOf script) (hp' : p' ∈ markersOf script)
    (h : p.at_.stop ≤ p'.at_.start) : p.occurrence.at_.stop ≤ p'.occurrence.at_.start := by
  have hne {p : Placed} (hp : p ∈ markersOf script) : p.at_.start < p.at_.stop := by
    rw [markersOf_eq] at hp
    exact (mem_placedIn hp).2.1
  obtain ⟨i, hi, rfl⟩ := getElem_of_mem hp
  obtain ⟨j, hj, rfl⟩ := getElem_of_mem hp'
  have hordered := pairwise_iff_getElem.mp (markersOf_ordered script)
  rcases lt_trichotomy i j with hij | rfl | hij
  · exact (hordered i j hi hj hij).2
  · exact absurd h (hne hp).not_ge
  · have := (hordered j i hj hi hij).1
    have := hne hp
    have := hne hp'
    omega

theorem inside_ordered {gaps : List Span} (h : gaps.Pairwise fun g g' => g.stop ≤ g'.start) :
    ((gaps.flatMap (inside (markersOf script))).map (·.occurrence.at_)).Pairwise
      fun s s' => s.stop ≤ s'.start := by
  refine pairwise_map.mpr (pairwise_flatMap.mpr ⟨fun g _ => ?_, h.imp ?_⟩)
  · exact ((markersOf_ordered script).imp And.right).filter _
  · intro g g' hgap p hp p' hp'
    obtain ⟨hp, hin⟩ := mem_filter.mp hp
    obtain ⟨hp', hin'⟩ := mem_filter.mp hp'
    simp only [Bool.and_eq_true, decide_eq_true_eq] at hin hin'
    exact stop_le_start hp hp' (by omega)

theorem annotations_ordered (h : Separate outline) {o : Owner}
    (ho : o ∈ (markedOwners script outline).all) :
    (o.methods.flatMap fun m => m.annotations.map (·.at_)).Pairwise fun s s' => s.stop ≤ s'.start := by
  obtain ⟨b, hb, hfound⟩ := exists_body ho
  have hspans : (o.methods.flatMap fun m => m.annotations.map (·.at_)) =
      (b.found (markersOf script)).flatMap fun l => l.map (·.at_) := by
    rw [← hfound, flatMap_map]
  rw [hspans]
  refine Pairwise.sublist b.found_sublist ?_
  rw [← map_flatMap]
  exact inside_ordered (Body.gaps_ordered (h.members b hb))

theorem annotations_nodup (h : Separate outline) :
    ((markedOwners script outline).methods.flatMap fun x => x.2.annotations.map (·.at_)).Nodup := by
  have hspans := (standing_segments script).nodup_spans h.gaps (markedText script)
  rw [finderOf, sourceOf_segments, ← markedText_eq, ← markersOf_eq] at hspans
  rw [Owners.methods, flatMap_assoc, markedOwners]
  simpa only [flatMap_map] using hspans

end Order

/-! ### What becomes of annotations -/

/-- What an extraction says about the methods of some owners, whose annotations are among those found
in a script. -/
structure Attributed (notes : List Occurrence) (owners : Owners) (default : Option String)
    (e : Extraction) : Prop where
  /-- A method has annotations of the script only. -/
  found : ∀ x ∈ owners.methods, ∀ f ∈ x.2.annotations, ∃ note ∈ notes, f = note.found
  /-- No annotation belongs to two methods, or twice to one. -/
  once : (owners.methods.flatMap fun x => x.2.annotations.map (·.at_)).Nodup
  /-- The annotations of an owner are listed in the order of the script. -/
  ordered : ∀ o ∈ owners.all, (o.methods.flatMap fun m => m.annotations.map (·.at_)).Pairwise
    fun s s' => s.stop ≤ s'.start
  /-- The entries of a method are what its annotations become, -/
  entries : ∀ x ∈ owners.methods,
    x.2.entries = x.2.annotations.filterMap fun f => (x.2.contribution f).getLeft?
  metadata : e.metadata = owners.methods.flatMap (·.2.entries)
  /-- All other annotations are findings. -/
  diagnostics : e.diagnostics = owners.methods.flatMap fun x =>
    x.2.annotations.filterMap fun f => (x.2.contribution f).getRight?
  /-- The table has the entries of the default export, or all if there is none. -/
  table : e.table =
    (owners.methods.filter fun x => default.all (· == x.1.name)).flatMap (·.2.entries)
  /-- Statements attach entries to methods that can be named, -/
  target : ∀ x ∈ owners.methods, x.2.attached = true → (x.1.target x.2).isSome
  /-- which are all entries but those of fields of the instances, -/
  attached : (owners.methods.filter (·.2.attached)).flatMap (·.2.entries) =
    (owners.methods.filter (!·.2.instanceField)).flatMap (·.2.entries)
  /-- and one such statement for each method, with the table, ends the script. -/
  script : ∃ edited, e.script.toList = followedBy edited (if e.metadata.isEmpty then [] else
    (epilogue ((owners.methods.filter (·.2.attached)).map assignment) e.table
      (owners.all.any Owner.isRebound)).toList)

theorem attached_entries (methods : List (Owner × Method)) :
    (methods.filter (·.2.attached)).flatMap (·.2.entries) =
      (methods.filter (!·.2.instanceField)).flatMap (·.2.entries) := by
  have hfilter : methods.filter (·.2.attached) =
      (methods.filter (!·.2.instanceField)).filter (!·.2.entries.isEmpty) := by
    rw [filter_filter]
    exact filter_congr fun x _ => Bool.and_comm ..
  rw [hfilter]
  exact flatMap_filter fun x hx => by simpa using hx

/-- Annotations are attributed without loss and without duplication. Where the outline of the marked
text keeps members in order and bodies apart, extraction from markers reads it; it gives each
annotation to one method at most, and accounts for each in the metadata, in the table and in the
statements at the end of the script exactly as `Attributed` says, unless an edit cuts a character. -/
theorem extractMarker_attributed {read : String → Option Outline} {script : String}
    {outline : Outline} (hread : read (String.ofList (markedText script.toList)) = some outline)
    (hseparate : Separate outline) :
    ∃ r, extractMarker read script = some r ∧ ∀ e, r = some e →
      Attributed (occurrences script.toList) (markedOwners script.toList outline)
        (outline.filterMap defaultName).getLast? e := by
  have hr : extractMarker read script = some _ := congrArg (Option.map _) hread
  refine ⟨_, hr, fun e he => ?_⟩
  obtain ⟨outline', edited, hread', rfl⟩ := extractMarker_eq_some (hr.trans (congrArg some he))
  obtain rfl : outline' = outline := Option.some.inj (hread'.symm.trans hread)
  obtain ⟨hmetadata, hdiagnostics, htable⟩ :=
    rendered_entries (markedOwners script.toList outline') edited
  refine ⟨?_, annotations_nodup hseparate, fun o => annotations_ordered hseparate,
    fun x _ => x.2.entries_eq, hmetadata, ?_, ?_, ?_, attached_entries _, edited, ?_⟩
  · intro x hx f hf
    obtain ⟨ho, hm⟩ := mem_methods.mp hx
    exact (found_markedOwners ho hm hf).1
  · simp only [← Method.diagnostics_eq]
    exact hdiagnostics
  · rw [← ownersOf_default]
    exact htable
  · intro x _ hx
    have hfield : x.2.instanceField = false := by simpa using (Bool.and_eq_true_iff.mp hx).1
    rw [Owner.target, hfield]
    split
    · contradiction
    · split <;> rfl
  · refine (rendered_script ..).trans (congrArg (followedBy _) ?_)
    rw [statements_eq]
    exact congrArg₂ (fun m t => if isEmpty m then [] else (epilogue _ t _).toList)
      hmetadata.symm htable.symm

/-- A class with a static method and a field, an object with a method that has two annotations, and
the class as default export. -/
def panel : String :=
  "class Panel \x7b @click static reset() \x7b\x7d @input type = () => 1 \x7d\n" ++
  "const help = \x7b @click @keydown('q') go() \x7b\x7d \x7d;\nexport default Panel;"

def panelOutline : Outline :=
  [.declaration (.class_ ⟨some "Panel", ⟨0, 80⟩, 12, [],
      [⟨⟨30, 47⟩, some "reset", true, .method, []⟩,
        ⟨⟨64, 78⟩, some "type", false, .functionField, []⟩]⟩),
    .declaration (.variables [⟨some "help", some (.object
      ⟨⟨94, 145⟩, [⟨⟨136, 143⟩, some "go", false, .method, []⟩]⟩)⟩]),
    .exportDefault ⟨147, 168⟩ (.value (.name "Panel"))]

theorem extractMarker_attributed_panel : Separate panelOutline ∧
    ∃ e, extractMarker (fun _ => some panelOutline) panel = some (some e) ∧
      e.metadata.map (fun m => (m.method, m.name)) =
        [("reset", "click"), ("type", "input"), ("go", "click"), ("go", "keydown")] ∧
      e.table.map (·.method) = ["reset", "type"] ∧ e.diagnostics.length = 0 ∧
      ((markedOwners panel.toList panelOutline).methods.filter (·.2.attached)).map
        (fun x => x.1.target x.2) = [some "Panel.reset", some "help.go"] := by
  have hseparate : Separate panelOutline := ⟨by decide, by decide⟩
  have hfaithful : Faithful (fun _ => 0) (marking panel.toList) panelOutline :=
    ⟨by decide +kernel, by decide +kernel, by decide +kernel⟩
  obtain ⟨e, he⟩ := extractMarker_succeeds (fun _ => some panelOutline) rfl hfaithful
    (by simp [KeywordUnmarked, panelOutline]) (by decide +kernel)
  obtain ⟨r, hr, hall⟩ :=
    @extractMarker_attributed (fun _ => some panelOutline) panel panelOutline rfl hseparate
  have h := hall e (Option.some.inj (hr.symm.trans he))
  refine ⟨hseparate, e, he, ?_, ?_, ?_, ?_⟩
  · rw [h.metadata]
    decide +kernel
  · rw [h.table]
    decide +kernel
  · rw [h.diagnostics]
    decide +kernel
  · decide +kernel

end Componentry.Annotations
