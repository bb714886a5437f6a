import Componentry.Proofs.Annotations.Displacement

/-!
# What extraction from markers keeps

With markers in place of annotations, a script is read, and its outline says where a default export
without a name stands. If the outline is faithful, the script that comes out is the script with
annotations blanked out and the default export named, but for two cases. Where an annotation that
takes more bytes than characters stands between `export` and the brace of an object, the brace is
lost. Where `class` is spelled out before the word of a class, such as in a comment, the name is out
of place.
-/

namespace Componentry.Annotations

open Text Script List

variable (script : List Char)

/-- A script with markers in place of its annotations, and where they stand. -/
def marking : List Char × List Placed := mark script 0 0 (occurrences script)

def markedText : List Char := (marking script).1

def markersOf : List Placed := (marking script).2

theorem marking_eq : marking script = markedIn (segments script) := by
  rw [marking, mark_eq, segments]
  rfl

theorem markedText_eq : markedText script = markedOf (segments script) :=
  congrArg Prod.fst (marking_eq script)

theorem markersOf_eq : markersOf script = placedIn 0 (segments script) :=
  congrArg Prod.snd (marking_eq script)

/-! ### Statements after the script -/

/-- The statements that are appended to the script of some owners. -/
def Owners.statements (owners : Owners) : List Char :=
  let annotated := owners.all.filter Owner.isAnnotated
  let methods := annotated.flatMap fun o =>
    (o.methods.filter fun m => !m.annotations.isEmpty).map fun m => (o, m)
  if (methods.flatMap fun (_, m) => m.entries).isEmpty then []
  else
    (epilogue (methods.filterMap fun (o, m) => o.assignment? m)
      ((methods.filter fun (o, _) => owners.default.all (· == o.name)).flatMap fun (_, m) => m.entries)
      (annotated.any fun o => match o.anonymous with
        | some (.object _) => true
        | _ => false)).toList

variable (statements : List Char)

/-- A script with statements appended after an empty line. -/
def followedBy : List Char :=
  if statements.isEmpty then script else withLineEnd script ++ '\n' :: statements

/-- What comes out is the edited script, followed by the statements of its owners. -/
theorem rendered_script (owners : Owners) (edited : List Char) :
    (owners.rendered edited).script.toList = followedBy edited owners.statements := by
  simp only [Owners.rendered, Owners.statements]
  split
  · simp [followedBy]
  · rw [followedBy, if_neg (by simp [epilogue]), String.toList_append,
      String.toList_ofList, append_assoc]
    rfl

theorem render_eq {source : String} {owners : Owners} {extra : List Span} {names : List Edit}
    (hnames : namingEdits? source.toList owners.all = some names) :
    render source owners extra = (applyEdits source.toList (names ++
      (removals (owners.all.filter Owner.isAnnotated) extra).map (blanking source.toList))).map
        owners.rendered := by
  rw [namingEdits?] at hnames
  simp [render, hnames]

theorem followedBy_append : ∃ rest, followedBy script statements = script ++ rest := by
  unfold followedBy withLineEnd
  split
  · exact ⟨[], (append_nil _).symm⟩
  · split
    · exact ⟨_, rfl⟩
    · exact ⟨_, append_assoc ..⟩

theorem count_followedBy :
    (followedBy script statements).count '\x7b' =
      script.count '\x7b' + statements.count '\x7b' := by
  unfold followedBy withLineEnd
  split
  next h => simp [isEmpty_iff.mp h]
  next => split <;> simp

/-! ### Extraction from markers -/

section Extraction

variable {keyword : ClassOutline → Nat} {outline : Outline}

theorem namingEdits?_ownersOf {gs : List Segment} (hs : Standing 0 gs)
    (hf : Faithful keyword (markedIn gs) outline)
    (hfirst : KeywordFirst keyword (markedIn gs) outline) :
    namingEdits? (sourceOf gs) (ownersOf (finderOf gs) (markedOf gs) outline).all =
      some ((namings keyword (placedIn 0 gs) outline).map (Naming.edit gs)) := by
  rw [ownersOf_all, namings, map_filterMap, filterMap_eq_flatMap_toList]
  refine namingEdits?_flatMap fun t ht => ?_
  rw [ownersIn_naming hs hf hfirst ht, Option.toList_map]

theorem edits_perm {gs : List Segment} (hs : Standing 0 gs)
    (hf : Faithful keyword (markedIn gs) outline) (names : List Edit) :
    (names ++ (removals ((ownersOf (finderOf gs) (markedOf gs) outline).all.filter
      Owner.isAnnotated) ((notesOf gs).map (·.at_))).map (blanking (sourceOf gs))).Perm
        (names ++ noteEdits gs) := by
  have hnotes := (removals_perm hs (pairwise_gapsOf hf.ordered) (markedOf gs)).map
    (blanking (sourceOf gs))
  rw [map_map] at hnotes
  exact hnotes.append_left _

end Extraction

def markedOwners (script : List Char) (outline : Outline) : Owners :=
  ownersOf (markerFinder script (markedText script) (markersOf script)) (markedText script) outline

/-- The script with annotations blanked out and default exports named, followed by the statements of
its owners. -/
def named (keyword : ClassOutline → Nat) (script : List Char) (outline : Outline) : List Char :=
  followedBy (rewritten (namings keyword (marking script).2 outline) 0 (segments script))
    (markedOwners script outline).statements

/-- The annotations between `export` and the brace of an object that gets a name are narrow. -/
abbrev NarrowIn (keyword : ClassOutline → Nat) (script : List Char) (outline : Outline) : Prop :=
  Narrow (namings keyword (marking script).2 outline) 0 (segments script)

variable {keyword : ClassOutline → Nat} {outline : Outline} {script : String}

theorem fits_namings {gs : List Segment} (hf : Faithful keyword (markedIn gs) outline) :
    (∀ n ∈ namings keyword (markedIn gs).2 outline, n.Fits 0 gs) ∧
      (namings keyword (markedIn gs).2 outline).Pairwise fun n m => n.stop < m.start := by
  refine ⟨fun n hn => ?_, pairwise_namings hf⟩
  obtain ⟨t, ht, hn⟩ := mem_filterMap.mp hn
  exact naming?_fits hf ht hn

section

variable (read : String → Option Outline)
  (hread : read (String.ofList (markedText script.toList)) = some outline)
  (hfaithful : Faithful keyword (marking script.toList) outline)

include hread hfaithful

theorem extractMarker_edited (hfirst : KeywordFirst keyword (marking script.toList) outline) :
    ∃ r, extractMarker read script = some r ∧
      r.map (·.script.toList) =
        (edited (namings keyword (marking script.toList).2 outline) 0 (segments script.toList)).map
          (followedBy · (markedOwners script.toList outline).statements) := by
  have hs := standing_segments script.toList
  rw [marking_eq] at hfaithful hfirst
  obtain ⟨hfits, hpairwise⟩ := fits_namings hfaithful
  have hedits := applyEdits_segments hs hfits hpairwise (edits_perm hs hfaithful _)
  have hnames := namingEdits?_ownersOf hs hfaithful hfirst
  have hnotes : notesOf (segments script.toList) = occurrences script.toList :=
    notesOf_segmentsFrom ..
  rw [sourceOf_segments, hnotes] at hedits
  rw [sourceOf_segments] at hnames
  have howners : markedOwners script.toList outline =
      ownersOf (finderOf (segments script.toList)) (markedOf (segments script.toList)) outline := by
    rw [markedOwners, finderOf, markedText_eq, markersOf_eq, sourceOf_segments]
  rw [← howners] at hnames hedits
  refine ⟨(render script (markedOwners script.toList outline)
    ((occurrences script.toList).map (·.at_))).map (·.extraction .marker), ?_, ?_⟩
  · change (read (String.ofList (markedText script.toList))).map _ = _
    rw [hread]
    rfl
  · rw [marking_eq, ← hedits, render_eq hnames, Option.map_map, Option.map_map]
    exact congrArg (Option.map · _) (funext fun _ => rendered_script ..)

theorem extractMarker_named_or_count_lt
    (hunmarked : KeywordUnmarked keyword (marking script.toList) outline) :
    NarrowIn keyword script.toList outline ∧ (∃ e, extractMarker read script = some (some e) ∧
      e.script.toList = named (firstWord keyword (marking script.toList)) script.toList outline) ∨
    ¬ NarrowIn keyword script.toList outline ∧ ∀ e, extractMarker read script = some (some e) →
      e.script.toList.count '\x7b' < (named keyword script.toList outline).count '\x7b' := by
  have hearlier := hfaithful.earlier hunmarked
  obtain ⟨r, hr, hscript⟩ :=
    extractMarker_edited read hread hearlier hfaithful.keywordFirst_firstWord
  unfold named NarrowIn
  rw [marking_eq] at hfaithful hearlier hscript ⊢
  obtain ⟨hfits, hpairwise⟩ := fits_namings hearlier
  have hcompare := edited_eq_or_count_lt hfits hpairwise
  -- only ranges tell whether a brace is lost, and the words of classes have none
  rw [narrow_congr hfaithful.covered_firstWord, count_rewritten_congr hfaithful.covered_firstWord
    (notMem_word (by decide) (by decide)) (notMem_word (by decide) (by decide))] at hcompare
  refine hcompare.imp (fun ⟨hN, heq⟩ => ⟨hN, ?_⟩) fun ⟨hN, hlt⟩ => ⟨hN, fun e he => ?_⟩
  · rw [heq] at hscript
    obtain ⟨e, rfl, he⟩ := Option.map_eq_some_iff.mp hscript
    exact ⟨e, hr, he⟩
  · cases hr.symm.trans he
    obtain ⟨t, ht, heq⟩ := Option.map_eq_some_iff.mp hscript.symm
    have hcount : (followedBy t _).count '\x7b' = e.script.toList.count '\x7b' := congrArg _ heq
    have := hlt t ht
    rw [count_followedBy] at hcount ⊢
    omega

theorem extractMarker_succeeds (hunmarked : KeywordUnmarked keyword (marking script.toList) outline)
    (hN : NarrowIn keyword script.toList outline) :
    ∃ e, extractMarker read script = some (some e) := by
  obtain ⟨-, e, he, -⟩ := (extractMarker_named_or_count_lt read hread hfaithful
    hunmarked).resolve_right fun h => h.1 hN
  exact ⟨e, he⟩

end

/-- If the annotations between `export` and the brace of an object are narrow, no edit cuts a
character, and extraction from markers succeeds. Where it does, it puts out the script with annotations
blanked out and default exports named, up to the appended statements, exactly if they are narrow and no
other `class` is spelled out before the word of a class that gets a name. If they are narrow, each
character outside of annotations and of such ranges stays on its line. -/
theorem extractMarker_script_iff (read : String → Option Outline) (keyword : ClassOutline → Nat)
    (script : String) (outline : Outline)
    (hread : read (String.ofList (markedText script.toList)) = some outline)
    (hfaithful : Faithful keyword (marking script.toList) outline)
    (hunmarked : KeywordUnmarked keyword (marking script.toList) outline) :
    (NarrowIn keyword script.toList outline → ∃ e, extractMarker read script = some (some e)) ∧
    ∀ e, extractMarker read script = some (some e) →
      (e.script.toList = named keyword script.toList outline ↔
        NarrowIn keyword script.toList outline ∧
          KeywordFirst keyword (marking script.toList) outline) ∧
      (NarrowIn keyword script.toList outline →
        ∀ a c b, segments script.toList = a ++ .plain c :: b →
          covered (namings keyword (markersOf script.toList) outline) (markedOf a).length = false →
          ∃ l r, e.script.toList = l ++ c :: r ∧ l.count '\n' = (sourceOf a).count '\n') := by
  refine ⟨extractMarker_succeeds read hread hfaithful hunmarked, fun e he => ?_⟩
  have hcases := extractMarker_named_or_count_lt read hread hfaithful hunmarked
  simp only [he, Option.some.injEq, exists_eq_left', forall_eq'] at hcases
  have hrest (k : ClassOutline → Nat) : ∃ rest, named k script.toList outline =
      rewritten (namings k (marking script.toList).2 outline) 0 (segments script.toList) ++ rest :=
    followedBy_append ..
  refine ⟨?_, ?_⟩
  · rcases hcases with ⟨hN, hscript⟩ | ⟨hN, hlt⟩
    · rw [hscript]
      refine ⟨fun heq => ⟨hN, ?_⟩, fun ⟨_, hfirst⟩ => by
        rw [named, named, hfaithful.namings_firstWord hfirst]⟩
      by_contra hfirst
      obtain ⟨x, hx⟩ := hrest (firstWord keyword (marking script.toList))
      obtain ⟨y, hy⟩ := hrest keyword
      rw [hx, hy] at heq
      rw [marking_eq] at hfaithful hunmarked hfirst heq
      exact hfaithful.rewritten_firstWord_ne hunmarked hfirst x y heq
    · refine iff_of_false (fun heq => ?_) fun h => hN h.1
      rw [heq] at hlt
      exact hlt.false
  · intro hN a c b hcut hc
    rcases hcases with ⟨-, hscript⟩ | ⟨hnot, -⟩
    · obtain ⟨rest, hrest⟩ := hrest (firstWord keyword (marking script.toList))
      rw [marking_eq] at hfaithful hrest hscript
      rw [markersOf, marking_eq, ← hfaithful.covered_firstWord] at hc
      obtain ⟨l, r, hl, hcount⟩ :=
        rewritten_plain (notMem_word (by decide) (by decide)) (a := a) (c := c) (b := b) hc
      rw [← hcut] at hl
      refine ⟨l, r ++ rest, ?_, hcount⟩
      rw [hscript, hrest, hl, append_assoc, cons_append]
    · exact absurd hN hnot

/-- An object and a class, both exported without a name; an annotation stands in front of the brace
of the object. -/
def twoDefaults : String :=
  "export default @tag()\n  \x7b @click m() \x7b\x7d \x7d;\nexport default abstract class \x7b @input n() \x7b\x7d \x7d"

def twoDefaultsOutline : Outline :=
  [.exportDefault ⟨0, 58⟩ (.value (.object
      ⟨⟨31, 57⟩, [⟨⟨49, 55⟩, some "m", false, .method, []⟩]⟩)),
    .exportDefault ⟨59, 115⟩ (.class_
      ⟨none, ⟨74, 115⟩, 89, [], [⟨⟨107, 113⟩, some "n", false, .method, []⟩]⟩)]

theorem extractMarker_script_iff_twoDefaults :
    Faithful (fun _ => 83) (marking twoDefaults.toList) twoDefaultsOutline ∧
    KeywordUnmarked (fun _ => 83) (marking twoDefaults.toList) twoDefaultsOutline ∧
    ∃ e, extractMarker (fun _ => some twoDefaultsOutline) twoDefaults = some (some e) ∧
      e.script.toList = followedBy
        ("const __SfcDefault = \n\x7b        m() \x7b\x7d \x7d;\n" ++
          "export default abstract class __SfcDefault \x7b        n() \x7b\x7d \x7d").toList
        (markedOwners twoDefaults.toList twoDefaultsOutline).statements := by
  have hfaithful : Faithful (fun _ => 83) (marking twoDefaults.toList) twoDefaultsOutline :=
    { ordered := by decide +kernel
      spelled := by decide +kernel
      apart := by decide +kernel }
  have hfirst : KeywordFirst (fun _ => 83) (marking twoDefaults.toList) twoDefaultsOutline := by
    intro at_ c hmem _ q hle hlt
    obtain ⟨-, rfl⟩ : at_ = _ ∧ c = _ := by simpa [twoDefaultsOutline] using hmem
    have hall : ∀ q < 9, ¬ classWord <+: (markedText twoDefaults.toList).drop (74 + q) := by
      decide +kernel
    simp only at hle hlt
    have := hall (q - 74) (by omega)
    rwa [show 74 + (q - 74) = q by omega] at this
  have hunmarked := hfirst.unmarked
  obtain ⟨hsucceeds, hall⟩ := extractMarker_script_iff (fun _ => some twoDefaultsOutline)
    (fun _ => 83) twoDefaults twoDefaultsOutline rfl hfaithful hunmarked
  have hnarrow : NarrowIn (fun _ => 83) twoDefaults.toList twoDefaultsOutline := by
    decide +kernel
  obtain ⟨e, he⟩ := hsucceeds hnarrow
  refine ⟨hfaithful, hunmarked, e, he, ((hall e he).1.mpr ⟨hnarrow, hfirst⟩).trans ?_⟩
  refine congrArg (fun s => followedBy s _) ?_
  decide +kernel

/-- In front of the brace of an object stands an annotation with a character of two bytes. -/
def accented : String := "export default @tag(\"é\") \x7b @click() m() \x7b\x7d \x7d;"

def accentedOutline : Outline :=
  [.exportDefault ⟨0, 64⟩ (.value (.object
    ⟨⟨37, 63⟩, [⟨⟨55, 61⟩, some "m", false, .method, []⟩]⟩))]

/-- There the brace is lost. -/
theorem extractMarker_loses_brace :
    Faithful (fun _ => 0) (marking accented.toList) accentedOutline ∧
    KeywordFirst (fun _ => 0) (marking accented.toList) accentedOutline ∧
    ∃ e, extractMarker (fun _ => some accentedOutline) accented = some (some e) ∧
      e.script.toList = followedBy "const __SfcDefault =           m() \x7b\x7d \x7d;".toList
        (markedOwners accented.toList accentedOutline).statements ∧
      e.script.toList ≠ named (fun _ => 0) accented.toList accentedOutline := by
  have hfaithful : Faithful (fun _ => 0) (marking accented.toList) accentedOutline :=
    { ordered := by decide +kernel
      spelled := by decide +kernel
      apart := by decide +kernel }
  have hfirst : KeywordFirst (fun _ => 0) (marking accented.toList) accentedOutline := by
    simp [KeywordFirst, accentedOutline]
  have hedited : edited (namings (fun _ => 0) (marking accented.toList).2 accentedOutline) 0
      (segments accented.toList) =
        some "const __SfcDefault =           m() \x7b\x7d \x7d;".toList := by
    decide +kernel
  have hrewritten : rewritten (namings (fun _ => 0) (marking accented.toList).2 accentedOutline) 0
      (segments accented.toList) = "const __SfcDefault = \x7b          m() \x7b\x7d \x7d;".toList := by
    decide +kernel
  obtain ⟨r, he, hscript⟩ :=
    extractMarker_edited (fun _ => some accentedOutline) rfl hfaithful hfirst
  rw [hedited, Option.map_some, Option.map_eq_some_iff] at hscript
  obtain ⟨e, rfl, hscript⟩ := hscript
  refine ⟨hfaithful, hfirst, e, he, hscript, fun h => ?_⟩
  have hcount := congrArg (count '\x7b') (hscript.symm.trans h)
  rw [named, count_followedBy, count_followedBy, hrewritten] at hcount
  exact absurd (Nat.add_right_cancel hcount) (by decide +kernel)

end Componentry.Annotations
