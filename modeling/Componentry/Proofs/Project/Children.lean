import Componentry.Proofs.FileTree
import Componentry.Proofs.Module.Imports
import Componentry.Proofs.Project.Resolution

/-!
# The units behind tags

A scan lists a unit under the tag that its script declares, and a unit that declares none under the tag
made from its path. The module of a unit has the same tag, but for units with a script that declares
none: their modules have no tag. So what a module imports for a tag is a unit with that tag, or one with
no tag that is named so.
-/

namespace Componentry

open List

variable {t : FileTree} {o : Options} {tag path text : String}

namespace Index

theorem scan_eq (t : FileTree) (o : Options) (root : String) : Project.scan t o root =
    ofEntries ((Project.unitsAt t root o.extension).filterMap fun path =>
      (t.readText path).toOption.map fun text =>
        (path, Tag.declared? (Source.blocks o text).scriptText)) := by
  rw [ofEntries, foldl_filterMap]
  refine foldl_ext _ _ _ fun x path _ => ?_
  cases t.readText path <;> rfl

theorem resolve_scan {root : String} (h : (Project.scan t o root).resolve tag = some path) :
    ∃ text, t.readText path = .ok text ∧
      (Tag.declared? (Source.blocks o text).scriptText = some tag ∨
        Tag.declared? (Source.blocks o text).scriptText = none ∧ Tag.ofPath path = tag) := by
  rw [scan_eq] at h
  rcases mem_of_resolve h with hm | ⟨hm, hname⟩
  all_goals
    obtain ⟨_, -, hm⟩ := mem_filterMap.mp hm
    obtain ⟨text, hread, he⟩ := Option.map_eq_some_iff.mp hm
    obtain ⟨rfl, hown⟩ := Prod.mk.inj he
    refine ⟨text, FileTree.eq_ok_of_toOption hread, ?_⟩
  · exact .inl hown
  · exact .inr ⟨hown, hname⟩

end Index

namespace Module

variable (o)

/-- The units that a module imports, each with the tag of the template that it is imported for. -/
def importsFor (index : Index) (path source : String) : List (String × String) :=
  if o.resolveChildren then
    ((Source.childTags (Source.blocks o source).template).filterMap fun tag =>
      (index.resolve tag).map (tag, ·)).filter (·.2 != path)
  else []

theorem imports_eq (index : Index) (path source : String) :
    imports o index path source = (importsFor o index path source).map (·.2) := by
  have hsnd : ∀ tags : List String, tags.filterMap index.resolve =
      (tags.filterMap fun tag => (index.resolve tag).map (tag, ·)).map (·.2) := by
    intro tags
    rw [map_filterMap]
    simp [Option.map_map, Function.comp_def, Option.map_id_fun', id_eq]
  unfold imports childrenOf importsFor
  dsimp only
  split
  · rw [hsnd, filter_map]
    rfl
  · rfl

theorem code_around_imports (p : Parts) : ∃ before after, (generate o p).code =
    before ++ importLines (p.children.filter (· != p.path)) ++ after := by
  obtain ⟨before, middle, hopening⟩ := opening_around_imports o p
  have hfront : opening o p = _ := hopening p.children
  rw [generate, hfront]
  simp only [String.append_assoc]
  exact ⟨before, _, rfl⟩

/-- The script of a unit declares no tag. -/
def Untagged (source : String) : Prop :=
  (Source.blocks o source).script.isSome = true ∧
    Tag.declared? (Source.blocks o source).scriptText = none

instance (o : Options) (source : String) : Decidable (Untagged o source) :=
  inferInstanceAs (Decidable (_ ∧ _))

def pageText : String := "<template><a-note></a-note></template>"

/-- A project of one unit. -/
def noteIn (text : String) : FileTree :=
  { nodes := [(["a-note.sfc"], .file (Text.utf8 text.toList) 1)] }

theorem readText_noteIn (text : String) : (noteIn text).readText "./a-note.sfc" = .ok text := by
  have hread : (noteIn text).read "./a-note.sfc" = .ok (Text.utf8 text.toList) := by rfl
  rw [FileTree.readText_of_read hread, String.ofList_toList]

theorem importsFor_note (hown : Tag.declared? (Source.blocks {} text).scriptText = none) :
    importsFor {} (Project.scan (noteIn text) {} ".") "page.sfc" pageText =
      [("a-note", "./a-note.sfc")] := by
  have hbelow : (noteIn text).filesBelow [] = [["a-note.sfc"]] := mergeSort_singleton ..
  have hlocate : (noteIn text).locate "." = .ok [] := by rfl
  have hnode : (noteIn text).node? [] = some .directory := by rfl
  have hunits : Project.unitsAt (noteIn text) "." "sfc" = ["./a-note.sfc"] := by
    rw [Project.unitsAt, FileTree.filesAt_directory hlocate hnode hbelow]
    decide +kernel
  have hscan : Project.scan (noteIn text) {} "." = Index.insert {} "./a-note.sfc" none := by
    rw [Project.scan, hunits]
    simp [readText_noteIn, hown]
  rw [hscan]
  decide +kernel

/-- A note with a script that declares no tag. -/
def silentNote : String := "<script>export default make()</script>"

end Module

end Componentry
