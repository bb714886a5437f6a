import Componentry.Proofs.Document.Frame
import Componentry.Proofs.Keyed
import Componentry.Proofs.Text.Scan

/-!
# The attributes of an element

Setting and removing an attribute put its name in lower case first, and asking for one does not. So an
element keeps one value for all spellings of a name, and the spelling in lower case reads it.
-/

namespace Componentry.Document

/-- A call that concerns the attributes of an element. -/
inductive AttributeCall where
  | get (name : String)
  | set (name value : String)
  | remove (name : String)
deriving DecidableEq, Repr

namespace AttributeCall

/-- The value that calls, the last one first, leave to a name in whatever spelling: the one last set,
if it was not removed since. -/
def latest (name : String) : List AttributeCall → Option String
  | [] => none
  | .get _ :: past => latest name past
  | .set other value :: past =>
    if other.toLower = name.toLower then some value else latest name past
  | .remove other :: past => if other.toLower = name.toLower then none else latest name past

end AttributeCall

open AttributeCall

theorem toLower_toLower (name : String) : name.toLower.toLower = name.toLower := by
  have hlist : ∀ s : String, s.toLower.toList = s.toList.map Char.toLower := fun _ => String.toList_map
  refine String.toList_inj.mp ?_
  rw [hlist, hlist, List.map_map]
  exact List.map_congr_left fun c _ => Text.toLower_toLower c

theorem latest_toLower (name : String) (past : List AttributeCall) :
    latest name.toLower past = latest name past := by
  induction past with
  | nil => rfl
  | cons call past ih => cases call <;> simp [latest, ih, toLower_toLower]

namespace Forest

def call (f : Forest) (id : NodeId) : AttributeCall → Forest × Option String
  | .get name => (f, f.attribute? id name)
  | .set name value => f.setAttribute id name value
  | .remove name => f.removeAttribute id name

/-- The forest after calls, the last one first. -/
def after (f : Forest) (id : NodeId) : List AttributeCall → Forest
  | [] => f
  | call :: past => ((f.after id past).call id call).1

variable {f : Forest} {id : NodeId}

theorem kind_updateAttributes {tag : String} {d : Dictionary String} (h : f.kind id = .element tag d)
    (g : Dictionary String → Dictionary String) :
    (f.updateAttributes id g).kind id = .element tag (g d) := by
  rw [updateAttributes, kind, node_update_of_default rfl, if_pos rfl]
  rw [kind] at h
  simp [h]

/-- An element keeps what the calls leave to each name, under that name in lower case. -/
theorem kind_after {tag : String} (h : f.kind id = .element tag .empty) (past : List AttributeCall) :
    ∃ d, (f.after id past).kind id = .element tag d ∧
      ∀ name, d.find? name = if name.toLower = name then latest name past else none := by
  induction past with
  | nil => exact ⟨_, h, fun name => (ite_self _).symm⟩
  | cons call past ih =>
    obtain ⟨d, hd, hfind⟩ := ih
    cases call with
    | get name => exact ⟨d, hd, hfind⟩
    | set other value =>
      refine ⟨_, kind_updateAttributes hd _, fun name => ?_⟩
      rw [Dictionary.find?_insert, latest]
      by_cases hname : name = other.toLower
      · simp [hname, toLower_toLower]
      · grind
    | remove other =>
      refine ⟨_, kind_updateAttributes hd _, fun name => ?_⟩
      rw [Dictionary.find?_erase, latest]
      by_cases hname : name = other.toLower
      · simp [hname, toLower_toLower]
      · grind

/-- After any calls on a new element, an attribute has the value last set under any spelling of its
name. Changing it tells that value; asking for it does under its name in lower case only. -/
theorem attribute_latest (f : Forest) (tag : String) (past : List AttributeCall) :
    let r := f.createElement tag
    let g := r.1.after r.2 past
    (∀ name, g.attribute? r.2 name = if name.toLower = name then latest name past else none) ∧
      (∀ name value, (g.setAttribute r.2 name value).2 = latest name past) ∧
      ∀ name, (g.removeAttribute r.2 name).2 = latest name past := by
  intro r g
  have hnew : r.1.kind r.2 = .element tag.toLower .empty :=
    congrArg Node.kind ((node_create ..).trans (if_pos rfl))
  obtain ⟨d, hd, hfind⟩ := kind_after hnew past
  have hget : ∀ name, g.attribute? r.2 name =
      if name.toLower = name then latest name past else none := by
    intro name
    rw [attribute?, attributes, hd]
    exact hfind name
  have hfold : ∀ name : String, g.attribute? r.2 name.toLower = latest name past := by
    intro name
    rw [hget, if_pos (toLower_toLower name), latest_toLower]
  exact ⟨hget, fun name _ => hfold name, hfold⟩

/-- A value is not found under the name it was set by. -/
theorem attribute_spelling_lost : let r := ({} : Forest).createElement "p"
    (r.1.after r.2 [.set "ID" "x"]).attribute? r.2 "ID" = none ∧
      latest "ID" [.set "ID" "x"] = some "x" := by
  decide +kernel

end Forest

end Componentry.Document
