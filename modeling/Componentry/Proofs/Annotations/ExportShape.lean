import Componentry.Annotations.Extraction
import Componentry.Script.Shape

/-!
# Shapes of renamed exports

Extraction gives an anonymous default export a name: an object becomes a constant that is exported at
the end of the script, and a class is named where it stands. An exported name is looked up when the
whole script is known, so the shape stays, whatever else the script declares and exports.
-/

namespace Componentry.Script

open Annotations (defaultOwner tableName)
open List

variable {name : String}

/-- The names that a declaration gives outside of patterns. -/
def DeclarationOutline.names : DeclarationOutline → List String
  | .class_ c => c.name.toList
  | .function name => name.toList
  | .variables vs => vs.filterMap (·.name)
  | .other => []

/-- A statement exports no default and does not declare the name for one. -/
def TopLevel.IsQuiet : TopLevel → Prop
  | .declaration d | .exported d => defaultOwner ∉ d.names
  | .names _ specs => ∀ spec ∈ specs, spec.2 ≠ "default"
  | .exportDefault _ _ => False
  | .other => True

/-- An anonymous default export, the statement that replaces it, and what the script ends with. -/
inductive Renames : Statement → Statement → List Statement → Prop
  /-- An object is bound to a constant, and this is exported. -/
  | object (a b c d e f g h : Span) (props : List Property) :
    Renames (.exportDefault a (.expr (.object b props)))
      (.variables c .const false [.mk d (.bind e defaultOwner) (some (.object f props))])
      [.exportDefault g (.expr (.ident h defaultOwner))]
  | class_ (a b c d e f : Span) (decorators : List Decorator) (parent : Option Expr)
      (isAbstract isDeclare : Bool) (members : List Member) :
    Renames
      (.exportDefault a (.class_ b (.mk none decorators parent isAbstract isDeclare c members)))
      (.exportDefault d (.class_ e
        (.mk (some defaultOwner) decorators parent isAbstract isDeclare f members))) []

/-- The constant that holds the annotations of a script. -/
def tableExport (a b c d : Span) (value : Expr) : Statement :=
  .exportDecl a (.variables b .const false [.mk c (.bind d tableName) (some value)])

/-- The shape of the default export of a script with the given statements. -/
def shapeOf (body : List Statement) : Shape := Outline.shape (body.map Statement.outline)

theorem Scope.shape_cons (scope : Scope) {other : String} (h : other ≠ name) (shape : Shape) :
    Scope.shape ((other, shape) :: scope) name = scope.shape name := by
  simp [Scope.shape, h]

theorem Scope.shape_declare {d : DeclarationOutline} (h : name ∉ d.names) (scope : Scope) :
    (scope.declare d).shape name = scope.shape name := by
  have hone : ∀ n : Option String, name ∉ n.toList →
      Scope.shape ((n.map fun n => (n, Shape.constructor)).toList ++ scope) name = scope.shape name := by
    rintro (_ | n) hn
    · rfl
    · exact shape_cons scope (fun he => hn (by simp [he])) _
  cases d with
  | class_ c => exact hone c.name h
  | function n => exact hone n h
  | other => rfl
  | _ vs =>
    rw [declare]
    clear hone
    induction vs generalizing scope with
    | nil => rfl
    | cons v vs ih =>
      simp only [DeclarationOutline.names, mem_filterMap, mem_cons, exists_eq_or_imp,
        not_or] at h ih
      rw [foldl_cons, ih _ h.2, Scope.variable]
      split
      next other hother => exact shape_cons scope (fun he => h.1 (by rw [hother, he])) _
      next => rfl

theorem ShapeSearch.foldl_spec {foreign : Bool} {specs : List (String × String)}
    (h : ∀ spec ∈ specs, spec.2 ≠ "default") (s : ShapeSearch) :
    specs.foldl (ShapeSearch.spec foreign) s = s := by
  induction specs with
  | nil => rfl
  | cons spec specs ih =>
    obtain ⟨hspec, hspecs⟩ := forall_mem_cons.mp h
    rw [foldl_cons, ShapeSearch.spec, if_pos (by simpa using hspec), ih hspecs]

/-- Quiet statements change neither the default export nor what its name stands for. -/
theorem ShapeSearch.foldl_quiet {o : Outline} (h : ∀ t ∈ o, t.IsQuiet) (s : ShapeSearch) :
    (o.foldl step s).name = s.name ∧ (o.foldl step s).shape = s.shape ∧
      (o.foldl step s).scope.shape defaultOwner = s.scope.shape defaultOwner := by
  induction o generalizing s with
  | nil => exact ⟨rfl, rfl, rfl⟩
  | cons t o ih =>
    obtain ⟨ht, ho⟩ := forall_mem_cons.mp h
    obtain ⟨hname, hshape, hscope⟩ := ih ho (s.step t)
    rw [foldl_cons, hname, hshape, hscope]
    cases t with
    | declaration d | exported d => exact ⟨rfl, rfl, Scope.shape_declare ht s.scope⟩
    | names foreign specs =>
      rw [step, foldl_spec ht]
      exact ⟨rfl, rfl, rfl⟩
    | exportDefault => cases ht
    | other => exact ⟨rfl, rfl, rfl⟩

theorem ShapeSearch.result_quiet {o : Outline} (h : ∀ t ∈ o, t.IsQuiet) {s : ShapeSearch}
    (hs : s.name = none) (shape : Shape) :
    (o.foldl step { s with shape := some shape }).result = shape := by
  obtain ⟨hname, hshape, -⟩ := foldl_quiet h { s with shape := some shape }
  rw [result, hname, hshape]
  simp only [hs]
  rfl

/-- Naming an anonymous default export and appending assignments and the table leaves the shape of the
export as it was. -/
theorem shapeOf_renamed {old new : Statement} {exports before after assignments : List Statement}
    (h : Renames old new exports) (hquiet : ∀ s ∈ before ++ after, s.outline.IsQuiet)
    (hassignments : ∀ s ∈ assignments, ∃ a e, s = .expr a e) (a b c d : Span) (table : Expr) :
    shapeOf (before ++ new :: (after ++ assignments ++ [tableExport a b c d table] ++ exports)) =
      shapeOf (before ++ old :: after) := by
  obtain ⟨hbefore, hafter⟩ := forall_mem_append.mp hquiet
  have hend : ∀ s ∈ after ++ assignments ++ [tableExport a b c d table], s.outline.IsQuiet := by
    refine forall_mem_append.mpr ⟨forall_mem_append.mpr ⟨hafter, fun s hs => ?_⟩, ?_⟩
    · obtain ⟨a, e, rfl⟩ := hassignments s hs
      trivial
    · exact forall_mem_singleton.mpr (show defaultOwner ∉ [tableName] by decide)
  have hname := (ShapeSearch.foldl_quiet (forall_mem_map.mpr hbefore) {}).1
  generalize after ++ assignments ++ [tableExport a b c d table] = rest at hend
  simp only [shapeOf, Outline.shape, map_append, map_cons, foldl_append, foldl_cons]
  generalize (before.map Statement.outline).foldl ShapeSearch.step {} = s at hname
  cases h with
  | object =>
    have hscope := (ShapeSearch.foldl_quiet (forall_mem_map.mpr hend)
      { s with scope := (defaultOwner, .options) :: s.scope }).2.2
    exact hscope.trans (ShapeSearch.result_quiet (forall_mem_map.mpr hafter) hname .options).symm
  | class_ =>
    have hnew := ShapeSearch.result_quiet (forall_mem_map.mpr hend) hname .constructor
    exact hnew.trans (ShapeSearch.result_quiet (forall_mem_map.mpr hafter) hname .constructor).symm

/-- An object between a class and a list of exported names. -/
theorem shapeOf_renamed_object : let s : Span := default
    let base := Statement.class_ s (.mk (some "Base") [] none false false s [])
    let names := Statement.exportNames s false [⟨⟨"Base", false⟩, ⟨"Parent", false⟩, false⟩] none none
    let object := Expr.object s []
    let assignment := Statement.expr s (.assign s "=" (.target (.member s
      (.member s (.ident s defaultOwner) "open" false) "__metadata" false)) (.array s []))
    (∀ t ∈ [base] ++ [names], t.outline.IsQuiet) ∧
      shapeOf [base, .exportDefault s (.expr object), names] = .options ∧
      shapeOf [base, .variables s .const false [.mk s (.bind s defaultOwner) (some object)], names,
        assignment, tableExport s s s s (.array s []),
        .exportDefault s (.expr (.ident s defaultOwner))] = .options := by
  intro s base names object assignment
  have hquiet : ∀ t ∈ [base] ++ [names], t.outline.IsQuiet := by
    refine forall_mem_cons.mpr ⟨show defaultOwner ∉ ["Base"] by decide, forall_mem_singleton.mpr ?_⟩
    exact forall_mem_singleton.mpr (show "Parent" ≠ "default" by decide)
  have hassignment : ∀ t ∈ [assignment], ∃ a e, t = Statement.expr a e :=
    forall_mem_singleton.mpr ⟨_, _, rfl⟩
  refine ⟨hquiet, by rfl, ?_⟩
  exact shapeOf_renamed (.object s s s s s s s s []) hquiet hassignment s s s s (.array s [])

end Componentry.Script
