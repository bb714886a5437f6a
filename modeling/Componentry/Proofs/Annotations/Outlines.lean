import Componentry.Proofs.Annotations.Application
import Mathlib.Data.List.Flatten

/-!
# Owners of an outline

An outline lists bodies of classes and objects. Each owner has one, and takes its annotations from the
markers in the gaps between members. Gaps that lie apart share no marker, so no annotation is blanked
out twice.
-/

namespace Componentry.Annotations

open Text Script List

/-- A body of members. -/
structure Body where
  start : Nat
  members : List MemberOutline
deriving DecidableEq, Repr

def Body.gaps (b : Body) : List (Span × MemberOutline) := Annotations.gaps (b.start + 1) b.members

/-- The places of a body in the order in which they are read. -/
def Body.places (b : Body) : List Nat :=
  b.start :: (b.start + 1) :: b.members.flatMap fun m => [m.at_.start, m.at_.stop]

def classBody (c : ClassOutline) : Body := ⟨c.bodyStart, c.members⟩

def objectBody (o : ObjectOutline) : Body := ⟨o.at_.start, o.members⟩

def variableBodies (v : VariableOutline) : List Body :=
  match v.name, v.value with
  | some _, some (.object o) => [objectBody o]
  | some _, some (.class_ c) => [classBody c]
  | _, _ => []

def declarationBodies : DeclarationOutline → List Body
  | .class_ c => match c.name with
    | some _ => [classBody c]
    | none => []
  | .variables vs => vs.flatMap variableBodies
  | _ => []

def bodies : TopLevel → List Body
  | .declaration d | .exported d => declarationBodies d
  | .exportDefault _ (.class_ c) => [classBody c]
  | .exportDefault _ (.value (.object o)) => [objectBody o]
  | _ => []

/-! ### Owners -/

variable (f : Finder)

def classOwner (name : String) (anonymous : Option Anonymous) (c : ClassOutline) : Owner :=
  ⟨name, .class_, anonymous, ((classBody c).gaps.map fun (gap, m) => classMember f gap m).filterMap
    fun
    | .inl m => some m
    | .inr _ => none⟩

def objectOwner (name : String) (anonymous : Option Anonymous) (o : ObjectOutline) : Owner :=
  ⟨name, .object, anonymous, (objectBody o).gaps.filterMap fun (gap, m) => objectMember? f gap m⟩

/-- Classes and objects that a variable holds under its name. -/
def variableHolders (v : VariableOutline) : List (String × (ClassOutline ⊕ ObjectOutline)) :=
  match v.name, v.value with
  | some name, some (.object o) => [(name, .inr o)]
  | some name, some (.class_ c) => [(name, .inl c)]
  | _, _ => []

def declarationHolders : DeclarationOutline → List (String × (ClassOutline ⊕ ObjectOutline))
  | .class_ c => match c.name with
    | some name => [(name, .inl c)]
    | none => []
  | .variables vs => vs.flatMap variableHolders
  | _ => []

def namedOwner (x : String × (ClassOutline ⊕ ObjectOutline)) : Owner :=
  x.2.elim (classOwner f x.1 none) (objectOwner f x.1 none)

def ownersIn (text : List Char) : TopLevel → List Owner
  | .declaration d | .exported d => (declarationHolders d).map (namedOwner f)
  | .exportDefault _ (.class_ c) => match c.name with
    | some name => [classOwner f name none c]
    | none =>
      [classOwner f defaultOwner (some (.class_ (f.place (classWordEnd text c.at_.start)))) c]
  | .exportDefault at_ (.value (.object o)) =>
    [objectOwner f defaultOwner (some (.object ⟨f.place at_.start, f.place o.at_.start⟩)) o]
  | _ => []

theorem addVariable_all (o : Owners) (v : VariableOutline) :
    (o.addVariable f v).all = o.all ++ (variableHolders v).map (namedOwner f) := by
  match v with
  | ⟨none, _⟩ | ⟨some _, none⟩ => exact (append_nil _).symm
  | ⟨some _, some v⟩ =>
    cases v with
    | object _ | class_ _ => rfl
    | function | name _ | wrapped _ | other => exact (append_nil _).symm

theorem addDeclaration_all (o : Owners) (d : DeclarationOutline) :
    (o.addDeclaration f d).all = o.all ++ (declarationHolders d).map (namedOwner f) := by
  match d with
  | .class_ c =>
    simp only [Owners.addDeclaration, declarationHolders]
    cases c.name with
    | none => simp
    | some name => rfl
  | .variables vs =>
    simp only [Owners.addDeclaration, declarationHolders]
    induction vs generalizing o with
    | nil => simp
    | cons v vs ih => rw [foldl_cons, ih, addVariable_all, flatMap_cons, map_append, append_assoc]
  | .function _ | .other => exact (append_nil _).symm

theorem add_all (text : List Char) (o : Owners) (t : TopLevel) :
    (o.add f text t).all = o.all ++ ownersIn f text t := by
  cases t with
  | declaration d | exported d => exact addDeclaration_all f o d
  | names foreign specs =>
    simp only [Owners.add, ownersIn, append_nil]
    split
    · rfl
    · split <;> rfl
  | exportDefault at_ d =>
    cases d with
    | class_ c =>
      simp only [Owners.add, ownersIn]
      cases c.name <;> rfl
    | value v =>
      cases v with
      | object _ => rfl
      | class_ _ | function | name _ | wrapped _ | other => exact (append_nil _).symm
    | function | type => exact (append_nil _).symm
  | other => exact (append_nil _).symm

theorem ownersOf_all (text : List Char) (outline : Outline) :
    (ownersOf f text outline).all = outline.flatMap (ownersIn f text) := by
  have hfold (o : Owners) :
      (outline.foldl (Owners.add f text) o).all = o.all ++ outline.flatMap (ownersIn f text) := by
    induction outline generalizing o with
    | nil => simp
    | cons t ts ih => rw [foldl_cons, ih, add_all, flatMap_cons, append_assoc]
  exact hfold {}

/-! ### Annotations of owners -/

/-- A member that can carry annotations: a function under a name. -/
def carries (m : MemberOutline) : Bool :=
  m.name.isSome && (m.role == .method || m.role == .functionField)

/-- The annotations of the members of a body, from the markers in its gaps. -/
def Body.found (placed : List Placed) (b : Body) : List (List Found) :=
  b.gaps.filterMap fun x => if carries x.2 then some (markersIn placed x.1) else none

def Body.annotated (placed : List Placed) (b : Body) : Bool :=
  (b.found placed).any fun found => !found.isEmpty

section Found

variable {script marked : List Char} {placed : List Placed}

theorem classOwner_found (name : String) (anonymous : Option Anonymous) (c : ClassOutline) :
    (classOwner (markerFinder script marked placed) name anonymous c).methods.map (·.annotations) =
      (classBody c).found placed := by
  rw [classOwner, map_filterMap, filterMap_map]
  refine filterMap_congr fun ⟨gap, _, name, _, role, _⟩ _ => ?_
  cases role <;> cases name <;> rfl

theorem objectOwner_found (name : String) (anonymous : Option Anonymous) (o : ObjectOutline) :
    (objectOwner (markerFinder script marked placed) name anonymous o).methods.map (·.annotations) =
      (objectBody o).found placed := by
  rw [objectOwner, map_filterMap]
  refine filterMap_congr fun ⟨gap, _, name, _, role, _⟩ _ => ?_
  cases role <;> cases name <;> rfl

theorem variableBodies_eq (v : VariableOutline) :
    variableBodies v = (variableHolders v).map (·.2.elim classBody objectBody) := by
  match v with
  | ⟨none, _⟩ | ⟨some _, none⟩ => rfl
  | ⟨some name, some v⟩ => cases v <;> rfl

theorem declarationBodies_eq (d : DeclarationOutline) :
    declarationBodies d = (declarationHolders d).map (·.2.elim classBody objectBody) := by
  match d with
  | .class_ c =>
    simp only [declarationBodies, declarationHolders]
    cases c.name <;> rfl
  | .variables vs => rw [declarationBodies, funext variableBodies_eq, declarationHolders, map_flatMap]
  | .function _ | .other => rfl

theorem ownersIn_found (text : List Char) (t : TopLevel) :
    (ownersIn (markerFinder script marked placed) text t).map (·.methods.map (·.annotations)) =
      (bodies t).map (Body.found placed) := by
  cases t with
  | declaration d | exported d =>
    simp only [ownersIn, bodies, declarationBodies_eq, map_map]
    refine map_congr_left fun ⟨name, holder⟩ _ => ?_
    cases holder with
    | inl c => exact classOwner_found name none c
    | inr o => exact objectOwner_found name none o
  | names foreign specs => rfl
  | exportDefault at_ d =>
    cases d with
    | class_ c =>
      simp only [ownersIn]
      cases c.name with
      | none => exact congrArg (fun l => [l]) (classOwner_found _ _ c)
      | some name => exact congrArg (fun l => [l]) (classOwner_found name none c)
    | value v =>
      cases v with
      | object o => exact congrArg (fun l => [l]) (objectOwner_found _ _ o)
      | class_ _ | function | name _ | wrapped _ | other => rfl
    | function | type => rfl
  | other => rfl

theorem isAnnotated_eq {o : Owner} {b : Body} (h : o.methods.map (·.annotations) = b.found placed) :
    o.isAnnotated = b.annotated placed := by
  rw [Body.annotated, ← h, any_map]
  rfl

/-! ### Each annotation is blanked out once -/

def inside (placed : List Placed) (gap : Span) : List Placed :=
  placed.filter fun p => gap.start ≤ p.at_.start && p.at_.stop ≤ gap.stop

def gapsOf (outline : Outline) : List Span :=
  outline.flatMap fun t => (bodies t).flatMap fun b => b.gaps.map (·.1)

theorem found_sublist (l : List Placed) :
    ((l.filterMap foundMarker).map (·.at_)).Sublist (l.map (·.occurrence.at_)) := by
  induction l with
  | nil => exact Sublist.slnil
  | cons p l ih =>
    cases hp : foundMarker p with
    | none =>
      rw [filterMap_cons_none hp]
      exact ih.cons _
    | some f =>
      have hat : f.at_ = p.occurrence.at_ := by
        obtain ⟨x, -, rfl⟩ := Option.map_eq_some_iff.mp hp
        rfl
      rw [filterMap_cons_some hp, map_cons, hat]
      exact ih.cons_cons _

theorem Body.found_sublist (b : Body) : ((b.found placed).flatMap fun l => l.map (·.at_)).Sublist
      ((b.gaps.map (·.1)).flatMap fun g => (inside placed g).map (·.occurrence.at_)) := by
  rw [Body.found]
  induction b.gaps with
  | nil => exact Sublist.slnil
  | cons x l ih =>
    by_cases hx : carries x.2
    · simp only [filterMap_cons, hx]
      exact (Annotations.found_sublist _).append ih
    · simp only [filterMap_cons, hx]
      exact ih.trans (sublist_append_right _ _)

variable (script marked placed) in
theorem spans_sublist (text : List Char) (outline : Outline) :
    ((ownersOf (markerFinder script marked placed) text outline).all.flatMap
      fun o => o.methods.flatMap fun m => m.annotations.map (·.at_)).Sublist
        (((gapsOf outline).flatMap (inside placed)).map (·.occurrence.at_)) := by
  have hone (t : TopLevel) :
      ((ownersIn (markerFinder script marked placed) text t).flatMap
        fun o => o.methods.flatMap fun m => m.annotations.map (·.at_)) =
          (bodies t).flatMap fun b => (b.found placed).flatMap fun l => l.map (·.at_) := by
    have hfound : (ownersIn (markerFinder script marked placed) text t).map
        (·.methods.map (·.annotations)) = (bodies t).map (Body.found placed) := ownersIn_found text t
    have := congrArg (fun l => l.flatMap fun found => found.flatMap fun l => l.map (·.at_)) hfound
    simpa [flatMap_map] using this
  rw [ownersOf_all, gapsOf, map_flatMap, flatMap_assoc, flatMap_assoc]
  refine Sublist.flatMap_right _ fun t _ => ?_
  rw [hone, flatMap_assoc]
  exact Sublist.flatMap_right _ fun b _ => b.found_sublist

/-- Two ranges lie apart. -/
def Span.Apart (g h : Span) : Prop := g.stop ≤ h.start ∨ h.stop ≤ g.start

theorem nodup_inside {gs : List Segment} {gaps : List Span} (hgaps : gaps.Pairwise Span.Apart) :
    (gaps.flatMap (inside (placedIn 0 gs))).Nodup := by
  have hplaced : (placedIn 0 gs).Nodup := by
    refine (pairwise_placedIn 0 gs).imp_of_mem fun {m m'} hm _ h => ?_
    rintro rfl
    have := mem_placedIn hm
    omega
  refine nodup_flatMap.mpr ⟨fun g _ => hplaced.filter _, hgaps.imp fun {g h} hgh => ?_⟩
  intro m hm hm'
  obtain ⟨hmem, hg⟩ := mem_filter.mp hm
  obtain ⟨-, hh⟩ := mem_filter.mp hm'
  have := mem_placedIn hmem
  simp only [Bool.and_eq_true, decide_eq_true_eq] at hg hh
  rcases hgh with hgh | hgh <;> omega

theorem placedIn_occurrence (p : Nat) (gs : List Segment) :
    (placedIn p gs).map (·.occurrence) = notesOf gs := by
  induction gs generalizing p with
  | nil => rfl
  | cons g gs ih =>
    cases g with
    | plain c => exact ih _
    | note o text => exact congrArg (o :: ·) (ih _)

theorem foldl_removals (own : List Span) {extra : List Span} (h : (extra.map (·.start)).Nodup) :
    extra.foldl (fun acc s => if acc.any fun r => r.start == s.start then acc else acc ++ [s]) own =
      own ++ extra.filter fun s => !own.any fun r => r.start == s.start := by
  induction extra generalizing own with
  | nil => simp
  | cons s extra ih =>
    obtain ⟨hs, h⟩ := nodup_cons.mp h
    rw [foldl_cons]
    by_cases hany : own.any fun r => r.start == s.start
    · rw [if_pos hany, ih own h, filter_cons_of_neg (by simp [hany])]
    · rw [if_neg hany, ih _ h, filter_cons_of_pos (by simp [hany]), append_assoc]
      refine congrArg (fun l => own ++ s :: l) (filter_congr fun t ht => ?_)
      have hne : s.start ≠ t.start := fun heq =>
        hs (mem_map.mpr ⟨t, ht, heq.symm⟩)
      simp [hne]

/-- Annotations from the markers of segments. -/
def finderOf (gs : List Segment) : Finder :=
  markerFinder (sourceOf gs) (markedOf gs) (placedIn 0 gs)

section Standing

variable {gs : List Segment} (hs : Standing 0 gs) {outline : Outline}

include hs

theorem Standing.nodup_starts : (((notesOf gs).map (·.at_)).map (·.start)).Nodup := by
  obtain ⟨hall, hpair⟩ := hs.spread.pairwise
  rw [map_map]
  refine pairwise_map.mpr (hpair.imp_of_mem fun {o o'} ho _ hle => ?_)
  have := hall o ho
  simp only [Function.comp]
  omega

theorem Standing.nodup_spans (hgaps : (gapsOf outline).Pairwise Span.Apart) (text : List Char) :
    ((ownersOf (finderOf gs) text outline).all.flatMap
      fun o => o.methods.flatMap fun m => m.annotations.map (·.at_)).Nodup := by
  refine Nodup.sublist (spans_sublist _ _ _ text outline)
    ((nodup_inside hgaps).map_on fun m hm m' hm' heq => ?_)
  obtain ⟨g, -, hm⟩ := mem_flatMap.mp hm
  obtain ⟨g', -, hm'⟩ := mem_flatMap.mp hm'
  have hspans := hs.nodup_starts.of_map
  rw [← placedIn_occurrence 0 gs, map_map] at hspans
  exact inj_on_of_nodup_map hspans (mem_of_mem_filter hm) (mem_of_mem_filter hm') heq

theorem removals_perm (hgaps : (gapsOf outline).Pairwise Span.Apart) (text : List Char) :
    (removals ((ownersOf (finderOf gs) text outline).all.filter Owner.isAnnotated)
      ((notesOf gs).map (·.at_))).Perm ((notesOf gs).map (·.at_)) := by
  have hstarts := hs.nodup_starts
  have hspans := hstarts.of_map _
  have hfew := (filter_sublist (p := Owner.isAnnotated)
    (l := (ownersOf (finderOf gs) text outline).all)).flatMap
      fun o => o.methods.flatMap fun m => m.annotations.map (·.at_)
  have hown := (hs.nodup_spans hgaps text).sublist hfew
  have hsub := hfew.trans (spans_sublist (sourceOf gs) (markedOf gs) (placedIn 0 gs) text outline)
  rw [removals]
  generalize (((ownersOf (finderOf gs) text outline).all.filter
    Owner.isAnnotated).flatMap fun o => o.methods.flatMap fun m => m.annotations.map (·.at_)) = own at *
  have hmem : ∀ s ∈ own, s ∈ (notesOf gs).map (·.at_) := by
    intro s hs
    obtain ⟨m, hm, rfl⟩ := mem_map.mp (hsub.mem hs)
    obtain ⟨g, -, hm⟩ := mem_flatMap.mp hm
    rw [← placedIn_occurrence 0 gs, map_map]
    exact mem_map_of_mem (mem_of_mem_filter hm)
  rw [foldl_removals own hstarts]
  -- what is taken out of the spans is what was put in front of them
  have hrest : (((notesOf gs).map (·.at_)).filter fun s => !own.any fun r => r.start == s.start) =
      ((notesOf gs).map (·.at_)).diff own := by
    rw [hspans.sdiff_eq_filter]
    refine filter_congr fun s hs => ?_
    rw [Bool.eq_iff_iff, Bool.not_eq_true', any_eq_false, decide_eq_true_eq]
    refine ⟨fun h hin => h s hin (beq_self_eq_true _), fun h r hr heq => h ?_⟩
    rwa [← inj_on_of_nodup_map hstarts (hmem r hr) hs (eq_of_beq heq)]
  rw [hrest]
  exact subperm_append_diff_self_of_count_le fun s _ => (subperm_of_subset hown hmem).count_le s

end Standing

end Found

end Componentry.Annotations
