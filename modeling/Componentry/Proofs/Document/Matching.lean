import Componentry.Document.Selector
import Componentry.Proofs.Document.Upkeep
import Mathlib.Logic.Relation

/-!
# What selectors select

A chain selects a node if elements can be found for all its compounds, each of which passes the tests of
its compound and stands to the next one as the combinator between them says. The search goes from the
node outwards and tries every ancestor that a combinator allows, so it finds such elements wherever there
are any. What is found below a node are the selected descendants, each once and in the order of the tree.
-/

namespace Componentry.Document

namespace Selector

variable {f : Forest} {documents : Bool} {d e n : NodeId} {x : Compound} {z : Complex}

/-- An element passes the tests of a compound. -/
def Satisfies (f : Forest) (e : NodeId) (x : Compound) : Prop :=
  ∃ tag attributes, f.kind e = .element tag attributes ∧ (∀ t ∈ x.tag, t = tag) ∧
    (∀ i ∈ x.id, attributes.find? "id" = some i) ∧ (∀ c ∈ x.classes, c ∈ classesOf attributes) ∧
    ∀ test ∈ x.attributes, ∃ value, attributes.find? test.1 = some value ∧ ∀ v ∈ test.2, v = value

def ElementParent (f : Forest) (e n : NodeId) : Prop := f.parent n = some e ∧ f.isElement e = true

/-- How the element before a combinator stands to the one after it. -/
def Stands (f : Forest) : Combinator → NodeId → NodeId → Prop
  | .child => ElementParent f
  | .descendant => Relation.TransGen (ElementParent f)

/-- A chain selects a node: it has elements, counted from the node outwards, that pass the tests of its
compounds and stand to each other as its combinators say. -/
def Selects (f : Forest) (z : Complex) (d : NodeId) : Prop :=
  ∃ e : Nat → NodeId, e 0 = d ∧ Satisfies f (e 0) z.subject ∧
    ∀ i k x, z.context[i]? = some (k, x) → Satisfies f (e (i + 1)) x ∧ Stands f k (e (i + 1)) (e i)

theorem satisfies_iff : satisfies f e x = true ↔ Satisfies f e x := by
  unfold satisfies Satisfies
  split
  next tag attributes hk =>
    have hall : ∀ {o : Option String} {p : String → Bool}, o.all p = true ↔ ∀ y ∈ o, p y = true := by
      intro o p
      cases o <;> simp
    simp only [hk, Kind.element.injEq, Bool.and_eq_true, and_assoc, List.all_eq_true, hall, beq_iff_eq,
      List.contains_iff_mem, exists_and_left, exists_eq_left']
    refine and_congr_right fun _ => and_congr_right fun _ => and_congr_right fun _ =>
      forall₂_congr fun test _ => ?_
    cases attributes.find? test.1 <;> simp [hall]
  next hk =>
    refine iff_of_false nofun ?_
    rintro ⟨tag, attributes, he, -⟩
    exact hk tag attributes he

theorem elementParent?_eq_some : elementParent? f n = some e ↔ ElementParent f e n :=
  Option.filter_eq_some_iff

theorem mem_elementAncestors (hf : f.WellFormed documents) :
    e ∈ elementAncestors f n ↔ Relation.TransGen (ElementParent f) e n := by
  have hup : ∀ {length n}, e ∈ elementAncestorsUpTo f length n →
      Relation.TransGen (ElementParent f) e n := by
    intro length
    induction length with
    | zero => exact fun h => absurd h List.not_mem_nil
    | succ length ih =>
      intro n h
      rw [elementAncestorsUpTo] at h
      split at h
      next p hp =>
        have hp := elementParent?_eq_some.mp hp
        rcases List.mem_cons.mp h with rfl | h
        · exact .single hp
        · exact .tail (ih h) hp
      next => exact absurd h List.not_mem_nil
  -- The number of steps up to an ancestor bounds how far has to be looked.
  have hsteps : Relation.TransGen (ElementParent f) e n → ∃ k, f.ascend (k + 1) n = some e ∧
      ∀ length, k < length → e ∈ elementAncestorsUpTo f length n := by
    intro h
    induction h with
    | single hp =>
      refine ⟨0, by simp [Forest.ascend, hf.composedParent_of_parent hp.1], fun length hl => ?_⟩
      obtain ⟨length, rfl⟩ := Nat.exists_eq_add_of_lt hl
      simp [elementAncestorsUpTo, elementParent?_eq_some.mpr hp]
    | @tail p n _ hp ih =>
      obtain ⟨k, hk, hmem⟩ := ih
      refine ⟨k + 1, ?_, fun length hl => ?_⟩
      · rw [Forest.ascend, hf.composedParent_of_parent hp.1]
        exact hk
      · cases length with
        | zero => exact absurd hl (Nat.not_lt_zero _)
        | succ length =>
          rw [elementAncestorsUpTo, elementParent?_eq_some.mpr hp]
          exact List.mem_cons_of_mem _ (hmem length (Nat.lt_of_succ_lt_succ hl))
  refine ⟨hup, fun h => ?_⟩
  obtain ⟨k, hk, hmem⟩ := hsteps h
  exact hmem _ (Nat.lt_of_succ_lt (hf.steps_lt_size (Forest.lt_size_of_ascend hk) hk))

theorem matchesChain_iff (hf : f.WellFormed documents) (context : List (Combinator × Compound)) :
    matchesChain f x context d = true ↔ Selects f ⟨x, context⟩ d := by
  induction context generalizing x d with
  | nil =>
    rw [matchesChain, satisfies_iff]
    constructor
    · exact fun h => ⟨fun _ => d, rfl, h, nofun⟩
    · rintro ⟨e, rfl, h, -⟩
      exact h
  | cons link context ih =>
    obtain ⟨k, outer⟩ := link
    have hstep : matchesChain f x ((k, outer) :: context) d = true ↔
        Satisfies f d x ∧ ∃ e, Stands f k e d ∧ matchesChain f outer context e = true := by
      cases k with
      | child =>
        rw [matchesChain, Bool.and_eq_true, satisfies_iff, Option.any_eq_true]
        simp only [elementParent?_eq_some]
        rfl
      | descendant =>
        rw [matchesChain, Bool.and_eq_true, satisfies_iff, List.any_eq_true]
        simp only [mem_elementAncestors hf]
        rfl
    rw [hstep]
    constructor
    · rintro ⟨hx, e, hs, hm⟩
      obtain ⟨es, rfl, houter, hrest⟩ := ih.mp hm
      refine ⟨fun i => i.casesOn d es, rfl, hx, fun i => ?_⟩
      cases i with
      | zero =>
        rintro k x ⟨⟩
        exact ⟨houter, hs⟩
      | succ i => exact hrest i
    · rintro ⟨es, rfl, hx, hrest⟩
      obtain ⟨houter, hs⟩ := hrest 0 k outer rfl
      exact ⟨hx, es 1, hs, ih.mpr ⟨fun i => es (i + 1), rfl, houter, fun i => hrest (i + 1)⟩⟩

end Selector

namespace Forest

open Selector

variable {f : Forest} {documents : Bool}

/-- What is found below a node are the descendants that a chain of the selector selects, each once and in
the order of the tree: nodes come before what is below them, and all that before the next child. -/
theorem queryAll_selects (hf : f.WellFormed documents) (root : NodeId) {text : String}
    {selector : Selector} (hp : Selector.parse text = .ok selector) :
    ∃ found, f.queryAll root text = .ok found ∧ found.Sublist (f.descendants root) ∧ found.Nodup ∧
      (∀ d, d ∈ found ↔ (∃ k, f.rise (k + 1) d = some root) ∧ ∃ z ∈ selector, Selects f z d) ∧
      ∀ r, f.descendants r = (f.children r).flatMap fun c => c :: f.descendants c := by
  have hmatch : ∀ d, selector.isMatch f d = true ↔ ∃ z ∈ selector, Selects f z d := by
    intro d
    simp [isMatch, matchesChain_iff hf]
  refine ⟨(f.descendants root).filter (selector.isMatch f), ?_, List.filter_sublist,
    (hf.nodup_below _ root).filter _, fun d => ?_, hf.descendants_eq⟩
  · rw [queryAll, hp]
    rfl
  · rw [List.mem_filter, hf.mem_descendants_iff, hmatch]

def menu : List Op :=
  [.createDocument, .createElement "nav", .createElement "ul", .createElement "ul", .createElement "li",
    .append 3 4, .append 2 3, .append 1 2, .append 0 1]

theorem reachable_menu : Reachable (menu.foldl perform {}) := by
  have hmade := ((((Reachable.empty.step .createDocument trivial).step (.createElement "nav")
    trivial).step (.createElement "ul") trivial).step (.createElement "ul") trivial).step
    (.createElement "li") trivial
  have hitem := hmade.hang 3 4 (by decide)
  have hinner := hitem.hang 2 3 (by decide)
  have houter := hinner.hang 1 2 (by decide)
  exact houter.hang 0 1 (by decide)

/-- The list that is nearest to the item is no child of the navigation, but the one around it is. -/
theorem queryAll_selects_menu : (menu.foldl perform {}).queryAll 0 "nav > ul li" = .ok [4] ∧
    Selects (menu.foldl perform {}) ⟨{ tag := some "li" },
      [(.descendant, { tag := some "ul" }), (.child, { tag := some "nav" })]⟩ 4 := by
  have hp : Selector.parse "nav > ul li" = .ok [⟨{ tag := some "li" },
      [(.descendant, { tag := some "ul" }), (.child, { tag := some "nav" })]⟩] := by
    decide +kernel
  have hquery : (menu.foldl perform {}).queryAll 0 "nav > ul li" = .ok [4] := by
    decide +kernel
  obtain ⟨found, hfound, -, -, hmem, -⟩ := queryAll_selects reachable_menu.wellFormed 0 hp
  cases hfound.symm.trans hquery
  obtain ⟨-, z, hz, hs⟩ := (hmem 4).mp List.mem_cons_self
  exact ⟨hquery, List.mem_singleton.mp hz ▸ hs⟩

end Forest

end Componentry.Document
