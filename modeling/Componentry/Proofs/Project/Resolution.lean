import Componentry.Project.Index
import Componentry.Proofs.Keyed
import Mathlib.Data.List.Induction

/-!
# Which unit a tag stands for

An index lists its units under tags in the order they came. A tag stands for a unit if that is the only
one that declares it or, while none does, the only one named so. This asks how many units there are
under a tag and not which came first, so an index answers alike whatever the order was.
-/

namespace Componentry.Index

open List

variable {l l' : List (String × Option String)} {tag tag' path path' : String}

variable (l)

/-- The index of units given by their paths and the tags they declare. -/
def ofEntries : Index :=
  l.foldl (fun x e => x.insert e.1 e.2) {}

/-- The units that declare a tag. -/
def declaring (tag : String) : List String :=
  (l.filter fun e => e.2 == some tag).map (·.1)

/-- The units that declare none and whose file names make a tag. -/
def named (tag : String) : List String :=
  (l.filter fun e => e.2 == none && Tag.ofPath e.1 == tag).map (·.1)

variable {l}

theorem find?_addTo (d : Dictionary (List String)) (tag path other : String) :
    ((addTo d tag path).find? other).getD [] =
      (d.find? other).getD [] ++ if tag = other then [path] else [] := by
  rw [addTo, Dictionary.find?_insert]
  by_cases h : tag = other
  · simp [h]
  · simp [h, Ne.symm h]

/-- Each side of an index lists its units under their tags, in order. -/
theorem sides_ofEntries (l : List (String × Option String)) (tag : String) :
    ((ofEntries l).declared.find? tag).getD [] = declaring l tag ∧
      ((ofEntries l).byName.find? tag).getD [] = named l tag := by
  induction l using reverseRecOn with
  | nil => exact ⟨rfl, rfl⟩
  | append_singleton l e ih =>
    obtain ⟨path, own⟩ := e
    have hlast : ofEntries (l ++ [(path, own)]) = (ofEntries l).insert path own := foldl_concat ..
    rw [hlast]
    cases own with
    | none =>
      refine ⟨ih.1.trans (by simp [declaring]), ?_⟩
      rw [insert, find?_addTo, ih.2]
      by_cases h : Tag.ofPath path = tag <;> simp [named, h]
    | some own =>
      refine ⟨?_, ih.2.trans (by simp [named])⟩
      rw [insert, find?_addTo, ih.1]
      by_cases h : own = tag <;> simp [declaring, h]

theorem resolve_eq_some_iff {x : Index} : x.resolve tag = some path ↔ x.candidates tag = [path] := by
  unfold resolve
  split
  next only h => simp [h]
  next h =>
    constructor
    · intro he
      cases he
    · intro he
      exact absurd he (h path)

theorem resolve_ofEntries : (ofEntries l).resolve tag = some path ↔
    declaring l tag = [path] ∨ declaring l tag = [] ∧ named l tag = [path] := by
  obtain ⟨hdeclared, hnamed⟩ := sides_ofEntries l tag
  rw [resolve_eq_some_iff, candidates, hdeclared, hnamed]
  split
  next h => simp [h]
  next h =>
    constructor
    · exact .inl
    · rintro (he | ⟨he, -⟩)
      · exact he
      · exact absurd he h

theorem resolve_perm (h : l.Perm l') (tag : String) :
    (ofEntries l').resolve tag = (ofEntries l).resolve tag := by
  have hdeclaring : (declaring l tag).Perm (declaring l' tag) := (h.filter _).map _
  have hnamed : (named l tag).Perm (named l' tag) := (h.filter _).map _
  have hone : ∀ {m m' : List String} {p : String}, m.Perm m' → (m' = [p] ↔ m = [p]) := fun hm => by
    rw [← perm_singleton, ← perm_singleton, hm.congr_left]
  ext path
  rw [resolve_ofEntries, resolve_ofEntries, hone hdeclaring, hone hnamed, ← perm_nil, ← perm_nil,
    hdeclaring.congr_left]

/-- The entry of the unit that a tag stands for. -/
theorem mem_of_resolve (h : (ofEntries l).resolve tag = some path) :
    (path, some tag) ∈ l ∨ (path, none) ∈ l ∧ Tag.ofPath path = tag := by
  rcases resolve_ofEntries.mp h with h | ⟨-, h⟩
  · have hm : path ∈ declaring l tag := h ▸ mem_singleton_self path
    exact .inl (by simpa [declaring] using hm)
  · have hm : path ∈ named l tag := h ▸ mem_singleton_self path
    exact .inr (by simpa [named] using hm)

/-- A tag stands for a unit exactly if that is the only one that declares it, or none does and it is the
only one named so among those that declare none. So the order in which units come does not matter, and
of units that come once, in whatever sense paths are the same, no two tags stand for one. -/
theorem resolve_unambiguous (l : List (String × Option String)) :
    (∀ tag path, (ofEntries l).resolve tag = some path ↔
      declaring l tag = [path] ∨ declaring l tag = [] ∧ named l tag = [path]) ∧
    (∀ l', l.Perm l' → ∀ tag, (ofEntries l').resolve tag = (ofEntries l).resolve tag) ∧
    ∀ {κ : Type} (key : String → κ), Keyed (fun e => key e.1) l → ∀ tag tag' path path',
      (ofEntries l).resolve tag = some path → (ofEntries l).resolve tag' = some path' →
        key path = key path' → tag = tag' := by
  refine ⟨fun _ _ => resolve_ofEntries, fun _ => resolve_perm, ?_⟩
  intro κ key hkeyed tag tag' path path' h h' he
  rcases mem_of_resolve h with hm | ⟨hm, hname⟩ <;> rcases mem_of_resolve h' with hm' | ⟨hm', hname'⟩
  all_goals obtain ⟨hpath, hown⟩ := Prod.mk.inj (hkeyed.eq_of_mem hm hm' he)
  · exact Option.some.inj hown
  · cases hown
  · cases hown
  · rw [← hname, ← hname', hpath]

/-- Of two units named alike one declares a tag, so the name stands for the other. -/
theorem resolve_unambiguous_hidden :
    (ofEntries [("b/a-note.sfc", none), ("a-note.sfc", some "x-note")]).resolve "a-note" =
      some "b/a-note.sfc" ∧
    (ofEntries [("a-note.sfc", some "x-note"), ("b/a-note.sfc", none)]).resolve "a-note" =
      some "b/a-note.sfc" ∧
    ∀ tag, (ofEntries [("b/a-note.sfc", none), ("a-note.sfc", some "x-note")]).resolve tag =
      some "b/a-note.sfc" → tag = "a-note" := by
  obtain ⟨hiff, hperm, hone⟩ := resolve_unambiguous [("b/a-note.sfc", none), ("a-note.sfc", some "x-note")]
  have hfirst := (hiff "a-note" "b/a-note.sfc").mpr (by decide +kernel)
  have hkeyed : Keyed (fun e : String × Option String => Path.parts e.1)
      [("b/a-note.sfc", none), ("a-note.sfc", some "x-note")] := by
    unfold Keyed
    decide +kernel
  exact ⟨hfirst, (hperm _ (.swap ..) _).trans hfirst,
    fun tag h => hone Path.parts hkeyed tag _ _ _ h hfirst rfl⟩

end Componentry.Index
