import Componentry.Style.Region
import Mathlib.Data.List.Basic

/-!
# Two texts from all regions

Every region gives its text to one of two sides, and a region that does not compile gives the text it
holds and a finding. What a region gives depends on that region alone, so one that does not compile
takes nothing from the others.
-/

namespace Componentry.Style

open List Text

variable {compiler other : Compiler} {regions before after : List Region} {r : Region} {isGlobal : Bool}

variable (compiler)

/-- Why a region does not compile. -/
def fault? (r : Region) : Option String :=
  match r.dialect, compiler r with
  | .extended, .error message => some message
  | _, _ => none

/-- The text that a region gives: compiled, or as it stands if it is plain or does not compile. -/
def given (r : Region) : String :=
  match r.dialect, compiler r with
  | .extended, .ok css => css
  | _, _ => r.content

/-- The texts of one side, without those that are blank. -/
def side (isGlobal : Bool) (regions : List Region) : List String :=
  ((regions.filter (·.isGlobal == isGlobal)).map (given compiler)).filter fun css => !isBlankText css

theorem plainText_eq (index : Nat) (r : Region) :
    plainText compiler index r = (given compiler r, (fault? compiler r).map (failure index)) := by
  unfold plainText given fault?
  cases r.dialect with
  | plain => rfl
  | extended => cases compiler r <;> rfl

/-- What is collected from regions, side by side. -/
theorem collect_eq (regions : List Region) : collect compiler regions =
    { scopedCss := joined (side compiler false regions)
      globalCss := joined (side compiler true regions)
      diagnostics := regions.zipIdx.filterMap fun x => (fault? compiler x.1).map (failure x.2) } := by
  have hside (isGlobal : Bool) :
      (regions.zipIdx.map fun x => (x.1, plainText compiler x.2 x.1)).filterMap (fun x =>
        if x.1.isGlobal == isGlobal && !isBlankText x.2.1 then some x.2.1 else none) =
      side compiler isGlobal regions := by
    simp only [filterMap_map, plainText_eq, side, ← filterMap_eq_filter, filterMap_filterMap]
    conv_rhs => rw [← zipIdx_map_fst 0 regions, filterMap_map]
    refine filterMap_congr fun x _ => ?_
    by_cases hg : x.1.isGlobal = isGlobal <;> simp [hg, Option.guard]
  have hfaults : (regions.zipIdx.map fun x => (x.1, plainText compiler x.2 x.1)).filterMap (·.2.2) =
      regions.zipIdx.filterMap fun x => (fault? compiler x.1).map (failure x.2) := by
    simp only [filterMap_map, plainText_eq]
    rfl
  rw [← hside, ← hside, ← hfaults]
  rfl

theorem side_append (isGlobal : Bool) (before after : List Region) :
    side compiler isGlobal (before ++ after) =
      side compiler isGlobal before ++ side compiler isGlobal after := by
  simp [side]

variable {compiler}

theorem side_congr (h : ∀ r ∈ regions, other r = compiler r) (isGlobal : Bool) :
    side other isGlobal regions = side compiler isGlobal regions := by
  refine congrArg _ (map_congr_left fun r hr => ?_)
  rw [given, given, h r (mem_of_mem_filter hr)]

/-- The text of one side. -/
def Sheets.css (s : Sheets) (isGlobal : Bool) : Option String :=
  if isGlobal then s.globalCss else s.scopedCss

/-- Texts one a line, if there is any. -/
def lines? (texts : List String) : Option String :=
  if texts = [] then none else some ("\n".intercalate texts)

theorem css_collect (compiler : Compiler) (regions : List Region) (isGlobal : Bool) :
    (collect compiler regions).css isGlobal = lines? (side compiler isGlobal regions) := by
  have hjoined : ∀ texts, joined texts = lines? texts := by
    intro texts
    cases texts <;> rfl
  rw [collect_eq, ← hjoined]
  cases isGlobal <;> rfl

/-- The texts of either side are joined in order, with nothing if there are none, and each region that
does not compile is found, with its number. With a compiler that fails on one region its own text takes
the place of the compiled one, and what the others give stays as it is. -/
theorem collect_partitions (compiler : Compiler) (regions : List Region) :
    (∀ isGlobal, (collect compiler regions).css isGlobal = lines? (side compiler isGlobal regions)) ∧
    (collect compiler regions).diagnostics = (regions.zipIdx.filterMap fun x =>
      (fault? compiler x.1).map fun message => .on .style
        ("style compile error (region " ++ toString x.2 ++ "): " ++ message)) ∧
    ∀ before r after other message, regions = before ++ r :: after → other r = .error message →
      (∀ r ∈ before ++ after, other r = compiler r) → ∀ isGlobal,
        (collect other regions).css isGlobal = lines? (side compiler isGlobal before ++
          (if r.isGlobal = isGlobal ∧ ¬ isBlankText r.content then [r.content] else []) ++
          side compiler isGlobal after) := by
  refine ⟨css_collect compiler regions, congrArg Sheets.diagnostics (collect_eq compiler regions), ?_⟩
  intro before r after other message hregions hfault hothers isGlobal
  have hown : side other isGlobal [r] =
      if r.isGlobal = isGlobal ∧ ¬ isBlankText r.content then [r.content] else [] := by
    have hgiven : given other r = r.content := by
      unfold given
      rw [hfault]
      cases r.dialect <;> rfl
    by_cases hside : r.isGlobal = isGlobal <;> by_cases hblank : isBlankText r.content = true <;>
      simp [side, hside, hgiven, hblank]
  obtain ⟨hbefore, hafter⟩ := forall_mem_append.mp hothers
  rw [css_collect, hregions, ← singleton_append, side_append, side_append, side_congr hbefore,
    side_congr hafter, hown, append_assoc]

/-- Of three regions the second does not compile, and the last is blank. -/
theorem collect_partitions_second :
    let regions := [("a", false), ("b", false), (" ", true)].map fun x : String × Bool =>
      ({ content := x.1, attributes := .empty, isGlobal := x.2, dialect := .extended, line := 1 } : Region)
    let compiler : Compiler := fun r => if r.content = "b" then .error "no" else .ok r.content
    (collect compiler regions).scopedCss = some "a\nb" ∧ (collect compiler regions).globalCss = none ∧
      (collect compiler regions).diagnostics =
        [⟨"SFC-DIAG-STYLE", "style compile error (region 1): no"⟩] := by
  intro regions compiler
  have hcss := (collect_partitions (fun r => .ok r.content) regions).2.2 _ _ _ compiler "no"
    (show regions = [regions[0]] ++ regions[1] :: [regions[2]] from rfl) (by decide +kernel)
    (by decide +kernel)
  exact ⟨(hcss false).trans (by decide +kernel), (hcss true).trans (by decide +kernel),
    (collect_partitions compiler regions).2.1.trans (by decide +kernel)⟩

end Componentry.Style
