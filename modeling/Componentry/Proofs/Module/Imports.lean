import Componentry.Module.Compile
import Componentry.Proofs.Json.ReadBack

/-!
# What a module says about other units

A module depends on an index only through the units it imports: those that its template uses and the
index knows, without the unit itself. The code lists them one a line, each as a quoted text, so two
modules of a unit are equal exactly if they import the same units.
-/

namespace Componentry.Module

def importLines (units : List String) : String :=
  String.join (units.map fun c => "import " ++ stringLiteral c ++ ";\n")

theorem importLines_injective {xs ys : List String} (h : importLines xs = importLines ys) :
    xs = ys := by
  have hlines : ∀ x xs, importLines (x :: xs) =
      "import " ++ (stringLiteral x ++ (";\n" ++ importLines xs)) := by
    intro x xs
    simp [importLines, List.map_cons, String.join_cons, String.append_assoc]
  have hne : ∀ x xs, importLines (x :: xs) ≠ "" := by
    intro x xs hempty
    rw [hlines] at hempty
    exact absurd (String.append_eq_empty_iff.mp hempty).1 (by decide)
  induction xs generalizing ys with
  | nil =>
    cases ys with
    | nil => rfl
    | cons y ys => exact absurd h.symm (hne y ys)
  | cons x xs ih =>
    cases ys with
    | nil => exact absurd h (hne x xs)
    | cons y ys =>
      rw [hlines, hlines, String.append_right_inj] at h
      -- reading the quoted text gives the unit and leaves the rest
      have hx := Json.stringAt_quote x (";\n" ++ importLines xs).toList
      have hy := Json.stringAt_quote y (";\n" ++ importLines ys).toList
      rw [← String.toList_append] at hx hy
      rw [stringLiteral, stringLiteral] at h
      rw [h, hy] at hx
      obtain ⟨hxy, hrest⟩ := Prod.mk.inj (Option.some.inj hx)
      rw [hxy, ih ((String.append_right_inj _).mp (String.toList_inj.mp hrest.symm))]

variable (o : Options)

theorem opening_around_imports (p : Parts) :
    ∃ before after, ∀ children, opening o { p with children } =
      before ++ importLines (children.filter (· != p.path)) ++ after := by
  refine ⟨String.join (p.diagnostics.map fun d => d.comment ++ "\n") ++
    "import \x7b defineComponent, attachStyles \x7d from " ++ stringLiteral o.runtimeModule ++ ";\n",
    cssConstant "__scopedCss" p.styles.scopedCss ++ cssConstant "__globalCss" p.styles.globalCss, ?_⟩
  intro children
  exact String.append_assoc ..

/-- Modules that differ at most in the units they use are equal exactly if they import the same
ones. -/
theorem generate_eq_iff (p : Parts) (xs ys : List String) :
    generate o { p with children := xs } = generate o { p with children := ys } ↔
      xs.filter (· != p.path) = ys.filter (· != p.path) := by
  obtain ⟨before, after, hopening⟩ := opening_around_imports o p
  constructor
  · intro h
    have hcode := congrArg Module.code h
    have hfront := (String.append_left_inj _).mp ((String.append_left_inj _).mp hcode)
    rw [hopening, hopening] at hfront
    exact importLines_injective ((String.append_right_inj _).mp ((String.append_left_inj _).mp hfront))
  · intro h
    have hfront : opening o { p with children := xs } = opening o { p with children := ys } := by
      rw [hopening, hopening, h]
    simp only [generate, lineMap, hfront]
    rfl

variable {o} {index : Option Index} {styles : Style.Compiler} {path source : String} {m : Module}

theorem compile_eq_ok_iff : compile o index styles path source = .ok m ↔
    ∃ extracted, Annotations.extract (Source.blocks o source).scriptText = some extracted ∧
      generate o (partsOf o index styles path source extracted) = m := by
  unfold compile
  generalize Annotations.extract (Source.blocks o source).scriptText = e
  cases e with
  | none => simp
  | some extracted => simp

theorem exists_of_isOk (h : (compile o index styles path source).isOk = true) :
    ∃ m, compile o index styles path source = .ok m := by
  generalize compile o index styles path source = result at h ⊢
  cases result with
  | error e => cases h
  | ok m => exact ⟨m, rfl⟩

/-- Whether a unit compiles depends on its script alone. -/
theorem exists_compile (h : compile o index styles path source = .ok m) (i : Option Index)
    (compiler : Style.Compiler) : ∃ m, compile o i compiler path source = .ok m := by
  obtain ⟨extracted, he, -⟩ := compile_eq_ok_iff.mp h
  exact ⟨_, compile_eq_ok_iff.mpr ⟨extracted, he, rfl⟩⟩

/-- The tag of a module: the one its script declares or, without a script, the one made from its
path. -/
theorem tag_compile (h : compile o index styles path source = .ok m) : m.tag =
      (Tag.declared? (Source.blocks o source).scriptText).or
        (if (Source.blocks o source).script.isNone then some (Tag.ofPath path) else none) := by
  obtain ⟨extracted, -, rfl⟩ := compile_eq_ok_iff.mp h
  have hblocks : (partsOf o index styles path source extracted).blocks = Source.blocks o source := rfl
  rw [generate, tagOf, hblocks]
  cases Tag.declared? (Source.blocks o source).scriptText <;> rfl

variable (o)

/-- The units that a module imports. -/
def imports (index : Index) (path source : String) : List String :=
  (childrenOf o (some index) (Source.blocks o source).template).filter (· != path)

/-- Two indexes give a unit one result exactly if it imports the same units, where it compiles. -/
theorem compile_eq_iff_imports (i j : Index) (styles : Style.Compiler) (path source : String) :
    compile o (some i) styles path source = compile o (some j) styles path source ↔
      ∀ m, compile o (some i) styles path source = .ok m →
        imports o i path source = imports o j path source := by
  unfold compile
  generalize Annotations.extract (Source.blocks o source).scriptText = e
  cases e with
  | none => simp
  | some extracted =>
    have hparts := generate_eq_iff o (partsOf o none styles path source extracted)
      (childrenOf o (some i) (Source.blocks o source).template)
      (childrenOf o (some j) (Source.blocks o source).template)
    simp only [Except.ok.injEq, forall_eq']
    exact hparts

end Componentry.Module
