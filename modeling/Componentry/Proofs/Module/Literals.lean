import Componentry.Proofs.Annotations.Lexemes
import Componentry.Proofs.Module.TemplateLines
import Mathlib.Data.List.Chain

/-!
# Texts in generated code

Texts stand in generated code as template literals. The reader of scripts takes such a literal up to
the backtick that was written after the text, finds no substitution in it, and undoes the escapes:
what it gives is the text, in which carriage returns alone are read as line feeds. So the constants
with styles and template of a generated module have these as their values. The findings of a unit
stand in front of the code as comments, and each of these ends where it was written to end, whatever
its text.
-/

namespace Componentry

open Text Script
open List hiding splitOn

/-! ### Codes of characters -/

theorem Script.isHigh_toNat (c : Char) : isHigh c.toNat = false ∧ isLow c.toNat = false := by
  have hvalid : c.toNat < 0xD800 ∨ 0xDFFF < c.toNat ∧ c.toNat < 0x110000 := c.valid
  simp only [isHigh, isLow, Bool.and_eq_false_iff, decide_eq_false_iff_not]
  omega

theorem Script.joinPairs_map (s : List Char) : joinPairs (s.map Char.toNat) = s.map Char.toNat := by
  induction s with
  | nil => rw [map_nil, joinPairs]
  | cons c s ih =>
    cases s with
    | nil => rw [map_cons, map_nil, joinPairs]
    | cons d s =>
      rw [map_cons, map_cons, joinPairs, (isHigh_toNat c).1]
      simpa using ih

theorem Script.textOfCodes_map (s : List Char) :
    textOfCodes (s.map Char.toNat) = String.ofList s := by
  rw [textOfCodes, joinPairs_map, flatMap_map]
  induction s with
  | nil => rfl
  | cons c s ih => simp [isHigh_toNat]

/-! ### Reading an escaped text -/

/-- A text with line feeds for carriage returns, also for those in front of a line feed. -/
def Text.plainEnds : List Char → List Char
  | '\r' :: '\n' :: s => '\n' :: plainEnds s
  | '\r' :: s => '\n' :: plainEnds s
  | c :: s => c :: plainEnds s
  | [] => []

theorem Text.plainEnds_of_notMem {s : List Char} (h : '\r' ∉ s) : plainEnds s = s := by
  fun_induction plainEnds s with
  | case1 | case2 => exact absurd (.head _) h
  | case3 c s _ _ ih => rw [ih fun hs => h (mem_cons_of_mem c hs)]
  | case4 => rfl

namespace Module

theorem head?_of_head?_escapeTemplate {s : List Char} (rest : List Char) {c : Char} (hslash : c ≠ '\\')
    (htick : c ≠ '\x60') (h : (escapeTemplate s ++ '\x60' :: rest).head? = some c) :
    s.head? = some c := by
  cases s with
  | nil => exact absurd (Option.some.inj h).symm htick
  | cons d s =>
    rw [escapeTemplate_cons, escapeBefore] at h
    split at h
    · exact absurd (Option.some.inj h).symm hslash
    · exact h

theorem templateBody_escapeBefore {c : Char} (hc : c ≠ '\r') {s t : List Char}
    (ht : s.head? ≠ some '\x7b' → t.head? ≠ some '\x7b') (fuel taken : Nat) (codes : List Nat)
    (raw : List Char) :
    ∃ raw', templateBody (fuel + 1) (escapeBefore s c ++ t) (some codes) raw taken =
      templateBody fuel t (some (c.toNat :: codes)) raw'
        (taken + (escapeBefore s c).length) := by
  unfold escapeBefore
  split
  next h =>
    -- each of the three escapes stands for the character after the backslash
    rcases h with rfl | rfl | ⟨rfl, -⟩ <;> exact ⟨_, rfl⟩
  next h =>
    simp only [not_or, not_and] at h
    obtain ⟨hslash, htick, hdollar⟩ := h
    refine ⟨c :: raw, ?_⟩
    rw [singleton_append, templateBody.eq_8, if_neg (by simpa using hc)]
    · rfl
    · exact htick
    · rintro r rfl rfl
      exact ht (hdollar rfl) rfl
    · exact hslash
    · exact fun _ hr => absurd hr hc

theorem templateBody_escapeTemplate (s rest : List Char) (fuel : Nat)
    (hfuel : (escapeTemplate s).length ≤ fuel) (codes : List Nat) (raw : List Char) (taken : Nat) :
    ∃ raw', templateBody (fuel + 1) (escapeTemplate s ++ '\x60' :: rest) (some codes) raw taken =
      some (⟨some (textOfCodes (codes.reverse ++ (plainEnds s).map Char.toNat)), raw'⟩,
        taken + (escapeTemplate s).length + 1, true, rest) := by
  fun_induction plainEnds s generalizing fuel codes raw taken with
  | case1 s ih =>
    -- a carriage return and a line feed are read together
    have hwritten : escapeTemplate ('\r' :: '\n' :: s) = '\r' :: '\n' :: escapeTemplate s := rfl
    simp only [hwritten, length_cons] at hfuel ⊢
    obtain _ | fuel := fuel
    · omega
    obtain ⟨raw', hread⟩ := ih fuel (by omega) (10 :: codes) ('\n' :: raw) (taken + 2)
    rw [cons_append, cons_append, templateBody, Option.map_some, hread]
    simp [Nat.add_assoc, Nat.add_comm 2]
  | case2 s hs ih =>
    have hwritten : escapeTemplate ('\r' :: s) = '\r' :: escapeTemplate s := escapeTemplate_cons ..
    simp only [hwritten, length_cons] at hfuel ⊢
    obtain _ | fuel := fuel
    · omega
    obtain ⟨raw', hread⟩ := ih fuel (by omega) (10 :: codes) ('\n' :: raw) (taken + 1)
    refine ⟨raw', ?_⟩
    have hnext (r : List Char) : escapeTemplate s ++ '\x60' :: rest ≠ '\n' :: r := by
      intro hr
      have hhead : s.head? = some '\n' :=
        head?_of_head?_escapeTemplate rest (by decide) (by decide) (congrArg head? hr)
      obtain ⟨s', rfl⟩ := head?_eq_some_iff.mp hhead
      exact hs s' rfl
    rw [cons_append, templateBody.eq_8 _ _ _ _ _ _ (by decide) (by simp) (by decide)
      fun r _ => hnext r]
    exact hread.trans (by simp [Nat.add_assoc, Nat.add_comm 1])
  | case3 c s h1 h2 ih =>
    rw [escapeTemplate_cons] at hfuel ⊢
    have hpos : 0 < (escapeBefore s c).length := by
      unfold escapeBefore
      split <;> simp
    simp only [length_append] at hfuel ⊢
    obtain _ | fuel := fuel
    · omega
    obtain ⟨raw', hstep⟩ := templateBody_escapeBefore h2
      (mt (head?_of_head?_escapeTemplate rest (by decide) (by decide))) (fuel + 1) taken codes raw
    obtain ⟨raw'', hread⟩ := ih fuel (by omega) (c.toNat :: codes) raw'
      (taken + (escapeBefore s c).length)
    rw [append_assoc, hstep, hread]
    simp [Nat.add_assoc]
  | case4 => exact ⟨String.ofList raw.reverse, by simp [escapeTemplate, templateBody]⟩

/-- The literal of a text is one token without substitutions, whose value is the text with plain line
ends. -/
theorem tokenAt_escapeTemplate (s rest : List Char) :
    ∃ raw, tokenAt ('\x60' :: (escapeTemplate s ++ '\x60' :: rest)) =
      (.template ⟨some (String.ofList (plainEnds s)), raw⟩ true, (escapeTemplate s).length + 2,
        rest) := by
  obtain ⟨raw, hread⟩ := templateBody_escapeTemplate s rest
    (escapeTemplate s ++ '\x60' :: rest).length (by simp) [] [] 0
  refine ⟨raw, ?_⟩
  have hstretch : templateStretch (escapeTemplate s ++ '\x60' :: rest) =
      some (⟨some (String.ofList (plainEnds s)), raw⟩, (escapeTemplate s).length + 1, true, rest) := by
    rw [templateStretch, hread, reverse_nil, nil_append, textOfCodes_map, Nat.zero_add]
  simp only [tokenAt, hstretch]
  rfl

/-! ### Constants -/

/-- The value of a token that is a constant: nothing for `null`, and the text of a template without
substitutions. -/
def constant? : Token → Option (Option String)
  | .word "null" false => some none
  | .template q true => q.cooked.map some
  | _ => none

/-- Reads declarations of constants with these names, which follow one another: their values, and
what comes after them. -/
def constants? : List String → List Char → Option (List (Option String) × List Char)
  | [], code => some ([], code)
  | name :: names, code => do
    let token := tokenAt (← dropLead? ("const " ++ name ++ " = ").toList code)
    let value ← constant? token.1
    let (values, rest) ← constants? names (← dropLead? ";\n".toList token.2.2)
    return (value :: values, rest)

/-- The value of a constant that is written for a text, or for none. -/
def written (s : Option String) : Option String :=
  s.map fun s => String.ofList (plainEnds s.toList)

theorem constants?_cssConstant (name : String) (names : List String) (css : Option String)
    (rest : List Char) : constants? (name :: names) ((cssConstant name css).toList ++ rest) =
      (constants? names rest).map fun r => (written css :: r.1, r.2) := by
  have hvalue : ∃ t n, tokenAt (((css.map templateLiteral).getD "null").toList ++
      (";\n".toList ++ rest)) = (t, n, ";\n".toList ++ rest) ∧ constant? t = some (written css) := by
    cases css with
    | none => exact ⟨.word "null" false, 4, rfl, rfl⟩
    | some s =>
      obtain ⟨raw, hread⟩ := tokenAt_escapeTemplate s.toList (";\n".toList ++ rest)
      exact ⟨_, _, by simpa [templateLiteral] using hread, rfl⟩
  obtain ⟨t, n, htoken, hvalue⟩ := hvalue
  rw [cssConstant, String.toList_append, String.toList_append, append_assoc, append_assoc,
    constants?]
  simp only [Option.bind_eq_bind, Option.bind_some, htoken, hvalue, dropLead?_append]
  cases constants? names rest <;> rfl

theorem templateConstant_eq (p : Parts) :
    templateConstant p = cssConstant "__template" (some p.blocks.template) := rfl

/-- A template literal that is written for a text without carriage returns ends with the backtick
that is written after it, has no substitution, and its value is the text; line by line it is the
escaped text. So the constants of a generated module, read in order after the findings and imports,
have the styles and the template as their values, with line feeds where these have carriage
returns. -/
theorem constants_evaluate : (∀ s rest : List Char, '\r' ∉ s →
      ∃ raw, tokenAt ('\x60' :: (escapeTemplate s ++ '\x60' :: rest)) =
        (.template ⟨some (String.ofList s), raw⟩ true, (escapeTemplate s).length + 2, rest)) ∧
    (∀ s : List Char, splitOn '\n' (escapeTemplate s) = (splitOn '\n' s).map escapeTemplate) ∧
    (∀ s : String, '\r' ∉ s.toList → written (some s) = some s) ∧
    ∀ (options : Options) (p : Parts), let m := generate options p
      ∃ code, m.code.toList = (heading options p).toList ++ code ∧
        constants? ["__scopedCss", "__globalCss", "__template"] code =
          some ([written m.scopedCss, written m.globalCss, written (some m.template)],
            (closing p m.shape).toList) := by
  refine ⟨fun s rest hs => ?_, splitOn_escapeTemplate, fun s hs => ?_, fun options p => ?_⟩
  · have hread := tokenAt_escapeTemplate s rest
    rwa [plainEnds_of_notMem hs] at hread
  · rw [written, Option.map_some, plainEnds_of_notMem hs, String.ofList_toList]
  · refine ⟨_, by
      simp only [generate, opening, String.toList_append, append_assoc]
      rfl, ?_⟩
    rw [constants?_cssConstant, constants?_cssConstant, templateConstant_eq, constants?_cssConstant,
      constants?]
    simp [generate]

/-- Backslashes, dollar signs, braces and backticks in a row. -/
theorem constants_evaluate_crowded : '\r' ∉ "\\$$\x7b\x60\\\x60\n$\x7b".toList ∧
    ∃ raw, tokenAt "\x60\\\\$\\$\x7b\\\x60\\\\\\\x60\n\\$\x7b\x60;\x60".toList =
      (.template ⟨some "\\$$\x7b\x60\\\x60\n$\x7b", raw⟩ true, 18, ";\x60".toList) := by
  have hplain : '\r' ∉ "\\$$\x7b\x60\\\x60\n$\x7b".toList := by decide
  obtain ⟨raw, hread⟩ := constants_evaluate.1 _ ";\x60".toList hplain
  exact ⟨hplain, raw, hread⟩

/-! ### Findings as comments -/

/-- No closing mark of a comment occurs in a text: no slash follows a star. -/
def Unclosing (s : List Char) : Prop := s.IsChain fun a b => a = '*' → b ≠ '/'

theorem unclosing_iff {s : List Char} : Unclosing s ↔ ¬"*/".toList <:+: s := by
  rw [Unclosing, isChain_iff_forall_rel_of_append_cons_cons]
  constructor
  · rintro h ⟨a, b, rfl⟩
    exact h (append_assoc a _ b) rfl rfl
  · rintro h x y a b rfl rfl rfl
    exact h ⟨a, b, append_assoc a _ b⟩

/-- Breaking up the closing marks leaves none, and the first character as it is. -/
theorem unclosing_broken {fuel : Nat} {s : List Char} (h : s.length ≤ fuel) :
    Unclosing (replaceAll.go ['*', '/'] ['*', ' ', '/'] fuel s) ∧
      (replaceAll.go ['*', '/'] ['*', ' ', '/'] fuel s).head? = s.head? := by
  fun_induction replaceAll.go ['*', '/'] ['*', ' ', '/'] fuel s with
  | case1 s =>
    obtain rfl := length_eq_zero_iff.mp (Nat.le_zero.mp h)
    exact ⟨.nil, rfl⟩
  | case2 => exact ⟨.nil, rfl⟩
  | case3 fuel c cs rest hlead ih =>
    have hs := dropLead?_eq_some_iff.mp hlead
    rw [hs] at h ⊢
    have hrest := (ih (by simp at h; omega)).1
    unfold Unclosing at hrest ⊢
    simpa [isChain_cons] using hrest
  | case4 fuel c cs hlead ih =>
    obtain ⟨hcs, hhead⟩ := ih (Nat.le_of_succ_le_succ h)
    refine ⟨isChain_cons.mpr ⟨?_, hcs⟩, rfl⟩
    rintro y hy rfl rfl
    rw [hhead] at hy
    obtain ⟨r, rfl⟩ := head?_eq_some_iff.mp hy
    simp [dropLead?] at hlead

theorem exists_comment {d : Diagnostic} (h : ¬"*/".toList <:+: d.code.toList) : ∃ body,
    d.comment.toList = '/' :: '*' :: (body ++ ['*', '/']) ∧
      Unclosing ('/' :: '*' :: (body ++ ['*'])) := by
  have hcode := unclosing_iff.mpr h
  have hmessage := (unclosing_broken (Nat.le_refl d.message.toList.length)).1
  refine ⟨" [sfc] ".toList ++ (d.code.toList ++ (": ".toList ++
    (replaceAll "*/".toList "* /".toList d.message.toList ++ [' ']))), ?_, ?_⟩
  · simp [Diagnostic.comment]
  · unfold Unclosing at hcode hmessage ⊢
    simp [isChain_append, isChain_cons, replaceAll, hcode, hmessage]

/-- A comment written for a finding has its closing mark at its end and nowhere else, so its reader
passes just over it, whatever follows. The code of a module stands behind such comments, each on a
line of its own. -/
theorem comments_closed :
    (∀ d : Diagnostic, ¬"*/".toList <:+: d.code.toList → "*/".toList <:+ d.comment.toList ∧
      ¬"*/".toList <:+: d.comment.toList.dropLast ∧ ∀ rest, ∃ inner,
        d.comment.toList ++ rest = "/*".toList ++ inner ∧
          inner.drop (Annotations.blockLength inner) = rest) ∧
    ∀ (options : Options) (p : Parts), ∃ code, (generate options p).code =
      String.join (p.diagnostics.map fun d => d.comment ++ "\n") ++ ("import " ++ code) := by
  refine ⟨fun d hd => ?_, fun options p => ?_⟩
  · obtain ⟨body, hcomment, hclosed⟩ := exists_comment hd
    have hbody : ¬"*/".toList <:+: body := fun h => unclosing_iff.mp hclosed
      (h.trans ⟨['/', '*'], ['*'], rfl⟩)
    have hlast : d.comment.toList = '/' :: '*' :: (body ++ ['*']) ++ ['/'] := by simp [hcomment]
    refine ⟨⟨'/' :: '*' :: body, hcomment.symm⟩, ?_, fun rest => ?_⟩
    · rw [hlast, dropLast_concat]
      exact unclosing_iff.mp hclosed
    · refine ⟨body ++ '*' :: '/' :: rest, by simp [hcomment], ?_⟩
      rw [Annotations.blockLength_append hbody]
      simp
  · have himport : "import \x7b defineComponent, attachStyles \x7d from " =
        "import " ++ "\x7b defineComponent, attachStyles \x7d from " := by decide
    simp only [generate, opening, heading, himport, String.append_assoc]
    exact ⟨_, rfl⟩

/-- A finding whose text is made of stars and slashes. -/
def starry : Diagnostic := .on .style "/*/**/*//**"

theorem comments_closed_starry : ¬"*/".toList <:+: starry.code.toList ∧
    ¬"*/".toList <:+: starry.comment.toList.dropLast := by
  have hcode : ¬"*/".toList <:+: starry.code.toList := fun h =>
    absurd (h.subset (.head _)) (by decide)
  exact ⟨hcode, (comments_closed.1 starry hcode).2.1⟩

end Module

end Componentry
