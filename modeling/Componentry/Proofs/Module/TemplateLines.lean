import Componentry.Proofs.Module.Imports
import Componentry.Proofs.Module.Mappings
import Componentry.Proofs.Source.Regions

/-!
# Where the lines of a template come from

The template of a unit stands in the code as one constant, line for line. Escaping works on each line
alone, everything in front of the constant ends with its line, and trimming moves the first line of
the template by the line feeds it takes away. So the line map of a module, read back, names for each
line of the constant the line of the unit that its text stands on.
-/

namespace Componentry

open Text
open List hiding splitOn

def Text.line? (s : List Char) : Nat → Option (List Char)
  | 0 => none
  | k + 1 => (splitOn '\n' s)[k]?

namespace Module

/-! ### Escaping -/

/-- A character in a template literal, before the text `rest`. -/
def escapeBefore (rest : List Char) (c : Char) : List Char :=
  if c = '\\' ∨ c = '\x60' ∨ (c = '$' ∧ rest.head? = some '\x7b') then ['\\', c] else [c]

theorem escapeTemplate_cons (c : Char) (s : List Char) :
    escapeTemplate (c :: s) = escapeBefore s c ++ escapeTemplate s := by
  unfold escapeBefore
  split
  next h =>
    rcases h with rfl | rfl | ⟨rfl, hs⟩
    · rfl
    · rfl
    · obtain ⟨rest, rfl⟩ := head?_eq_some_iff.mp hs
      rfl
  next h =>
    simp only [not_or, not_and] at h
    obtain ⟨hslash, htick, hdollar⟩ := h
    rw [escapeTemplate.eq_5 c s hslash htick]
    · rfl
    · rintro rest rfl rfl
      exact hdollar rfl rfl

theorem notMem_escapeBefore {c : Char} (hc : c ≠ '\n') (s : List Char) : '\n' ∉ escapeBefore s c := by
  unfold escapeBefore
  split <;> simp [hc.symm]

theorem splitOn_escapeTemplate (s : List Char) :
    splitOn '\n' (escapeTemplate s) = (splitOn '\n' s).map escapeTemplate := by
  induction s with
  | nil => rfl
  | cons c s ih =>
    rw [escapeTemplate_cons]
    by_cases hc : c = '\n'
    · subst hc
      simp [escapeBefore, splitOn, ih, escapeTemplate]
    · obtain ⟨first, rest, hs⟩ := exists_splitOn_cons '\n' s
      rw [hs] at ih
      -- an opening of a substitution lies within one line
      have hbefore : escapeBefore s c = escapeBefore first c := by
        have hhead := head?_eq_iff_of_splitOn hs (by decide : '\x7b' ≠ '\n')
        simp [escapeBefore, hhead]
      rw [splitOn_append_of_notMem (notMem_escapeBefore hc s) ih, splitOn,
        if_neg (by simpa using hc), hs, hbefore, ← escapeTemplate_cons]
      rfl

/-! ### The constant in the code -/

variable {options : Options} {p : Parts} {line : List Char} {source : String}

/-- What stands in front of the template constant ends with its line. -/
theorem exists_splitOn_opening (options : Options) (p : Parts) :
    ∃ lines, splitOn '\n' (opening options p).toList = lines ++ [[]] := by
  obtain ⟨before, hbefore⟩ : ∃ before, (opening options p).toList = before ++ ['\n'] := by
    have hend : (";\n" : String).toList = [';'] ++ ['\n'] := rfl
    simp only [opening, cssConstant, String.toList_append, hend, ← append_assoc]
    exact ⟨_, rfl⟩
  obtain ⟨init, last, hlines⟩ := exists_splitOn_concat '\n' before
  have hfeed : splitOn '\n' ['\n'] = [] :: [[]] := rfl
  refine ⟨init ++ [last], ?_⟩
  rw [hbefore, splitOn_append hlines hfeed, append_nil, append_assoc]
  rfl

/-- How the template constant starts. -/
def constantHead : List Char := "const __template = `".toList

/-- How it ends. -/
def constantTail : List Char := "`;".toList

theorem toList_templateConstant (p : Parts) : (templateConstant p).toList =
      constantHead ++ (escapeTemplate p.blocks.template.toList ++ (constantTail ++ ['\n'])) := by
  have hhead : constantHead = "const __template = ".toList ++ "`".toList := by decide +kernel
  have htail : constantTail ++ ['\n'] = "`".toList ++ ";\n".toList := by decide +kernel
  have htext : (String.ofList (escapeTemplate p.blocks.template.toList)).toList =
      escapeTemplate p.blocks.template.toList := String.toList_ofList
  rw [hhead, htail]
  unfold templateConstant templateLiteral
  rw [String.toList_append, String.toList_append, String.toList_append, String.toList_append,
    htext, append_assoc, append_assoc, append_assoc, append_assoc]

theorem exists_code (options : Options) (p : Parts) : ∃ after, (generate options p).code.toList =
      ((opening options p).toList ++ constantHead) ++
        (escapeTemplate p.blocks.template.toList ++ (constantTail ++ '\n' :: after)) := by
  obtain ⟨after, hcode⟩ : ∃ after, (generate options p).code =
      opening options p ++ templateConstant p ++ after := ⟨_, rfl⟩
  refine ⟨after.toList, ?_⟩
  rw [hcode, String.toList_append, String.toList_append, toList_templateConstant]
  simp

theorem line?_code {i : Nat} (h : (splitOn '\n' p.blocks.template.toList)[i]? = some line) :
    line? (generate options p).code.toList (newlines (opening options p).toList + 1 + i) =
      some ((if i = 0 then constantHead else []) ++
        (escapeTemplate line ++
          if i = newlines p.blocks.template.toList then constantTail else [])) := by
  obtain ⟨after, hcode⟩ := exists_code options p
  obtain ⟨lines, hopening⟩ := exists_splitOn_opening options p
  have hnotHead : '\n' ∉ constantHead := by decide +kernel
  have hnotTail : '\n' ∉ constantTail := by decide +kernel
  -- the constant starts on a line of its own
  have hbefore : splitOn '\n' ((opening options p).toList ++ constantHead) =
      lines ++ [constantHead] := by
    rw [splitOn_append hopening (splitOn_of_notMem hnotHead), nil_append]
  have hfeeds : ((opening options p).toList ++ constantHead).count '\n' =
      newlines (opening options p).toList := by
    rw [count_append]
    rfl
  have hafter : splitOn '\n' (constantTail ++ '\n' :: after) =
      constantTail :: splitOn '\n' after := by
    have hfeed : splitOn '\n' ('\n' :: after) = [] :: splitOn '\n' after := rfl
    rw [splitOn_append_of_notMem hnotTail hfeed, append_nil]
  have hline : (splitOn '\n' (escapeTemplate p.blocks.template.toList))[i]? =
      some (escapeTemplate line) := by
    rw [splitOn_escapeTemplate, getElem?_map, h]
    rfl
  have hcount : (escapeTemplate p.blocks.template.toList).count '\n' =
      newlines p.blocks.template.toList := by
    have hlength := length_splitOn '\n' (escapeTemplate p.blocks.template.toList)
    rw [splitOn_escapeTemplate, length_map, length_splitOn] at hlength
    exact (Nat.add_right_cancel hlength).symm
  have hbetween := getElem?_splitOn_between hbefore hafter hline
  rw [hfeeds, hcount, ← hcode] at hbetween
  rw [Nat.add_right_comm]
  exact hbetween

/-! ### The template in the unit -/

theorem exists_template (h : (Source.blocks options source).template ≠ "") :
    ∃ before after,
      source.toList = before ++ ((Source.blocks options source).template.toList ++ after) ∧
      (Source.blocks options source).templateLine = newlines before + 1 := by
  cases hregion : Source.templateRegion? source.toList with
  | none => exact absurd (by simp [Source.blocks, hregion]) h
  | some spans =>
    simp only [Source.blocks, hregion]
    exact Source.exists_content source.toList spans.2

/-- Each line of the template is part of a line of the unit, as far below the first as it is in the
template. -/
theorem exists_line?_source (h : (Source.blocks options source).template ≠ "") {i : Nat}
    (hi : (splitOn '\n' (Source.blocks options source).template.toList)[i]? = some line) :
    ∃ there, line? source.toList ((Source.blocks options source).templateLine + i) = some there ∧
      line <:+: there := by
  obtain ⟨before, after, hsource, hline⟩ := exists_template h
  obtain ⟨init, last, hbefore⟩ := exists_splitOn_concat '\n' before
  obtain ⟨first, rest, hafter⟩ := exists_splitOn_cons '\n' after
  have hbetween := getElem?_splitOn_between hbefore hafter hi
  rw [← hsource] at hbetween
  rw [hline, Nat.add_right_comm]
  exact ⟨_, hbetween, infix_append' _ line _⟩

/-! ### The line map -/

/-- Reading the line map of a module that is compiled from a unit gives one mapping for each line of
its template, and no other. Each leads from the line of the template constant that holds the escaped
text of that line to the line of the unit that the text stands on. -/
theorem compile_maps_template_lines {options : Options} {index : Option Index}
    {compiler : Style.Compiler} {path source : String} {m : Module}
    (hm : compile options index compiler path source = .ok m) (hmaps : options.sourceMaps = true)
    (htemplate : (Source.blocks options source).template ≠ "") :
    ∃ extracted, Annotations.extract (Source.blocks options source).scriptText = some extracted ∧
    let blocks := Source.blocks options source
    let lines := splitOn '\n' blocks.template.toList
    let p := partsOf options index compiler path source extracted
    let start := newlines (opening options p).toList + 1
    (∃ mappings, m.sourceMap = some (Json.object
        [("version", .nat 3), ("file", .string (path ++ ".js")), ("sources", .strings [path]),
          ("sourcesContent", .strings [source]), ("names", .array []),
          ("mappings", .string mappings)]).compact ∧
      LineMap.readMappings? mappings =
        some ((range lines.length).map fun i =>
          .ofLines (start + i, blocks.templateLine + i))) ∧
    ∀ i line, lines[i]? = some line →
      line? m.code.toList (start + i) =
        some ((if i = 0 then "const __template = `".toList else []) ++
          (escapeTemplate line ++ if i + 1 = lines.length then "`;".toList else [])) ∧
      ∃ there, line? source.toList (blocks.templateLine + i) = some there ∧ line <:+: there := by
  obtain ⟨extracted, he, rfl⟩ := compile_eq_ok_iff.mp hm
  refine ⟨extracted, he, ?_⟩
  intro blocks lines p start
  have hlength : lines.length = newlines blocks.template.toList + 1 := length_splitOn _ _
  refine ⟨⟨(LineMap.addRange {} start blocks.templateLine lines.length).mappings, ?_, ?_⟩, ?_⟩
  · have hmap : lineMap options p =
        LineMap.addRange {} start blocks.templateLine lines.length := by
      rw [hlength]
      have hempty : blocks.template.isEmpty = false := by
        simpa [String.isEmpty_iff] using htemplate
      exact if_neg (ne_true_of_eq_false hempty)
    rw [← hmap]
    exact if_pos hmaps
  · obtain ⟨before, after, -, hline⟩ := exists_template htemplate
    exact LineMap.readMappings?_addRange (Nat.succ_pos _) (hline ▸ Nat.succ_pos _) lines.length
  · intro i line hi
    refine ⟨?_, exists_line?_source htemplate hi⟩
    simp only [hlength, Nat.add_right_cancel_iff]
    exact line?_code hi

/-- A unit whose template comes after styles and starts below its tag. -/
def notice : String :=
  "<style>\np \x7b\n  color: red;\n\x7d\n</style>\n<template>\n\n  <p>$\x7ba\x7d</p>\n  <b>`</b>\n</template>"

/-- Its template has two lines, from lines 8 and 9; four lines of styles and an import stand in front
of the constant. -/
theorem compile_maps_template_lines_notice :
    ({} : Options).sourceMaps = true ∧ (Source.blocks {} notice).template ≠ "" ∧
    ∃ m, compile {} none Style.nestedCompiler "/notice.sfc" notice = .ok m ∧
    (∃ mappings, m.sourceMap = some (Json.object
        [("version", .nat 3), ("file", .string "/notice.sfc.js"), ("sources", .strings ["/notice.sfc"]),
          ("sourcesContent", .strings [notice]), ("names", .array []),
          ("mappings", .string mappings)]).compact ∧
      LineMap.readMappings? mappings = some [.ofLines (6, 8), .ofLines (7, 9)]) ∧
    line? m.code.toList 6 = some "const __template = `<p>\\$\x7ba\x7d</p>".toList ∧
    line? m.code.toList 7 = some "  <b>\\`</b>`;".toList := by
  have hmaps : ({} : Options).sourceMaps = true := rfl
  have htemplate : (Source.blocks {} notice).template = "<p>$\x7ba\x7d</p>\n  <b>`</b>" := by
    decide +kernel
  have hne : (Source.blocks {} notice).template ≠ "" := by
    rw [htemplate]
    decide
  have hline : (Source.blocks {} notice).templateLine = 8 := by decide +kernel
  obtain ⟨m, hm⟩ := exists_of_isOk (show
    (compile {} none Style.nestedCompiler "/notice.sfc" notice).isOk by decide +kernel)
  obtain ⟨extracted, he, hmap, hlines⟩ := compile_maps_template_lines hm hmaps hne
  have hstart : (Annotations.extract (Source.blocks {} notice).scriptText).map (fun e => newlines
      (opening {} (partsOf {} none Style.nestedCompiler "/notice.sfc" notice e)).toList) = some 5 := by
    decide +kernel
  simp only [he, Option.map_some, Option.some.injEq] at hstart
  rw [hstart, htemplate, hline] at hmap
  rw [hstart, htemplate] at hlines
  exact ⟨hmaps, hne, m, hm, hmap, (hlines 0 _ rfl).1, (hlines 1 _ rfl).1⟩

end Module

end Componentry
