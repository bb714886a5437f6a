import Componentry.Proofs.Source.Attributes

/-!
# Rules inside rules

Style sheets made of rules, with declarations and rules inside them in any order and to any depth, as
they are written and as they are meant. Written, every selector and declaration may have blanks around
it, and the last declaration of a rule may go without its semicolon. Meant is one block for each rule
that has declarations of its own: its selectors are all that come of choosing one selector from each
rule around it and one of its own.

Compiling such a sheet gives the blocks that it means, in the order of its rules: reading gives its
statements back, and flattening collects the declarations of each rule and puts the rules inside it
behind them.
-/

namespace Componentry.Style

open Text
open List hiding splitOn
open Source (Blanks)

/-! ### As they are written -/

/-- Characters that have a meaning of their own in style text, but for the ampersand. -/
def reserved : List Char :=
  ['"', '\x27', '(', ')', '[', ']', '\x7b', '\x7d', ';', ',', '$', '@', '/', '\\']

/-- A selector or a declaration, with the blanks around it. -/
structure Phrase where
  before : Blanks
  text : List Char
  text_ne : text ≠ []
  /-- No blanks belong to it at either end. -/
  trimmed : trim text = text
  /-- No character of it has a meaning of its own. -/
  plain : ∀ c ∈ text, c ∉ reserved
  after : Blanks

def Phrase.chars (p : Phrase) : List Char := p.before.1 ++ (p.text ++ p.after.1)

/-- The selectors of a rule. -/
structure Heading where
  first : Phrase
  others : List Phrase

namespace Heading

def selectors (h : Heading) : List (List Char) := (h.first :: h.others).map Phrase.text

/-- The selectors as they are written. -/
def chars (h : Heading) : List Char := joinWith [','] ((h.first :: h.others).map Phrase.chars)

end Heading

/-- What stands in a rule from some place on. -/
inductive Body where
  | done (gap : Blanks)
  /-- A last declaration without its semicolon. -/
  | last (d : Phrase)
  | declaration (d : Phrase) (rest : Body)
  /-- A rule with what stands in it. -/
  | rule (heading : Heading) (inner rest : Body)

namespace Body

/-- What stands in a rule, as it is written. -/
def chars : Body → List Char
  | .done gap => gap.1
  | .last d => d.chars
  | .declaration d rest => d.chars ++ ';' :: rest.chars
  | .rule heading inner rest =>
    heading.chars ++ '\x7b' :: (inner.chars ++ '\x7d' :: rest.chars)

/-- The declarations of a rule itself, in order. -/
def declarations : Body → List (List Char)
  | .done _ => []
  | .last d => [d.text]
  | .declaration d rest => d.text :: rest.declarations
  | .rule _ _ rest => rest.declarations

/-- The declarations of a rule and of all rules inside it, in the order they are written. -/
def allDeclarations : Body → List (List Char)
  | .done _ => []
  | .last d => [d.text]
  | .declaration d rest => d.text :: rest.allDeclarations
  | .rule _ inner rest => inner.allDeclarations ++ rest.allDeclarations

/-- The rules inside a rule, each before those inside it, with the selectors of the rules around it,
outermost first, and its own. -/
def rules (chain : List Heading) : Body → List (List Heading × Body)
  | .done _ | .last _ => []
  | .declaration _ rest => rest.rules chain
  | .rule heading inner rest =>
    (chain ++ [heading], inner) :: (inner.rules (chain ++ [heading]) ++ rest.rules chain)

end Body

/-- A rule that stands in no other. -/
structure Rule where
  heading : Heading
  body : Body

/-- A style sheet. -/
structure RuleSheet where
  rules : List Rule
  trail : Blanks

namespace RuleSheet

/-- The rules of a sheet, one after the other. -/
def body (sheet : RuleSheet) : Body :=
  sheet.rules.foldr (fun r rest => .rule r.heading r.body rest) (.done sheet.trail)

def text (sheet : RuleSheet) : String := String.ofList sheet.body.chars

theorem declarations_body (sheet : RuleSheet) : sheet.body.declarations = [] := by
  unfold body
  induction sheet.rules with
  | nil => rfl
  | cons r rs ih => exact ih

end RuleSheet

/-! ### As they are meant -/

/-- All ways to choose one selector from each rule of a chain; the choice from the first varies
slowest. -/
def choices : List Heading → List (List (List Char))
  | [] => [[]]
  | heading :: chain => heading.selectors.flatMap fun s => (choices chain).map (s :: ·)

/-- A selector inside another. The other one takes the place of every ampersand or, where there is
none, stands in front. -/
def within (outer own : List Char) : List Char :=
  if '&' ∈ own then joinWith outer (splitOn '&' own) else outer ++ ' ' :: own

/-- Selectors inside each other, outermost first, as one. Around the outermost there is nothing that
an ampersand could stand for. -/
def combined : List (List Char) → List Char
  | [] => []
  | outermost :: rest => rest.foldl within (outermost.filter (· ≠ '&'))

variable (chain : List Heading)

def selectorsAlong : List (List Char) := (choices chain).map combined

/-- A block of plain style text. -/
structure Block where
  selectors : List (List Char)
  declarations : List (List Char)
deriving DecidableEq, Repr

def Block.lines (b : Block) : List (List Char) :=
  (joinWith [',', ' '] b.selectors ++ [' ', '\x7b']) ::
    (b.declarations.map fun d => ' ' :: ' ' :: (d ++ [';'])) ++ [['\x7d']]

/-- The blocks of rules that have declarations of their own. -/
def blocksOf (rules : List (List Heading × Body)) : List Block :=
  (rules.filter fun r => r.2.declarations ≠ []).map fun r =>
    ⟨selectorsAlong r.1, r.2.declarations⟩

def RuleSheet.blocks (sheet : RuleSheet) : List Block := blocksOf (sheet.body.rules [])

theorem blocksOf_append (a b : List (List Heading × Body)) :
    blocksOf (a ++ b) = blocksOf a ++ blocksOf b := by
  simp [blocksOf]

theorem blocksOf_cons (body : Body) (rest : List (List Heading × Body)) :
    blocksOf ((chain, body) :: rest) =
      (if body.declarations = [] then [] else [⟨selectorsAlong chain, body.declarations⟩]) ++
        blocksOf rest := by
  by_cases h : body.declarations = [] <;> simp [blocksOf, h]

theorem perm_declarations (body : Body) :
    (body.declarations ++ (blocksOf (body.rules chain)).flatMap Block.declarations).Perm
      body.allDeclarations := by
  induction body generalizing chain with
  | done gap | last d => exact .refl _
  | declaration d rest ih => exact (ih chain).cons d.text
  | rule heading inner rest ihinner ihrest =>
    have hown : ((if inner.declarations = [] then []
        else [⟨selectorsAlong (chain ++ [heading]), inner.declarations⟩] : List Block).flatMap
          Block.declarations) = inner.declarations := by
      split
      next h => exact h.symm
      next => simp
    rw [Body.rules, blocksOf_cons, blocksOf_append, flatMap_append, flatMap_append, hown]
    refine .trans ?_ ((ihinner (chain ++ [heading])).append (ihrest chain))
    simp only [← append_assoc]
    refine .append_right _ ?_
    rw [append_assoc]
    exact perm_append_comm

theorem choices_snoc (heading : Heading) : choices (chain ++ [heading]) =
      (choices chain).flatMap fun choice => heading.selectors.map fun s => choice ++ [s] := by
  induction chain with
  | nil => simp [choices, map_eq_flatMap]
  | cons h chain ih =>
    simp only [cons_append, choices, ih, flatMap_assoc, map_flatMap, flatMap_map, map_map]
    rfl

theorem selectorsAlong_singleton (heading : Heading) :
    selectorsAlong [heading] = heading.selectors.map (filter (· ≠ '&')) := by
  have hchoices : choices [heading] = heading.selectors.map fun s => [s] := by
    simp [choices, map_eq_flatMap]
  unfold selectorsAlong
  rw [hchoices, map_map]
  rfl

variable {chain : List Heading}

/-- The selectors of a rule inside others: each selector around it in order, and with it each of its
own. -/
theorem selectorsAlong_snoc (hchain : chain ≠ []) (heading : Heading) :
    selectorsAlong (chain ++ [heading]) =
      (selectorsAlong chain).flatMap fun outer => heading.selectors.map (within outer) := by
  have hcombined : ∀ choice ∈ choices chain, ∀ s,
      combined (choice ++ [s]) = within (combined choice) s := by
    intro choice hmem s
    cases chain with
    | nil => exact absurd rfl hchain
    | cons h chain =>
      obtain ⟨outermost, -, hmem⟩ := mem_flatMap.mp hmem
      obtain ⟨rest, -, rfl⟩ := mem_map.mp hmem
      simp [combined]
  unfold selectorsAlong
  rw [choices_snoc, map_flatMap, flatMap_map]
  refine flatMap_congr fun choice hmem => ?_
  rw [map_map]
  exact map_congr_left fun s _ => hcombined choice hmem s

variable {c : Char} {s : List Char}

/-! ### Phrases and headings -/

namespace Phrase

theorem notMem_reserved (p : Phrase) : ∀ c ∈ p.chars, c ∉ reserved := by
  have hblank : ∀ c ∈ reserved, isBlank c = false := by simp [reserved, isBlank]
  intro c hc hr
  rcases mem_append.mp hc with hc | hc
  · exact notMem_of_blanks p.before.2 (hblank c hr) hc
  · rcases mem_append.mp hc with hc | hc
    · exact p.plain c hc hr
    · exact notMem_of_blanks p.after.2 (hblank c hr) hc

theorem trim_chars (p : Phrase) : trim p.chars = p.text := by
  rw [chars, trim_blanks_append p.before.2, trim_append_blanks p.after.2, p.trimmed]

theorem statementOf_chars (p : Phrase) : statementOf p.chars = [.declaration p.text] := by
  have hdollar : '$' ∉ p.text := fun h => p.plain _ h (by decide)
  have hat : '@' ∉ p.text := fun h => p.plain _ h (by decide)
  have hne := p.text_ne
  unfold statementOf
  rw [p.trim_chars]
  generalize p.text = text at hdollar hat hne
  split
  · exact absurd rfl hne
  · exact absurd (.head _) hdollar
  · exact absurd (.head _) hat
  · rfl

end Phrase

namespace Heading

theorem notMem_reserved (h : Heading) : ∀ c ∈ h.chars, c ≠ ',' → c ∉ reserved := by
  unfold chars
  generalize h.first :: h.others = ps
  induction ps with
  | nil => nofun
  | cons p ps ih =>
    intro c hc hcomma
    cases ps with
    | nil => exact p.notMem_reserved c hc
    | cons q ps =>
      rw [map_cons, joinWith, append_assoc] at hc
      · rcases mem_append.mp hc with hc | hc
        · exact p.notMem_reserved c hc
        · exact ih c ((mem_cons.mp hc).resolve_left hcomma) hcomma
      · exact cons_ne_nil _ _

theorem notMem_of_reserved (h : Heading) {marks : List Char}
    (hmarks : ∀ c ∈ marks, c ≠ ',' ∧ c ∈ reserved) : ∀ c ∈ h.chars, c ∉ marks :=
  fun c hc hm => h.notMem_reserved c hc (hmarks c hm).1 (hmarks c hm).2

theorem listPieces_eq (hs : ∀ c ∈ s, c ∉ ['(', ')', '[', ']']) (current : List Char)
    {first : List Char} {rest : List (List Char)} (h : splitOn ',' s = first :: rest) :
    listPieces 0 current s = (current.reverse ++ first) :: rest := by
  induction s generalizing current first rest with
  | nil =>
    cases h
    simp [listPieces]
  | cons c s ih =>
    obtain ⟨hc, hs⟩ := forall_mem_cons.mp hs
    obtain ⟨first', rest', hsplit⟩ := exists_splitOn_cons ',' s
    simp only [mem_cons, not_or] at hc
    rw [splitOn, hsplit] at h
    simp only [listPieces, hc, beq_iff_eq, Bool.or_eq_true]
    by_cases hcomma : c = ','
    · simp only [hcomma] at h ⊢
      cases h
      simp [ih hs [] hsplit]
    · simp only [hcomma, beq_iff_eq] at h ⊢
      cases h
      simp [hcomma, ih hs (c :: current) hsplit]

theorem map_trim_splitOn (s : List Char) :
    (splitOn ',' (trim s)).map trim = (splitOn ',' s).map trim := by
  obtain ⟨a, b, ha, hb, hs⟩ := exists_trim s
  obtain ⟨init, last, hlast⟩ := exists_splitOn_concat ',' (trim s)
  have hback := splitOn_append hlast (splitOn_of_notMem (notMem_of_blanks hb rfl))
  obtain ⟨first, rest, hfirst⟩ := exists_splitOn_cons ',' (trim s ++ b)
  have hall := splitOn_append_of_notMem (notMem_of_blanks ha rfl) hfirst
  calc (splitOn ',' (trim s)).map trim
      = (splitOn ',' (trim s ++ b)).map trim := by simp [hlast, hback, trim_append_blanks hb]
    _ = (splitOn ',' (a ++ (trim s ++ b))).map trim := by simp [hall, hfirst, trim_blanks_append ha]
    _ = (splitOn ',' s).map trim := by rw [← hs]

theorem selectorList_trim (h : Heading) : selectorList (trim h.chars) = h.selectors := by
  have hbrackets : ∀ c ∈ trim h.chars, c ∉ ['(', ')', '[', ']'] := fun c hc =>
    h.notMem_of_reserved (by simp [reserved]) c (mem_of_mem_trim hc)
  have hsplit : splitOn ',' h.chars = (h.first :: h.others).map Phrase.chars := by
    refine splitOn_joinWith (cons_ne_nil _ _) fun s hs hcomma => ?_
    obtain ⟨p, -, rfl⟩ := mem_map.mp hs
    exact p.notMem_reserved _ hcomma (by decide)
  have hpieces : (listPieces 0 [] (trim h.chars)).map trim = h.selectors := by
    obtain ⟨first, rest, hfirst⟩ := exists_splitOn_cons ',' (trim h.chars)
    rw [listPieces_eq hbrackets [] hfirst, reverse_nil, nil_append, ← hfirst,
      map_trim_splitOn, hsplit, map_map]
    exact map_congr_left fun p _ => p.trim_chars
  have hlast : h.selectors.getLast? ≠ some [] := by
    intro hnil
    obtain ⟨p, -, hp⟩ := mem_map.mp (mem_of_getLast? hnil)
    exact p.text_ne hp
  unfold selectorList
  rw [hpieces]
  simp [hlast]

theorem trim_chars_ne (h : Heading) : trim h.chars ≠ [] := by
  intro hnil
  have hlist := h.selectorList_trim
  rw [hnil] at hlist
  cases hlist

end Heading

/-! ### Reading -/

theorem withoutComments_eq (hs : ∀ c ∈ s, c ∉ ['/', '"', '\x27']) (before : Option Char) :
    withoutComments before s = s := by
  induction s generalizing before with
  | nil => rw [withoutComments]
  | cons c s ih =>
    obtain ⟨hc, hs⟩ := forall_mem_cons.mp hs
    simp only [mem_cons, not_or] at hc
    rw [withoutComments]
    · simp [hc, ih hs]
    · rintro rest rfl
      exact absurd rfl hc.1

theorem statementOf_blanks (hs : ∀ c ∈ s, isBlank c = true) : statementOf s = [] := by
  have htrim : trim s = [] := trim_append_blanks hs []
  simp [statementOf, htrim]

def Body.statements : Body → List Statement
  | .done _ => []
  | .last d => [.declaration d.text]
  | .declaration d rest => .declaration d.text :: rest.statements
  | .rule heading inner rest => .rule (trim heading.chars) inner.statements :: rest.statements

namespace Reading

/-- Characters at which the reader does something. -/
def marks : List Char := ['"', '\x27', '(', ')', '\x7b', '\x7d', ';']

theorem foldlM_keep (hs : ∀ c ∈ s, c ∉ marks) (outer : List (List Char × List Statement))
    (statements : List Statement) (pending : List Char) :
    s.foldlM step { outer, statements, pending } =
      .ok { outer, statements, pending := s.reverse ++ pending } := by
  induction s generalizing pending with
  | nil => rfl
  | cons c s ih =>
    obtain ⟨hc, hs⟩ := forall_mem_cons.mp hs
    simp only [marks, mem_cons, not_or] at hc
    have hstep : step { outer, statements, pending } c = .ok { outer, statements, pending := c :: pending } := by
      simp [step, keep, hc]
    rw [foldlM_cons, hstep, reverse_cons, append_assoc]
    exact ih hs (c :: pending)

/-- Reading what stands in a rule gives its statements, once the text at the end is taken for a
statement too. -/
theorem foldlM_body (body : Body) (outer : List (List Char × List Statement))
    (before : List Statement) : ∃ statements pending,
      body.chars.foldlM step { outer, statements := before } = .ok { outer, statements, pending } ∧
      statements ++ statementOf pending.reverse = before ++ body.statements := by
  have hphrase : ∀ p : Phrase, ∀ c ∈ p.chars, c ∉ marks := by
    have hmarks : ∀ c ∈ marks, c ∈ reserved := by simp [marks, reserved]
    exact fun p c hc hm => p.notMem_reserved c hc (hmarks c hm)
  induction body generalizing outer before with
  | done gap =>
    have hgap : ∀ c ∈ gap.1, c ∉ marks := by
      have hmarks : ∀ c ∈ marks, isBlank c = false := by simp [marks, isBlank]
      exact fun c hc hm => notMem_of_blanks gap.2 (hmarks c hm) hc
    refine ⟨before, gap.1.reverse ++ [], foldlM_keep hgap outer before [], ?_⟩
    simp [statementOf_blanks gap.2, Body.statements]
  | last d =>
    refine ⟨before, d.chars.reverse ++ [], foldlM_keep (hphrase d) outer before [], ?_⟩
    simp [d.statementOf_chars, Body.statements]
  | declaration d rest ih =>
    obtain ⟨statements, pending, hread, hall⟩ := ih outer (before ++ [.declaration d.text])
    refine ⟨statements, pending, ?_, by simp [hall, Body.statements]⟩
    have hend : step { outer, statements := before, pending := d.chars.reverse ++ [] } ';' =
        .ok { outer, statements := before ++ [.declaration d.text] } := by
      simp [step, finish, d.statementOf_chars]
    rw [Body.chars, foldlM_append, foldlM_keep (hphrase d)]
    simp only [bind, Except.bind, foldlM_cons, hend]
    exact hread
  | rule heading inner rest ihinner ihrest =>
    have hheading : ∀ c ∈ heading.chars, c ∉ marks :=
      heading.notMem_of_reserved (by simp [marks, reserved])
    have hopen : step { outer, statements := before, pending := heading.chars.reverse ++ [] } '\x7b' =
        .ok { outer := (trim heading.chars, before) :: outer } := by
      simp [step, heading.trim_chars_ne]
    obtain ⟨within, pending, hinner, hwithin⟩ := ihinner ((trim heading.chars, before) :: outer) []
    have hclose : step { outer := (trim heading.chars, before) :: outer, statements := within, pending } '\x7d' =
        .ok { outer, statements := before ++ [.rule (trim heading.chars) inner.statements] } := by
      simp [step, finish, hwithin]
    obtain ⟨statements, pending', hrest, hall⟩ :=
      ihrest outer (before ++ [.rule (trim heading.chars) inner.statements])
    refine ⟨statements, pending', ?_, by simp [hall, Body.statements]⟩
    rw [Body.chars, foldlM_append, foldlM_keep hheading]
    simp only [bind, Except.bind, foldlM_cons, hopen, foldlM_append, hinner, hclose]
    exact hrest

end Reading

theorem statements_text (body : Body) : statements body.chars = .ok body.statements := by
  obtain ⟨ss, pending, hread, hall⟩ := Reading.foldlM_body body [] []
  rw [statements, hread]
  simp only [bind, Except.bind, Reading.finish, hall]
  rfl

/-! ### Flattening -/

theorem substitute_eq (vars : Variables) (hs : '$' ∉ s) : substitute vars s = .ok s := by
  induction s with
  | nil => rw [substitute]
  | cons c s ih =>
    obtain ⟨hc, hs⟩ := not_or.mp fun he => hs (mem_cons.mpr he)
    rw [substitute]
    · rw [ih hs]
      rfl
    · rintro d rest rfl
      exact absurd rfl hc

theorem replaceParent_eq (outer own : List Char) :
    replaceParent outer own = joinWith outer (splitOn '&' own) := by
  unfold replaceParent
  induction own with
  | nil => rfl
  | cons c own ih =>
    obtain ⟨first, rest, hsplit⟩ := exists_splitOn_cons '&' own
    rw [flatMap_cons, ih, splitOn, hsplit]
    by_cases hc : c = '&'
    · simp [hc, joinWith]
    · cases rest with
      | nil | cons next rest => simp [hc, joinWith]

def surrounding : List Heading → List (List Char)
  | [] => []
  | chain => selectorsAlong chain

theorem surrounding_ne (hchain : chain ≠ []) : surrounding chain ≠ [] := by
  have hchoices : choices chain ≠ [] := by
    induction chain with
    | nil => exact absurd rfl hchain
    | cons heading chain ih =>
      intro hnil
      have hfirst := flatMap_eq_nil_iff.mp hnil heading.first.text (.head _)
      cases chain with
      | nil => cases hfirst
      | cons h chain => exact ih (cons_ne_nil h chain) (map_eq_nil_iff.mp hfirst)
  cases chain with
  | nil => exact absurd rfl hchain
  | cons h chain => exact fun hnil => hchoices (map_eq_nil_iff.mp hnil)

theorem surrounding_snoc (chain : List Heading) (heading : Heading) :
    surrounding (chain ++ [heading]) = selectorsAlong (chain ++ [heading]) := by
  cases chain <;> rfl

theorem resolve_surrounding (chain : List Heading) (heading : Heading) :
    resolve (surrounding chain) (trim heading.chars) = selectorsAlong (chain ++ [heading]) := by
  unfold resolve
  rw [heading.selectorList_trim]
  cases chain with
  | nil =>
    have hdrop : ∀ s, replaceParent [] s = s.filter (· ≠ '&') := by
      intro s
      induction s with
      | nil => rfl
      | cons c s ih =>
        rw [replaceParent, flatMap_cons, ← replaceParent, ih]
        by_cases hc : c = '&' <;> simp [hc]
    rw [nil_append, selectorsAlong_singleton]
    exact map_congr_left fun s _ => hdrop s
  | cons h chain =>
    have hne := surrounding_ne (cons_ne_nil h chain)
    have hwithin : ∀ outer own : List Char,
        (if own.contains '&' then replaceParent outer own else outer ++ ' ' :: own) =
          within outer own := by
      intro outer own
      simp [within, replaceParent_eq]
    rw [selectorsAlong_snoc (cons_ne_nil h chain)]
    simp only [isEmpty_eq_false_iff.mpr hne, hwithin]
    rfl

def ended (lines : List (List Char)) : List Char := lines.flatMap (· ++ ['\n'])

theorem block_eq (b : Block) :
    block (joinWith [',', ' '] b.selectors) (b.declarations.flatMap declarationLine) =
      ended b.lines := by
  have hlines : b.declarations.flatMap declarationLine =
      ended (b.declarations.map fun d => ' ' :: ' ' :: (d ++ [';'])) := by
    unfold ended
    rw [flatMap_map]
    exact flatMap_congr fun d _ => by simp [declarationLine]
  simp [block, hlines, ended, Block.lines]

theorem flattenOne_declaration (hchain : chain ≠ []) (f : Flat) (d : Phrase) :
    flattenOne (surrounding chain) f (.declaration d.text) =
      .ok { f with declarations := f.declarations ++ [d.text] } := by
  have hdollar : '$' ∉ d.text := fun h => d.plain _ h (by decide)
  simp [flattenOne, surrounding_ne hchain, substitute_eq _ hdollar, bind, Except.bind, pure, Except.pure]

theorem flattenOne_rule (chain : List Heading) (f : Flat) (heading : Heading) (inner : Body)
    (hinner : ∀ g : Flat, flattenAll (surrounding (chain ++ [heading])) g inner.statements =
      .ok { g with
        declarations := g.declarations ++ inner.declarations
        later := g.later ++ ended ((blocksOf (inner.rules (chain ++ [heading]))).flatMap Block.lines) }) :
    flattenOne (surrounding chain) f (.rule (trim heading.chars) inner.statements) =
      .ok { f with later := f.later ++ ended ((blocksOf ((chain ++ [heading], inner) ::
        inner.rules (chain ++ [heading]))).flatMap Block.lines) } := by
  have hplain : ∀ c ∈ ['$', '@'], c ∉ trim heading.chars := fun c hc hmem =>
    heading.notMem_of_reserved (by simp [reserved]) c (mem_of_mem_trim hmem) hc
  have hat : (trim heading.chars).head? ≠ some '@' := fun h =>
    hplain '@' (by decide) (mem_of_mem_head? h)
  have htext : (⟨f.vars, [], inner.declarations,
        ended ((blocksOf (inner.rules (chain ++ [heading]))).flatMap Block.lines)⟩ : Flat).text
          (selectorsAlong (chain ++ [heading])) =
      ended ((blocksOf ((chain ++ [heading], inner) :: inner.rules (chain ++ [heading]))).flatMap
        Block.lines) := by
    rw [blocksOf_cons]
    unfold Flat.text
    by_cases hnone : inner.declarations = []
    · simp [hnone]
    · have hblock := block_eq ⟨selectorsAlong (chain ++ [heading]), inner.declarations⟩
      simp [hnone, hblock, ended]
  rw [surrounding_snoc] at hinner
  simp [flattenOne, substitute_eq _ (hplain '$' (by decide)), hat, resolve_surrounding, hinner, htext,
    bind, Except.bind, pure, Except.pure]

/-- Flattening what stands in a rule collects its declarations, and puts the blocks of the rules inside
it behind what comes later. -/
theorem flattenAll_statements (body : Body) (chain : List Heading)
    (hchain : chain ≠ [] ∨ body.declarations = []) (f : Flat) :
    flattenAll (surrounding chain) f body.statements =
      .ok { f with
        declarations := f.declarations ++ body.declarations
        later := f.later ++ ended ((blocksOf (body.rules chain)).flatMap Block.lines) } := by
  induction body generalizing chain f with
  | done gap => simp [Body.statements, Body.declarations, Body.rules, flattenAll, blocksOf, ended, pure, Except.pure]
  | last d =>
    have hne : chain ≠ [] := hchain.resolve_right (cons_ne_nil _ _)
    simp [Body.statements, Body.declarations, Body.rules, flattenAll, blocksOf, ended,
      flattenOne_declaration hne, bind, Except.bind, pure, Except.pure]
  | declaration d rest ih =>
    have hne : chain ≠ [] := hchain.resolve_right (cons_ne_nil _ _)
    simp [Body.statements, Body.declarations, Body.rules, flattenAll, flattenOne_declaration hne,
      ih chain (.inl hne), bind, Except.bind]
  | rule heading inner rest ihinner ihrest =>
    have hinner := ihinner (chain ++ [heading]) (.inl (by simp))
    simp [Body.statements, Body.declarations, Body.rules, flattenAll,
      flattenOne_rule chain f heading inner hinner, ihrest chain hchain, bind, Except.bind,
      blocksOf_cons, blocksOf_append, ended]

/-! ### Compiling -/

theorem Body.notMem_slash (body : Body) : ∀ c ∈ body.chars, c ∉ ['/', '"', '\x27'] := by
  have hreserved : ∀ c ∈ ['/', '"', '\x27'], c ≠ ',' ∧ c ≠ ';' ∧ c ≠ '\x7b' ∧ c ≠ '\x7d' ∧
      isBlank c = false ∧ c ∈ reserved := by simp [isBlank, reserved]
  intro c hc hmem
  obtain ⟨hcomma, hsemicolon, hopen, hclose, hblank, hres⟩ := hreserved c hmem
  induction body with
  | done gap => exact notMem_of_blanks gap.2 hblank hc
  | last d => exact d.notMem_reserved c hc hres
  | declaration d rest ih =>
    rcases mem_append.mp hc with hc | hc
    · exact d.notMem_reserved c hc hres
    · exact ih ((mem_cons.mp hc).resolve_left hsemicolon)
  | rule heading inner rest ihinner ihrest =>
    rcases mem_append.mp hc with hc | hc
    · exact heading.notMem_reserved c hc hcomma hres
    · rcases mem_append.mp ((mem_cons.mp hc).resolve_left hopen) with hc | hc
      · exact ihinner hc
      · exact ihrest ((mem_cons.mp hc).resolve_left hclose)

theorem trimEnd_ended (blocks : List Block) :
    trimEnd (ended (blocks.flatMap Block.lines)) = joinWith ['\n'] (blocks.flatMap Block.lines) := by
  have hjoin (lines : List (List Char)) (line : List Char) :
      joinWith ['\n'] (lines ++ [line]) = ended lines ++ line := by
    induction lines with
    | nil => rfl
    | cons first lines ih =>
      rw [cons_append, joinWith, ih]
      · simp [ended]
      · simp
  rcases eq_nil_or_concat' blocks with rfl | ⟨others, b, rfl⟩
  · rfl
  · obtain ⟨lines, hlines⟩ : ∃ lines, (others ++ [b]).flatMap Block.lines = lines ++ [['\x7d']] :=
      ⟨others.flatMap Block.lines ++ (joinWith [',', ' '] b.selectors ++ [' ', '\x7b']) ::
        (b.declarations.map fun d => ' ' :: ' ' :: (d ++ [';'])), by simp [Block.lines]⟩
    have hended : ended (lines ++ [['\x7d']]) = ended lines ++ ['\x7d'] ++ ['\n'] := by simp [ended]
    rw [hlines, hjoin, hended, trimEnd_append_blanks (by simp [isBlank]), trimEnd_concat (by decide)]

/-- Compiling a sheet that is made of rules succeeds and gives the blocks it means: for each rule with
declarations of its own, in the order of the rules, all selectors that come of the rules around it and
its own, and its declarations in order. Every declaration of the sheet is in the blocks as often as it is
written. -/
theorem compile_flattens (sheet : RuleSheet) : compile sheet.text =
      .ok (String.ofList (joinWith ['\n'] (sheet.blocks.flatMap Block.lines))) ∧
    (sheet.blocks.flatMap Block.declarations).Perm sheet.body.allDeclarations := by
  have hnone := sheet.declarations_body
  constructor
  · have hflat := flattenAll_statements sheet.body [] (.inr hnone) {}
    simp only [surrounding] at hflat
    unfold compile RuleSheet.text
    rw [String.toList_ofList, withoutComments_eq sheet.body.notMem_slash, statements_text]
    simp only [bind, Except.bind, hflat, hnone, Flat.text, append_nil, isEmpty_nil, if_true,
      nil_append, trimEnd_ended]
    rfl
  · have hperm := perm_declarations [] sheet.body
    rwa [hnone, nil_append] at hperm

end Componentry.Style
