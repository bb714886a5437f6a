import Componentry.Document.Selector
import Componentry.Proofs.Text.Scan
import Mathlib.Data.List.Chain
import Mathlib.Data.List.Forall2

/-!
# The grammar of selectors

The parts of a selector between its commas are chains of compounds. A compound is a tag or a star, tests,
or both, in this order; what joins two compounds is blanks, or blanks and any number of signs for
children. Exactly these texts are read. In particular, what is printed for a selector is read as that
selector, whatever characters stand in the values of attributes.
-/

namespace Componentry.Document.Selector

open Text List

/-! ### Pieces of a text -/

/-- A name: characters of names, at least one. -/
def IsName (name : List Char) : Prop := name ≠ [] ∧ ∀ c ∈ name, isIdentChar c = true

/-- A text in brackets, with the test that it makes. -/
inductive Bracketed : Piece → List Char → Prop where
  | has {a name b : List Char} (hname : IsName name) (ha : ∀ c ∈ a, isBlank c = true)
    (hb : ∀ c ∈ b, isBlank c = true) :
    Bracketed (.attribute (String.ofList name).toLower none) (a ++ (name ++ b))
  | equals {a name b : List Char} (hname : IsName name) (ha : ∀ c ∈ a, isBlank c = true)
    (hb : ∀ c ∈ b, isBlank c = true) (value : List Char) :
    Bracketed (.attribute (String.ofList name).toLower (some (String.ofList (unquoted (trim value)))))
      (a ++ (name ++ b) ++ '=' :: value)

/-- The texts of a piece. -/
inductive Spells : Piece → List Char → Prop where
  | blank {c : Char} (h : isBlank c = true) : Spells .blank [c]
  | child : Spells .child ['>']
  | any : Spells .any ['*']
  | tag {name : List Char} (h : IsName name) : Spells (.tag (String.ofList name).toLower) name
  | id {name : List Char} (h : IsName name) : Spells (.id (String.ofList name)) ('#' :: name)
  | cls {name : List Char} (h : IsName name) : Spells (.cls (String.ofList name)) ('.' :: name)
  | bracket {p : Piece} {inner : List Char} (h : Bracketed p inner) (hinner : ']' ∉ inner) :
    Spells p ('[' :: (inner ++ [']']))

/-- The texts of some pieces, one after the other. -/
inductive Spelled : List Piece → List Char → Prop where
  | nil : Spelled [] []
  | cons {p : Piece} {ps : List Piece} {a s : List Char} (h : Spells p a) (hs : Spelled ps s) :
    Spelled (p :: ps) (a ++ s)

variable {p q : Piece} {ps qs js : List Piece} {x y : Compound} {z : Complex} {k : Combinator}
  {a b s name inner : List Char} {c : Char} {context : List (Combinator × Compound)} {m : Assembly}

theorem isIdentChar_of_isBlank (h : isBlank c = true) : isIdentChar c = false := by
  simp [isIdentChar, isAlphanum_of_isBlank h, ne_of_isBlank h (d := '-') rfl, ne_of_isBlank h (d := '_') rfl]

theorem IsName.solid (h : IsName name) : Solid name := by
  refine solid_of_forall h.1 fun c hc => Bool.eq_false_iff.mpr fun hblank => ?_
  have hident := h.2 c hc
  rw [isIdentChar_of_isBlank hblank] at hident
  cases hident

/-- A character that is neither blank nor of names is not part of a name with blanks around it. -/
theorem IsName.notMem (h : IsName name) (ha : ∀ c ∈ a, isBlank c = true) (hb : ∀ c ∈ b, isBlank c = true)
    (hblank : isBlank c = false) (hident : isIdentChar c = false) : c ∉ a ++ (name ++ b) := by
  simp only [mem_append, not_or]
  refine ⟨notMem_of_blanks ha hblank, fun hc => ?_, notMem_of_blanks hb hblank⟩
  exact Bool.false_ne_true (hident.symm.trans (h.2 c hc))

theorem isName_iff : IsName name ↔ ¬ (name.isEmpty || !name.all isIdentChar) = true := by
  simp [IsName]

theorem attributeTest?_iff : attributeTest? inner = some p ↔ Bracketed p inner := by
  constructor
  · intro h
    unfold attributeTest? at h
    by_cases heq : '=' ∈ inner
    · obtain ⟨before, value, rfl, hbefore⟩ := eq_append_cons_of_mem heq
      rw [splitOnce_append hbefore] at h
      obtain ⟨a, b, ha, hb, hs⟩ := exists_trim before
      obtain ⟨hname, hp⟩ := Option.ite_none_left_eq_some.mp h
      cases hp
      nth_rewrite 2 [hs]
      exact .equals (isName_iff.mpr hname) ha hb value
    · rw [splitOnce_of_notMem heq] at h
      obtain ⟨a, b, ha, hb, hs⟩ := exists_trim inner
      obtain ⟨hname, hp⟩ := Option.ite_none_left_eq_some.mp h
      cases hp
      nth_rewrite 2 [hs]
      exact .has (isName_iff.mpr hname) ha hb
  · intro h
    cases h with
    | has hname ha hb =>
      rw [attributeTest?, splitOnce_of_notMem (hname.notMem ha hb rfl rfl)]
      simp only [hname.solid.trim_eq ha hb, if_neg (isName_iff.mp hname)]
    | equals hname ha hb value =>
      rw [attributeTest?, splitOnce_append (hname.notMem ha hb rfl rfl)]
      simp only [hname.solid.trim_eq ha hb, if_neg (isName_iff.mp hname)]

/-- The bracket that closes is the first one. -/
theorem span_bracket (h : ']' ∉ inner) (s : List Char) :
    (inner ++ ']' :: s).takeWhile (· != ']') = inner ∧ (inner ++ ']' :: s).dropWhile (· != ']') = ']' :: s := by
  have hinner : ∀ c ∈ inner, (c != ']') = true := fun c hc => bne_iff_ne.mpr fun he => h (he ▸ hc)
  exact ⟨takeWhile_append_stop hinner (by simp), dropWhile_append_stop hinner (by simp)⟩

theorem spelled_cons (hp : Spells p a) (hs : ∀ {qs}, pieces? s = some qs → Spelled qs s)
    (h : (pieces? s).map (p :: ·) = some ps) : Spelled ps (a ++ s) := by
  obtain ⟨qs, hqs, rfl⟩ := Option.map_eq_some_iff.mp h
  exact .cons hp (hs hqs)

/-- Reading a text gives pieces that spell it. -/
theorem spelled_of_pieces? (h : pieces? s = some ps) : Spelled ps s := by
  have hname : ∀ cs : List Char, ∀ c ∈ cs.takeWhile isIdentChar, isIdentChar c = true := fun cs =>
    all_eq_true.mp all_takeWhile
  fun_induction pieces? s generalizing ps with
  | case1 =>
    cases h
    exact .nil
  | case2 c cs hc ih => exact spelled_cons (.blank hc) ih h
  | case3 c cs _ hc ih =>
    rw [eq_of_beq hc]
    exact spelled_cons .child ih h
  | case4 c cs _ _ hc ih =>
    rw [eq_of_beq hc]
    exact spelled_cons .any ih h
  | case6 c cs _ _ _ hc name piece hne =>
    rename_i ih
    have hisName : IsName name := ⟨by simpa using hne, hname cs⟩
    have hspells : Spells piece (c :: name) := by
      rcases Bool.or_eq_true_iff.mp hc with hc | hc
      · cases eq_of_beq hc
        exact .id hisName
      · cases eq_of_beq hc
        exact .cls hisName
    rw [← takeWhile_append_dropWhile (l := cs)]
    exact spelled_cons hspells ih h
  | case9 c cs _ _ _ _ hc close rest hclose piece hpiece _ ih =>
    cases eq_of_beq hc
    by_cases hmem : ']' ∈ cs
    · obtain ⟨inner, after, rfl, hinner⟩ := eq_append_cons_of_mem hmem
      rw [(span_bracket hinner after).1] at hpiece
      rw [(span_bracket hinner after).2] at hclose
      cases hclose
      have hspells := Spells.bracket (attributeTest?_iff.mp hpiece) hinner
      simpa using spelled_cons hspells ih h
    · have hnil : cs.dropWhile (· != ']') = [] :=
        dropWhile_eq_nil_iff.mpr fun c hc => bne_iff_ne.mpr fun he => hmem (he ▸ hc)
      rw [hnil] at hclose
      cases hclose
  | case10 c cs _ _ _ _ _ hc name =>
    rename_i ih
    have hisName : IsName (c :: cs.takeWhile isIdentChar) :=
      ⟨cons_ne_nil _ _, forall_mem_cons.mpr ⟨hc, hname cs⟩⟩
    rw [← takeWhile_append_dropWhile (l := cs)]
    exact spelled_cons (.tag hisName) ih h
  | case5 | case7 | case8 | case11 => cases h

/-- What stands between compounds. -/
def Piece.isJoint : Piece → Bool
  | .blank | .child => true
  | _ => false

/-- What only comes first in a compound. -/
def Piece.isHead : Piece → Bool
  | .any | .tag _ => true
  | _ => false

theorem ne_of_isIdentChar {d : Char} (h : isIdentChar c = true) (hd : isIdentChar d = false) : c ≠ d := by
  rintro rfl
  rw [hd] at h
  cases h

/-- A piece is read off a text, unless a name goes on. -/
theorem pieces?_append (h : Spells p a)
    (hs : p.isJoint = false → ∀ c ∈ s.head?, isIdentChar c = false) :
    pieces? (a ++ s) = (pieces? s).map (p :: ·) := by
  have hname : ∀ {name : List Char}, IsName name → p.isJoint = false →
      (name ++ s).takeWhile isIdentChar = name ∧ (name ++ s).dropWhile isIdentChar = s := fun hn hp =>
    ⟨takeWhile_append_stop hn.2 (hs hp), dropWhile_append_stop hn.2 (hs hp)⟩
  cases h with
  | blank hc => rw [singleton_append, pieces?, if_pos hc]
  | child | any =>
    rw [singleton_append, pieces?]
    simp [isBlank]
  | tag hn =>
    obtain ⟨htake, hdrop⟩ := hname hn rfl
    cases a with
    | nil => exact absurd rfl hn.1
    | cons c cs =>
      have hc := hn.2 c (.head _)
      have hblank : isBlank c = false := hn.solid.first c rfl
      have hne := fun d => ne_of_isIdentChar (d := d) hc
      rw [cons_append, takeWhile_cons_of_pos hc] at htake
      rw [cons_append, dropWhile_cons_of_pos hc] at hdrop
      rw [cons_append, pieces?]
      simp [hblank, hc, hdrop, (cons.inj htake).2, hne '>' rfl, hne '*' rfl, hne '#' rfl, hne '.' rfl, hne '[' rfl]
  | id hn | cls hn =>
    rw [cons_append, pieces?]
    obtain ⟨htake, hdrop⟩ := hname hn rfl
    simp [isBlank, htake, hdrop, hn.1]
  | bracket hb hinner =>
    obtain ⟨htake, hdrop⟩ := span_bracket hinner s
    have htest := attributeTest?_iff.mpr hb
    rw [cons_append, append_assoc, pieces?]
    simp [isBlank]
    split
    next hnil =>
      rw [hdrop] at hnil
      cases hnil
    next _ rest hcons =>
      rw [hdrop] at hcons
      cases hcons
      simp [htake, htest]

/-! ### Pieces of a chain -/

/-- What a piece asks of an element, besides what was asked before. -/
def Piece.ask (x : Compound) : Piece → Compound
  | .tag name => { x with tag := some name }
  | .id name => { x with id := some name }
  | .cls name => { x with classes := x.classes ++ [name] }
  | .attribute name value => { x with attributes := x.attributes ++ [(name, value)] }
  | _ => x

/-- The pieces of a compound: a tag, a star or a test, and then tests. -/
inductive Asks : List Piece → Compound → Prop where
  | first {p : Piece} (h : p.isJoint = false) : Asks [p] (p.ask {})
  | test {ps : List Piece} {p : Piece} {x : Compound} (h : Asks ps x) (hjoint : p.isJoint = false)
    (hhead : p.isHead = false) : Asks (ps ++ [p]) (p.ask x)

/-- The pieces between two compounds: blanks, or blanks and signs for children. -/
def Joins (js : List Piece) (k : Combinator) : Prop :=
  js ≠ [] ∧ (∀ j ∈ js, j.isJoint = true) ∧ k = if .child ∈ js then .child else .descendant

/-- The pieces of a chain. -/
inductive Chained : List Piece → Complex → Prop where
  | subject {ps : List Piece} {x : Compound} (h : Asks ps x) : Chained ps ⟨x, []⟩
  | join {ps js qs : List Piece} {z : Complex} {k : Combinator} {x : Compound} (h : Chained ps z)
    (hj : Joins js k) (hx : Asks qs x) : Chained (ps ++ js ++ qs) ⟨x, (k, z.subject) :: z.context⟩

/-- A tag comes first or after what joins it. -/
theorem Asks.isChain (h : Asks ps x) : ps.IsChain fun p q => q.isHead = true → p.isJoint = true := by
  induction h with
  | first => exact isChain_singleton _
  | test h hjoint hhead ih =>
    refine ih.append (isChain_singleton _) fun _ _ q hq hq' => ?_
    cases hq
    rw [hhead] at hq'
    cases hq'

theorem Chained.isChain (h : Chained ps z) : ps.IsChain fun p q => q.isHead = true → p.isJoint = true := by
  induction h with
  | subject h => exact h.isChain
  | @join ps js qs z k x h hj hx ih =>
    have hhead : ∀ j ∈ js, j.isHead = false := by
      intro j hm
      have hj := hj.2.1 j hm
      cases j <;> first | rfl | cases hj
    have hjs : js.IsChain fun p q => q.isHead = true → p.isJoint = true := by
      refine (pairwise_of_forall_mem_list fun p hp q hq => ?_).isChain
      exact fun _ => hj.2.1 p hp
    refine (ih.append hjs fun _ _ j hm hj' => ?_).append hx.isChain fun j hm _ _ _ => ?_
    · rw [hhead j (mem_of_head? hm)] at hj'
      cases hj'
    · rw [getLast?_append_of_ne_nil _ hj.1] at hm
      exact hj.2.1 j (mem_of_getLast? hm)

/-- Pieces that spell a text and have tags only at the start of compounds are what is read. -/
theorem pieces?_of_spelled (h : Spelled ps s)
    (hps : ps.IsChain fun p q => q.isHead = true → p.isJoint = true) : pieces? s = some ps := by
  induction h with
  | nil => rw [pieces?]
  | @cons p ps a s ha hs ih =>
    have hstop : p.isJoint = false → ∀ c ∈ s.head?, isIdentChar c = false := by
      intro hp c hc
      cases hs with
      | nil => cases hc
      | @cons q _ b _ hb _ =>
        have hq : ¬ q.isHead = true := fun hq => by
          have := (isChain_cons_cons.mp hps).1 hq
          rw [hp] at this
          cases this
        cases hb with
        | blank hblank =>
          cases hc
          exact isIdentChar_of_isBlank hblank
        | child | id | cls | bracket =>
          cases hc
          rfl
        | any | tag => exact absurd rfl hq
    rw [pieces?_append ha hstop, ih hps.tail]
    rfl

/-! ### Assembly -/

/-- A chain that was put together, and what joins it to the next compound. -/
abbrev Assembly.of (z : Complex) (pending : Option Combinator) : Assembly :=
  { context := z.context, current := some z.subject, pending }

theorem Assembly.step_first
    (hm : m.settle = { context }) (hp : p.isJoint = false) :
    m.step p = some (of ⟨p.ask {}, context⟩ none) := by
  cases p with
  | blank | child => cases hp
  | _ => simp [step, hm, add, Piece.ask]

theorem Assembly.step_test (hjoint : p.isJoint = false) (hhead : p.isHead = false) :
    (of z none).step p = some (of ⟨p.ask z.subject, z.context⟩ none) := by
  cases p with
  | blank | child => cases hjoint
  | any | tag => cases hhead
  | _ => rfl

theorem Assembly.step_joint (hp : p.isJoint = true) (pending : Option Combinator) :
    (of z pending).step p = some (of z (some (if p = .child then .child else pending.getD .descendant))) := by
  cases p with
  | blank => cases pending <;> rfl
  | child => rfl
  | _ => cases hp

theorem Asks.foldlM (h : Asks ps x)
    (hm : m.settle = { context }) : ps.foldlM Assembly.step m = some (.of ⟨x, context⟩ none) := by
  induction h with
  | first hp => simp [Assembly.step_first hm hp]
  | test _ hjoint hhead ih => simp [ih, Assembly.step_test hjoint hhead]

/-- What joins compounds waits for the next one. -/
theorem Joins.foldlM (h : Joins js k) (z : Complex) :
    js.foldlM Assembly.step (.of z none) = some (.of z (some k)) := by
  obtain ⟨hne, hjs, rfl⟩ := h
  have hrun : ∀ pending, js.foldlM Assembly.step (.of z pending) =
      some (.of z (some (if .child ∈ js then .child else pending.getD .descendant))) := by
    induction js with
    | nil => exact absurd rfl hne
    | cons j js ih =>
      intro pending
      obtain ⟨hj, hjs⟩ := forall_mem_cons.mp hjs
      rw [foldlM_cons, Assembly.step_joint hj]
      by_cases hnil : js = []
      · simp [hnil, eq_comm]
      · rw [Option.bind_eq_bind, Option.bind_some, ih hnil hjs]
        by_cases hc : j = .child <;> simp [hc, eq_comm]
  exact hrun none

theorem Chained.foldlM (h : Chained ps z) : ps.foldlM Assembly.step {} = some (.of z none) := by
  induction h with
  | subject h => exact h.foldlM rfl
  | @join ps js qs z k x h hj hx ih =>
    have hqs : qs.foldlM Assembly.step (.of z (some k)) =
        some (.of ⟨x, (k, z.subject) :: z.context⟩ none) := hx.foldlM rfl
    rw [foldlM_append, foldlM_append, ih]
    simp [hj.foldlM, hqs]

/-- What was read up to some place: nothing, a chain, or a chain and what joins it to what follows. -/
inductive Reached : List Piece → Assembly → Prop where
  | start : Reached [] {}
  | chain {ps : List Piece} {z : Complex} (h : Chained ps z) : Reached ps (.of z none)
  | joint {ps js : List Piece} {z : Complex} {k : Combinator} (h : Chained ps z) (hj : Joins js k) :
    Reached (ps ++ js) (.of z (some k))

theorem Joins.snoc (h : Joins js k) (hp : p.isJoint = true) :
    Joins (js ++ [p]) (if p = .child then .child else k) := by
  obtain ⟨_, hjs, rfl⟩ := h
  refine ⟨by simp, forall_mem_append.mpr ⟨hjs, by simpa using hp⟩, ?_⟩
  by_cases hc : p = .child <;> simp [hc, eq_comm]

theorem Chained.test (h : Chained ps z) (hjoint : p.isJoint = false) (hhead : p.isHead = false) :
    Chained (ps ++ [p]) ⟨p.ask z.subject, z.context⟩ := by
  cases h with
  | subject h => exact .subject (h.test hjoint hhead)
  | join h hj hx =>
    rw [append_assoc]
    exact .join h hj (hx.test hjoint hhead)

theorem Reached.step {m' : Assembly} (h : Reached ps m) (hp : ps = [] → p ≠ .blank)
    (hm : m.step p = some m') : Reached (ps ++ [p]) m' := by
  cases hjoint : p.isJoint with
  | true =>
    cases h with
    | start =>
      cases p with
      | blank => exact absurd rfl (hp rfl)
      | child => cases hm
      | _ => cases hjoint
    | chain h =>
      cases (Assembly.step_joint hjoint none).symm.trans hm
      exact .joint h ⟨cons_ne_nil _ _, by simpa using hjoint, by simp [eq_comm]⟩
    | @joint ps js z k h hj =>
      cases (Assembly.step_joint hjoint (some k)).symm.trans hm
      rw [append_assoc]
      exact .joint h (hj.snoc hjoint)
  | false =>
    cases h with
    | start =>
      cases (Assembly.step_first rfl hjoint).symm.trans hm
      exact .chain (.subject (.first hjoint))
    | chain h =>
      cases hhead : p.isHead with
      | true =>
        -- No tag or star is taken within a compound.
        cases p with
        | any | tag => cases hm
        | _ => cases hhead
      | false =>
        cases (Assembly.step_test hjoint hhead).symm.trans hm
        exact .chain (h.test hjoint hhead)
    | joint h hj =>
      cases (Assembly.step_first rfl hjoint).symm.trans hm
      exact .chain (.join h hj (.first hjoint))

theorem reached_of_foldlM (hps : ps.head? ≠ some .blank)
    (h : ps.foldlM Assembly.step {} = some m) : Reached ps m := by
  induction ps using reverseRecOn generalizing m with
  | nil =>
    cases h
    exact .start
  | append_singleton ps p ih =>
    rw [foldlM_append] at h
    obtain ⟨m', hm', h⟩ := Option.bind_eq_some_iff.mp h
    obtain ⟨m'', hm, hp⟩ := Option.bind_eq_some_iff.mp h
    cases hp
    refine (ih (fun hb => hps ?_) hm').step ?_ hm
    · simp [hb]
    · rintro rfl rfl
      exact hps rfl

/-- A chain is read from the texts of its pieces, and from no other text. -/
theorem complex?_iff : complex? s = some z ↔ ∃ ps, Spelled ps (trim s) ∧ Chained ps z := by
  constructor
  · intro h
    obtain ⟨ps, hps, h⟩ := Option.bind_eq_some_iff.mp h
    obtain ⟨m, hm, hz⟩ := Option.bind_eq_some_iff.mp h
    have hspelled := spelled_of_pieces? hps
    have hfirst : ps.head? ≠ some .blank := by
      intro hb
      generalize hs : trim s = text at hspelled
      cases hspelled with
      | nil => cases hb
      | cons hp _ =>
        cases hb
        cases hp with
        | @blank c hc =>
          rename_i rest _
          have htrim := trim_trim s
          rw [hs, trim_blanks_append (by simpa using hc)] at htrim
          obtain ⟨a, b, -, -, hrest⟩ := exists_trim rest
          have hlength := congrArg length hrest
          rw [htrim] at hlength
          simp at hlength
          omega
        | bracket hp => cases hp
    refine ⟨ps, hspelled, ?_⟩
    cases reached_of_foldlM hfirst hm with
    | start => cases hz
    | chain h' =>
      cases hz
      exact h'
    | joint => cases hz
  · rintro ⟨ps, hspelled, h⟩
    have hpieces := pieces?_of_spelled hspelled h.isChain
    simp [complex?, hpieces, h.foldlM, Assembly.finish?]

theorem mapM_eq_ok_iff {α β ε : Type} {f : α → Except ε β} {as : List α} {bs : List β} :
    as.mapM f = .ok bs ↔ Forall₂ (fun a b => f a = .ok b) as bs := by
  induction as generalizing bs with
  | nil =>
    rw [forall₂_nil_left_iff]
    exact ⟨fun h => (Except.ok.inj h).symm, fun h => h ▸ rfl⟩
  | cons a as ih =>
    rw [mapM_cons, forall₂_cons_left_iff]
    simp only [← ih]
    cases f a with
    | error e => simp [bind, Except.bind]
    | ok b => cases as.mapM f <;> simp [bind, Except.bind, pure, Except.pure, eq_comm]

theorem parse_eq_ok_iff {text : String} {zs : Selector} : parse text = .ok zs ↔
    Forall₂ (fun part z => ∃ ps, Spelled ps (trim part) ∧ Chained ps z)
      (Text.splitOn ',' text.toList) zs := by
  rw [parse, mapM_eq_ok_iff]
  constructor
  · refine Forall₂.imp fun part z h => complex?_iff.mp ?_
    split at h
    · cases h
      assumption
    · cases h
  · refine Forall₂.imp fun part z h => ?_
    simp [complex?_iff.mpr h]

/-- A text is a selector exactly if each part between two commas is, without the blanks around it, a chain
of compounds. -/
theorem parse_succeeds_iff (text : String) : (∃ zs, parse text = .ok zs) ↔
    ∀ part ∈ Text.splitOn ',' text.toList, ∃ ps z, Spelled ps (trim part) ∧ Chained ps z := by
  simp only [parse_eq_ok_iff]
  generalize Text.splitOn ',' text.toList = parts
  induction parts with
  | nil => simp
  | cons part parts ih =>
    simp only [forall₂_cons_left_iff, forall_mem_cons, ← ih]
    constructor
    · rintro ⟨_, z, zs, ⟨ps, hz⟩, hzs, -⟩
      exact ⟨⟨ps, z, hz⟩, zs, hzs⟩
    · rintro ⟨⟨ps, z, hz⟩, zs, hzs⟩
      exact ⟨_, z, zs, ⟨ps, hz⟩, hzs, rfl⟩

/-- Signs for children are read as one. -/
theorem parse_repeated_child :
    parse "a >> b" = .ok [⟨{ tag := some "b" }, [(.child, { tag := some "a" })]⟩] := by
  decide +kernel

/-! ### Printing -/

/-- How a piece of a compound is printed. -/
def Piece.text : Piece → List Char
  | .blank => [' ']
  | .child => ['>']
  | .any => ['*']
  | .tag name => name.toList
  | .id name => '#' :: name.toList
  | .cls name => '.' :: name.toList
  | .attribute name none => '[' :: (name.toList ++ [']'])
  | .attribute name (some value) => '[' :: (name.toList ++ '=' :: '"' :: (value.toList ++ ['"']) ++ [']'])

/-- What can be printed: names of characters for names, in small letters where they are not told from
capital ones, and values without the marks that end them. -/
def Piece.Plain : Piece → Prop
  | .tag name => IsName name.toList ∧ name.toLower = name
  | .id name | .cls name => IsName name.toList
  | .attribute name value => IsName name.toList ∧ name.toLower = name ∧
    ∀ v ∈ value, ',' ∉ v.toList ∧ ']' ∉ v.toList
  | _ => True

def tests (x : Compound) : List Piece :=
  x.id.toList.map .id ++ x.classes.map .cls ++ x.attributes.map fun t => .attribute t.1 t.2

/-- The pieces of a compound: its tag, its id, its classes and its attributes, or a star if it has none of
them. -/
def piecesOf (x : Compound) : List Piece :=
  match x.tag, tests x with
  | some tag, tests => .tag tag :: tests
  | none, [] => [.any]
  | none, tests => tests

/-- What is printed between two compounds. -/
def Joint (j : List Char) : Combinator → Prop
  | .descendant => j ≠ [] ∧ ∀ c ∈ j, isBlank c = true
  | .child => ∃ a b, (∀ c ∈ a, isBlank c = true) ∧ (∀ c ∈ b, isBlank c = true) ∧ j = a ++ '>' :: b

/-- How a chain is printed. -/
inductive Prints : Complex → List Char → Prop where
  | subject {x : Compound} (hx : ∀ p ∈ piecesOf x, p.Plain) :
    Prints ⟨x, []⟩ ((piecesOf x).flatMap Piece.text)
  | join {z : Complex} {s j : List Char} {k : Combinator} {x : Compound} (h : Prints z s)
    (hj : Joint j k) (hx : ∀ p ∈ piecesOf x, p.Plain) :
    Prints ⟨x, (k, z.subject) :: z.context⟩ (s ++ (j ++ (piecesOf x).flatMap Piece.text))

theorem solid_singleton (h : isBlank c = false) : Solid [c] :=
  solid_of_forall (cons_ne_nil _ _) (by simpa using h)

theorem unquoted_quoted (value : List Char) : unquoted (trim ('"' :: (value ++ ['"']))) = value := by
  have htrim : trim ('"' :: (value ++ ['"'])) = '"' :: (value ++ ['"']) := by
    have hsolid : Solid ['"'] := solid_singleton rfl
    simpa using (hsolid.append hsolid value).trim_eq (a := []) (b := []) nofun nofun
  rw [htrim]
  simp [unquoted, unquote?]

theorem Piece.Plain.spells (h : p.Plain) : Spells p p.text := by
  cases p with
  | blank => exact .blank rfl
  | child => exact .child
  | any => exact .any
  | tag name =>
    have hspells := Spells.tag h.1
    rwa [String.ofList_toList, h.2] at hspells
  | id name =>
    have hspells := Spells.id h
    rwa [String.ofList_toList] at hspells
  | cls name =>
    have hspells := Spells.cls h
    rwa [String.ofList_toList] at hspells
  | «attribute» name value =>
    obtain ⟨hname, hlower, hvalue⟩ := h
    have hclose : ']' ∉ name.toList := by
      simpa using hname.notMem (a := []) (b := []) (c := ']') nofun nofun rfl rfl
    cases value with
    | none =>
      have hb := Bracketed.has (a := []) (b := []) hname nofun nofun
      rw [String.ofList_toList, hlower, append_nil] at hb
      exact .bracket hb hclose
    | some v =>
      have hb := Bracketed.equals (a := []) (b := []) hname nofun nofun ('"' :: (v.toList ++ ['"']))
      rw [String.ofList_toList, hlower, append_nil, unquoted_quoted, String.ofList_toList] at hb
      refine .bracket hb ?_
      simp [hclose, (hvalue v rfl).2]

theorem Piece.Plain.notMem (h : p.Plain) : ',' ∉ p.text := by
  have hname : ∀ {name : String}, IsName name.toList → ',' ∉ name.toList := by
    intro name h
    simpa using h.notMem (a := []) (b := []) nofun nofun rfl rfl
  cases p with
  | blank | child | any => simp [text]
  | tag name => exact hname h.1
  | id name | cls name => simp [text, hname h]
  | «attribute» name value =>
    cases value with
    | none => simp [text, hname h.1]
    | some v => simp [text, hname h.1, (h.2.2 v rfl).1]

theorem Spells.solid (h : Spells p a) (hp : p.isJoint = false) : Solid a := by
  cases h with
  | blank | child => cases hp
  | any => exact solid_singleton rfl
  | tag h => exact h.solid
  | id h | cls h => exact (solid_singleton rfl).append h.solid []
  | bracket => exact (solid_singleton rfl).append (solid_singleton rfl) _

theorem Spelled.append (ha : Spelled ps a) (hb : Spelled qs b) : Spelled (ps ++ qs) (a ++ b) := by
  induction ha with
  | nil => exact hb
  | cons h _ ih =>
    rw [append_assoc]
    exact .cons h ih

theorem spelled_flatMap (h : ∀ p ∈ ps, p.Plain) : Spelled ps (ps.flatMap Piece.text) := by
  induction ps with
  | nil => exact .nil
  | cons p ps ih =>
    obtain ⟨hp, hps⟩ := forall_mem_cons.mp h
    exact .cons hp.spells (ih hps)

theorem spelled_blanks (h : ∀ c ∈ s, isBlank c = true) : Spelled (s.map fun _ => .blank) s := by
  induction s with
  | nil => exact .nil
  | cons c s ih =>
    obtain ⟨hc, hs⟩ := forall_mem_cons.mp h
    exact .cons (.blank hc) (ih hs)

theorem isTest_of_mem_tests (hp : p ∈ tests x) : p.isJoint = false ∧ p.isHead = false := by
  simp only [tests, mem_append, mem_map] at hp
  rcases hp with (⟨_, _, rfl⟩ | ⟨_, _, rfl⟩) | ⟨_, _, rfl⟩ <;> exact ⟨rfl, rfl⟩

theorem foldl_tests (x : Compound) : (tests x).foldl Piece.ask { tag := x.tag } = x := by
  have hcls : ∀ (cs : List String) (y : Compound),
      (cs.map Piece.cls).foldl Piece.ask y = { y with classes := y.classes ++ cs } := by
    intro cs
    induction cs with
    | nil => simp
    | cons c cs ih => simp [ih, Piece.ask]
  have hattributes : ∀ (ts : List (String × Option String)) (y : Compound),
      (ts.map fun t => Piece.attribute t.1 t.2).foldl Piece.ask y =
        { y with attributes := y.attributes ++ ts } := by
    intro ts
    induction ts with
    | nil => simp
    | cons t ts ih => simp [ih, Piece.ask]
  rw [tests, foldl_append, foldl_append, hcls, hattributes]
  obtain ⟨_, _ | i, _, _⟩ := x <;> rfl

theorem Asks.tests (h : Asks ps y) (hqs : ∀ q ∈ qs, q.isJoint = false ∧ q.isHead = false) :
    Asks (ps ++ qs) (qs.foldl Piece.ask y) := by
  induction qs generalizing ps y with
  | nil => simpa using h
  | cons q qs ih =>
    obtain ⟨hq, hqs⟩ := forall_mem_cons.mp hqs
    simpa using ih (h.test hq.1 hq.2) hqs

theorem asks_piecesOf (x : Compound) : Asks (piecesOf x) x := by
  have hx := foldl_tests x
  have htests : ∀ p ∈ tests x, p.isJoint = false ∧ p.isHead = false := fun _ => isTest_of_mem_tests
  unfold piecesOf
  generalize tests x = ts at hx htests
  cases htag : x.tag with
  | some tag =>
    have hasks := (Asks.first (p := .tag tag) rfl).tests htests
    rw [htag] at hx
    rwa [show (Piece.tag tag).ask {} = { tag := some tag } from rfl, hx] at hasks
  | none =>
    rw [htag] at hx
    cases ts with
    | nil =>
      have hasks := Asks.first (p := .any) rfl
      rwa [show Piece.any.ask {} = x from hx] at hasks
    | cons p ts =>
      obtain ⟨hp, hts⟩ := forall_mem_cons.mp htests
      have hasks := (Asks.first hp.1).tests hts
      rwa [show ts.foldl Piece.ask (p.ask {}) = x from hx] at hasks

theorem Asks.solid (h : Asks ps x) (hps : ∀ p ∈ ps, p.Plain) : Solid (ps.flatMap Piece.text) := by
  induction h with
  | first hp => simpa using (hps _ (.head _)).spells.solid hp
  | test _ hp _ ih =>
    obtain ⟨hps, hq⟩ := forall_mem_append.mp hps
    simpa using (ih hps).append ((hq _ (.head _)).spells.solid hp) []

theorem Joint.spelled {j : List Char} (h : Joint j k) : ∃ js, Spelled js j ∧ Joins js k ∧ ',' ∉ j := by
  cases k with
  | descendant =>
    obtain ⟨hne, hj⟩ := h
    exact ⟨_, spelled_blanks hj, ⟨by simpa using hne, by simp [Piece.isJoint], by simp⟩, notMem_of_blanks hj rfl⟩
  | child =>
    obtain ⟨a, b, ha, hb, rfl⟩ := h
    have hjs := (spelled_blanks ha).append ((spelled_blanks hb).cons .child)
    refine ⟨_, hjs, ⟨by simp, ?_, by simp⟩, ?_⟩
    · simp [or_imp, forall_and, Piece.isJoint]
    · simp [notMem_of_blanks (c := ',') ha rfl, notMem_of_blanks (c := ',') hb rfl]

/-- What is printed for a chain spells its pieces. -/
theorem Prints.spelled (h : Prints z s) :
    ∃ ps, Spelled ps s ∧ Chained ps z ∧ Solid s ∧ ',' ∉ s := by
  have hcomma : ∀ {ps : List Piece}, (∀ p ∈ ps, p.Plain) → ',' ∉ ps.flatMap Piece.text := by
    intro ps h hmem
    obtain ⟨p, hp, hc⟩ := mem_flatMap.mp hmem
    exact (h p hp).notMem hc
  induction h with
  | @subject x hx =>
    have hasks := asks_piecesOf x
    exact ⟨piecesOf x, spelled_flatMap hx, .subject hasks, hasks.solid hx, hcomma hx⟩
  | @join z s j k x _ hj hx ih =>
    obtain ⟨ps, hps, hz, hsolid, hs⟩ := ih
    obtain ⟨js, hjs, hjoins, hj⟩ := hj.spelled
    have hasks := asks_piecesOf x
    refine ⟨_, hps.append (hjs.append (spelled_flatMap hx)), ?_, hsolid.append (hasks.solid hx) j, ?_⟩
    · rw [← append_assoc]
      exact .join hz hjoins hasks
    · simp [hs, hj, hcomma hx]

/-- Parsing undoes printing, with any blanks around the alternatives. -/
theorem parse_printed {zs : Selector} {texts : List (List Char)} (hne : zs ≠ [])
    (h : Forall₂ (fun z text => ∃ a s b, Prints z s ∧ (∀ c ∈ a, isBlank c = true) ∧
      (∀ c ∈ b, isBlank c = true) ∧ text = a ++ (s ++ b)) zs texts) :
    parse (String.ofList (joinWith [','] texts)) = .ok zs := by
  have hparts : Forall₂ (fun text z => ',' ∉ text ∧ ∃ ps, Spelled ps (trim text) ∧ Chained ps z)
      texts zs := by
    refine h.flip.imp ?_
    rintro z text ⟨a, s, b, hs, ha, hb, rfl⟩
    obtain ⟨ps, hps, hz, hsolid, hcomma⟩ := hs.spelled
    rw [hsolid.trim_eq ha hb]
    refine ⟨?_, ps, hps, hz⟩
    simp [notMem_of_blanks (c := ',') ha rfl, notMem_of_blanks (c := ',') hb rfl, hcomma]
  have htexts : texts ≠ [] := by
    rintro rfl
    cases h
    exact hne rfl
  obtain ⟨hcommas, hparts⟩ := (forall₂_and_left _ _).mp hparts
  rw [parse_eq_ok_iff, String.toList_ofList, splitOn_joinWith htexts hcommas]
  exact hparts

theorem parse_printed_title : parse "* > [title=\"> x\"]" =
    .ok [⟨{ attributes := [("title", some "> x")] }, [(.child, {})]⟩] := by
  have htitle : ∀ p ∈ piecesOf { attributes := [("title", some "> x")] }, p.Plain := by
    simp [piecesOf, tests, Piece.Plain, IsName]
    decide +kernel
  have hstar : ∀ p ∈ piecesOf {}, p.Plain := by simp [piecesOf, tests, Piece.Plain]
  have hblank : ∀ c ∈ [' '], isBlank c = true := by simp [isBlank]
  have hjoint : Joint " > ".toList .child := ⟨[' '], [' '], hblank, hblank, rfl⟩
  have hprints := (Prints.subject hstar).join hjoint htitle
  exact parse_printed (cons_ne_nil _ _) (.cons ⟨[], _, [], hprints, by simp, by simp, rfl⟩ .nil)

end Componentry.Document.Selector
