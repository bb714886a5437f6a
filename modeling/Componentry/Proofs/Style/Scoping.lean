import Componentry.Proofs.Keyed
import Componentry.Style.Region

/-!
# Scopes of variables

A variable that is set in a block holds up to the end of the block: if nothing behind it in the block
refers to it, the sheet compiles to the same text without it. Rules of a kind that is not known are the
exception. They are copied as they stand, and a variable that is set in a rule inside them goes on to
hold up to the end of the outermost such rule, and for the heads of the rules around it as well.
-/

namespace Componentry.Style

open List

variable {name : String} {v w : Variables} {s : List Char}

/-! ### References -/

/-- A text refers to a variable: a dollar sign stands before its name. -/
def Refers (name : String) (s : List Char) : Prop :=
  ∃ before rest, s = before ++ '$' :: rest ∧ rest.head?.any isVariableStart ∧
    rest.takeWhile isVariableChar = name.toList

theorem Refers.append (h : Refers name s) (before : List Char) : Refers name (before ++ s) := by
  obtain ⟨before', rest, rfl, hrest⟩ := h
  exact ⟨before ++ before', rest, by rw [append_assoc], hrest⟩

mutual

def Statement.Refers (name : String) : Statement → Prop
  | .variable _ text | .declaration text | .command text => Style.Refers name text
  | .rule head body => Style.Refers name head ∨ ReferAll name body

def ReferAll (name : String) : List Statement → Prop
  | [] => False
  | s :: rest => s.Refers name ∨ ReferAll name rest

end

/-- Variables have the same values, but perhaps for one. -/
def Agree (name : String) (v w : Variables) : Prop := ∀ other ≠ name, v.find? other = w.find? other

theorem Agree.insert (h : Agree name v w) (other : String) (value : List Char) :
    Agree name (v.insert other value) (w.insert other value) := by
  intro third hne
  rw [Dictionary.find?_insert, Dictionary.find?_insert, h third hne]

theorem agree_insert (name : String) (v : Variables) (value : List Char) :
    Agree name (v.insert name value) v := by
  intro other hne
  rw [Dictionary.find?_insert, if_neg hne]

theorem Agree.find?_eq (h : Agree name v w) {c : Char} {rest : List Char}
    (hc : isVariableStart c = true) (hs : ¬ Refers name ('$' :: c :: rest)) :
    v.find? (String.ofList (c :: rest.takeWhile isVariableChar)) =
      w.find? (String.ofList (c :: rest.takeWhile isVariableChar)) := by
  refine h _ fun he => hs ⟨[], c :: rest, rfl, hc, ?_⟩
  have hchar : isVariableChar c = true := by
    unfold isVariableStart at hc
    unfold isVariableChar Char.isAlphanum
    cases hp : c.isAlpha <;> simp_all
  rw [takeWhile_cons_of_pos hchar, ← he, String.toList_ofList]

theorem substitute_congr (h : Agree name v w) (hs : ¬ Refers name s) :
    substitute v s = substitute w s := by
  fun_induction substitute v s with
  | case1 => rw [substitute]
  | case2 c rest hc other hnone =>
    rw [h.find?_eq hc hs] at hnone
    rw [substitute, if_pos hc]
    simp only [hnone, other]
  | case3 c rest hc other value hvalue ih =>
    have hrest : ¬ Refers name (rest.dropWhile isVariableChar) := fun hr => hs <| by
      simpa using hr.append ('$' :: c :: rest.takeWhile isVariableChar)
    rw [h.find?_eq hc hs] at hvalue
    rw [substitute, if_pos hc, ih hrest]
    simp only [hvalue]
  | case4 c rest hc ih =>
    rw [substitute, if_neg hc, ih fun hr => hs (hr.append ['$'])]
  | case5 c rest hne ih =>
    rw [substitute.eq_3 _ _ _ hne, ih fun hr => hs (hr.append [c])]

/-! ### Results that follow each other -/

variable {α β γ δ : Type} {R : α → β → Prop} {S : γ → δ → Prop}
  {a : Except StyleFault α} {b : Except StyleFault β}

/-- If the first gives a result, so does the second, and the results are related. -/
def Follows (R : α → β → Prop) (a : Except StyleFault α) (b : Except StyleFault β) : Prop :=
  ∀ x, a = .ok x → ∃ y, b = .ok y ∧ R x y

namespace Follows

theorem pure {x : α} {y : β} (h : R x y) : Follows R (pure x) (pure y) := by
  rintro _ ⟨⟩
  exact ⟨y, rfl, h⟩

variable {k : α → Except StyleFault γ}

theorem bind {l : β → Except StyleFault δ} (h : Follows R a b)
    (hk : ∀ x y, R x y → Follows S (k x) (l y)) : Follows S (a >>= k) (b >>= l) := by
  intro z hz
  cases a with
  | error e => cases hz
  | ok x =>
    obtain ⟨y, rfl, hxy⟩ := h x rfl
    exact hk x y hxy z hz

theorem skip {c : Except StyleFault δ} (hk : ∀ x, Follows S (k x) c) : Follows S (a >>= k) c := by
  intro z hz
  cases a with
  | error e => cases hz
  | ok x => exact hk x z hz

theorem same {l : α → Except StyleFault δ}
    (hk : ∀ x, a = .ok x → Follows S (k x) (l x)) : Follows S (a >>= k) (a >>= l) :=
  bind (R := fun x y => a = .ok x ∧ x = y) (fun x hx => ⟨x, hx, hx, rfl⟩)
    fun x _ ⟨hx, he⟩ => he ▸ hk x hx

end Follows

/-! ### Statements that do not refer to a variable -/

def SameText (name : String) (x y : Variables × List Char) : Prop := Agree name x.1 y.1 ∧ x.2 = y.2

/-- The same block, with variables that agree. -/
def SameFlat (name : String) (f g : Flat) : Prop :=
  Agree name f.vars g.vars ∧ g = { f with vars := g.vars }

theorem Agree.sameFlat (h : Agree name v w) (f : Flat) :
    SameFlat name { f with vars := v } { f with vars := w } := ⟨h, rfl⟩

theorem verbatim_rule (v : Variables) (head : List Char) (body : List Statement) :
    verbatim v (.rule head body) = (do
      let x ← verbatimAll v body
      return (x.1, block (← substitute x.1 head) x.2)) := by
  rw [verbatim]

mutual

theorem verbatim_congr {v w : Variables} (h : Agree name v w) : ∀ s : Statement, ¬ s.Refers name →
    Follows (SameText name) (verbatim v s) (verbatim w s)
  | .variable n value, hs => by
    unfold verbatim
    rw [substitute_congr h hs]
    exact .same fun x _ => .pure ⟨h.insert _ _, rfl⟩
  | .declaration text, hs | .command text, hs => by
    unfold verbatim
    rw [substitute_congr h hs]
    exact .same fun x _ => .pure ⟨h, rfl⟩
  | .rule head body, hs => by
    rw [verbatim_rule, verbatim_rule]
    refine .bind (verbatimAll_congr h body fun hb => hs (.inr hb)) fun x y hxy => ?_
    rw [substitute_congr hxy.1 fun hh => hs (.inl hh), hxy.2]
    exact .same fun x _ => .pure ⟨hxy.1, rfl⟩

theorem verbatimAll_congr {v w : Variables} (h : Agree name v w) : ∀ l : List Statement,
    ¬ ReferAll name l → Follows (SameText name) (verbatimAll v l) (verbatimAll w l)
  | [], _ => .pure ⟨h, rfl⟩
  | s :: rest, hs => by
    unfold verbatimAll
    refine .bind (verbatim_congr h s fun hb => hs (.inl hb)) fun x y hxy => ?_
    refine .bind (verbatimAll_congr hxy.1 rest fun hb => hs (.inr hb)) fun z u hzu => ?_
    exact .pure ⟨hzu.1, by rw [hxy.2, hzu.2]⟩

end

variable (parents : List (List Char))

/-- What a rule inside others adds to the text. -/
def ruleText (vars : Variables) (isAt : Bool) (text : List Char)
    (body : List Statement) : Except StyleFault (List Char) :=
  if isAt then
    if conditionalNames.contains (atName text) then do
      return block text ((← flattenAll parents { vars } body).text parents)
    else do return block text (← verbatimAll vars body).2
  else do return (← flattenAll (resolve parents text) { vars } body).text (resolve parents text)

theorem flattenOne_ruleText (f : Flat) (head : List Char)
    (body : List Statement) : flattenOne parents f (.rule head body) = (do
      let text ← substitute f.vars head
      let more ← ruleText parents f.vars (head.head? == some '@') text body
      return { f with later := f.later ++ more }) := by
  unfold flattenOne ruleText
  refine bind_congr fun text => ?_
  split
  · split <;> simp
  · simp

theorem ruleText_follows {isAt : Bool} {text : List Char}
    {body body' : List Statement}
    (hflat : ∀ parents, Follows (SameFlat name) (flattenAll parents { vars := v } body)
      (flattenAll parents { vars := w } body'))
    (hcopy : isAt = true → ¬ conditionalNames.contains (atName text) →
      Follows (SameText name) (verbatimAll v body) (verbatimAll w body')) :
    Follows Eq (ruleText parents v isAt text body) (ruleText parents w isAt text body') := by
  unfold ruleText
  split
  · split
    · exact .bind (hflat parents) fun f g hfg => .pure (by rw [hfg.2]; rfl)
    next hat hcond => exact .bind (hcopy hat hcond) fun x y hxy => .pure (by rw [hxy.2])
  · exact .bind (hflat _) fun f g hfg => .pure (by rw [hfg.2]; rfl)

mutual

theorem flattenOne_congr (parents : List (List Char)) {f g : Flat} (h : SameFlat name f g) :
    ∀ s : Statement, ¬ s.Refers name →
      Follows (SameFlat name) (flattenOne parents f s) (flattenOne parents g s)
  | .variable n value, hs => by
    unfold flattenOne
    rw [substitute_congr h.1 hs]
    exact .same fun x _ => .pure ⟨h.1.insert _ _, by rw [h.2]⟩
  | .declaration text, hs => by
    unfold flattenOne
    rw [substitute_congr h.1 hs]
    split
    · rintro _ ⟨⟩
    · exact .same fun x _ => .pure ⟨h.1, by rw [h.2]⟩
  | .command text, hs => by
    unfold flattenOne
    rw [substitute_congr h.1 hs]
    exact .same fun x _ => .pure ⟨h.1, by rw [h.2]⟩
  | .rule head body, hs => by
    rw [flattenOne_ruleText, flattenOne_ruleText, substitute_congr h.1 fun hh => hs (.inl hh)]
    have hbody : ¬ ReferAll name body := fun hb => hs (.inr hb)
    exact .same fun text _ => .bind
      (ruleText_follows parents (fun parents => flattenAll_congr parents (h.1.sameFlat {}) body hbody)
        fun _ _ => verbatimAll_congr h.1 body hbody)
      fun more _ he => he ▸ .pure ⟨h.1, by rw [h.2]⟩

theorem flattenAll_congr (parents : List (List Char)) {f g : Flat} (h : SameFlat name f g) :
    ∀ l : List Statement, ¬ ReferAll name l →
      Follows (SameFlat name) (flattenAll parents f l) (flattenAll parents g l)
  | [], _ => .pure h
  | s :: rest, hs => by
    unfold flattenAll
    exact .bind (flattenOne_congr parents h s fun hb => hs (.inl hb)) fun x y hxy =>
      flattenAll_congr parents hxy rest fun hb => hs (.inr hb)

end

/-! ### Deleting a variable -/

/-- The block of a rule has variables of its own: the rule does not start with an at sign, or it is one
of those that hold rules, whatever its variables stand for. -/
def IsScope (head : List Char) : Prop := head.head? = some '@' →
  ∀ v text, substitute v head = .ok text → conditionalNames.contains (atName text) = true

/-- The statements of a block but for one, which sets a variable. Nothing behind it in its block refers
to the variable. Within rules that are not scopes, blocks are parts of the block around them: nothing
behind the statement in the outermost such rule refers to it, nor do the heads of rules around it. -/
inductive Deleted (name : String) : Bool → List Statement → List Statement → Prop where
  | here {copied : Bool} {n value : List Char} {rest : List Statement} (hn : String.ofList n = name)
    (hrest : ¬ ReferAll name rest) : Deleted name copied (.variable n value :: rest) rest
  | later {copied : Bool} (s : Statement) {l l' : List Statement} (h : Deleted name copied l l') :
    Deleted name copied (s :: l) (s :: l')
  | inside {copied inner : Bool} {head : List Char} {body body' rest : List Statement}
    (h : Deleted name inner body body') (hinner : IsScope head ∨ inner = true)
    (hcopied : copied = true → inner = true ∧ ¬ Refers name head ∧ ¬ ReferAll name rest) :
    Deleted name copied (.rule head body :: rest) (.rule head body' :: rest)

theorem Deleted.follows {copied : Bool} {l l' : List Statement} (h : Deleted name copied l l') :
    (∀ parents f, Follows (SameFlat name) (flattenAll parents f l) (flattenAll parents f l')) ∧
      (copied = true → ∀ v, Follows (SameText name) (verbatimAll v l) (verbatimAll v l')) := by
  induction h with
  | here hn hrest =>
    subst hn
    refine ⟨fun parents f => ?_, fun _ v => ?_⟩
    · rw [flattenAll, flattenOne, bind_assoc]
      refine .skip fun value => ?_
      exact flattenAll_congr parents ((agree_insert _ f.vars value).sameFlat f) _ hrest
    · rw [verbatimAll, verbatim, bind_assoc]
      refine .skip fun value => ?_
      rw [pure_bind, ← bind_pure (verbatimAll v _)]
      exact .bind (verbatimAll_congr (agree_insert _ v value) _ hrest) fun x y hxy => .pure hxy
  | later s h ih =>
    refine ⟨fun parents f => ?_, fun hc v => ?_⟩
    · exact .same fun f _ => ih.1 parents f
    · exact .same fun x _ => .bind (ih.2 hc x.1) fun x y hxy => .pure ⟨hxy.1, by rw [hxy.2]⟩
  | @inside copied inner head body body' rest h hinner hcopied ih =>
    refine ⟨fun parents f => ?_, fun hc v => ?_⟩
    · unfold flattenAll
      rw [flattenOne_ruleText, flattenOne_ruleText, bind_assoc, bind_assoc]
      refine .same fun text htext => ?_
      rw [bind_assoc, bind_assoc]
      refine .bind (ruleText_follows parents (fun parents => ih.1 parents _) fun hat hcond => ih.2 ?_ _)
        fun more _ he => he ▸ ?_
      · exact hinner.resolve_left fun hscope => hcond (hscope (eq_of_beq hat) _ _ htext)
      · exact fun g hg => ⟨g, hg, fun _ _ => rfl, rfl⟩
    · obtain ⟨hinner, hhead, hrest⟩ := hcopied hc
      unfold verbatimAll
      rw [verbatim_rule, verbatim_rule, bind_assoc, bind_assoc]
      refine .bind (ih.2 hinner v) fun x y hxy => ?_
      rw [substitute_congr hxy.1 hhead, hxy.2, bind_assoc, bind_assoc]
      refine .same fun text _ => ?_
      rw [pure_bind, pure_bind]
      exact .bind (verbatimAll_congr hxy.1 rest hrest) fun x y hxy => .pure ⟨hxy.1, by rw [hxy.2]⟩

/-- Variables hold in their block: where nothing behind it in its block refers to a variable, the sheet
compiles to the same text without it. -/
theorem compile_deleted (source source' : String) {l l' : List Statement}
    (hl : statements (withoutComments none source.toList) = .ok l)
    (hl' : statements (withoutComments none source'.toList) = .ok l')
    (hd : Deleted name false l l') {css : String} (hcss : compile source = .ok css) :
    compile source' = .ok css := by
  have hfollows : Follows Eq (compile source) (compile source') := by
    unfold compile
    rw [hl, hl']
    change Follows Eq (flattenAll [] {} l >>= _) (flattenAll [] {} l' >>= _)
    refine .bind (hd.follows.1 [] {}) fun f g hfg => .pure ?_
    rw [hfg.2]
    rfl
  obtain ⟨_, hcss', rfl⟩ := hfollows css hcss
  exact hcss'

/-- A variable is set where nothing reads it, in a rule inside a rule that holds rules. -/
theorem compile_deleted_print :
    (compile "@media print \x7b p \x7b color: red; $a: blue; \x7d \x7d").toOption =
      some "@media print \x7b\np \x7b\n  color: red;\n\x7d\n\x7d" ∧
    compile "@media print \x7b p \x7b color: red; \x7d \x7d" =
      .ok "@media print \x7b\np \x7b\n  color: red;\n\x7d\n\x7d" := by
  have hstyle : IsScope ['p'] := fun h => absurd h (by decide)
  have hprint : IsScope "@media print".toList := by
    intro _ v text htext
    simp [substitute] at htext
    subst htext
    decide
  have hrule : Deleted "a" false
      [.rule ['p'] [.declaration "color: red".toList, .variable ['a'] "blue".toList]]
      [.rule ['p'] [.declaration "color: red".toList]] :=
    .inside (show Deleted "a" false _ _ from .later _ (.here rfl id)) (.inl hstyle)
      fun h => absurd h Bool.false_ne_true
  exact ⟨by decide +kernel, compile_deleted
    "@media print \x7b p \x7b color: red; $a: blue; \x7d \x7d" _ (by with_unfolding_all rfl)
    (by with_unfolding_all rfl)
    (.inside hrule (.inl hprint) fun h => absurd h Bool.false_ne_true) (by decide +kernel)⟩

/-- In a rule that is copied as it stands, a variable that is set in a block holds behind the block. -/
theorem compile_leaks_variable :
    (compile "$a: blue; @keyframes x \x7b from \x7b $a: red; \x7d to \x7b color: $a; \x7d \x7d").toOption =
      some "@keyframes x \x7b\nfrom \x7b\n\x7d\nto \x7b\n  color: red;\n\x7d\n\x7d" ∧
    (compile "$a: blue; @keyframes x \x7b from \x7b \x7d to \x7b color: $a; \x7d \x7d").toOption =
      some "@keyframes x \x7b\nfrom \x7b\n\x7d\nto \x7b\n  color: blue;\n\x7d\n\x7d" := by
  decide +kernel

end Componentry.Style
