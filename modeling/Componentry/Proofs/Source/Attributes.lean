import Componentry.Proofs.Keyed
import Componentry.Proofs.Text.Scan
import Componentry.Source.Blocks
import Mathlib.Data.Option.Basic

/-!
# Attributes as they are written

Attributes of region tags with everything that can stand between their parts, and the text they are
written as. Reading that text gives every attribute back with its value, in order.
-/

namespace Componentry.Source

open Text List

abbrev Blanks := { s : List Char // ∀ c ∈ s, isBlank c = true }

/-- A text that can be a value. -/
abbrev Value := { s : List Char // ∀ c ∈ s, c ≠ '"' ∧ c ≠ '<' ∧ c ≠ '>' }

/-- How the value of an attribute is written; any blanks may stand around the equals sign. -/
inductive Spelling where
  | alone
  | double (before after : Blanks) (value : Value)
  | single (before after : Blanks) (value : Value) (h : '\x27' ∉ value.1)
  | bare (before after : Blanks) (value : Value) (hne : value.1 ≠ [])
    (h : ∀ c ∈ value.1, isBareChar c = true)

namespace Spelling

def text : Spelling → List Char
  | .alone => []
  | .double before after value => before.1 ++ '=' :: (after.1 ++ '"' :: (value.1 ++ ['"']))
  | .single before after value _ => before.1 ++ '=' :: (after.1 ++ '\x27' :: (value.1 ++ ['\x27']))
  | .bare before after value _ _ => before.1 ++ '=' :: (after.1 ++ value.1)

/-- The value that is written. -/
def written? : Spelling → Option (List Char)
  | .alone => none
  | .double _ _ value | .single _ _ value _ | .bare _ _ value _ _ => some value.1

def value (p : Spelling) : String := (p.written?.map String.ofList).getD presentValue

end Spelling

/-- An attribute of a script or style tag. -/
structure Attribute where
  gap : Blanks
  gap_ne : gap.1 ≠ []
  name : List Char
  name_ne : name ≠ []
  /-- It is made of characters for names. -/
  name_chars : ∀ c ∈ name, isAttributeChar c = true
  spelling : Spelling

namespace Attribute

def text (a : Attribute) : List Char := a.gap.1 ++ (a.name ++ a.spelling.text)

def entry (a : Attribute) : String × String := (lowerName a.name, a.spelling.value)

end Attribute

/-- An attribute of a route tag. -/
structure RouteAttribute where
  gap : Blanks
  gap_ne : gap.1 ≠ []
  /-- The first character of its name. -/
  first : Char
  first_start : isRouteNameStart first = true
  /-- The other characters of its name. -/
  others : List Char
  others_chars : ∀ c ∈ others, isRouteNameChar c = true
  before : Blanks
  after : Blanks
  value : Value

namespace RouteAttribute

def text (a : RouteAttribute) : List Char :=
  a.gap.1 ++ a.first ::
    (a.others ++ (a.before.1 ++ '=' :: (a.after.1 ++ '"' :: (a.value.1 ++ ['"']))))

/-- Its name and its value. -/
def entry (a : RouteAttribute) : String × String :=
  (String.ofList (a.first :: a.others), String.ofList a.value.1)

end RouteAttribute

/-! ### Characters -/

variable {c : Char} {s rest : List Char}

theorem foldCase_of_not_isUpper (h : c.isUpper = false) (hlong : c ≠ 'ſ')
    (hkelvin : c ≠ Char.ofNat 0x212A) : foldCase c = c ∧ c.toLower = c := by
  have hlower := toLower_eq h
  have hvals : ¬ c.val = 0x17F ∧ ¬ c.val = 0x212A :=
    ⟨fun he => hlong (Char.ext he), fun he => hkelvin (Char.ext he)⟩
  simp [foldCase, hvals, hlower]

section

variable (h : isBlank c = true)

include h

theorem foldCase_of_isBlank : foldCase c = c :=
  (foldCase_of_not_isUpper (isBlank_plain h).1 (ne_of_isBlank h rfl) (ne_of_isBlank h rfl)).1

theorem isAttributeChar_of_isBlank : isAttributeChar c = false := by
  obtain ⟨-, hlower, hdigit⟩ := isBlank_plain h
  have hmarks : [':', '_', '@', '.', '-'].contains c = false := by
    have hne := fun d => ne_of_isBlank (d := d) h
    simp [hne ':' rfl, hne '_' rfl, hne '@' rfl, hne '.' rfl, hne '-' rfl]
  simp only [isAttributeChar, foldCase_of_isBlank h, hlower, hdigit, hmarks, Bool.or_self]

theorem isRouteNameChar_of_isBlank : isRouteNameChar c = false := by
  have hne := fun d => ne_of_isBlank (d := d) h
  simp [isRouteNameChar, isRouteNameStart, isAlphanum_of_isBlank h, isBlank_plain h, hne '_' rfl,
    hne ':' rfl, hne '-' rfl, hne '.' rfl]

theorem isRouteNameStart_of_isBlank : isRouteNameStart c = false := by
  have hchar := isRouteNameChar_of_isBlank h
  simp only [isRouteNameChar, Bool.or_eq_false_iff] at hchar
  exact hchar.1.1.1

end

/-! ### Values -/

theorem afterBlanks_append (b : Blanks) (hs : ∀ c ∈ s.head?, isBlank c = false) :
    afterBlanks (b.1 ++ s) = s :=
  dropWhile_append_stop b.2 hs

theorem Blanks.head_append {f : Char → Bool} (b : Blanks) (hblank : ∀ {c}, isBlank c = true → f c = false)
    (hc : f c = false) (s : List Char) : ∀ d ∈ (b.1 ++ c :: s).head?, f d = false := by
  obtain ⟨b, hb⟩ := b
  cases b with
  | nil =>
    rintro d ⟨⟩
    exact hc
  | cons d b =>
    rintro d ⟨⟩
    exact hblank (hb _ (.head _))

theorem afterEquals?_append (before after : Blanks) (hs : ∀ c ∈ s.head?, isBlank c = false) :
    afterEquals? (before.1 ++ '=' :: (after.1 ++ s)) = some s := by
  have heq : ∀ c ∈ ('=' :: (after.1 ++ s)).head?, isBlank c = false := by
    rintro c ⟨⟩
    rfl
  simp [afterEquals?, afterBlanks_append before heq, afterBlanks_append after hs]

theorem quotedValue?_append {quote : Char} {value : List Char} (h : quote ∉ value)
    (rest : List Char) : quotedValue? quote (quote :: (value ++ quote :: rest)) = some (value, rest) := by
  simp only [quotedValue?, beq_self_eq_true]
  exact splitOnce_append h rest

theorem valueAt_quoted {quote : Char} (hquote : quote = '"' ∨ quote = '\x27') (before after : Blanks)
    {value : List Char} (h : quote ∉ value) (rest : List Char) :
    valueAt (before.1 ++ '=' :: (after.1 ++ quote :: (value ++ quote :: rest))) = some (value, rest) := by
  have hs : ∀ c ∈ (quote :: (value ++ quote :: rest)).head?, isBlank c = false := by
    rintro c ⟨⟩
    rcases hquote with rfl | rfl <;> rfl
  have hq := quotedValue?_append h rest
  rcases hquote with rfl | rfl
  · simp [valueAt, afterEquals?_append before after hs, hq]
  · have hdouble : quotedValue? '"' ('\x27' :: (value ++ '\x27' :: rest)) = none := rfl
    simp [valueAt, afterEquals?_append before after hs, hq, hdouble]

theorem Value.quote_not_mem (v : Value) : '"' ∉ v.1 := fun h => (v.2 _ h).1 rfl

/-- Without a value there is nothing to read before the next attribute. -/
theorem valueAt_alone (h : ∀ c ∈ (afterBlanks rest).head?, c ≠ '=') : valueAt rest = none := by
  have hnone : afterEquals? rest = none := by
    unfold afterEquals?
    split
    next he =>
      rw [he] at h
      exact absurd rfl (h '=' rfl)
    next => rfl
  simp [valueAt, hnone]

/-- A spelling of a value after a name, where nothing stands for no value. Quoted values may hold all but
their quotes. -/
inductive Spelt : List Char → Option (List Char) → Prop where
  | alone : Spelt [] none
  | quoted {quote : Char} (hquote : quote = '"' ∨ quote = '\x27') (before after : Blanks)
    {value : List Char} (h : quote ∉ value) :
    Spelt (before.1 ++ '=' :: (after.1 ++ quote :: (value ++ [quote]))) (some value)
  | bare (before after : Blanks) {value : List Char} (hne : value ≠ [])
    (h : ∀ c ∈ value, isBareChar c = true) : Spelt (before.1 ++ '=' :: (after.1 ++ value)) (some value)

theorem Spelling.spelt (p : Spelling) : Spelt p.text p.written? := by
  cases p with
  | alone => exact .alone
  | double before after value => exact .quoted (.inl rfl) before after value.quote_not_mem
  | single before after value h => exact .quoted (.inr rfl) before after h
  | bare before after value hne h => exact .bare before after hne h

theorem Spelt.eq_nil {text : List Char} (h : Spelt text none) : text = [] := by
  cases h
  rfl

theorem Spelt.valueAt_eq {text : List Char} {value : Option (List Char)} (h : Spelt text value)
    (hb : ∀ c ∈ rest.head?, isBlank c = true) (he : ∀ c ∈ (afterBlanks rest).head?, c ≠ '=') :
    valueAt (text ++ rest) = value.map (·, rest) := by
  cases h with
  | alone => exact valueAt_alone he
  | quoted hquote before after h =>
    simp only [append_assoc, cons_append]
    exact valueAt_quoted hquote before after h rest
  | @bare before after value hne h =>
    obtain ⟨d, value, rfl⟩ := exists_cons_of_ne_nil hne
    have hd := h d (.head _)
    simp only [isBareChar, Bool.and_eq_true, bne_iff_ne, Bool.not_eq_true'] at hd
    have hs : ∀ c ∈ (d :: value ++ rest).head?, isBlank c = false := by
      rintro c ⟨⟩
      exact hd.1.1.2
    have heq := afterEquals?_append before after hs
    have hstop : ∀ c ∈ rest.head?, isBareChar c = false := by
      intro c hc
      simp [isBareChar, hb c hc]
    have htake := takeWhile_append_stop h hstop
    have hdrop := dropWhile_append_stop h hstop
    simp only [cons_append] at heq htake hdrop ⊢
    simp [valueAt, heq, quotedValue?, hd.1.2, hd.2, bareValue?, htake, hdrop]

theorem Spelt.head {text : List Char} {value : Option (List Char)} (h : Spelt text value)
    (hb : ∀ c ∈ rest.head?, isBlank c = true) : ∀ c ∈ (text ++ rest).head?, isAttributeChar c = false := by
  cases h with
  | alone => exact fun c hc => isAttributeChar_of_isBlank (hb c hc)
  | quoted _ before | bare before =>
    rw [append_assoc]
    exact before.head_append isAttributeChar_of_isBlank rfl _

/-! ### Reading one after the other -/

/-- All that is found in a text from the left to the right; at most `fuel` characters remain. -/
def scanAll {α : Type} (find : List Char → Option (α × List Char)) : Nat → List Char → List α
  | 0, _ | _, [] => []
  | fuel + 1, c :: cs =>
    match find (c :: cs) with
    | some (a, rest) => a :: scanAll find fuel rest
    | none => scanAll find fuel cs

/-- A text reads as entries that are found in it. -/
def Reads (find : List Char → Option ((String × String) × List Char)) (s : List Char)
    (entries : List (String × String)) : Prop :=
  ∀ fuel, s.length ≤ fuel → scanAll find fuel s = entries

namespace Reads

variable {find : List Char → Option ((String × String) × List Char)} {entry : String × String}
  {entries : List (String × String)}

theorem nil : Reads find [] [] := fun fuel _ => by cases fuel <;> rfl

theorem found (hfind : find s = some (entry, rest)) (hlt : rest.length < s.length)
    (h : Reads find rest entries) : Reads find s (entry :: entries) := by
  intro fuel hfuel
  obtain ⟨c, s, rfl⟩ := exists_cons_of_length_pos (Nat.zero_lt_of_lt hlt)
  obtain ⟨fuel, rfl⟩ := Nat.exists_eq_add_of_lt (hlt.trans_le hfuel)
  simp [scanAll, hfind, h _ (Nat.le_add_right rest.length fuel)]

theorem blanks (hfind : ∀ c s, isBlank c = true → find (c :: s) = none) (b : Blanks)
    (h : Reads find s entries) : Reads find (b.1 ++ s) entries := by
  obtain ⟨b, hb⟩ := b
  induction b with
  | nil => exact h
  | cons c b ih =>
    obtain ⟨hc, hb⟩ := forall_mem_cons.mp hb
    intro fuel hfuel
    cases fuel with
    | zero => cases hfuel
    | succ fuel =>
      simp only [cons_append, scanAll, hfind c _ hc]
      exact ih hb fuel (Nat.le_of_succ_le_succ hfuel)

end Reads

/-! ### Attributes -/

/-- An attribute at the start of a text, and what follows. -/
def attributeAt : List Char → Option ((String × String) × List Char)
  | [] => none
  | c :: cs =>
    let name := lowerName ((c :: cs).takeWhile isAttributeChar)
    let rest := (c :: cs).dropWhile isAttributeChar
    if isAttributeChar c then
      some (match valueAt rest with
        | some (value, rest) => ((name, String.ofList value), rest)
        | none => ((name, presentValue), rest))
    else none

theorem attributesFrom_eq (fuel : Nat) (s : List Char) :
    attributesFrom fuel s = scanAll attributeAt fuel s := by
  induction fuel generalizing s with
  | zero => rfl
  | succ fuel ih =>
    cases s with
    | nil => rfl
    | cons c s =>
      simp only [attributesFrom, scanAll, attributeAt, ih]
      by_cases hc : isAttributeChar c = true
      · rw [if_pos hc, if_pos hc]
        cases valueAt ((c :: s).dropWhile isAttributeChar) <;> rfl
      · rw [if_neg hc, if_neg hc]

theorem attributeAt_of_isBlank (c : Char) (s : List Char) (h : isBlank c = true) :
    attributeAt (c :: s) = none := by
  simp [attributeAt, isAttributeChar_of_isBlank h]

/-- An attribute with the blanks before it. -/
structure Item where
  gap : Blanks
  name : List Char
  name_ne : name ≠ []
  name_chars : ∀ c ∈ name, isAttributeChar c = true
  spelling : List Char
  /-- Its value, if it does not stand alone. -/
  value? : Option (List Char)
  spelt : Spelt spelling value?

namespace Item

def text (a : Item) : List Char := a.gap.1 ++ (a.name ++ a.spelling)

/-- Its name and its value. -/
def entry (a : Item) : String × String :=
  (lowerName a.name, (a.value?.map String.ofList).getD presentValue)

theorem reads {entries : List (String × String)} (a : Item) (hb : ∀ c ∈ rest.head?, isBlank c = true)
    (he : ∀ c ∈ (afterBlanks rest).head?, c ≠ '=') (h : Reads attributeAt rest entries) :
    Reads attributeAt (a.text ++ rest) (a.entry :: entries) := by
  have hstop := a.spelt.head hb
  have htake := takeWhile_append_stop a.name_chars hstop
  have hdrop := dropWhile_append_stop a.name_chars hstop
  obtain ⟨d, name, hname⟩ := exists_cons_of_ne_nil a.name_ne
  have hd := a.name_chars d (hname ▸ (.head _))
  have hfind : attributeAt (a.name ++ (a.spelling ++ rest)) = some (a.entry, rest) := by
    rw [hname, cons_append] at htake hdrop ⊢
    simp only [attributeAt, htake, hdrop, a.spelt.valueAt_eq hb he, hd, entry, hname]
    cases hv : a.value? with
    | none => simp [Spelt.eq_nil (hv ▸ a.spelt)]
    | some value => rfl
  have hlt : rest.length < (a.name ++ (a.spelling ++ rest)).length := by
    simp only [hname, length_append, length_cons]
    omega
  have hgap := (h.found hfind hlt).blanks attributeAt_of_isBlank a.gap
  simpa only [text, append_assoc] using hgap

end Item

/-- A text that starts with a blank if there is any. -/
theorem head_flatMap_append {α : Type} {text : α → List Char} {l : List α} (trail : Blanks)
    (h : ∀ a ∈ l, ∃ d t, text a = d :: t ∧ isBlank d = true) :
    ∀ c ∈ (l.flatMap text ++ trail.1).head?, isBlank c = true := by
  intro c hc
  cases l with
  | nil => exact trail.2 c (mem_of_mem_head? hc)
  | cons a l =>
    obtain ⟨d, t, ht, hd⟩ := h a (.head _)
    simp only [flatMap_cons, ht, cons_append, head?_cons, Option.mem_some_iff] at hc
    exact hc ▸ hd

theorem exists_blank_cons {b : Blanks} (hne : b.1 ≠ []) (s : List Char) :
    ∃ d t, b.1 ++ s = d :: t ∧ isBlank d = true := by
  obtain ⟨d, t, ht⟩ := exists_cons_of_ne_nil hne
  exact ⟨d, t ++ s, by rw [ht, cons_append], b.2 d (ht ▸ (.head _))⟩

/-- What attributes are written as, with the blanks after them. -/
def itemsText (l : List Item) (trail : Blanks) : List Char := l.flatMap Item.text ++ trail.1

theorem afterBlanks_itemsText (l : List Item) (trail : Blanks) :
    ∀ c ∈ (afterBlanks (itemsText l trail)).head?, c ≠ '=' := by
  intro c hc
  cases l with
  | nil =>
    have hnil : afterBlanks (trail.1 ++ []) = [] := afterBlanks_append trail nofun
    rw [append_nil] at hnil
    rw [itemsText, flatMap_nil, nil_append, hnil] at hc
    cases hc
  | cons a l =>
    obtain ⟨d, name, hname⟩ := exists_cons_of_ne_nil a.name_ne
    have hd := a.name_chars d (hname ▸ (.head _))
    have hblank : isBlank d = false := by
      cases hb : isBlank d with
      | false => rfl
      | true =>
        rw [isAttributeChar_of_isBlank hb] at hd
        cases hd
    have hafter : afterBlanks (a.gap.1 ++ (d :: name ++ (a.spelling ++ itemsText l trail))) =
        d :: name ++ (a.spelling ++ itemsText l trail) := by
      refine afterBlanks_append a.gap ?_
      rintro c ⟨⟩
      exact hblank
    have htext : itemsText (a :: l) trail =
        a.gap.1 ++ (d :: name ++ (a.spelling ++ itemsText l trail)) := by
      simp [itemsText, Item.text, hname]
    rw [htext, hafter] at hc
    cases hc
    rintro rfl
    cases hd

/-- Attributes with blanks between them are read one after the other. -/
theorem attributes_itemsText {l : List Item} (trail : Blanks) (h : ∀ a ∈ l.tail, a.gap.1 ≠ []) :
    attributes (itemsText l trail) = .ofList (l.map Item.entry) := by
  have hreads : Reads attributeAt (itemsText l trail) (l.map Item.entry) := by
    induction l with
    | nil =>
      have htrail := Reads.nil.blanks attributeAt_of_isBlank trail
      rwa [append_nil] at htrail
    | cons a l ih =>
      have hhead := head_flatMap_append trail fun b hb => exists_blank_cons (h b hb) (b.name ++ b.spelling)
      have hnamed := a.reads hhead (afterBlanks_itemsText l trail)
        (ih fun b hb => h b (mem_of_mem_tail hb))
      rwa [itemsText, flatMap_cons, append_assoc]
  rw [attributes, attributesFrom_eq, hreads _ le_rfl]

variable (l : List Attribute)

/-- What attributes of a tag are written as, with the blanks after them. -/
def attributesText (trail : Blanks) : List Char :=
  l.flatMap Attribute.text ++ trail.1

theorem head_attributesText (trail : Blanks) :
    ∀ c ∈ (attributesText l trail).head?, isBlank c = true :=
  head_flatMap_append trail fun a _ => exists_blank_cons a.gap_ne _

theorem attributes_attributesText (trail : Blanks) :
    attributes (attributesText l trail) = .ofList (l.map Attribute.entry) := by
  let item (a : Attribute) : Item :=
    { a with spelling := a.spelling.text, value? := a.spelling.written?, spelt := a.spelling.spelt }
  have hitems : itemsText (l.map item) trail = attributesText l trail :=
    congrArg (· ++ trail.1) (flatMap_map ..)
  have hgaps : ∀ b ∈ (l.map item).tail, b.gap.1 ≠ [] := by
    intro b hb
    obtain ⟨a, -, rfl⟩ := mem_map.mp (mem_of_mem_tail hb)
    exact a.gap_ne
  rw [← hitems, attributes_itemsText trail hgaps, map_map]
  rfl

/-! ### Route attributes -/

theorem routeAttributesFrom_eq (fuel : Nat) (s : List Char) :
    routeAttributesFrom fuel s = scanAll routeAttributeAt fuel s := by
  induction fuel generalizing s with
  | zero => rfl
  | succ fuel ih =>
    cases s with
    | nil => rfl
    | cons c s =>
      simp only [routeAttributesFrom, scanAll, ih]
      cases routeAttributeAt (c :: s) <;> rfl

theorem routeAttributeAt_of_isBlank (c : Char) (s : List Char) (h : isBlank c = true) :
    routeAttributeAt (c :: s) = none := by
  simp [routeAttributeAt, isRouteNameStart_of_isBlank h]

/-- A name and a value in double quotes, with the blanks before and between them. -/
structure RouteItem where
  gap : Blanks
  first : Char
  first_start : isRouteNameStart first = true
  others : List Char
  others_chars : ∀ c ∈ others, isRouteNameChar c = true
  before : Blanks
  after : Blanks
  value : List Char
  value_chars : '"' ∉ value

namespace RouteItem

def text (a : RouteItem) : List Char :=
  a.gap.1 ++ a.first ::
    (a.others ++ (a.before.1 ++ '=' :: (a.after.1 ++ '"' :: (a.value ++ ['"']))))

def entry (a : RouteItem) : String × String :=
  (String.ofList (a.first :: a.others), String.ofList a.value)

theorem reads {entries : List (String × String)} (a : RouteItem)
    (h : Reads routeAttributeAt rest entries) :
    Reads routeAttributeAt (a.text ++ rest) (a.entry :: entries) := by
  have hstop := a.before.head_append isRouteNameChar_of_isBlank (show isRouteNameChar '=' = false from rfl)
    (a.after.1 ++ '"' :: (a.value ++ '"' :: rest))
  have hquote : ∀ c ∈ ('"' :: (a.value ++ '"' :: rest)).head?, isBlank c = false := by
    rintro c ⟨⟩
    rfl
  have hone : routeAttributeAt (a.first :: (a.others ++
      (a.before.1 ++ '=' :: (a.after.1 ++ '"' :: (a.value ++ '"' :: rest))))) =
      some (a.entry, rest) := by
    simp [routeAttributeAt, a.first_start, takeWhile_append_stop a.others_chars hstop,
      dropWhile_append_stop a.others_chars hstop, afterEquals?_append a.before a.after hquote,
      quotedValue?_append a.value_chars rest, entry]
  have hgap := (h.found hone (by simp only [length_append, length_cons]; omega)).blanks
    routeAttributeAt_of_isBlank a.gap
  simpa only [text, append_assoc, cons_append, nil_append] using hgap

end RouteItem

theorem routeAttributes_items (l : List RouteItem) (trail : Blanks) :
    routeAttributes (l.flatMap RouteItem.text ++ trail.1) = .ofList (l.map RouteItem.entry) := by
  have hreads : Reads routeAttributeAt (l.flatMap RouteItem.text ++ trail.1)
      (l.map RouteItem.entry) := by
    induction l with
    | nil =>
      have htrail := Reads.nil.blanks routeAttributeAt_of_isBlank trail
      rwa [append_nil] at htrail
    | cons a l ih =>
      have hnamed := a.reads ih
      rwa [flatMap_cons, append_assoc]
  rw [routeAttributes, routeAttributesFrom_eq, hreads _ le_rfl]

/-- What attributes of a route tag are written as, with the blanks after them. -/
def routeText (l : List RouteAttribute) (trail : Blanks) : List Char :=
  l.flatMap RouteAttribute.text ++ trail.1

theorem routeAttributes_routeText (l : List RouteAttribute) (trail : Blanks) :
    routeAttributes (routeText l trail) = .ofList (l.map RouteAttribute.entry) := by
  let item (a : RouteAttribute) : RouteItem :=
    { a with value := a.value.1, value_chars := a.value.quote_not_mem }
  have hitems : (l.map item).flatMap RouteItem.text ++ trail.1 = routeText l trail :=
    congrArg (· ++ trail.1) (flatMap_map ..)
  rw [← hitems, routeAttributes_items, map_map]
  rfl

/-! ### Attributes read back -/

/-- Characters of attribute names without capitals. -/
def isSmallNameChar (c : Char) : Bool :=
  c.isLower || c.isDigit || [':', '_', '@', '.', '-'].contains c

theorem lowerName_of_small {name : List Char} (h : ∀ c ∈ name, isSmallNameChar c = true) :
    lowerName name = String.ofList name := by
  refine congrArg String.ofList ((map_congr_left fun c hc => ?_).trans (map_id' name))
  have hc := h c hc
  have hkelvin : c ≠ Char.ofNat 0x212A := by
    rintro rfl
    cases hc
  have hlong : c ≠ 'ſ' := by
    rintro rfl
    cases hc
  have hupper : c.isUpper = false := by
    refine Bool.eq_false_iff.mpr fun hu => ?_
    have hu := isUpper_iff.mp hu
    simp only [isSmallNameChar, Bool.or_eq_true, isLower_iff, Char.isDigit, contains_iff_mem,
      mem_cons, not_mem_nil, or_false] at hc
    rcases hc with (hc | hc) | rfl | rfl | rfl | rfl | rfl
    · omega
    · simp [UInt32.le_iff_toNat_le] at hc
      omega
    all_goals exact absurd hu (by decide)
  have hval : (c.val == 0x212A) = false := beq_eq_false_iff_ne.mpr fun he => hkelvin (Char.ext he)
  simp only [hval, (foldCase_of_not_isUpper hupper hlong hkelvin).2]
  rfl

theorem keyed_of_nodup {α : Type} {l : List α} {name : α → List Char} (h : (l.map name).Nodup)
    (value : α → String) : Keyed (·.1) (l.map fun a => (String.ofList (name a), value a)) := by
  have hnames := h.map fun _ _ he => String.ofList_injective he
  rw [map_map] at hnames
  rwa [Keyed, map_map]

/-- Attributes with distinct names in small letters, in any spelling of their values and with blanks
between them, are read as just these; one that stands alone is true. So are attributes of a route tag
with distinct names. -/
theorem printed_attributes_read (trail : Blanks) :
    (∀ l : List Item, (∀ a ∈ l.tail, a.gap.1 ≠ []) →
      (∀ a ∈ l, ∀ c ∈ a.name, isSmallNameChar c = true) → (l.map Item.name).Nodup →
      (attributes (itemsText l trail)).entries.Perm
        (l.map fun a => (String.ofList a.name, (a.value?.map String.ofList).getD "true"))) ∧
    ∀ l : List RouteItem, (l.map fun a => a.first :: a.others).Nodup →
      (routeAttributes (l.flatMap RouteItem.text ++ trail.1)).entries.Perm
        (l.map fun a => (String.ofList (a.first :: a.others), String.ofList a.value)) := by
  refine ⟨fun l hgaps hsmall hdistinct => ?_, fun l hdistinct => ?_⟩
  · have hentries : l.map Item.entry =
        l.map fun a => (String.ofList a.name, (a.value?.map String.ofList).getD "true") :=
      map_congr_left fun a ha => congrArg (·, _) (lowerName_of_small (hsmall a ha))
    rw [attributes_itemsText trail hgaps, hentries]
    exact Dictionary.entries_ofList (keyed_of_nodup hdistinct _)
  · rw [routeAttributes_items]
    exact Dictionary.entries_ofList (keyed_of_nodup hdistinct _)

/-- Values with the other quotes or an equals sign, and an attribute that stands alone. -/
theorem printed_attributes_read_gallery :
    (attributes "lang='a=\"b\"' global\tx-1 = \"<it's>\" on=a=b".toList).entries.Perm
      [("lang", "a=\"b\""), ("global", "true"), ("x-1", "<it's>"), ("on", "a=b")] ∧
    (routeAttributes "path= \"a='b'\"".toList).entries.Perm [("path", "a='b'")] := by
  let tight : Blanks := ⟨[], all_eq_true.mp rfl⟩
  let blank : Blanks := ⟨[' '], all_eq_true.mp rfl⟩
  let item (gap : Blanks) (name : String) (hname : name.toList ≠ [])
      (hchars : name.toList.all isAttributeChar = true) {spelling : List Char}
      {value? : Option (List Char)} (spelt : Spelt spelling value?) : Item :=
    ⟨gap, name.toList, hname, all_eq_true.mp hchars, spelling, value?, spelt⟩
  have hread := printed_attributes_read tight
  refine ⟨hread.1
    [item tight "lang" (by decide) rfl
      (.quoted (.inr rfl) tight tight (show '\x27' ∉ "a=\"b\"".toList by decide)),
    item blank "global" (by decide) rfl .alone,
    item ⟨['\t'], all_eq_true.mp rfl⟩ "x-1" (by decide) rfl
      (.quoted (.inl rfl) blank blank (show '"' ∉ "<it's>".toList by decide)),
    item blank "on" (by decide) rfl (.bare tight tight (show "a=b".toList ≠ [] by decide) (all_eq_true.mp rfl))]
      ?_ ?_ ?_,
    hread.2 [⟨tight, 'p', rfl, "ath".toList, all_eq_true.mp rfl, tight, blank, "a='b'".toList,
      by decide⟩] ?_⟩
  · simp [item, blank]
  · simp only [← all_eq_true]
    rfl
  · decide
  · decide

/-! ### Tags stay whole -/

/-- Neither bracket stands in a text. -/
def Bracketless (s : List Char) : Prop := ∀ c ∈ s, c ≠ '<' ∧ c ≠ '>'

namespace Bracketless

theorem append {a b : List Char} (ha : Bracketless a) (hb : Bracketless b) : Bracketless (a ++ b) :=
  forall_mem_append.mpr ⟨ha, hb⟩

theorem not_mem (h : Bracketless s) : '<' ∉ s := fun hm => (h _ hm).1 rfl

theorem cons (hc : c ≠ '<' ∧ c ≠ '>') (hs : Bracketless s) : Bracketless (c :: s) :=
  forall_mem_cons.mpr ⟨hc, hs⟩

theorem blanks (b : Blanks) : Bracketless b.1 := fun c hc =>
  ⟨ne_of_isBlank (b.2 c hc) rfl, ne_of_isBlank (b.2 c hc) rfl⟩

theorem value (v : Value) : Bracketless v.1 := fun c hc => (v.2 c hc).2

theorem of_class {f : Char → Bool} (h : ∀ c ∈ s, f c = true) (hopen : f '<' = false)
    (hclose : f '>' = false) : Bracketless s := by
  refine fun c hc => ⟨?_, ?_⟩
  · rintro rfl
    rw [h _ hc] at hopen
    cases hopen
  · rintro rfl
    rw [h _ hc] at hclose
    cases hclose

theorem attributesText (l : List Attribute) (trail : Blanks) : Bracketless (attributesText l trail) := by
  refine append (fun c hc => ?_) (blanks trail)
  obtain ⟨a, -, hc⟩ := mem_flatMap.mp hc
  refine append (blanks a.gap) (append (of_class a.name_chars rfl rfl) ?_) c hc
  cases a.spelling with
  | alone => exact nofun
  | double before after v | single before after v h =>
    exact append (blanks before) (cons (by decide) (append (blanks after) (cons (by decide)
      (append (value v) (cons (by decide) nofun)))))
  | bare before after v hne h =>
    exact append (blanks before) (cons (by decide) (append (blanks after) (value v)))

theorem routeText (l : List RouteAttribute) (trail : Blanks) : Bracketless (routeText l trail) := by
  refine append (fun c hc => ?_) (blanks trail)
  obtain ⟨a, -, hc⟩ := mem_flatMap.mp hc
  have hfirst : Bracketless [a.first] :=
    of_class (by simpa using a.first_start) rfl rfl
  refine append (blanks a.gap) (cons (hfirst _ (.head _))
    (append (of_class a.others_chars rfl rfl) ?_)) c hc
  exact append (blanks a.before) (cons (by decide) (append (blanks a.after) (cons (by decide)
    (append (value a.value) (cons (by decide) nofun)))))

end Bracketless

theorem head_routeText (l : List RouteAttribute) (trail : Blanks) :
    ∀ c ∈ (routeText l trail).head?, isBlank c = true :=
  head_flatMap_append trail fun a _ => exists_blank_cons a.gap_ne _

theorem getLast_routeText (l : List RouteAttribute) (trail : Blanks) :
    ∀ c ∈ (routeText l trail).getLast?, c ≠ '/' := by
  have happend : ∀ {a b : List Char}, (∀ c ∈ a.getLast?, c ≠ '/') → (∀ c ∈ b.getLast?, c ≠ '/') →
      ∀ c ∈ (a ++ b).getLast?, c ≠ '/' := by
    intro a b ha hb c hc
    rw [getLast?_append, Option.mem_def, Option.or_eq_some_iff] at hc
    rcases hc with hc | ⟨-, hc⟩
    · exact hb c hc
    · exact ha c hc
  have htext : ∀ a : RouteAttribute, ∀ c ∈ a.text.getLast?, c ≠ '/' := by
    intro a c hc
    have hquote : a.text = (a.gap.1 ++ a.first ::
        (a.others ++ (a.before.1 ++ '=' :: (a.after.1 ++ '"' :: a.value.1)))) ++ ['"'] := by
      simp [RouteAttribute.text]
    rw [hquote, getLast?_concat] at hc
    cases hc
    decide
  refine happend ?_ fun c hc => ne_of_isBlank (trail.2 c (mem_of_getLast? hc)) rfl
  induction l with
  | nil => exact nofun
  | cons a l ih => exact happend (htext a) ih

end Componentry.Source
