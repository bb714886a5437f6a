import Componentry.Live.Page
import Componentry.Proofs.Module.Imports
import Mathlib.Data.Option.Basic

/-!
# Tags that can be used

The tags that scripts declare and those made from paths have one form: lower-case letters, digits and
hyphens, with a letter in front. So each of them is valid, and a template in which it opens is seen to
use it. What templates are seen to use are just the tags of that form that open in them, in the order
of the places where they first do.
-/

namespace Componentry

open Text List

namespace Tag

variable {c : Char} {s t : List Char} {tag : String}

/-- Lower-case letters, digits and hyphens, with a letter in front and a hyphen somewhere. -/
structure Plain (s : List Char) : Prop where
  chars : ∀ c ∈ s, Source.isChildChar c = true
  letter : s.head?.any Char.isLower = true
  hyphen : '-' ∈ s

/-- A lower-case letter, lower-case letters and digits, and then one or more groups of these with a
hyphen before each. -/
def IsGrouped (s : List Char) : Prop :=
  ∃ first word groups, s = first :: (word ++ groups.flatMap ('-' :: ·)) ∧ first.isLower = true ∧
    groups ≠ [] ∧ ∀ part ∈ word :: groups, ∀ c ∈ part, (c.isLower || c.isDigit) = true

theorem exists_groups (h : ∀ c ∈ s, Source.isChildChar c = true) :
    ∃ word groups, s = word ++ groups.flatMap ('-' :: ·) ∧
      ∀ part ∈ word :: groups, ∀ c ∈ part, (c.isLower || c.isDigit) = true := by
  induction s with
  | nil => exact ⟨[], [], rfl, by simp⟩
  | cons c s ih =>
    obtain ⟨hc, hs⟩ := forall_mem_cons.mp h
    obtain ⟨word, groups, rfl, hparts⟩ := ih hs
    by_cases hyphen : c = '-'
    · exact ⟨[], word :: groups, by simp [hyphen], forall_mem_cons.mpr ⟨by simp, hparts⟩⟩
    · rw [Source.isChildChar, beq_false_of_ne hyphen, Bool.or_false, Bool.or_eq_true] at hc
      refine ⟨c :: word, groups, rfl, ?_⟩
      simpa [hc] using hparts

theorem isGrouped_iff : IsGrouped s ↔ Plain s := by
  constructor
  · rintro ⟨first, word, groups, rfl, hfirst, hne, hparts⟩
    obtain ⟨group, groups, rfl⟩ := exists_cons_of_ne_nil hne
    refine ⟨?_, hfirst, by simp⟩
    grind [Source.isChildChar]
  · rintro ⟨hchars, hfirst, hyphen⟩
    cases s with
    | nil => cases hyphen
    | cons first s =>
      obtain ⟨word, groups, rfl, hparts⟩ := exists_groups (forall_mem_cons.mp hchars).2
      refine ⟨first, word, groups, rfl, hfirst, ?_, hparts⟩
      rintro rfl
      rcases mem_cons.mp hyphen with rfl | hm
      · cases hfirst
      · cases hparts word (.head _) '-' (by simpa using hm)

theorem isChildChar_of_isTagChar (h : isTagChar c = true) : Source.isChildChar c = true := by
  rw [Source.isChildChar, ← isTagChar, h, Bool.true_or]

/-! ### Tags made from paths -/

theorem Kebab.chars_step {k : Kebab} (hk : ∀ x ∈ k.text, Source.isChildChar x = true) (c : Char) :
    ∀ x ∈ (k.step c).text, Source.isChildChar x = true := by
  have hhyphen : ∀ x ∈ '-' :: k.text, Source.isChildChar x = true :=
    forall_mem_cons.mpr ⟨rfl, hk⟩
  unfold step
  split
  next hup =>
    have hlower : isTagChar c.toLower = true := by
      rw [isTagChar, isLower_toLower hup, Bool.true_or]
    refine forall_mem_cons.mpr ⟨isChildChar_of_isTagChar hlower, ?_⟩
    split
    · exact hhyphen
    · exact hk
  next hup =>
    split
    next halpha =>
      have heq : c.isAlphanum = (c.isUpper || c.isLower || c.isDigit) := rfl
      have htag : isTagChar c = true := by
        simpa [heq, hup, isTagChar] using halpha
      exact forall_mem_cons.mpr ⟨isChildChar_of_isTagChar htag, hk⟩
    next =>
      split
      · exact hhyphen
      · exact hk

theorem chars_kebab (name : List Char) : ∀ c ∈ kebab name, Source.isChildChar c = true := by
  have hrun : ∀ x ∈ (name.foldl Kebab.step {}).text, Source.isChildChar x = true :=
    foldlRecOn (motive := fun k : Kebab => ∀ x ∈ k.text, Source.isChildChar x = true) name Kebab.step
      (by simp) fun _ hk c _ => Kebab.chars_step hk c
  intro c hc
  have hmem := mem_reverse.mp ((dropWhile_sublist _).subset hc)
  exact hrun c ((dropWhile_sublist _).subset hmem)

theorem plain_ofName (name : String) : Plain (ofName name).toList := by
  have hchars := chars_kebab name.toList
  unfold ofName
  dsimp only
  split
  · exact ⟨all_eq_true.mp rfl, rfl, by decide⟩
  split
  next =>
    have hx : ("x-" ++ String.ofList (kebab name.toList)).toList = 'x' :: '-' :: kebab name.toList := by
      rw [String.toList_append, String.toList_ofList, String.toList_ofList]
      rfl
    rw [hx]
    exact ⟨forall_mem_cons.mpr ⟨rfl, forall_mem_cons.mpr ⟨rfl, hchars⟩⟩, rfl,
      .tail _ (.head _)⟩
  next hx =>
    rw [String.toList_ofList]
    rw [Bool.or_eq_true, not_or, Bool.not_eq_true', Bool.not_eq_false, Bool.not_eq_true',
      Bool.not_eq_false, contains_iff_mem] at hx
    exact ⟨hchars, hx.1, hx.2⟩

/-! ### Tags that scripts declare -/

theorem tagTail_plain (fuel : Nat) (s : List Char) :
    (∀ c ∈ (tagTail fuel s).1, Source.isChildChar c = true) ∧
      ((tagTail fuel s).1 ≠ [] → '-' ∈ (tagTail fuel s).1) := by
  fun_induction tagTail fuel s with
  | case1 s | case2 fuel s part hpart => simp
  | case3 fuel s part hpart more rest hrest ih =>
    have hchars : ∀ c ∈ part, Source.isChildChar c = true := fun c hc =>
      isChildChar_of_isTagChar (mem_takeWhile_imp hc)
    rw [hrest] at ih
    refine ⟨forall_mem_cons.mpr ⟨rfl, ?_⟩, fun _ => (.head _)⟩
    exact forall_mem_append.mpr ⟨hchars, ih.1⟩
  | case4 => simp

theorem plain_of_tagAt {rest : List Char} (h : tagAt s = some (t, rest)) : Plain t := by
  unfold tagAt at h
  split at h
  next c cs =>
    split at h
    next hc =>
      dsimp only at h
      split at h
      · cases h
      next hne =>
        cases h
        obtain ⟨htail, hhyphen⟩ :=
          tagTail_plain cs.length (cs.drop (cs.takeWhile isTagChar).length)
        have hfirst : ∀ x ∈ c :: cs.takeWhile isTagChar, Source.isChildChar x = true :=
          forall_mem_cons.mpr ⟨isChildChar_of_isTagChar (by rw [isTagChar, hc, Bool.true_or]),
            fun x hx => isChildChar_of_isTagChar (mem_takeWhile_imp hx)⟩
        refine ⟨forall_mem_append.mpr ⟨hfirst, htail⟩, hc, mem_append_right _ ?_⟩
        exact hhyphen (by simpa using hne)
    next => cases h
  next => cases h

theorem plain_of_quotedAt (h : quotedAt s = some tag) : Plain tag.toList := by
  unfold quotedAt at h
  split at h
  · cases h
  · split at h
    next t close rest ht =>
      split at h
      · rw [← Option.some.inj h, String.toList_ofList]
        exact plain_of_tagAt ht
      · cases h
    next => cases h

theorem plain_of_declared? {script : String} (h : declared? script = some tag) :
    Plain tag.toList := by
  obtain ⟨before, s, hs⟩ := exists_of_firstMatch h
  unfold declaredAt at hs
  split at hs
  · split at hs
    · exact plain_of_quotedAt hs
    · exact plain_of_quotedAt hs
    · cases hs
  · cases hs

/-! ### Using tags -/

theorem isValidChar_of_isChildChar (h : Source.isChildChar c = true) :
    (isValidChar c || c == '-') = true := by
  simp only [Source.isChildChar, isValidChar, Bool.or_eq_true] at h ⊢
  rcases h with h | h
  · exact .inl (.inl (.inl h))
  · exact .inr h

theorem isChildChar_of_ends (h : (isBlank c || c == '/' || c == '>') = true) :
    Source.isChildChar c = false := by
  simp only [Bool.or_eq_true, beq_iff_eq, or_assoc] at h
  rcases h with h | rfl | rfl
  · obtain ⟨-, hlower, hdigit⟩ := isBlank_plain h
    have hhyphen : c ≠ '-' := ne_of_isBlank h rfl
    simp [Source.isChildChar, hlower, hdigit, hhyphen]
  · rfl
  · rfl

theorem Plain.isValid (h : Plain tag.toList) : isValid tag = true := by
  obtain ⟨hchars, hletter, hhyphen⟩ := h
  unfold Tag.isValid
  generalize tag.toList = s at *
  cases s with
  | nil => cases hhyphen
  | cons c cs =>
    have hlower : c.isLower = true := hletter
    have hmem : '-' ∈ cs := by
      refine (mem_cons.mp hhyphen).resolve_left fun he => ?_
      rw [← he] at hlower
      cases hlower
    have hvalid : ∀ d ∈ cs.dropWhile isValidChar, (isValidChar d || d == '-') = true := fun d hd =>
      isValidChar_of_isChildChar
        (hchars d (.tail _ ((dropWhile_sublist _).subset hd)))
    have hhead := head?_dropWhile_not isValidChar cs
    dsimp only
    rw [hlower]
    cases hd : cs.dropWhile isValidChar with
    | nil => exact absurd (dropWhile_eq_nil_iff.mp hd '-' hmem) (by decide)
    | cons d rest =>
      rw [hd] at hvalid hhead
      obtain ⟨hfirst, hrest⟩ := forall_mem_cons.mp hvalid
      have hnot : isValidChar d = false := by simpa using hhead
      obtain rfl : d = '-' := by simpa [hnot] using hfirst
      exact all_eq_true.mpr hrest

end Tag

namespace Source

variable {s t : List Char} {tag : String}

/-- A component with this tag opens at the start of a text. -/
def Opens (tag : String) (s : List Char) : Prop :=
  ∃ c rest, s = '<' :: (tag.toList ++ c :: rest) ∧ (isBlank c || c == '/' || c == '>') = true

theorem childAt_eq_some_iff : childAt s = some (tag, t) ↔ Tag.Plain tag.toList ∧
    ∃ c, s = '<' :: (tag.toList ++ c :: t) ∧ (isBlank c || c == '/' || c == '>') = true := by
  constructor
  · intro h
    obtain ⟨u, hu, h⟩ := Option.bind_eq_some_iff.mp h
    obtain ⟨_, hguard, h⟩ := Option.bind_eq_some_iff.mp h
    rw [Option.guard_eq_some', Bool.and_eq_true, Bool.and_eq_true] at hguard
    obtain ⟨⟨hletter, hhyphen⟩, hend⟩ := hguard
    obtain ⟨c, rest, hrest⟩ : ∃ c rest, u.dropWhile isChildChar = c :: rest := by
      refine exists_cons_of_ne_nil fun hnil => ?_
      rw [hnil] at hend
      cases hend
    cases h
    rw [String.toList_ofList]
    refine ⟨⟨fun c => mem_takeWhile_imp, hletter, contains_iff_mem.mp hhyphen⟩, c, ?_, ?_⟩
    · rw [hrest, drop_one, tail_cons, ← hrest, takeWhile_append_dropWhile]
      exact dropLead?_eq_some_iff.mp hu
    · rwa [hrest] at hend
  · rintro ⟨h, c, rfl, hc⟩
    have hstop : ∀ d ∈ (c :: t).head?, isChildChar d = false := fun d hd =>
      Option.some.inj hd ▸ Tag.isChildChar_of_ends hc
    have hhyphen : tag.toList.contains '-' = true := contains_iff_mem.mpr h.hyphen
    have hend : endsChild (c :: t) = true := hc
    have hlead : dropLead? ['<'] ('<' :: (tag.toList ++ c :: t)) = some (tag.toList ++ c :: t) :=
      dropLead?_append ['<'] _
    rw [childAt, hlead]
    dsimp
    rw [takeWhile_append_stop h.chars hstop, dropWhile_append_stop h.chars hstop, h.letter, hhyphen,
      hend, String.ofList_toList]
    rfl

/-- The tag that a text opens with. -/
def opening? (s : List Char) : Option String := (childAt s).map (·.1)

theorem opening?_eq_some_iff : opening? s = some tag ↔ Tag.Plain tag.toList ∧ Opens tag s := by
  simp only [opening?, Option.map_eq_some_iff, Prod.exists, childAt_eq_some_iff]
  constructor
  · rintro ⟨_, t, ⟨h, c, hs, hc⟩, rfl⟩
    exact ⟨h, c, t, hs, hc⟩
  · rintro ⟨h, c, t, hs, hc⟩
    exact ⟨tag, t, ⟨h, c, hs, hc⟩, rfl⟩

/-- The tags that open in a text, with every place tried. -/
def openings : List Char → List String
  | [] => []
  | c :: cs => (opening? (c :: cs)).toList ++ openings cs

theorem openings_append (h : '<' ∉ s) (t : List Char) : openings (s ++ t) = openings t := by
  induction s with
  | nil => rfl
  | cons c s ih =>
    obtain ⟨hc, hs⟩ := ne_and_not_mem_of_not_mem_cons h
    have hnone : childAt (c :: (s ++ t)) = none := by simp [childAt, dropLead?, hc]
    rw [cons_append, openings, opening?, hnone]
    exact ih hs

/-- Going on behind the character that ends a tag passes over no other tag. -/
theorem childUses_eq {fuel : Nat} (h : s.length ≤ fuel) : childUses fuel s = openings s := by
  fun_induction childUses fuel s with
  | case1 s =>
    obtain rfl := length_eq_zero_iff.mp (Nat.le_zero.mp h)
    rfl
  | case2 => rfl
  | case3 fuel c cs tag rest hat ih =>
    obtain ⟨hplain, d, hs, hd⟩ := childAt_eq_some_iff.mp hat
    cases hs
    have hnone : '<' ∉ tag.toList ++ [d] := by
      refine fun hm => (mem_append.mp hm).elim (fun hm => ?_) fun hm => ?_
      · cases hplain.chars _ hm
      · cases mem_singleton.mp hm ▸ hd
    have hrest := openings_append hnone rest
    rw [append_assoc, singleton_append] at hrest
    rw [openings, opening?, hat, hrest, ih (by simp at h; omega)]
    rfl
  | case4 fuel c cs hat ih =>
    rw [openings, opening?, hat, ih (Nat.le_of_succ_le_succ h)]
    rfl

theorem mem_distinct {α : Type} [BEq α] [LawfulBEq α] {a : α} {l : List α} :
    a ∈ distinct l ↔ a ∈ l := by
  induction l with
  | nil => rfl
  | cons b l ih =>
    rw [distinct, mem_cons, mem_filter, ih]
    by_cases hab : a = b <;> simp [hab]

theorem mem_openings : tag ∈ openings s ↔ ∃ t, t <:+ s ∧ opening? t = some tag := by
  induction s with
  | nil => simp [openings, opening?, childAt, dropLead?]
  | cons c s ih =>
    rw [openings, mem_append, Option.mem_toList, ih]
    simp [suffix_cons_iff, or_and_right, exists_or]

/-- A component with one tag opens in a text before any with the other does. -/
def Precedes (s : List Char) (tag other : String) : Prop :=
  ∃ t, t <:+ s ∧ opening? t = some tag ∧ ∀ u, u <:+ s → opening? u = some other → u.length < t.length

theorem Precedes.cons {c : Char} {other : String} (hne : opening? (c :: s) ≠ some other)
    (h : Precedes s tag other) : Precedes (c :: s) tag other := by
  obtain ⟨t, ht, htag, hfirst⟩ := h
  refine ⟨t, ht.trans (suffix_cons c s), htag, fun u hu hother => ?_⟩
  rcases suffix_cons_iff.mp hu with rfl | hu
  · exact absurd hother hne
  · exact hfirst u hu hother

theorem pairwise_distinct_openings (s : List Char) :
    (distinct (openings s)).Pairwise (Precedes s) := by
  induction s with
  | nil => exact .nil
  | cons c s ih =>
    rw [openings]
    cases hat : opening? (c :: s) with
    | none => exact ih.imp (.cons (by simp [hat]))
    | some tag =>
      have hother {other : String} (h : other ∈ (distinct (openings s)).filter (· != tag)) :
          opening? (c :: s) ≠ some other := by
        rintro he
        cases hat.symm.trans he
        simp at h
      refine .cons (fun other h => ⟨c :: s, suffix_refl _, hat, fun u hu he => ?_⟩)
        ((ih.filter _).imp_of_mem fun _ h => .cons (hother h))
      rcases suffix_cons_iff.mp hu with rfl | hu
      · exact absurd he (hother h)
      · exact Nat.lt_succ_of_le hu.length_le

theorem childTags_eq (template : String) : childTags template = distinct (openings template.toList) :=
  congrArg distinct (childUses_eq String.length_toList.le)

/-- The tags found in a template are those of the form of tags that open at some place, each once and
in the order of the first places where they do. -/
theorem childTags_exact (template : String) : (childTags template).Nodup ∧
    (∀ tag, tag ∈ childTags template ↔
      Tag.IsGrouped tag.toList ∧ ∃ t, t <:+ template.toList ∧ Opens tag t) ∧
    (childTags template).Pairwise fun tag other => ∃ t, t <:+ template.toList ∧ Opens tag t ∧
      ∀ u, u <:+ template.toList → Opens other u → u.length < t.length := by
  have hmem (tag : String) : tag ∈ childTags template ↔
      Tag.Plain tag.toList ∧ ∃ t, t <:+ template.toList ∧ Opens tag t := by
    simp only [childTags_eq, mem_distinct, mem_openings, opening?_eq_some_iff]
    exact ⟨fun ⟨t, ht, hplain, ho⟩ => ⟨hplain, t, ht, ho⟩, fun ⟨hplain, t, ht, ho⟩ => ⟨t, ht, hplain, ho⟩⟩
  have hordered := pairwise_distinct_openings template.toList
  rw [← childTags_eq] at hordered
  refine ⟨hordered.imp ?_, by simpa only [Tag.isGrouped_iff], hordered.imp_of_mem ?_⟩
  · rintro tag _ ⟨t, ht, htag, hfirst⟩ rfl
    exact lt_irrefl _ (hfirst t ht htag)
  · rintro tag other - hother ⟨t, ht, htag, hfirst⟩
    refine ⟨t, ht, (opening?_eq_some_iff.mp htag).2, fun u hu ho => hfirst u hu ?_⟩
    exact opening?_eq_some_iff.mpr ⟨((hmem other).mp hother).1, ho⟩

end Source

namespace Tag

open Live

/-- The compiler may give a component this tag: it is made from a path, or a script declares it. -/
def Given (tag : String) : Prop :=
  (∃ path, ofPath path = tag) ∨ ∃ script, declared? script = some tag

theorem Given.plain {tag : String} (h : Given tag) : Plain tag.toList := by
  rcases h with ⟨path, rfl⟩ | ⟨script, h⟩
  · exact plain_ofName _
  · exact plain_of_declared? h

theorem Given.mem_childTags {tag template : String} (h : Given tag) {before after : List Char}
    {c : Char} (hc : (isBlank c || c == '/' || c == '>') = true)
    (ht : template.toList = before ++ '<' :: (tag.toList ++ c :: after)) :
    tag ∈ Source.childTags template := by
  rw [Source.childTags_eq, Source.mem_distinct, Source.mem_openings, ht]
  exact ⟨_, suffix_append before _, Source.opening?_eq_some_iff.mpr ⟨h.plain, c, after, rfl, hc⟩⟩

theorem Given.define {tag : String} (h : Given tag) {σ : Type} (s : Page σ) {c : Component σ}
    (hc : c.description.tag = tag) (hd : s.mayDefine c.description = true) :
    (s.define c).2 = .ok (s.lastId + 1) := by
  have hvalid := hc ▸ h.plain.isValid
  rw [Page.define, hvalid, hd]
  rfl

/-- A module has such a tag or none, and it has the one made from its path if the unit has no
script. -/
theorem given_of_compile (o : Options) (index : Option Index) (styles : Style.Compiler)
    (path source : String) :
    (∀ m tag, Module.compile o index styles path source = .ok m → m.tag = some tag → Given tag) ∧
      ((Source.blocks o source).script = none →
        ∃ m, Module.compile o index styles path source = .ok m ∧ m.tag = some (ofPath path)) := by
  constructor
  · intro m tag hm h
    rw [Module.tag_compile hm] at h
    cases hd : declared? (Source.blocks o source).scriptText with
    | some declared =>
      rw [hd] at h
      exact .inr ⟨_, hd.trans h⟩
    | none =>
      rw [hd] at h
      split at h
      · exact .inl ⟨path, Option.some.inj h⟩
      · cases h
  · intro hnone
    have hscript : (Source.blocks o source).scriptText = "" := by
      rw [Source.Blocks.scriptText, hnone]
      rfl
    -- there is nothing to cut in an empty script
    obtain ⟨extracted, he⟩ := Option.isSome_iff_exists.mp
      (show (Annotations.extract "").isSome by decide +kernel)
    obtain ⟨m, hm⟩ : ∃ m, Module.compile o index styles path source = .ok m :=
      ⟨_, Module.compile_eq_ok_iff.mpr ⟨extracted, hscript ▸ he, rfl⟩⟩
    refine ⟨m, hm, ?_⟩
    rw [Module.tag_compile hm, hscript, hnone]
    rfl

/-- Every tag that the compiler gives to a component is valid, and templates in which it opens are
seen to use it. So a unit without a script is always registered. -/
theorem tags_usable : (∀ path, isValid (ofPath path) = true) ∧
    (∀ script tag, declared? script = some tag → isValid tag = true) ∧
    (∀ tag, Given tag → ∀ (template : String) before c after,
      template.toList = before ++ '<' :: (tag.toList ++ c :: after) →
      isBlank c = true ∨ c = '/' ∨ c = '>' → tag ∈ Source.childTags template) ∧
    ∀ (o : Options) (index : Option Index) (styles : Style.Compiler) (path source : String),
      (∀ m tag, Module.compile o index styles path source = .ok m → m.tag = some tag →
        Given tag) ∧
      ((Source.blocks o source).script = none →
        ∃ m tag, Module.compile o index styles path source = .ok m ∧ m.tag = some tag ∧
          ∀ (σ : Type) (s : Page σ) (c : Component σ), c.description.tag = tag →
            s.mayDefine c.description = true → (s.define c).2 = .ok (s.lastId + 1)) := by
  have hpath : ∀ path, Given (ofPath path) := fun path => .inl ⟨path, rfl⟩
  refine ⟨fun path => (hpath path).plain.isValid, fun script tag h => ?_, ?_, ?_⟩
  · exact (plain_of_declared? h).isValid
  · intro tag h template before c after ht hc
    exact h.mem_childTags (by simpa [or_assoc] using hc) ht
  · intro o index styles path source
    obtain ⟨hgiven, hnone⟩ := given_of_compile o index styles path source
    refine ⟨hgiven, fun h => ?_⟩
    obtain ⟨m, hm, htag⟩ := hnone h
    exact ⟨m, _, hm, htag, fun σ s c hc hd => (hpath path).define s hc hd⟩

theorem tags_usable_navBar :
    declared? "static tag = 'nav-bar';" = some "nav-bar" ∧ isValid "nav-bar" = true ∧
      "nav-bar" ∈ Source.childTags "<p><nav-bar /></p>" := by
  have h : declared? "static tag = 'nav-bar';" = some "nav-bar" := by decide +kernel
  refine ⟨h, tags_usable.2.1 _ _ h, ?_⟩
  exact tags_usable.2.2.1 _ (.inr ⟨_, h⟩) _ "<p>".toList ' ' "/></p>".toList (by decide) (.inl rfl)

end Tag

end Componentry
