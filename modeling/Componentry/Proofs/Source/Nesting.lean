import Componentry.Proofs.Source.Regions

/-!
# Templates in templates

Template tags are counted: a template ends with the closing tag that brings the count back to where it
was before its opening tag. A text whose own template tags are balanced can therefore stand in a
template, unless it ends with a template tag that is not finished and would swallow the closing tag.
-/

namespace Componentry.Source

open Text List

variable {a b s u rest : List Char} {c : Char} {place : Nat} {inner : List TemplateTag}

/-! ### One tag -/

variable (s)

/-- What follows the name of a template tag at the start of a text, and whether the tag closes. -/
def templateName? : Option (Bool × List Char) := do
  let s ← dropLead? ['<'] s
  let closing := s.head? == some '/'
  let s ← dropLeadFold? "template".toList (if closing then s.drop 1 else s)
  return (closing, s)

theorem templateTagAt_eq : templateTagAt s =
      (templateName? s).bind fun r => (tagEnd? r.2).map fun e => (r.1, e.2) := by
  simp only [templateTagAt, templateName?, Option.bind_eq_bind, Option.pure_def, Option.bind_assoc,
    Option.bind_some]
  refine congrArg _ (funext fun s => congrArg _ (funext fun s => ?_))
  cases tagEnd? s <;> rfl

/-- A template tag starts a text and does not end in it. -/
def unfinishedTag : Bool :=
  match templateName? s with
  | some (_, c :: rest) => isBlank c && !rest.contains '>'
  | _ => false

/-- No template tag that starts in a text ends after it. -/
def Finished : Prop := ∀ u ∈ s.tails, unfinishedTag u = false

variable {s}

instance (s : List Char) : Decidable (Finished s) :=
  inferInstanceAs (Decidable (∀ u ∈ s.tails, unfinishedTag u = false))

theorem Finished.suffix (h : Finished s) (hu : u <:+ s) : Finished u := fun v hv =>
  h v ((mem_tails _ _).mpr (((mem_tails _ _).mp hv).trans hu))

theorem plain_template : Plain "template".toList := by decide

theorem templateName?_append (hs : s ≠ []) (b : List Char) :
    templateName? (s ++ '<' :: b) = (templateName? s).map fun r => (r.1, r.2 ++ '<' :: b) := by
  have hletters : ∀ p ∈ "template".toList, p ≠ foldCase '<' := fun p hp => (plain_template.ne hp).1
  obtain ⟨c, s, rfl⟩ := exists_cons_of_ne_nil hs
  by_cases hc : c = '<'
  · subst hc
    have hhead : ((s ++ '<' :: b).head? == some '/') = (s.head? == some '/') := by
      cases s <;> rfl
    have hslash : (if (s.head? == some '/') = true then (s ++ '<' :: b).drop 1 else s ++ '<' :: b) =
        (if (s.head? == some '/') = true then s.drop 1 else s) ++ '<' :: b := by
      cases s with
      | nil => rfl
      | cons d s =>
        split
        · rfl
        · rfl
    simp only [templateName?, cons_append, dropLead?, beq_self_eq_true, if_true,
      Option.bind_eq_bind, Option.bind_some, hhead, hslash, dropLeadFold?_append hletters]
    generalize dropLeadFold? "template".toList _ = r
    cases r <;> rfl
  · have hne : ('<' == c) = false := beq_eq_false_iff_ne.mpr (Ne.symm hc)
    simp [templateName?, dropLead?, hne]

theorem tagEnd?_append_open (hs : ∀ c w, s = c :: w → isBlank c = true → '>' ∈ w) (b : List Char) :
    tagEnd? (s ++ '<' :: b) = (tagEnd? s).map fun e => (e.1, e.2 ++ '<' :: b) := by
  cases s with
  | nil => rfl
  | cons c s =>
    by_cases hc : c = '>'
    · subst hc
      rfl
    · rw [cons_append, tagEnd?_cons hc, tagEnd?_cons hc]
      split
      next hblank =>
        -- The first end of a tag stands in the text, so what follows does not matter.
        obtain ⟨w, v, rfl, hw⟩ := eq_append_cons_of_mem (hs c s rfl hblank)
        have hdrop : ∀ x, (w ++ '>' :: x).dropWhile (· != '>') = '>' :: x := fun x =>
          dropWhile_append_stop (fun d hd => bne_iff_ne.mpr fun he => hw (he ▸ hd)) (by simp)
        rw [append_assoc, cons_append, hdrop, hdrop]
        simp only [length_cons, length_append, Option.map_some, Option.some.injEq,
          Prod.mk.injEq, and_true]
        omega
      next => rfl

theorem templateTagAt_append (hs : s ≠ []) (hu : unfinishedTag s = false) (b : List Char) :
    templateTagAt (s ++ '<' :: b) = (templateTagAt s).map fun r => (r.1, r.2 ++ '<' :: b) := by
  rw [templateTagAt_eq, templateTagAt_eq, templateName?_append hs]
  unfold unfinishedTag at hu
  cases hname : templateName? s with
  | none => rfl
  | some r =>
    obtain ⟨closing, w⟩ := r
    rw [hname] at hu
    have hopen : ∀ c v, w = c :: v → isBlank c = true → '>' ∈ v := by
      rintro c v rfl hblank
      simpa [hblank] using hu
    simp only [Option.map_some, Option.bind_some, tagEnd?_append_open hopen, Option.map_map]
    rfl

theorem templateTagAt_cons_ne (hc : c ≠ '<') (s : List Char) : templateTagAt (c :: s) = none := by
  have hne : ('<' == c) = false := beq_eq_false_iff_ne.mpr hc.symm
  simp [templateTagAt, dropLead?, hne]

theorem tagEnd?_suffix {k : Nat} (h : tagEnd? s = some (k, rest)) : rest <:+ s := by
  unfold tagEnd? at h
  split at h
  · cases h
    exact suffix_cons ..
  · split at h
    · split at h
      next c s _ _ _ d rest' hdrop =>
        obtain ⟨-, rfl⟩ := Prod.mk.inj (Option.some.inj h)
        have htail : d :: rest' <:+ s := hdrop ▸ dropWhile_suffix _
        exact ((suffix_cons d rest').trans htail).trans (suffix_cons c s)
      · cases h
    · cases h
  · cases h

theorem templateTagAt_suffix {closing : Bool} (h : templateTagAt (c :: s) = some (closing, rest)) :
    rest <:+ s := by
  rw [templateTagAt_eq] at h
  obtain ⟨⟨_, w⟩, hname, h⟩ := Option.bind_eq_some_iff.mp h
  obtain ⟨⟨k, v⟩, hend, h⟩ := Option.map_eq_some_iff.mp h
  cases h
  refine (tagEnd?_suffix hend).trans ?_
  obtain ⟨s', hlead, hname⟩ := Option.bind_eq_some_iff.mp hname
  obtain ⟨w', hfold, hname⟩ := Option.bind_eq_some_iff.mp hname
  cases hname
  obtain rfl : s' = s := by
    simp only [dropLead?] at hlead
    split at hlead
    · exact (Option.some.inj hlead).symm
    · cases hlead
  obtain ⟨o, ho, -⟩ := dropLeadFold?_eq_some_iff.mp hfold
  refine IsSuffix.trans ⟨o, ho.symm⟩ ?_
  split
  · exact drop_suffix 1 s'
  · exact suffix_refl s'

/-! ### All tags -/

/-- Template tags are found in a text that stands at a place. -/
def FindsTags (place : Nat) (s : List Char) (l : List TemplateTag) : Prop :=
  ∀ fuel, s.length ≤ fuel → templateTagsFrom fuel place s = l

namespace FindsTags

variable {l : List TemplateTag}

theorem cons (hnone : templateTagAt (c :: s) = none) (h : FindsTags (place + 1) s l) :
    FindsTags place (c :: s) l := by
  intro fuel hfuel
  cases fuel with
  | zero => cases hfuel
  | succ fuel =>
    simp only [templateTagsFrom, hnone]
    exact h fuel (Nat.le_of_succ_le_succ hfuel)

theorem skip (ha : '<' ∉ a) (h : FindsTags (place + a.length) s l) :
    FindsTags place (a ++ s) l := by
  induction a generalizing place with
  | nil => exact h
  | cons c a ih =>
    obtain ⟨hc, ha⟩ := ne_and_not_mem_of_not_mem_cons ha
    refine cons (templateTagAt_cons_ne hc.symm (a ++ s)) (ih ha ?_)
    rwa [Nat.add_assoc, Nat.add_comm 1]

theorem tag {closing : Bool} (hat : templateTagAt (c :: s) = some (closing, rest)) {stop : Nat}
    (hstop : stop = place + (s.length + 1 - rest.length)) (h : FindsTags stop rest l) :
    FindsTags place (c :: s) (⟨closing, ⟨place, stop⟩⟩ :: l) := by
  intro fuel hfuel
  have hlength := (templateTagAt_suffix hat).length_le
  cases fuel with
  | zero => cases hfuel
  | succ fuel =>
    have hrest := h fuel (hlength.trans (Nat.le_of_succ_le_succ hfuel))
    simp only [templateTagsFrom, hat]
    rw [← hstop, hrest]

theorem exists_finds (place : Nat) (s : List Char) : ∃ l, FindsTags place s l := by
  induction hn : s.length using Nat.strongRecOn generalizing s place with
  | ind n ih =>
    subst hn
    cases s with
    | nil => exact ⟨[], fun fuel _ => by cases fuel <;> rfl⟩
    | cons c s =>
      cases hat : templateTagAt (c :: s) with
      | none =>
        obtain ⟨l, h⟩ := ih s.length (Nat.lt_add_one _) (place + 1) s rfl
        exact ⟨l, h.cons hat⟩
      | some r =>
        have hlt := Nat.lt_succ_of_le (templateTagAt_suffix hat).length_le
        obtain ⟨l, h⟩ := ih r.2.length hlt _ r.2 rfl
        exact ⟨_, h.tag hat rfl⟩

theorem append (ha : Finished a) (h : FindsTags (place + a.length) ('<' :: b) l) :
    ∃ inner, FindsTags place (a ++ '<' :: b) (inner ++ l) ∧ ∀ fuel place', a.length ≤ fuel →
      inner.map (·.closing) = (templateTagsFrom fuel place' a).map (·.closing) := by
  induction hn : a.length using Nat.strongRecOn generalizing a place with
  | ind n ih =>
    subst hn
    cases a with
    | nil =>
      refine ⟨[], h, fun fuel place' _ => ?_⟩
      cases fuel <;> rfl
    | cons c a =>
      have hu := ha _ ((mem_tails _ _).mpr (suffix_refl _))
      have hat := templateTagAt_append (cons_ne_nil c a) hu b
      cases htag : templateTagAt (c :: a) with
      | none =>
        rw [htag] at hat
        have hrest : FindsTags (place + 1 + a.length) ('<' :: b) l := by
          rwa [Nat.add_assoc, Nat.add_comm 1]
        obtain ⟨inner, hfinds, hinner⟩ :=
          ih a.length (Nat.lt_add_one _) (ha.suffix (suffix_cons c a)) hrest rfl
        refine ⟨inner, hfinds.cons hat, fun fuel place' hfuel => ?_⟩
        cases fuel with
        | zero => cases hfuel
        | succ fuel =>
          simp only [templateTagsFrom, htag]
          exact hinner fuel _ (Nat.le_of_succ_le_succ hfuel)
      | some r =>
        obtain ⟨closing, rest⟩ := r
        rw [htag] at hat
        have hsuffix := templateTagAt_suffix htag
        have hle := hsuffix.length_le
        have hplace : place + (a.length + 1 - rest.length) + rest.length = place + (c :: a).length := by
          rw [length_cons]
          omega
        obtain ⟨inner, hfinds, hinner⟩ := ih rest.length (Nat.lt_succ_of_le hle)
          (ha.suffix (hsuffix.trans (suffix_cons c a))) (hplace ▸ h) rfl
        have hstop : place + (a.length + 1 - rest.length) =
            place + ((a ++ '<' :: b).length + 1 - (rest ++ '<' :: b).length) := by
          simp only [length_append]
          omega
        refine ⟨⟨closing, ⟨place, _⟩⟩ :: inner, hfinds.tag hat hstop, fun fuel place' hfuel => ?_⟩
        cases fuel with
        | zero => cases hfuel
        | succ fuel =>
          have hrest := hinner fuel (place' + (a.length + 1 - rest.length))
            (hle.trans (Nat.le_of_succ_le_succ hfuel))
          simp only [templateTagsFrom, htag]
          exact congrArg (closing :: ·) hrest

end FindsTags

/-! ### Balance -/

/-- The depth after tags, of which some close; there is none once more tags closed than opened. -/
def depthAfter : Nat → List Bool → Option Nat
  | depth, [] => some depth
  | depth, false :: rest => depthAfter (depth + 1) rest
  | 0, true :: _ => none
  | depth + 1, true :: rest => depthAfter depth rest

/-- Template tags in a text open and close in pairs. -/
def Balanced (s : List Char) : Prop := depthAfter 0 ((templateTags s).map (·.closing)) = some 0

instance (s : List Char) : Decidable (Balanced s) :=
  inferInstanceAs (Decidable (depthAfter 0 ((templateTags s).map (·.closing)) = some 0))

theorem templateEnd?_append {depth depth' : Nat}
    (h : depthAfter depth (inner.map (·.closing)) = some depth') (l : List TemplateTag) :
    templateEnd? (depth + 1) (inner ++ l) = templateEnd? (depth' + 1) l := by
  induction inner generalizing depth with
  | nil =>
    cases h
    rfl
  | cons t inner ih =>
    obtain ⟨closing, span⟩ := t
    cases closing with
    | false => exact ih h
    | true =>
      cases depth with
      | zero => cases h
      | succ depth =>
        exact ih h

theorem FindsTags.template (hs : Balanced s) (hf : Finished s) (place : Nat) (b : List Char) :
    ∃ inner l, depthAfter 0 (inner.map (·.closing)) = some 0 ∧
      FindsTags place (regionText "template".toList [] s ++ b)
        (⟨false, ⟨place, place + 10⟩⟩ :: (inner ++
          ⟨true, ⟨place + 10 + s.length, place + 10 + s.length + 11⟩⟩ :: l)) := by
  obtain ⟨l, hl⟩ := exists_finds (place + 10 + s.length + 11) b
  have hname : "template".toList.length = 8 := by simp
  have hclosing : FindsTags (place + 10 + s.length) ('<' :: '/' :: ("template".toList ++ '>' :: b))
      (⟨true, ⟨place + 10 + s.length, place + 10 + s.length + 11⟩⟩ :: l) := by
    refine hl.tag rfl ?_
    simp only [length_append, length_cons]
    omega
  obtain ⟨inner, hinner, hflags⟩ := hclosing.append hf
  refine ⟨inner, l, ?_, ?_⟩
  · rw [hflags s.length 0 le_rfl]
    exact hs
  · have htext : regionText "template".toList [] s ++ b =
        '<' :: ("template".toList ++ '>' :: (s ++ '<' :: '/' :: ("template".toList ++ '>' :: b))) := by
      simp [regionText, closingTag]
    rw [htext]
    refine hinner.tag rfl ?_
    simp only [length_append, length_cons]
    omega

theorem templateRegion?_of_finds {first last : Span} {l : List TemplateTag}
    (h : FindsTags 0 s (⟨false, first⟩ :: (inner ++ ⟨true, last⟩ :: l)))
    (hd : depthAfter 0 (inner.map (·.closing)) = some 0) :
    templateRegion? s = some (⟨first.start, last.stop⟩, ⟨first.stop, last.start⟩) := by
  have htags : templateTags s = ⟨false, first⟩ :: (inner ++ ⟨true, last⟩ :: l) :=
    h s.length le_rfl
  have hend : templateEnd? 1 (inner ++ ⟨true, last⟩ :: l) = some last := by
    rw [templateEnd?_append hd]
    rfl
  simp [templateRegion?, htags, hend]

end Componentry.Source
