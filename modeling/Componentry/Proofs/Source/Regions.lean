import Componentry.Proofs.Source.Attributes
import Mathlib.Data.List.Infix

/-!
# Finding regions

Where tags and regions are found in a text that is put together from parts. A part without an opening
bracket is passed over, a tag or region is found where it stands, and the search goes on after it.
-/

namespace Componentry.Source

open Text List

variable {a b s rest a' attributes inner source : List Char} {c : Char} {name : List Char}
  {place : Nat}

/-! ### Stretches -/

theorem Span.cut_append (a x b : List Char) :
    (⟨a.length, a.length + x.length⟩ : Span).cut (a ++ (x ++ b)) = x := by
  simp [Span.cut]

/-- A text blanked out; line feeds stay. -/
def blanked (s : List Char) : List Char := s.map fun c => if c != '\n' then ' ' else c

@[simp] theorem length_blanked (s : List Char) : (blanked s).length = s.length := length_map _

theorem Bracketless.blanked (s : List Char) : Bracketless (blanked s) := by
  intro c hc
  obtain ⟨d, -, rfl⟩ := mem_map.mp hc
  split
  · decide
  next hd =>
    have hd : d = '\n' := by simpa using hd
    subst hd
    decide

/-- What blanking out a stretch makes of a character at its place. -/
def maskedAt (p : Span) (y : Char × Nat) : Char :=
  if p.start ≤ y.2 && y.2 < p.stop && y.1 != '\n' then ' ' else y.1

theorem mask_eq (p : Span) (s : List Char) : mask p s = s.zipIdx.map (maskedAt p) := rfl

theorem mask_append (a x b : List Char) :
    mask ⟨a.length, a.length + x.length⟩ (a ++ (x ++ b)) = a ++ (blanked x ++ b) := by
  have hout : ∀ (s : List Char) (k : Nat), k + s.length ≤ a.length ∨ a.length + x.length ≤ k →
      (s.zipIdx k).map (maskedAt ⟨a.length, a.length + x.length⟩) = s := by
    intro s k hk
    refine Eq.trans (map_congr_left fun y hy => ?_) (zipIdx_map_fst k s)
    obtain ⟨hle, hlt, -⟩ := mem_zipIdx hy
    have hno : ¬ (a.length ≤ y.2 ∧ y.2 < a.length + x.length) := by omega
    simp [maskedAt, hno]
  have hin : (x.zipIdx a.length).map (maskedAt ⟨a.length, a.length + x.length⟩) = blanked x := by
    have hfst : blanked x = (x.zipIdx a.length).map fun y => if y.1 != '\n' then ' ' else y.1 := by
      rw [blanked, ← zipIdx_map_fst a.length x, map_map, zipIdx_map_fst]
      rfl
    rw [hfst]
    refine map_congr_left fun y hy => ?_
    obtain ⟨hle, hlt, -⟩ := mem_zipIdx hy
    simp [maskedAt, hle, hlt]
  simp only [mask_eq, zipIdx_append, map_append, Nat.zero_add]
  rw [hout a 0 (.inl (by omega)), hin, hout b _ (.inr le_rfl)]

theorem Span.cutMasked_append (h : a.length = a'.length) (x b b' : List Char) :
    (⟨a.length, a.length + x.length⟩ : Span).cutMasked (a ++ (x ++ b)) (a' ++ (x ++ b')) = x := by
  have hcut := Span.cut_append a x b
  have hcut' := Span.cut_append a' x b'
  rw [← h] at hcut'
  rw [Span.cutMasked, hcut, hcut']
  clear hcut hcut'
  induction x with
  | nil => rfl
  | cons c x ih =>
    have hc : (if c == ' ' then replicate c.utf8Size ' ' else [c]) = [c] := by
      split
      next he =>
        rw [eq_of_beq he]
        rfl
      next => rfl
    rw [zip_cons_cons, flatMap_cons, ih]
    exact congrArg (· ++ x) hc

/-! ### Tags -/

theorem tagEnd?_cons (hc : c ≠ '>') (s : List Char) : tagEnd? (c :: s) = if isBlank c then
      match s.dropWhile (· != '>') with
      | _ :: rest => some ((c :: s).length - rest.length - 1, rest)
      | [] => none
    else none := by
  unfold tagEnd?
  split
  next he => exact absurd (cons.inj he).1 hc
  next he =>
    cases he
    rfl
  next he => cases he

theorem tagEnd?_append (ha : Bracketless a) (hhead : ∀ c ∈ a.head?, isBlank c = true)
    (rest : List Char) : tagEnd? (a ++ '>' :: rest) = some (a.length, rest) := by
  cases a with
  | nil => rfl
  | cons c a =>
    obtain ⟨hc, ha⟩ := forall_mem_cons.mp ha
    have hdrop : (a ++ '>' :: rest).dropWhile (· != '>') = '>' :: rest :=
      dropWhile_append_stop (fun d hd => by simpa using (ha d hd).2) (by simp)
    have hblank : isBlank c = true := hhead c rfl
    rw [cons_append, tagEnd?_cons hc.2, if_pos hblank, hdrop]
    simp only [length_cons, length_append, Option.some.injEq, Prod.mk.injEq, and_true]
    omega

def closingTag (name : List Char) : List Char := ['<', '/'] ++ name ++ ['>']

/-- The closing tag of a name does not stand in a text, in whatever case. -/
def Unclosed (name s : List Char) : Prop := ∀ u ∈ s.tails, dropLeadFold? (closingTag name) u = none

instance (name s : List Char) : Decidable (Unclosed name s) :=
  inferInstanceAs (Decidable (∀ u ∈ s.tails, dropLeadFold? (closingTag name) u = none))

/-- A name of a tag: small letters only. -/
def Plain (name : List Char) : Prop := name.all Char.isLower = true

instance (name : List Char) : Decidable (Plain name) :=
  inferInstanceAs (Decidable (name.all Char.isLower = true))

theorem Plain.isLower (hname : Plain name) (hc : c ∈ name) : c.isLower = true :=
  all_eq_true.mp hname c hc

theorem foldCase_of_isLower (h : c.isLower = true) : foldCase c = c := by
  have hupper : c.isUpper = false := Bool.eq_false_iff.mpr fun hu => by
    have := isLower_iff.mp h
    have := isUpper_iff.mp hu
    omega
  refine (foldCase_of_not_isUpper hupper ?_ ?_).1 <;> rintro rfl <;> cases h

section

variable (hname : Plain name)

include hname

theorem Plain.ne (hc : c ∈ name) : c ≠ '<' ∧ c ≠ '>' ∧ c ≠ '/' := by
  have hlower := hname.isLower hc
  refine ⟨?_, ?_, ?_⟩ <;> rintro rfl <;> cases hlower

theorem Plain.foldCase_openingTag : ∀ c ∈ '<' :: name, foldCase c = c :=
  forall_mem_cons.mpr ⟨rfl, fun _ hc => foldCase_of_isLower (hname.isLower hc)⟩

theorem Plain.foldCase_closingTag : ∀ c ∈ closingTag name, foldCase c = c := by
  intro c hc
  simp only [closingTag, mem_append, mem_cons, not_mem_nil, or_false] at hc
  rcases hc with ((rfl | rfl) | hc) | rfl
  · rfl
  · rfl
  · exact foldCase_of_isLower (hname.isLower hc)
  · rfl

theorem Unclosed.dropLeadFold?_append (hs : Unclosed name s) {u : List Char} (hne : u ≠ [])
    (hu : u <:+ s) (b : List Char) : dropLeadFold? (closingTag name) (u ++ '<' :: b) = none := by
  obtain ⟨d, u, rfl⟩ := exists_cons_of_ne_nil hne
  have hnone := hs _ ((mem_tails _ _).mpr hu)
  have htail : ∀ p ∈ '/' :: (name ++ ['>']), p ≠ foldCase '<' := by
    intro p hp
    simp only [mem_cons, mem_append, not_mem_nil, or_false] at hp
    rcases hp with rfl | hp | rfl
    · decide
    · exact (hname.ne hp).1
    · decide
  have hcons : ∀ w, dropLeadFold? (closingTag name) (d :: w) =
      if '<' == foldCase d then dropLeadFold? ('/' :: (name ++ ['>'])) w else none := by
    intro w
    rfl
  rw [hcons] at hnone
  rw [cons_append, hcons]
  split at hnone
  next hd =>
    rw [if_pos hd, Text.dropLeadFold?_append htail, hnone]
    rfl
  next hd => rw [if_neg hd]

theorem upToClosing?_append (hs : Unclosed name s) (rest : List Char) :
    upToClosing? name (s ++ (closingTag name ++ rest)) = some (s.length, rest) := by
  have hbreak : breakAt (fun s => (dropLeadFold? (closingTag name) s).isSome)
      (s ++ (closingTag name ++ rest)) = some (s, closingTag name ++ rest) := by
    refine breakAt_append ?_ fun u hne hu => ?_
    · rw [dropLeadFold?_self hname.foldCase_closingTag]
      rfl
    · have hnone := hs.dropLeadFold?_append hname hne hu ('/' :: (name ++ ['>']) ++ rest)
      simp only [closingTag, cons_append, nil_append] at hnone ⊢
      rw [hnone]
      rfl
  have hdrop : (closingTag name ++ rest).drop (closingTag name).length = rest := drop_left
  have hclosing : ['<', '/'] ++ name ++ ['>'] = closingTag name := rfl
  simp only [upToClosing?, hclosing, hbreak, hdrop]

end

/-! ### Regions -/

/-- The text of a region: an opening tag with attributes, a text and a closing tag. -/
def regionText (name attributes inner : List Char) : List Char :=
  '<' :: (name ++ (attributes ++ '>' :: (inner ++ closingTag name)))

/-- Where a region and its parts stand. -/
def regionSpans (name attributes inner : List Char) (place : Nat) : Region :=
  let start := place + name.length + 1
  { whole := ⟨place, place + (regionText name attributes inner).length⟩
    attributes := ⟨start, start + attributes.length⟩
    inner := ⟨start + attributes.length + 1, start + attributes.length + 1 + inner.length⟩ }

theorem regionAt_append (hname : Plain name) (ha : Bracketless attributes)
    (hhead : ∀ c ∈ attributes.head?, isBlank c = true) (hinner : Unclosed name inner) (place : Nat)
    (rest : List Char) :
    regionAt name place (regionText name attributes inner ++ rest) =
      some (regionSpans name attributes inner place, rest) := by
  have hopen : dropLeadFold? ('<' :: name) (regionText name attributes inner ++ rest) =
      some (attributes ++ '>' :: (inner ++ (closingTag name ++ rest))) := by
    have htext : regionText name attributes inner ++ rest =
        ('<' :: name) ++ (attributes ++ '>' :: (inner ++ (closingTag name ++ rest))) := by
      simp [regionText]
    rw [htext]
    exact dropLeadFold?_self hname.foldCase_openingTag _
  have hlength : (regionText name attributes inner ++ rest).length - rest.length =
      (regionText name attributes inner).length := by
    rw [length_append]
    omega
  simp only [regionAt, hopen, Option.bind_eq_bind, Option.bind_some, tagEnd?_append ha hhead,
    upToClosing?_append hname hinner, hlength]
  rfl

theorem regionAt_cons_ne (hc : c ≠ '<') (name : List Char) (place : Nat) (s : List Char) :
    regionAt name place (c :: s) = none := by
  have hfold : '<' ≠ foldCase c := fun he => hc (eq_of_foldCase rfl he.symm)
  simp [regionAt, dropLeadFold?_cons_ne hfold]

/-- Something holds of the regions that are found in a text that stands at a place. -/
def FindsRegions (name : List Char) (place : Nat) (s : List Char) (p : List Region → Prop) : Prop :=
  ∀ fuel, s.length ≤ fuel → p (regionsFrom name fuel place s)

namespace FindsRegions

variable {p : List Region → Prop}

theorem imp {q : List Region → Prop} (hpq : ∀ l, p l → q l) (h : FindsRegions name place s p) :
    FindsRegions name place s q := fun fuel hfuel => hpq _ (h fuel hfuel)

theorem nil (h : p []) : FindsRegions name place [] p := fun fuel _ => by
  cases fuel <;> exact h

theorem cons (hnone : regionAt name place (c :: s) = none) (h : FindsRegions name (place + 1) s p) :
    FindsRegions name place (c :: s) p := by
  intro fuel hfuel
  cases fuel with
  | zero => cases hfuel
  | succ fuel =>
    simp only [regionsFrom, hnone]
    exact h fuel (Nat.le_of_succ_le_succ hfuel)

theorem skip (ha : '<' ∉ a) (h : FindsRegions name (place + a.length) s p) :
    FindsRegions name place (a ++ s) p := by
  induction a generalizing place with
  | nil => exact h
  | cons c a ih =>
    obtain ⟨hc, ha⟩ := ne_and_not_mem_of_not_mem_cons ha
    refine cons (regionAt_cons_ne hc.symm name place (a ++ s)) (ih ha ?_)
    rwa [Nat.add_assoc, Nat.add_comm 1]

theorem region (hname : Plain name) (ha : Bracketless attributes)
    (hhead : ∀ c ∈ attributes.head?, isBlank c = true) (hinner : Unclosed name inner)
    (h : FindsRegions name (place + (regionText name attributes inner).length) s fun l =>
      p (regionSpans name attributes inner place :: l)) :
    FindsRegions name place (regionText name attributes inner ++ s) p := by
  intro fuel hfuel
  have hat := regionAt_append hname ha hhead hinner place s
  have hlength : s.length < fuel := by
    simp only [regionText, length_append, length_cons] at hfuel
    omega
  cases fuel with
  | zero => cases hlength
  | succ fuel =>
    have hcons : regionText name attributes inner ++ s =
        '<' :: (name ++ (attributes ++ '>' :: (inner ++ closingTag name)) ++ s) := rfl
    rw [hcons] at hat ⊢
    simp only [regionsFrom, hat]
    exact h fuel (Nat.le_of_lt_succ hlength)

end FindsRegions

/-! ### What stands in a region -/

theorem content_region (hs : source = a ++ (regionText name attributes inner ++ b)) :
    (content source (regionSpans name attributes inner a.length).inner).1 =
      String.ofList (trim inner) := by
  have hparts : source = (a ++ '<' :: (name ++ (attributes ++ ['>']))) ++
      (inner ++ (closingTag name ++ b)) := by
    simp [hs, regionText]
  have hplace : (a ++ '<' :: (name ++ (attributes ++ ['>']))).length =
      a.length + name.length + 1 + attributes.length + 1 := by
    simp only [length_append, length_cons, length_nil]
    omega
  have hcut := Span.cut_append (a ++ '<' :: (name ++ (attributes ++ ['>']))) inner
    (closingTag name ++ b)
  rw [← hparts, hplace] at hcut
  exact congrArg (fun s => String.ofList (trim s)) hcut

theorem exists_content (source : List Char) (p : Span) :
    ∃ before after, source = before ++ ((content source p).1.toList ++ after) ∧
      (content source p).2 = newlines before + 1 := by
  obtain ⟨blanks, -, htrim⟩ := exists_takeWhile_trim (p.cut source)
  have hcut : source = source.take p.start ++ (p.cut source ++
      (source.drop p.start).drop (p.stop - p.start)) := by
    rw [Span.cut, take_append_drop, take_append_drop]
  refine ⟨source.take p.start ++ (p.cut source).takeWhile isBlank,
    blanks ++ (source.drop p.start).drop (p.stop - p.start), ?_, ?_⟩
  · have hbetween : (p.cut source).takeWhile isBlank ++ (trim (p.cut source) ++
        (blanks ++ (source.drop p.start).drop (p.stop - p.start))) =
        p.cut source ++ (source.drop p.start).drop (p.stop - p.start) := by
      conv => rhs; rw [htrim]
      simp
    rw [content, String.toList_ofList, append_assoc, hbetween]
    exact hcut
  · simp only [content, lineAt, newlines, count_append]
    omega

theorem cutMasked_region {masked b' : List Char}
    (hs : source = a ++ (regionText name attributes inner ++ b))
    (hm : masked = a' ++ (regionText name attributes inner ++ b')) (hl : a.length = a'.length) :
    (regionSpans name attributes inner a.length).attributes.cutMasked source masked = attributes := by
  have hparts : ∀ x y : List Char, x ++ (regionText name attributes inner ++ y) =
      (x ++ '<' :: name) ++ (attributes ++ ('>' :: (inner ++ (closingTag name ++ y)))) := by
    intro x y
    simp [regionText]
  have hlength : (a ++ '<' :: name).length = (a' ++ '<' :: name).length := by
    rw [length_append, length_append, hl]
  have hplace : (a ++ '<' :: name).length = a.length + name.length + 1 := by
    rw [length_append, length_cons, Nat.add_assoc]
  have hcut := Span.cutMasked_append hlength attributes ('>' :: (inner ++ (closingTag name ++ b)))
    ('>' :: (inner ++ (closingTag name ++ b')))
  rw [← hparts, ← hparts, ← hs, ← hm, hplace] at hcut
  exact hcut

/-! ### Routes -/

theorem getLast_cons_ne {d : Char} (h : ∀ c ∈ (d :: s).getLast?, c ≠ '/') :
    ∀ c ∈ s.getLast?, c ≠ '/' := by
  intro c hc
  refine h c ?_
  rw [getLast?_cons, Option.mem_def.mp hc]
  rfl

/-- Attributes that do not end with a slash end where the tag does; a slash in them takes the character
after it along, and none of these is the end of the tag. -/
theorem routeAttributesEnd_append (ha : Bracketless a) (hlast : ∀ c ∈ a.getLast?, c ≠ '/')
    (rest : List Char) : routeAttributesEnd (a ++ '/' :: '>' :: rest) = '/' :: '>' :: rest := by
  induction h : a.length using Nat.strongRecOn generalizing a with
  | ind n ih =>
    subst h
    cases a with
    | nil => rfl
    | cons c a =>
      obtain ⟨hc, hbrackets⟩ := forall_mem_cons.mp ha
      have hrest := getLast_cons_ne hlast
      by_cases hslash : c = '/'
      · subst hslash
        cases a with
        | nil => exact absurd rfl (hlast '/' rfl)
        | cons d a =>
          obtain ⟨hd, hbrackets⟩ := forall_mem_cons.mp hbrackets
          have hne : (d == '>') = false := beq_eq_false_iff_ne.mpr hd.2
          have hlt : a.length < ('/' :: d :: a).length := by
            simp only [length_cons]
            omega
          simp only [cons_append, routeAttributesEnd, hne]
          exact ih a.length hlt hbrackets (getLast_cons_ne hrest) rfl
      · rw [cons_append, routeAttributesEnd]
        · exact ih a.length (Nat.lt_add_one _) hbrackets hrest rfl
        · exact fun _ _ he => absurd he hslash
        · exact fun he => absurd he hslash
        · exact hc.2

def routeTag (l : List RouteAttribute) (trail : Blanks) : List Char :=
  ['<', 'r', 'o', 'u', 't', 'e'] ++ (routeText l trail ++ ['/', '>'])

theorem routeAt_append (l : List RouteAttribute) (trail : Blanks) (place : Nat) (rest : List Char) :
    routeAt place (routeTag l trail ++ rest) =
      some ⟨place + 6, place + 6 + (routeText l trail).length⟩ := by
  have hopen : dropLeadFold? "<route".toList (routeTag l trail ++ rest) =
      some (routeText l trail ++ '/' :: '>' :: rest) := by
    have htext : routeTag l trail ++ rest =
        ['<', 'r', 'o', 'u', 't', 'e'] ++ (routeText l trail ++ '/' :: '>' :: rest) := by simp [routeTag]
    have hroute : Plain ['r', 'o', 'u', 't', 'e'] := by decide
    rw [htext]
    exact dropLeadFold?_self hroute.foldCase_openingTag _
  have hhead := head_routeText l trail
  have hlast := getLast_routeText l trail
  have hbrackets := Bracketless.routeText l trail
  unfold routeAt
  rw [hopen]
  generalize routeText l trail = a at *
  cases a with
  | nil => simp [isBlank]
  | cons c a =>
    obtain ⟨hc, ha⟩ := forall_mem_cons.mp hbrackets
    have hend := routeAttributesEnd_append ha (getLast_cons_ne hlast) rest
    simp only [Option.bind_eq_bind, Option.bind_some, cons_append, hhead c rfl, hend]
    simp
    omega

theorem routeFrom_skip (ha : '<' ∉ a) (place : Nat) (s : List Char) :
    routeFrom place (a ++ s) = routeFrom (place + a.length) s := by
  induction a generalizing place with
  | nil => rfl
  | cons c a ih =>
    obtain ⟨hc, ha⟩ := ne_and_not_mem_of_not_mem_cons ha
    have hfold : '<' ≠ foldCase c := fun he => hc (eq_of_foldCase rfl he.symm).symm
    have hnone : routeAt place (c :: (a ++ s)) = none := by
      have hlead : dropLeadFold? "<route".toList (c :: (a ++ s)) = none :=
        dropLeadFold?_cons_ne hfold _ _
      rw [routeAt, hlead]
      rfl
    rw [cons_append, routeFrom, hnone]
    exact (ih ha (place + 1)).trans (by rw [length_cons, Nat.add_assoc, Nat.add_comm 1])

theorem routeFrom_append (ha : '<' ∉ a) (l : List RouteAttribute) (trail : Blanks)
    (rest : List Char) : routeFrom 0 (a ++ (routeTag l trail ++ rest)) =
      some ⟨a.length + 6, a.length + 6 + (routeText l trail).length⟩ := by
  rw [routeFrom_skip ha, Nat.zero_add]
  have hat := routeAt_append l trail a.length rest
  have hcons : routeTag l trail ++ rest =
      '<' :: (['r', 'o', 'u', 't', 'e'] ++ (routeText l trail ++ ['/', '>']) ++ rest) := rfl
  rw [hcons] at hat ⊢
  rw [routeFrom, hat]

end Componentry.Source
