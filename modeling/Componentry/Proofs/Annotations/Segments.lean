import Componentry.Annotations.Extraction
import Componentry.Proofs.Text.Scan
import Mathlib.Data.List.Induction
import Mathlib.Data.List.Sort

/-!
# Edits and segments of a script

Edits are applied from the end of a text towards its start, so the part in front of an edit is still as
it was. Their order is the only one in which each of them stands above the next.

A script is the list of its segments: characters, and whole annotations. The same list gives the
script, the marked text and the text with annotations blanked out, so a place in one of them that is
not inside an annotation is a place in all of them: a way of cutting the list in two.
-/

namespace Componentry.Annotations

open Text List

def Edit.at (place width : Nat) (text : List Char) : Edit := ⟨⟨place, place + width⟩, text⟩

theorem cutRange?_append (a t : List Char) (width : Nat) :
    cutRange? ⟨byteLength a, byteLength a + width⟩ (a ++ t) =
      (cutBytes? width t).map fun r => (a, r.1, r.2) := by
  have ha : cutBytes? (byteLength a) (a ++ t) = some (a, t) := cutBytes?_eq_some.mpr ⟨rfl, rfl⟩
  simp only [cutRange?, ha, Option.bind_eq_bind, Option.bind_some, Nat.add_sub_cancel_left,
    Nat.le_add_right, if_true]
  cases cutBytes? width t <;> rfl

theorem Edit.apply_append (a t : List Char) (width : Nat) (text : List Char) :
    Edit.apply (a ++ t) (.at (byteLength a) width text) =
      (cutBytes? width t).map fun r => a ++ (text ++ r.2) := by
  simp [Edit.apply, Edit.at, cutRange?_append, Function.comp_def]

/-! ### The order of edits -/

theorem Edit.before_iff (a b : Edit) : a.before b = true ↔
      b.at_.start < a.at_.start ∨ a.at_.start = b.at_.start ∧ b.at_.stop ≤ a.at_.stop := by
  simp [Edit.before]

theorem pairwise_sorted (edits : List Edit) :
    (edits.mergeSort Edit.before).Pairwise fun a b => a.before b := by
  refine pairwise_mergeSort (fun a b c hab hbc => ?_) (fun a b => ?_) edits
  · rw [Edit.before_iff] at *
    omega
  · rw [Bool.or_eq_true, Edit.before_iff, Edit.before_iff]
    omega

/-- The edit starts later, or at the same place and ends later. -/
def Edit.Above (a b : Edit) : Prop :=
  b.at_.start < a.at_.start ∨ a.at_.start = b.at_.start ∧ b.at_.stop < a.at_.stop

/-- Only one order of edits has each of them above the next. -/
theorem mergeSort_eq_of_perm {edits l : List Edit} (hperm : edits.Perm l)
    (hl : l.Pairwise Edit.Above) : edits.mergeSort Edit.before = l := by
  have hperm := (mergeSort_perm edits Edit.before).trans hperm
  have hbefore : l.Pairwise fun a b => a.before b := by
    refine hl.imp fun {a b} h => (Edit.before_iff a b).mpr ?_
    exact h.imp_right fun h => ⟨h.1, h.2.le⟩
  refine hperm.eq_of_pairwise (fun a b ha hb hab hba => ?_) (pairwise_sorted edits) hbefore
  -- two edits that come before each other have one range, and the ranges are all different
  have hnodup : (l.map fun e => (e.at_.start, e.at_.stop)).Nodup := by
    refine pairwise_map.mpr (hl.imp fun {a b} h heq => ?_)
    obtain ⟨hstart, hstop⟩ := Prod.mk.inj heq
    rcases h with h | ⟨-, h⟩ <;> omega
  rw [Edit.before_iff] at hab hba
  obtain ⟨hstart, hstop⟩ : a.at_.start = b.at_.start ∧ a.at_.stop = b.at_.stop := by omega
  exact inj_on_of_nodup_map hnodup (hperm.mem_iff.mp ha) hb (Prod.ext hstart hstop)

open Text Script

variable {s script : List Char} {last p start stop : Nat} {os : List Occurrence}
  {a b gs : List Segment}

/-! ### Quoted texts -/

/-- What may stand between two quotes: no such quote, and every backslash takes the next character
with it. -/
inductive QuotedBody (q : Char) : List Char → Prop
  | nil : QuotedBody q []
  | plain {c : Char} {s : List Char} : c ≠ q → c ≠ '\\' → QuotedBody q s → QuotedBody q (c :: s)
  | escape (c : Char) {s : List Char} : QuotedBody q s → QuotedBody q ('\\' :: c :: s)

variable {c q : Char} {args body name : List Char} {fuel depth n : Nat}

theorem exists_quotedBody (h : quotedLength q s = some n) :
    ∃ body rest, s = body ++ q :: rest ∧ n = body.length + 1 ∧ QuotedBody q body := by
  fun_induction quotedLength q s generalizing n with
  | case1 | case2 => cases h
  | case3 c cs ih =>
    obtain ⟨m, hm, rfl⟩ := Option.map_eq_some_iff.mp h
    obtain ⟨body, rest, rfl, rfl, hbody⟩ := ih hm
    exact ⟨'\\' :: c :: body, rest, rfl, rfl, hbody.escape c⟩
  | case4 c cs hlast hescape hc =>
    cases h
    obtain rfl := eq_of_beq hc
    exact ⟨[], cs, rfl, rfl, .nil⟩
  | case5 c cs hlast hescape hc ih =>
    obtain ⟨m, hm, rfl⟩ := Option.map_eq_some_iff.mp h
    obtain ⟨body, rest, rfl, rfl, hbody⟩ := ih hm
    have hslash : c ≠ '\\' := by
      rintro rfl
      cases body with
      | nil | cons d body => exact hescape _ _ rfl rfl
    exact ⟨c :: body, rest, rfl, rfl, .plain (by simpa using hc) hslash hbody⟩

theorem quotedLength_le (h : quotedLength q s = some n) : n ≤ s.length := by
  obtain ⟨body, rest, rfl, rfl, -⟩ := exists_quotedBody h
  simp

/-- The quote that is open after a text, given the one that is open before it. -/
def openQuote : Option Char → List Char → Option Char
  | open_, [] => open_
  | some q, '\\' :: _ :: s => openQuote (some q) s
  | some q, c :: s => openQuote (if c == q then none else some q) s
  | none, c :: s => openQuote (if isQuote c then some c else none) s

theorem openQuote_cons (hc : c ≠ '\\') (s : List Char) :
    openQuote (some q) (c :: s) = openQuote (if c == q then none else some q) s := by
  rw [openQuote]
  intro d r hd
  exact absurd hd hc

theorem ne_of_isQuote {d : Char} (hq : isQuote q = true) (hd : isQuote d = false) : q ≠ d := by
  rintro rfl
  simp [hd] at hq

theorem QuotedBody.openQuote_eq (hq : isQuote q = true) (h : QuotedBody q body) (rest : List Char) :
    openQuote (some q) (body ++ q :: rest) = openQuote none rest := by
  induction h with
  | nil => rw [nil_append, openQuote_cons (ne_of_isQuote hq rfl), beq_self_eq_true, if_pos rfl]
  | plain hc hslash h ih => rw [cons_append, openQuote_cons hslash, if_neg (by simpa using hc), ih]
  | escape c h ih => exact ih

theorem blockLength_le (s : List Char) : blockLength s ≤ s.length := by
  fun_induction blockLength s with
  | case1 | case2 => simp
  | case3 c cs h ih =>
    simp only [length_cons]
    omega

theorem closingParen_spec (h : closingParen fuel depth s = some n) :
    ∃ a rest, s = a ++ ')' :: rest ∧ n = a.length ∧ openQuote none a = none := by
  have hpass {c : Char} {s : List Char} {k : Nat} (hc : ¬isQuote c = true)
      (h : ∃ a rest, s = a ++ ')' :: rest ∧ k = a.length ∧ openQuote none a = none) :
      ∃ a rest, c :: s = a ++ ')' :: rest ∧ k + 1 = a.length ∧ openQuote none a = none := by
    obtain ⟨a, rest, rfl, rfl, ha⟩ := h
    exact ⟨c :: a, rest, rfl, rfl, by rw [openQuote, if_neg hc, ha]⟩
  fun_induction closingParen fuel depth s generalizing n with
  | case1 | case2 => cases h
  | case3 depth fuel c cs hc ih =>
    obtain ⟨k, hk, h⟩ := Option.bind_eq_some_iff.mp h
    obtain ⟨m, hm, rfl⟩ := Option.map_eq_some_iff.mp h
    obtain ⟨body, rest, rfl, rfl, hbody⟩ := exists_quotedBody hk
    obtain ⟨a, after, hs, rfl, ha⟩ := ih _ hm
    have hdrop : (body ++ c :: rest).drop (body.length + 1) = rest := by simp
    obtain rfl := hdrop.symm.trans hs
    refine ⟨c :: (body ++ c :: a), after, by simp, by simp; omega, ?_⟩
    rw [openQuote, if_pos hc, hbody.openQuote_eq hc, ha]
  | case5 depth fuel c cs hq ho hc =>
    cases h
    exact ⟨[], cs, by rw [eq_of_beq hc]; rfl, rfl, rfl⟩
  | case4 depth fuel c cs hq _ ih | case6 depth fuel c cs hq _ _ _ ih
  | case7 depth fuel c cs hq _ _ ih =>
    obtain ⟨m, hm, rfl⟩ := Option.map_eq_some_iff.mp h
    exact hpass hq (ih hm)

/-! ### Annotations as they are found -/

/-- A name of an annotation: letters, digits, underscores, dollar signs and points, of which neither
a digit nor a point comes first. -/
structure IsName (name : List Char) : Prop where
  chars : ∀ c ∈ name, isNameChar c = true
  starts : ∃ c ∈ name.head?, (c.isDigit || c == '.') = false

/-- What is found after an at sign lies within what remains, has a name, and leaves no quote open in its
arguments. -/
theorem annotationAt_spec (h : annotationAt s = some (name, args, n)) :
    n ≤ s.length ∧ IsName name ∧ openQuote none args = none := by
  have hlen : (s.takeWhile isNameChar).length ≤ s.length := (takeWhile_sublist _).length_le
  have hchars : ∀ c ∈ s.takeWhile isNameChar, isNameChar c = true :=
    all_eq_true.mp all_takeWhile
  unfold annotationAt at h
  generalize s.takeWhile isNameChar = word at h hlen hchars
  cases word with
  | nil => cases h
  | cons c cs =>
    simp only at h
    split at h
    · cases h
    next hstart =>
      have hname : IsName (c :: cs) := ⟨hchars, c, rfl, Bool.not_eq_true _ ▸ hstart⟩
      split at h
      next k hk =>
        cases h
        split at hk
        next hopen =>
          obtain ⟨r, hr⟩ := head?_eq_some_iff.mp (eq_of_beq hopen)
          have hdrop := congrArg length hr
          rw [hr] at hk ⊢
          obtain ⟨m, hm, rfl⟩ := Option.map_eq_some_iff.mp hk
          obtain ⟨a, rest, rfl, rfl, ha⟩ := closingParen_spec hm
          refine ⟨?_, hname, by simpa using ha⟩
          simp only [length_drop, length_cons, length_append] at hdrop hlen ⊢
          omega
        next => cases hk
      next =>
        cases h
        exact ⟨hlen, hname, rfl⟩

/-! ### Annotations stand apart -/

/-- Annotations of a text up to `stop`, one after the other from `start` on. -/
def Spread (stop : Nat) : Nat → List Occurrence → Prop
  | start, [] => start ≤ stop
  | start, o :: os => start ≤ o.at_.start ∧ o.at_.start < o.at_.stop ∧ Spread stop o.at_.stop os

theorem Spread.of_le {stop' start' : Nat} (h : Spread stop' start' os) (hle : start ≤ start')
    (hstop : stop' = stop) : Spread stop start os := by
  subst hstop
  cases os with
  | nil => exact hle.trans h
  | cons o os => exact ⟨hle.trans h.1, h.2⟩

theorem Spread.pass {pos lead : Nat} (h : Spread (pos + lead + n + (s.drop n).length) (pos + lead + n) os)
    (hn : n ≤ s.length) (hstart : start ≤ pos + lead + n) :
    Spread (pos + (s.length + lead)) start os := h.of_le hstart (by rw [length_drop]; omega)

theorem Spread.start_le (h : Spread stop start os) : start ≤ stop := by
  induction os generalizing start with
  | nil => exact h
  | cons o os ih => exact (h.1.trans h.2.1.le).trans (ih h.2.2)

theorem Spread.pairwise (h : Spread stop start os) :
    (∀ o ∈ os, start ≤ o.at_.start ∧ o.at_.start < o.at_.stop ∧ o.at_.stop ≤ stop) ∧
      os.Pairwise fun o o' => o.at_.stop ≤ o'.at_.start := by
  induction os generalizing start with
  | nil => simp
  | cons o os ih =>
    obtain ⟨hstart, hne, hrest⟩ := h
    obtain ⟨hall, hpair⟩ := ih hrest
    refine ⟨forall_mem_cons.mpr ⟨⟨hstart, hne, hrest.start_le⟩, fun o' ho' => ?_⟩,
      .cons (fun o' ho' => (hall o' ho').1) hpair⟩
    have := hall o' ho'
    omega

theorem spread_scan (fuel : Nat) (before : Option Char) (pos : Nat) (s : List Char) :
    Spread (pos + s.length) pos (scan fuel before pos s) := by
  fun_induction scan fuel before pos s with
  | case1 | case2 => simp [Spread]
  | case3 fuel before pos cs body ih => exact ih.pass (takeWhile_sublist _).length_le (by omega)
  | case4 fuel before pos cs n ih => exact ih.pass (blockLength_le cs) (by omega)
  | case5 fuel before pos c cs h1 h2 hq n hn ih => exact ih.pass (quotedLength_le hn) (by omega)
  | case6 => simp [Spread]
  | case7 fuel before pos c cs h1 h2 hq hat name args n hn ih =>
    exact ⟨le_rfl, by simp only; omega, ih.pass (annotationAt_spec hn).1 le_rfl⟩
  | case8 fuel before pos c cs h1 h2 hq hat hn ih | case9 fuel before pos c cs h1 h2 hq hat ih =>
    exact ih.of_le (by omega) (Nat.add_right_comm ..)

theorem spread_occurrences (script : List Char) : Spread script.length 0 (occurrences script) := by
  simpa [occurrences] using spread_scan script.length none 0 script

/-! ### Segments -/

/-- A segment of a script. -/
inductive Segment where
  /-- A character that belongs to no annotation. -/
  | plain (c : Char)
  /-- An annotation with its text. -/
  | note (o : Occurrence) (text : List Char)
deriving DecidableEq, Repr

def Segment.source : Segment → List Char
  | .plain c => [c]
  | .note _ text => text

/-- The segment in the marked text. -/
def Segment.marked : Segment → List Char
  | .plain c => [c]
  | .note o _ => (encodeMarker o.name o.args).toList

/-- The segment with annotations blanked out. -/
def Segment.blanked : Segment → List Char
  | .plain c => [c]
  | .note _ text => blank text

variable (gs)

/-- The script. -/
def sourceOf : List Char := gs.flatMap Segment.source

@[simp] theorem sourceOf_nil : sourceOf [] = [] := rfl

variable (g : Segment)

@[simp] theorem sourceOf_cons (gs : List Segment) :
    sourceOf (g :: gs) = g.source ++ sourceOf gs := rfl

@[simp] theorem sourceOf_append (a b : List Segment) : sourceOf (a ++ b) = sourceOf a ++ sourceOf b :=
  flatMap_append

def markedOf : List Char := gs.flatMap Segment.marked

@[simp] theorem markedOf_nil : markedOf [] = [] := rfl

@[simp] theorem markedOf_cons (gs : List Segment) :
    markedOf (g :: gs) = g.marked ++ markedOf gs := rfl

@[simp] theorem markedOf_append (a b : List Segment) : markedOf (a ++ b) = markedOf a ++ markedOf b :=
  flatMap_append

/-- The script with annotations blanked out. -/
def blankedOf : List Char := gs.flatMap Segment.blanked

variable {gs}

@[simp] theorem blankedOf_nil : blankedOf [] = [] := rfl

@[simp] theorem blankedOf_cons (gs : List Segment) :
    blankedOf (g :: gs) = g.blanked ++ blankedOf gs := rfl

@[simp] theorem blankedOf_append (a b : List Segment) : blankedOf (a ++ b) = blankedOf a ++ blankedOf b :=
  flatMap_append

def segmentsFrom (script : List Char) : Nat → List Occurrence → List Segment
  | last, [] => (script.drop last).map .plain
  | last, o :: os =>
    (slice script ⟨last, o.at_.start⟩).map .plain ++
      .note o (slice script o.at_) :: segmentsFrom script o.at_.stop os

def segments (script : List Char) : List Segment :=
  segmentsFrom script 0 (occurrences script)

theorem Segment.marked_pos : 0 < g.marked.length := by
  cases g with
  | plain c => simp [Segment.marked]
  | note o text => simp [Segment.marked, encodeMarker]

@[simp] theorem sourceOf_plain (s : List Char) : sourceOf (s.map .plain) = s := by
  simp [sourceOf, flatMap_map, Segment.source]

@[simp] theorem markedOf_plain (s : List Char) : markedOf (s.map .plain) = s := by
  simp [markedOf, flatMap_map, Segment.marked]

theorem slice_append_drop (script : List Char) (h : last ≤ start) :
    slice script ⟨last, start⟩ ++ script.drop start = script.drop last := by
  have hdrop : script.drop start = (script.drop last).drop (start - last) := by
    rw [drop_drop, show last + (start - last) = start by omega]
  rw [slice, hdrop, take_append_drop]

theorem sourceOf_segmentsFrom (h : Spread script.length last os) :
    sourceOf (segmentsFrom script last os) = script.drop last := by
  induction os generalizing last with
  | nil => exact sourceOf_plain _
  | cons o os ih =>
    obtain ⟨hstart, hne, hrest⟩ := h
    rw [segmentsFrom, sourceOf_append, sourceOf_cons, ih hrest, sourceOf_plain, Segment.source]
    rw [slice_append_drop script hne.le, slice_append_drop script hstart]

@[simp] theorem sourceOf_segments (script : List Char) : sourceOf (segments script) = script := by
  simpa [segments] using sourceOf_segmentsFrom (spread_occurrences script)

/-! ### Places of annotations -/

/-- Annotations stand where they say, in a script whose first segment has `n` characters before
it. -/
def Standing : Nat → List Segment → Prop
  | _, [] => True
  | n, .plain _ :: gs => Standing (n + 1) gs
  | n, .note o text :: gs =>
    text ≠ [] ∧ o.at_ = ⟨n, n + text.length⟩ ∧ Standing (n + text.length) gs

theorem standing_append {n : Nat} :
    Standing n (a ++ b) ↔ Standing n a ∧ Standing (n + (sourceOf a).length) b := by
  induction a generalizing n with
  | nil => simp [Standing]
  | cons g a ih =>
    cases g with
    | plain c => simp [Standing, ih, Segment.source, Nat.add_assoc, Nat.add_comm 1]
    | note o text => simp [Standing, ih, Segment.source, and_assoc, Nat.add_assoc]

theorem standing_plain (n : Nat) (s : List Char) : Standing n (s.map .plain) := by
  induction s generalizing n with
  | nil => trivial
  | cons c s ih => exact ih (n + 1)

theorem standing_segmentsFrom (h : Spread script.length last os) :
    Standing last (segmentsFrom script last os) := by
  induction os generalizing last with
  | nil => exact standing_plain _ _
  | cons o os ih =>
    obtain ⟨hstart, hne, hrest⟩ := h
    have hstop := hrest.start_le
    have hlen : (slice script o.at_).length = o.at_.stop - o.at_.start := by
      simp only [slice, length_take, length_drop]
      omega
    have hbefore : (slice script ⟨last, o.at_.start⟩).length = o.at_.start - last := by
      simp only [slice, length_take, length_drop]
      omega
    rw [segmentsFrom, standing_append, sourceOf_plain, hbefore]
    refine ⟨standing_plain _ _, ?_, ?_, ?_⟩
    · rw [← length_pos_iff]
      omega
    · rw [hlen, show last + (o.at_.start - last) = o.at_.start by omega,
        show o.at_.start + (o.at_.stop - o.at_.start) = o.at_.stop by omega]
    · rw [hlen, show last + (o.at_.start - last) + (o.at_.stop - o.at_.start) = o.at_.stop by omega]
      exact ih hrest

variable (script)

theorem standing_segments : Standing 0 (segments script) :=
  standing_segmentsFrom (spread_occurrences script)

def notesOf (gs : List Segment) : List Occurrence :=
  gs.filterMap fun
    | .plain _ => none
    | .note o _ => some o

variable {script} in
theorem Standing.spread {n : Nat} (h : Standing n gs) :
    Spread (n + (sourceOf gs).length) n (notesOf gs) := by
  induction gs generalizing n with
  | nil => exact le_rfl
  | cons g gs ih =>
    rw [sourceOf_cons, length_append, ← Nat.add_assoc]
    cases g with
    | plain c => exact (ih h).of_le (Nat.le_succ n) rfl
    | note o text =>
      obtain ⟨hne, hat, h⟩ := h
      rw [show notesOf (.note o text :: gs) = o :: notesOf gs from rfl, Spread, hat]
      exact ⟨le_rfl, Nat.lt_add_of_pos_right (length_pos_iff.mpr hne), ih h⟩

theorem notesOf_segmentsFrom (last : Nat) (os : List Occurrence) :
    notesOf (segmentsFrom script last os) = os := by
  have hplain (s : List Char) : notesOf (s.map .plain) = [] := by simp [notesOf]
  induction os generalizing last with
  | nil => exact hplain _
  | cons o os ih =>
    have hnote := ih o.at_.stop
    simp only [notesOf] at hplain hnote ⊢
    rw [segmentsFrom]
    simp [hnote]

def placedIn : Nat → List Segment → List Placed
  | _, [] => []
  | p, .plain _ :: gs => placedIn (p + 1) gs
  | p, .note o text :: gs =>
    ⟨⟨p, p + (Segment.note o text).marked.length⟩, o⟩ ::
      placedIn (p + (Segment.note o text).marked.length) gs

theorem placedIn_append (p : Nat) (a b : List Segment) :
    placedIn p (a ++ b) = placedIn p a ++ placedIn (p + (markedOf a).length) b := by
  induction a generalizing p with
  | nil => rfl
  | cons g a ih =>
    cases g with
    | plain c => simp [placedIn, ih, Segment.marked, Nat.add_assoc, Nat.add_comm 1]
    | note o text => simp [placedIn, ih, Nat.add_assoc]

@[simp] theorem placedIn_plain (p : Nat) (s : List Char) : placedIn p (s.map .plain) = [] := by
  induction s generalizing p with
  | nil => rfl
  | cons c s ih => exact ih (p + 1)

theorem mark_eq (last p : Nat) (os : List Occurrence) : mark script last p os =
      (markedOf (segmentsFrom script last os), placedIn p (segmentsFrom script last os)) := by
  induction os generalizing last p with
  | nil => rw [mark, segmentsFrom, markedOf_plain, placedIn_plain]
  | cons o os ih =>
    simp [mark, segmentsFrom, ih, placedIn_append, placedIn, Segment.marked]

theorem mem_placedIn {m : Placed} (h : m ∈ placedIn p gs) :
    p ≤ m.at_.start ∧ m.at_.start < m.at_.stop ∧ m.at_.stop ≤ p + (markedOf gs).length := by
  induction gs generalizing p with
  | nil => cases h
  | cons g gs ih =>
    cases g with
    | plain c =>
      have := ih h
      simp only [markedOf_cons, length_append, Segment.marked, length_singleton]
      omega
    | note o text =>
      have hpos := (Segment.note o text).marked_pos
      simp only [markedOf_cons, length_append]
      rcases mem_cons.mp h with rfl | h
      · simp only
        omega
      · have := ih h
        omega

theorem pairwise_placedIn (p : Nat) (gs : List Segment) :
    (placedIn p gs).Pairwise fun m m' => m.at_.stop ≤ m'.at_.start := by
  induction gs generalizing p with
  | nil => exact .nil
  | cons g gs ih =>
    cases g with
    | plain c => exact ih _
    | note o text => exact .cons (fun m hm => (mem_placedIn hm).1) (ih _)

/-! ### One place in all texts -/

theorem exists_cut {q : Nat} (hle : p ≤ q) (hq : q ≤ p + (markedOf gs).length)
    (hout : ∀ m ∈ placedIn p gs, q ≤ m.at_.start ∨ m.at_.stop ≤ q) :
    ∃ a b, gs = a ++ b ∧ p + (markedOf a).length = q := by
  induction gs generalizing p with
  | nil => exact ⟨[], [], rfl, by simp at hq ⊢; omega⟩
  | cons g gs ih =>
    obtain rfl | hlt := hle.eq_or_lt
    · exact ⟨[], g :: gs, rfl, by simp⟩
    · -- the place is past this segment: it does not cut it
      simp only [markedOf_cons, length_append] at hq
      have hpast : p + g.marked.length ≤ q := by
        cases g with
        | plain c =>
          simp only [Segment.marked, length_singleton]
          omega
        | note o text =>
          have := hout _ (.head _)
          simp only at this
          omega
      have hrest : ∀ m ∈ placedIn (p + g.marked.length) gs, q ≤ m.at_.start ∨ m.at_.stop ≤ q := by
        intro m hm
        cases g with
        | plain c => exact hout m hm
        | note o text => exact hout m (.tail _ hm)
      obtain ⟨a, b, rfl, hab⟩ := ih hpast (by omega) hrest
      refine ⟨g :: a, b, rfl, ?_⟩
      simp only [markedOf_cons, length_append]
      omega

theorem cut_of_le {a' b' : List Segment} (h : a ++ b = a' ++ b')
    (hle : (markedOf a).length ≤ (markedOf a').length) : ∃ c, a' = a ++ c ∧ b = c ++ b' := by
  rcases append_eq_append_iff.mp h with ⟨c, rfl, rfl⟩ | ⟨c, rfl, rfl⟩
  · exact ⟨c, rfl, rfl⟩
  · cases c with
    | nil => exact ⟨[], by simp⟩
    | cons g c =>
      have := g.marked_pos
      simp only [markedOf_append, markedOf_cons, length_append] at hle
      omega

theorem getLast?_placedIn {n : Nat} (h : Standing n a) :
    (∃ s : List Char, a = s.map .plain ∧ (placedIn 0 a).getLast? = none) ∨
    ∃ (a' : List Segment) (s : List Char) (m : Placed),
      a = a' ++ s.map .plain ∧ (placedIn 0 a).getLast? = some m ∧
      m.at_.stop = (markedOf a').length ∧ m.occurrence.at_.stop = n + (sourceOf a').length := by
  induction a using reverseRecOn with
  | nil => exact .inl ⟨[], rfl, rfl⟩
  | append_singleton a g ih =>
    obtain ⟨ha, hg⟩ := standing_append.mp h
    cases g with
    | plain c =>
      have hsame : placedIn 0 (a ++ [.plain c]) = placedIn 0 a := by
        rw [placedIn_append]
        exact append_nil _
      rw [hsame]
      rcases ih ha with ⟨s, rfl, hlast⟩ | ⟨a', s, m, rfl, hlast, hstop⟩
      · exact .inl ⟨s ++ [c], by simp, hlast⟩
      · exact .inr ⟨a', s ++ [c], m, by simp, hlast, hstop⟩
    | note o text =>
      obtain ⟨-, hat, -⟩ := hg
      have hlast : (placedIn 0 (a ++ [.note o text])).getLast? =
          some ⟨⟨(markedOf a).length, (markedOf (a ++ [.note o text])).length⟩, o⟩ := by
        simp [placedIn_append, placedIn]
      refine .inr ⟨a ++ [.note o text], [], _, by simp, hlast, rfl, ?_⟩
      simp [hat, Segment.source, Nat.add_assoc]

theorem unmarkedPlace_cut (h : Standing 0 (a ++ b)) :
    unmarkedPlace (sourceOf (a ++ b)) (markedOf (a ++ b)) (placedIn 0 (a ++ b))
      (markedOf a).length = byteLength (sourceOf a) := by
  have hfind : (placedIn 0 (a ++ b)).reverse.find? (fun m => m.at_.stop ≤ (markedOf a).length) =
      (placedIn 0 a).getLast? := by
    rw [placedIn_append, reverse_append, find?_append]
    have hafter : (placedIn (0 + (markedOf a).length) b).reverse.find?
        (fun m => m.at_.stop ≤ (markedOf a).length) = none := by
      refine find?_eq_none.mpr fun m hm => ?_
      have := mem_placedIn (mem_reverse.mp hm)
      simp only [decide_eq_true_eq]
      omega
    rw [hafter, ← head?_reverse]
    cases hr : (placedIn 0 a).reverse with
    | nil => rfl
    | cons m ms =>
      have hm : m ∈ placedIn 0 a := mem_reverse.mp (hr ▸ .head _)
      have := mem_placedIn hm
      rw [find?_cons_of_pos (by simp only [decide_eq_true_eq]; omega)]
      rfl
  rw [unmarkedPlace, hfind]
  rcases getLast?_placedIn (standing_append.mp h).1 with ⟨s, rfl, hlast⟩ | ⟨a', s, m, rfl, hlast, hm⟩
  · simp
  · rw [hlast]
    simp [slice, hm.1, hm.2]

end Componentry.Annotations
