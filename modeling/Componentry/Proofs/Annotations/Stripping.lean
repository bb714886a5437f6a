import Componentry.Proofs.Annotations.Lexemes

/-!
# Stripping a script

Stripping keeps every character at its place, whatever the script: it changes no line end, and nothing
outside annotations. But blanking an annotation out leaves spaces, and a space is a boundary. An at sign
that stands directly after an annotation is no annotation itself as long as the other is there, but
becomes one when it is gone. Nothing else changes for the scan: it passes over the same comments and
literals.
-/

namespace Componentry.Annotations

open Text Script List

/-! ### Stripped texts -/

/-- A text that starts at `pos`, with some annotations blanked out. -/
def stripped : Nat → List Char → List Occurrence → List Char
  | _, s, [] => s
  | pos, s, o :: os =>
    s.take (o.at_.start - pos) ++
      (blank ((s.drop (o.at_.start - pos)).take (o.at_.stop - o.at_.start)) ++
        stripped o.at_.stop (s.drop (o.at_.stop - pos)) os)

variable {s script : List Char} {os : List Occurrence} {fuel fuel' next pos pos' stop : Nat}
  {before before' : Option Char}

theorem blankedOf_segmentsFrom {last : Nat} (h : Spread script.length last os) :
    blankedOf (segmentsFrom script last os) = stripped last (script.drop last) os := by
  have hplain (s : List Char) : blankedOf (s.map .plain) = s := by
    simp [blankedOf, flatMap_map, Segment.blanked]
  induction os generalizing last with
  | nil => exact hplain _
  | cons o os ih =>
    obtain ⟨hstart, hne, hrest⟩ := h
    have hstop : last ≤ o.at_.stop := hstart.trans hne.le
    rw [segmentsFrom, blankedOf_append, blankedOf_cons, hplain, ih hrest, stripped, drop_drop,
      drop_drop, Nat.add_sub_cancel' hstart, Nat.add_sub_cancel' hstop]
    rfl

theorem stripped_append (h : Spread stop next os) {x : List Char} (hnext : pos + x.length = next)
    (rest : List Char) : stripped pos (x ++ rest) os = x ++ stripped next rest os := by
  cases os with
  | nil => rfl
  | cons o os =>
    obtain ⟨hstart, hne, -⟩ := h
    have hlead : o.at_.start - pos = x.length + (o.at_.start - next) := by omega
    have hend : o.at_.stop - pos = x.length + (o.at_.stop - next) := by omega
    rw [stripped, stripped, hlead, hend, take_length_add_append, drop_length_add_append,
      drop_length_add_append, append_assoc]

theorem stripped_cons (h : Spread stop (pos + 1) os) (c : Char) (s : List Char) :
    stripped pos (c :: s) os = c :: stripped (pos + 1) s os :=
  stripped_append h (x := [c]) rfl s

theorem stripped_note (pos n : Nat) (name args : String) (cs : List Char) (os : List Occurrence) :
    stripped pos ('@' :: cs) (⟨⟨pos, pos + 1 + n⟩, name, args⟩ :: os) =
      blank ('@' :: cs.take n) ++ stripped (pos + 1 + n) (cs.drop n) os := by
  have hwidth : pos + 1 + n - pos = n + 1 := by omega
  simp [stripped, hwidth]

theorem spread_scan_succ (fuel pos : Nat) (hb : before.all isBoundary = false) (hs : s ≠ []) :
    Spread (pos + s.length) (pos + 1) (scan fuel before pos s) := by
  have hlen : 0 < s.length := length_pos_iff.mpr hs
  fun_cases scan fuel before pos s with
  | case1 => simp only [Spread]; omega
  | case2 => exact absurd rfl hs
  | case3 _ _ fuel cs body =>
    exact (spread_scan _ _ (pos + 2 + body.length) _).pass (takeWhile_sublist _).length_le (by omega)
  | case4 _ _ fuel cs n =>
    exact (spread_scan _ _ (pos + 2 + n) _).pass (blockLength_le cs) (by omega)
  | case5 _ _ fuel c cs h1 h2 hq n hn => exact (spread_scan ..).pass (quotedLength_le hn) (by omega)
  | case6 => simp only [Spread]; omega
  | case7 _ _ fuel c cs h1 h2 hq hat | case8 _ _ fuel c cs h1 h2 hq hat => simp [hb] at hat
  | case9 fuel c cs => exact (spread_scan ..).of_le le_rfl (Nat.add_right_comm ..)

theorem head?_stripped (hb : before.all isBoundary = false) :
    (stripped pos s (scan fuel before pos s)).head? = s.head? := by
  cases s with
  | nil => cases fuel <;> rfl
  | cons c s =>
    rw [stripped_cons (spread_scan_succ fuel pos hb (cons_ne_nil c s))]
    rfl

/-! ### Annotations that come to light -/

def startsNote (c : Char) : Bool := isNameChar c && !(c.isDigit || c == '.')

theorem annotationAt_eq_none_iff : annotationAt s = none ↔ ∀ c ∈ s.head?, startsNote c = false := by
  cases s with
  | nil => simp [annotationAt]
  | cons c s =>
    by_cases hc : isNameChar c = true
    · by_cases hstart : (c.isDigit || c == '.') = true
      · have hnot : startsNote c = false := by rw [startsNote, hc, hstart]; rfl
        simp [annotationAt, hc, hstart, hnot]
      · simp only [annotationAt, takeWhile_cons_of_pos hc, startsNote, if_neg hstart]
        split <;> simp_all
    · simp [annotationAt, hc, startsNote]

/-- A text starts with an annotation, but for what may stand before it. -/
def Exposes (s : List Char) : Prop := s.head? = some '@' ∧ ∃ c ∈ s.tail.head?, startsNote c = true

theorem scan_blank (hs : s ≠ []) (fuel pos : Nat) (before : Option Char) (rest : List Char) :
    ∃ last, Option.all isBoundary last = true ∧
      scan (s.length + fuel) before pos (blank s ++ rest) =
        scan fuel last (pos + s.length) rest := by
  have hlen : (blank s).length = s.length := length_map ..
  have hmem : ∀ c ∈ blank s, c = ' ' ∨ c = '\n' ∨ c = '\r' := by
    intro c hc
    obtain ⟨d, -, rfl⟩ := mem_map.mp hc
    split
    · simp_all
    · exact .inl rfl
  have hplain : ∀ c ∈ blank s, isQuote c = false ∧ c ≠ '/' ∧ c ≠ '@' := by
    intro c hc
    rcases hmem c hc with rfl | rfl | rfl <;> decide
  refine ⟨_, ?_, hlen ▸ scan_code hplain rest⟩
  cases hlast : (blank s).getLast? with
  | none => exact absurd (map_eq_nil_iff.mp (getLast?_eq_none_iff.mp hlast)) hs
  | some c => rcases hmem c (mem_of_getLast? hlast) with rfl | rfl | rfl <;> rfl

/-- Nothing comes to light from `os`, nor at the start of `s` if only now a boundary stands there. -/
def Hidden (script : List Char) (os : List Occurrence) (before before' : Option Char)
    (s : List Char) : Prop :=
  (∀ o ∈ os, ¬Exposes (script.drop o.at_.stop)) ∧
    ¬(before'.all isBoundary = true ∧ before.all isBoundary = false ∧ Exposes s)

theorem Hidden.iff_of_pass {rest : List Char} {last : Option Char} (x : List Char) (hx : x ≠ [])
    (hnext : pos + x.length = next) (hs : script.drop pos = x ++ rest)
    (hfuel : (x ++ rest).length ≤ fuel + 1)
    (hfuel' : (stripped pos (x ++ rest) (scan fuel last next rest)).length ≤ fuel')
    (ih : script.drop next = rest → rest.length ≤ fuel → ∀ {f : Nat} (p : Nat) (b : Option Char),
      (stripped next rest (scan fuel last next rest)).length ≤ f →
        (scan f b p (stripped next rest (scan fuel last next rest)) = [] ↔
          Hidden script (scan fuel last next rest) last b rest)) (hscan : ∀ f, ∃ p,
      scan (f + 1) before' pos' (x ++ stripped next rest (scan fuel last next rest)) =
        scan f last p (stripped next rest (scan fuel last next rest)))
    (hnot : before'.all isBoundary = true → before.all isBoundary = false → ¬Exposes (x ++ rest)) :
    scan fuel' before' pos' (stripped pos (x ++ rest) (scan fuel last next rest)) = [] ↔
      Hidden script (scan fuel last next rest) before before' (x ++ rest) := by
  have hlen : 0 < x.length := length_pos_iff.mpr hx
  have hdrop : script.drop next = rest := by
    rw [← hnext, ← drop_drop, hs, drop_left]
  rw [stripped_append (spread_scan fuel last next rest) hnext] at hfuel' ⊢
  rw [length_append] at hfuel hfuel'
  obtain _ | f := fuel'
  · omega
  obtain ⟨p, hscan⟩ := hscan f
  rw [hscan, ih hdrop (by omega) p last (by omega)]
  constructor
  · exact fun h => ⟨h.1, fun h' => hnot h'.1 h'.2.1 h'.2.2⟩
  · exact fun h => ⟨h.1, fun h' => absurd h'.1 (by simp [h'.2.1])⟩

theorem Hidden.nil (h : ¬Exposes s) (script : List Char) (before before' : Option Char) :
    Hidden script [] before before' s :=
  ⟨fun _ ho => absurd ho not_mem_nil, fun h' => h h'.2.2⟩

theorem not_exposes {c : Char} (hc : c ≠ '@') (s : List Char) : ¬Exposes (c :: s) :=
  fun h => hc (Option.some.inj h.1)

theorem scan_exposed {cs : List Char} (hos : Spread stop (pos + 1) os)
    (hb : before'.all isBoundary = true) (hne : annotationAt (stripped (pos + 1) cs os) ≠ none)
    (hfuel' : (stripped pos ('@' :: cs) os).length ≤ fuel') :
    scan fuel' before' pos' (stripped pos ('@' :: cs) os) ≠ [] := by
  obtain ⟨note, hnote⟩ := Option.ne_none_iff_exists'.mp hne
  rw [stripped_cons hos] at hfuel' ⊢
  rw [length_cons] at hfuel'
  obtain _ | f := fuel'
  · omega
  rw [scan_note hb hnote]
  exact cons_ne_nil _ _

/-- The annotations that the scan of a stripped text finds: none exactly if no annotation comes to
light. -/
theorem scan_stripped (hs : script.drop pos = s) (hfuel : s.length ≤ fuel) {fuel' : Nat}
    (pos' : Nat) (before' : Option Char)
    (hfuel' : (stripped pos s (scan fuel before pos s)).length ≤ fuel') :
    scan fuel' before' pos' (stripped pos s (scan fuel before pos s)) = [] ↔
      Hidden script (scan fuel before pos s) before before' s := by
  fun_induction scan fuel before pos s generalizing fuel' pos' before' with
  | case1 before pos s =>
    obtain rfl := eq_nil_of_length_eq_zero (Nat.le_zero.mp hfuel)
    cases fuel' <;> simp [stripped, scan, Hidden, Exposes]
  | case2 fuel before pos => cases fuel' <;> simp [stripped, scan, Hidden, Exposes]
  | case3 fuel before pos cs body ih =>
    obtain ⟨rest, hcs, hopen, hend⟩ : ∃ rest, cs = body ++ rest ∧ '\n' ∉ body ∧
      ∀ c ∈ rest.head?, c = '\n' := exists_lineBody cs
    clear_value body
    subst hcs
    rw [drop_left] at *
    exact Hidden.iff_of_pass ('/' :: '/' :: body) (by simp) (by simp; omega) hs hfuel hfuel' ih
      (fun f => ⟨_, scan_line hopen (by rwa [head?_stripped (by decide)])⟩)
      fun _ _ => not_exposes (by decide) _
  | case4 fuel before pos cs n ih =>
    rcases exists_blockBody cs with ⟨body, rest, rfl, hbody⟩ | hall
    · have hn : n = body.length + 2 := blockLength_append hbody rest
      have hdrop : (body ++ '*' :: '/' :: rest).drop (body.length + 2) = rest := by
        simp
      have hsplit (t : List Char) : '/' :: '*' :: (body ++ '*' :: '/' :: t) =
          '/' :: '*' :: (body ++ ['*', '/']) ++ t := by simp
      rw [hn, hdrop] at ih hfuel' ⊢
      rw [hsplit] at hs hfuel hfuel' ⊢
      exact Hidden.iff_of_pass _ (by simp) (by simp; omega) hs hfuel hfuel' ih
        (fun f => ⟨_, hsplit _ ▸ scan_block hbody _⟩) fun _ _ => not_exposes (by decide) _
    · -- the comment has no end
      have hrest : cs.drop n = [] := drop_eq_nil_of_le hall.symm.le
      have hnil (f p : Nat) (b : Option Char) : scan f b p [] = [] := by cases f <;> rfl
      rw [hrest, hnil] at hfuel' ⊢
      refine iff_of_true ?_ (.nil (not_exposes (by decide) _) ..)
      obtain _ | f := fuel'
      · simp [stripped] at hfuel'
      exact (congrArg _ hrest).trans (hnil ..)
  | case5 fuel before pos c cs h1 h2 hq n hn ih =>
    obtain ⟨body, rest, rfl, rfl, hbody⟩ := exists_quotedBody hn
    have hdrop (t : List Char) : (body ++ c :: t).drop (body.length + 1) = t := by
      simp
    have hsplit (t : List Char) : c :: (body ++ c :: t) = c :: (body ++ [c]) ++ t := by simp
    rw [hdrop] at ih hfuel' ⊢
    rw [hsplit] at hs hfuel hfuel' ⊢
    refine Hidden.iff_of_pass _ (by simp) (by simp; omega) hs hfuel hfuel' ih
      (fun f => ⟨pos' + 1 + (body.length + 1), ?_⟩) fun _ _ => not_exposes (ne_of_isQuote hq rfl) _
    rw [← hsplit, scan_quoted hq (hbody.quotedLength hq _), hdrop]
  | case6 fuel before pos c cs h1 h2 hq hn =>
    refine iff_of_true ?_ (.nil (not_exposes (ne_of_isQuote hq rfl) _) ..)
    obtain _ | f := fuel'
    · simp [stripped] at hfuel'
    rw [stripped, scan.eq_5 _ _ _ _ _ h1 h2, if_pos hq, hn]
  | case7 fuel before pos c cs h1 h2 hq hat name args n hn ih =>
    obtain ⟨rfl, hb⟩ : c = '@' ∧ before.all isBoundary = true := by simpa using hat
    have hdrop : script.drop (pos + 1 + n) = cs.drop n := by
      rw [Nat.add_assoc, ← drop_drop, hs, Nat.add_comm, drop_succ_cons]
    rw [stripped_note] at hfuel' ⊢
    rw [length_append, blank, length_map] at hfuel'
    obtain ⟨f, rfl⟩ := Nat.exists_eq_add_of_le ((Nat.le_add_right ..).trans hfuel')
    obtain ⟨last, hlast, hscan⟩ := scan_blank (cons_ne_nil '@' (cs.take n)) f pos' before'
      (stripped (pos + 1 + n) (cs.drop n)
        (scan fuel (some ')') (pos + 1 + n) (cs.drop n)))
    have hparen : Option.all isBoundary (some ')') = false := by decide
    rw [hscan, ih hdrop (by simp at hfuel ⊢; omega) _ last (by omega)]
    simp [Hidden, hlast, hb, hparen, hdrop, and_comm]
  | case8 fuel before pos c cs h1 h2 hq hat hn ih =>
    obtain ⟨rfl, hb⟩ : c = '@' ∧ before.all isBoundary = true := by simpa using hat
    have hnone : annotationAt (stripped (pos + 1) cs (scan fuel (some '@') (pos + 1) cs)) = none := by
      rwa [annotationAt_eq_none_iff, head?_stripped (by decide), ← annotationAt_eq_none_iff]
    exact Hidden.iff_of_pass ['@'] (by simp) rfl hs hfuel hfuel' ih
      (fun f => ⟨_, scan_plain (by decide) (fun h => absurd h (by decide)) fun _ _ => hnone⟩)
      fun _ h => absurd hb (by simp [h])
  | case9 fuel before pos c cs h1 h2 hq hat ih =>
    have hhead : c = '@' ∨ c = '/' →
        (stripped (pos + 1) cs (scan fuel (some c) (pos + 1) cs)).head? = cs.head? := by
      rintro (rfl | rfl) <;> exact head?_stripped (by decide)
    by_cases hfound : c = '@' ∧ before'.all isBoundary = true ∧
        annotationAt (stripped (pos + 1) cs (scan fuel (some c) (pos + 1) cs)) ≠ none
    · obtain ⟨rfl, hb', hne⟩ := hfound
      have hb : before.all isBoundary = false := by simpa using hat
      have hexp : Exposes ('@' :: cs) := by
        have hstart := hne
        rw [ne_eq, annotationAt_eq_none_iff, hhead (.inl rfl)] at hstart
        exact ⟨rfl, by simpa using hstart⟩
      exact iff_of_false (scan_exposed (spread_scan ..) hb' hne hfuel') fun h => h.2 ⟨hb', hb, hexp⟩
    · have hnone : c = '@' → before'.all isBoundary = true →
          annotationAt (stripped (pos + 1) cs (scan fuel (some c) (pos + 1) cs)) = none :=
        fun hc hb => by_contra fun hne => hfound ⟨hc, hb, hne⟩
      have hslash : c = '/' →
          ∀ d ∈ (stripped (pos + 1) cs (scan fuel (some c) (pos + 1) cs)).head?, d ≠ '/' ∧ d ≠ '*' := by
        intro hc d hd
        rw [hhead (.inr hc)] at hd
        obtain ⟨r, rfl⟩ := head?_eq_some_iff.mp hd
        exact ⟨fun h => h1 r hc (h ▸ rfl), fun h => h2 r hc (h ▸ rfl)⟩
      refine Hidden.iff_of_pass [c] (by simp) rfl hs hfuel hfuel' ih
        (fun f => ⟨_, scan_plain (by simpa using hq) hslash hnone⟩) fun hb _ hexp => ?_
      obtain ⟨hc, d, hd, hstart⟩ := hexp
      have hno := annotationAt_eq_none_iff.mp (hnone (Option.some.inj hc) hb)
      rw [hhead (.inl (Option.some.inj hc))] at hno
      exact absurd hstart (by simp [hno d hd])

/-! ### Stripping -/

theorem edited_nil (p : Nat) (gs : List Segment) : edited [] p gs = some (blankedOf gs) := by
  induction gs generalizing p with
  | nil => rfl
  | cons g gs ih => rw [edited, ih]; rfl

theorem extractStrip_script (script : String) :
    (extractStrip script).script.toList = blankedOf (segments script.toList) := by
  have hedits : (occurrences script.toList).map (fun o => blanking script.toList o.at_) =
      noteEdits (segments script.toList) := by
    rw [noteEdits, sourceOf_segments, segments, notesOf_segmentsFrom]
  have hnone : ∀ n ∈ ([] : List Naming), n.Fits 0 (segments script.toList) := by simp
  have happly := applyEdits_segments (standing_segments script.toList) hnone .nil (Perm.refl _)
  rw [sourceOf_segments, map_nil, nil_append, edited_nil] at happly
  rw [extractStrip, String.toList_ofList, hedits, happly, Option.getD_some]

/-! ### The layout of a stripped script -/

/-- A place belongs to an annotation. -/
def noted (os : List Occurrence) (i : Nat) : Bool :=
  os.any fun o => o.at_.start ≤ i && i < o.at_.stop

/-- The character of a stripped text at a place: a space for one of an annotation, line ends
apart. -/
def struck (os : List Occurrence) (i : Nat) (c : Char) : Char :=
  if noted os i && c != '\n' && c != '\r' then ' ' else c

theorem blankedOf_eq_mapIdx {n : Nat} {gs : List Segment} (h : Standing n gs) :
    blankedOf gs = (sourceOf gs).mapIdx fun i c => struck (notesOf gs) (n + i) c := by
  induction gs generalizing n with
  | nil => rfl
  | cons g gs ih =>
    cases g with
    | plain c =>
      have hrest : Standing (n + 1) gs := h
      have hout : noted (notesOf gs) n = false := by
        refine any_eq_false.mpr fun o ho => ?_
        have := (hrest.spread.pairwise.1 o ho).1
        simp only [Bool.and_eq_true, decide_eq_true_eq]
        omega
      have hnotes : notesOf (.plain c :: gs) = notesOf gs := rfl
      rw [blankedOf_cons, hnotes, ih hrest]
      simp [Segment.blanked, Segment.source, struck, hout, Nat.add_right_comm, Nat.add_assoc]
    | note o text =>
      obtain ⟨-, hat, hrest⟩ := h
      have hnotes : notesOf (.note o text :: gs) = o :: notesOf gs := rfl
      have hafter (i : Nat) : struck (o :: notesOf gs) (n + (i + text.length)) =
          struck (notesOf gs) (n + text.length + i) := by
        have hpast : ¬n + text.length + i < n + text.length := by omega
        funext c
        rw [← Nat.add_assoc, Nat.add_right_comm, struck, struck, noted, any_cons, hat]
        simp [noted, hpast]
      rw [blankedOf_cons, sourceOf_cons, hnotes, mapIdx_append, ih hrest]
      refine congrArg₂ (· ++ ·) ?_ (by simp only [Segment.source, hafter])
      refine ext_getElem (by simp [Segment.blanked, Segment.source, blank]) fun i hi hi' => ?_
      rw [length_mapIdx, Segment.source] at hi'
      by_cases hn : text[i] = '\n' <;> by_cases hr : text[i] = '\r' <;>
        simp [Segment.blanked, Segment.source, blank, struck, noted, hat, hi', hr]

theorem byteLength_eq_utf8ByteSize (s : List Char) :
    byteLength s = (String.ofList s).utf8ByteSize := by
  induction s with
  | nil => rfl
  | cons c s ih =>
    rw [byteLength_cons, ih]
    simp

theorem byteLength_take_add_le {i j : Nat} (hij : i ≤ j) (hj : j ≤ s.length) :
    byteLength (s.take i) + (j - i) ≤ byteLength (s.take j) := by
  obtain ⟨k, rfl⟩ := Nat.exists_eq_add_of_le hij
  have hlen := length_le_byteLength ((s.drop i).take k)
  rw [length_take, length_drop] at hlen
  rw [take_add, byteLength_append]
  omega

def ranges (script : List Char) : List Span :=
  (occurrences script).map fun o => byteSpan script o.at_

/-- Stripping keeps the layout of every script. The ranges of its annotations are not empty, lie
within the script, start and end where a character does, and follow each other. The stripped script has
the characters of the script at their places, but for a space in place of each character of an
annotation that ends no line. -/
theorem strip_keeps_layout (script : String) :
    (∀ r ∈ ranges script.toList, r.start < r.stop ∧ r.stop ≤ script.utf8ByteSize ∧
      String.Pos.Raw.IsValid script ⟨r.start⟩ ∧ String.Pos.Raw.IsValid script ⟨r.stop⟩) ∧
    (ranges script.toList).Pairwise (fun r r' => r.stop ≤ r'.start) ∧
    (extractStrip script).script.toList =
      script.toList.mapIdx (struck (occurrences script.toList)) := by
  obtain ⟨hall, hpair⟩ := (spread_occurrences script.toList).pairwise
  have hvalid (i : Nat) : String.Pos.Raw.IsValid script ⟨byteLength (script.toList.take i)⟩ :=
    String.Pos.Raw.isValid_iff_exists_take_toList.mpr ⟨i, byteLength_eq_utf8ByteSize _⟩
  refine ⟨fun r hr => ?_, pairwise_map.mpr (hpair.imp_of_mem fun {o o'} _ ho' h => ?_), ?_⟩
  · obtain ⟨o, ho, rfl⟩ := mem_map.mp hr
    obtain ⟨-, hne, hstop⟩ := hall o ho
    have hrange := byteLength_take_add_le hne.le hstop
    have hend := byteLength_take_add_le hstop le_rfl
    rw [take_length, byteLength_eq_utf8ByteSize script.toList, String.ofList_toList] at hend
    refine ⟨?_, ?_, hvalid _, hvalid _⟩ <;> simp only [byteSpan] <;> omega
  · have hbound := hall o' ho'
    have hle := byteLength_take_add_le h (show o'.at_.start ≤ script.toList.length by omega)
    exact Nat.le_of_add_right_le hle
  · rw [extractStrip_script, blankedOf_eq_mapIdx (standing_segments _), sourceOf_segments, segments,
      notesOf_segmentsFrom]
    simp

/-- The arguments of the first annotation go over two lines; a string is left open. -/
theorem strip_keeps_layout_unclosed :
    ranges "é @a(1,\n'é') m() @b \"@c".toList = [⟨3, 14⟩, ⟨19, 21⟩] ∧
    (extractStrip "é @a(1,\n'é') m() @b \"@c").script = "é      \n     m()    \"@c" := by
  have hranges : ranges "é @a(1,\n'é') m() @b \"@c".toList = [⟨3, 14⟩, ⟨19, 21⟩] := by
    decide +kernel
  obtain ⟨-, -, hscript⟩ := strip_keeps_layout "é @a(1,\n'é') m() @b \"@c"
  refine ⟨hranges, String.toList_inj.mp (hscript.trans ?_)⟩
  decide +kernel

/-! ### Stripping twice -/

theorem extractStrip_of_occurrences {script : String} (h : occurrences script.toList = []) :
    extractStrip script = ⟨script, [], [], .strip, []⟩ := by
  simp [extractStrip, h, applyEdits]

theorem extractStrip_diagnostics {script : String} :
    (extractStrip script).diagnostics = [] ↔ occurrences script.toList = [] := by
  simp [extractStrip]

/-- Stripping leaves no annotation, so that stripping again changes nothing and finds nothing wrong,
exactly if no annotation is directly followed by an at sign with the start of a name. -/
theorem strip_leaves_none_iff (script : String) :
    (occurrences (extractStrip script).script.toList = [] ↔
      ∀ o ∈ occurrences script.toList, ¬Exposes (script.toList.drop o.at_.stop)) ∧
    (extractStrip (extractStrip script).script =
        { extractStrip script with diagnostics := [] } ↔
      ∀ o ∈ occurrences script.toList, ¬Exposes (script.toList.drop o.at_.stop)) := by
  have hiff : occurrences (extractStrip script).script.toList = [] ↔
      ∀ o ∈ occurrences script.toList, ¬Exposes (script.toList.drop o.at_.stop) := by
    have hscan := scan_stripped (drop_zero (l := script.toList)) le_rfl 0 none (le_refl (stripped 0 script.toList
        (occurrences script.toList)).length)
    rw [extractStrip_script, segments, blankedOf_segmentsFrom (spread_occurrences _)]
    exact hscan.trans ⟨fun h => h.1, fun h => ⟨h, fun h' => by simp at h'⟩⟩
  refine ⟨hiff, ?_⟩
  rw [← hiff]
  constructor
  · exact fun h => extractStrip_diagnostics.mp (congrArg Extraction.diagnostics h)
  · exact extractStrip_of_occurrences

/-- The second of two annotations comes to light when the first one is gone. -/
theorem strip_leaves_second : (extractStrip "@a@b m() \x7b").script = "  @b m() \x7b" ∧
    (extractStrip "  @b m() \x7b").script = "     m() \x7b" ∧
    (occurrences (extractStrip "@a@b m() \x7b").script.toList).map (·.name) = ["b"] ∧
    (extractStrip (extractStrip "@a@b m() \x7b").script).diagnostics.length = 1 := by
  decide +kernel

end Componentry.Annotations
