import Componentry.Proofs.Annotations.Segments

/-!
# Scripts rewritten

What a script without annotations looks like: annotations are blanked out, and a default export
without a name gets one, each at the place where it stands. Beside it stands what the edits make of
the script. The two differ only by the bytes that blanked annotations lose in front of an opening
brace: as many bytes are then cut off after it.
-/

namespace Componentry.Annotations

open Text Script List

/-- How a default export without a name gets one: a word takes the place of a range of the marked
text, of which only line feeds are left. -/
structure Naming where
  start : Nat
  stop : Nat
  word : List Char
deriving DecidableEq, Repr

def Naming.object (start brace : Nat) : Naming :=
  ⟨start, brace, ("const " ++ defaultOwner ++ " = ").toList⟩

def Naming.class_ (after : Nat) : Naming := ⟨after, after, (" " ++ defaultOwner).toList⟩

def lineFeeds (s : List Char) : List Char := s.filter (· == '\n')

/-- The words that are put in at a place. -/
def insertedAt (ns : List Naming) (p : Nat) : List Char :=
  (ns.filter (·.start == p)).flatMap Naming.word

/-- A word takes the place of what stands here. -/
def covered (ns : List Naming) (p : Nat) : Bool := ns.any fun n => n.start ≤ p && p < n.stop

/-- The rewritten script, segment by segment; the first one stands at a place of the marked text. -/
def rewritten (ns : List Naming) : Nat → List Segment → List Char
  | p, [] => insertedAt ns p
  | p, g :: gs =>
    insertedAt ns p ++ ((if covered ns p then lineFeeds g.source else g.blanked) ++
      rewritten ns (p + g.marked.length) gs)

/-- An annotation takes as many bytes as characters. -/
def Segment.Narrow : Segment → Prop
  | .plain _ => True
  | .note _ text => ∀ c ∈ text, c.utf8Size = 1

/-- The annotations in whose place a word is put are narrow. -/
def Narrow (ns : List Naming) : Nat → List Segment → Prop
  | _, [] => True
  | p, g :: gs => (covered ns p → g.Narrow) ∧ Narrow ns (p + g.marked.length) gs

instance (g : Segment) : Decidable g.Narrow :=
  match g with
  | .plain _ => .isTrue trivial
  | .note _ text =>
    decidable_of_iff (text.all fun c => c.utf8Size == 1) (by simp [Segment.Narrow])

instance decidableNarrow (ns : List Naming) : (p : Nat) → (gs : List Segment) →
    Decidable (Narrow ns p gs)
  | _, [] => .isTrue trivial
  | p, g :: gs =>
    have := decidableNarrow ns (p + g.marked.length) gs
    inferInstanceAs (Decidable ((covered ns p = true → g.Narrow) ∧ Narrow ns _ gs))

/-! ### Lines -/

theorem count_blanked (g : Segment) : g.blanked.count '\n' = g.source.count '\n' := by
  cases g with
  | plain c => rfl
  | note o text =>
    rw [Segment.blanked, blank, count, countP_map]
    refine countP_congr fun c _ => ?_
    by_cases hc : c = '\n' <;> by_cases hr : c = '\r' <;> simp [hc, hr]

theorem count_lineFeeds (s : List Char) : (lineFeeds s).count '\n' = s.count '\n' := by
  rw [lineFeeds, count_filter (by simp)]

variable {n : Naming} {ns : List Naming} {p k : Nat} {mid : List Segment}

theorem count_insertedAt {c : Char} (hns : ∀ n ∈ ns, c ∉ n.word) (p : Nat) :
    (insertedAt ns p).count c = 0 := by
  refine count_eq_zero.mpr fun h => ?_
  obtain ⟨n, hn, hmem⟩ := mem_flatMap.mp h
  exact hns n (mem_of_mem_filter hn) hmem

theorem filter_start_eq_nil (h : ∀ n ∈ ns, n.start ≠ p) : ns.filter (·.start == p) = [] :=
  filter_eq_nil_iff.mpr (by simpa using h)

theorem rewritten_append (hns : ∀ n ∈ ns, '\n' ∉ n.word) (p : Nat) (a b : List Segment) :
    ∃ l, rewritten ns p (a ++ b) = l ++ rewritten ns (p + (markedOf a).length) b ∧
      l.count '\n' = (sourceOf a).count '\n' := by
  induction a generalizing p with
  | nil => exact ⟨[], by simp⟩
  | cons g a ih =>
    obtain ⟨l, hl, hcount⟩ := ih (p + g.marked.length)
    refine ⟨insertedAt ns p ++ ((if covered ns p then lineFeeds g.source else g.blanked) ++ l), ?_, ?_⟩
    · simp [rewritten, hl, Nat.add_assoc]
    · rw [count_append, count_insertedAt hns, count_append, hcount, sourceOf_cons,
        count_append, Nat.zero_add]
      split
      · rw [count_lineFeeds]
      · rw [count_blanked]

theorem rewritten_plain (hns : ∀ n ∈ ns, '\n' ∉ n.word) {a b : List Segment} {c : Char}
    (hc : covered ns (markedOf a).length = false) :
    ∃ l r, rewritten ns 0 (a ++ .plain c :: b) = l ++ c :: r ∧
      l.count '\n' = (sourceOf a).count '\n' := by
  obtain ⟨l, hl, hcount⟩ := rewritten_append hns 0 a (.plain c :: b)
  refine ⟨l ++ insertedAt ns (markedOf a).length, rewritten ns ((markedOf a).length + 1) b, ?_, ?_⟩
  · rw [hl, Nat.zero_add, rewritten, hc]
    simp [Segment.blanked, Segment.marked]
  · rw [count_append, count_insertedAt hns, hcount, Nat.add_zero]

/-! ### What the edits make of a script -/

/-- The segments before a place; the first one stands at `p`. -/
def upTo (stop : Nat) : Nat → List Segment → List Segment
  | _, [] => []
  | p, g :: gs => if p < stop then g :: upTo stop (p + g.marked.length) gs else []

theorem upTo_of_le {stop : Nat} (h : stop ≤ p) (gs : List Segment) : upTo stop p gs = [] := by
  cases gs <;> simp [upTo, h]

theorem upTo_append {stop : Nat} (a b : List Segment) (h : p + (markedOf a).length ≤ stop) :
    upTo stop p (a ++ b) = a ++ upTo stop (p + (markedOf a).length) b := by
  induction a generalizing p with
  | nil => simp
  | cons g a ih =>
    have hpos := g.marked_pos
    simp only [markedOf_cons, length_append] at h
    rw [cons_append, upTo, if_pos (by omega), ih (by omega)]
    simp [Nat.add_assoc]

/-- Puts a word in the place of the segments up to the end of its range, which are counted in bytes
of the script; `rest` is what became of the segments. -/
def Naming.put (n : Naming) (p : Nat) (gs : List Segment) (rest : List Char) : Option (List Char) :=
  let range := sourceOf (upTo n.stop p gs)
  (cutBytes? (byteLength range) rest).map fun r => n.word ++ lineFeeds range ++ r.2

/-- Puts in the words of a place. -/
def putAt (ns : List Naming) (p : Nat) (gs : List Segment) (rest : List Char) :
    Option (List Char) :=
  (ns.filter (·.start == p)).foldlM (fun t n => n.put p gs t) rest

/-- What the edits make of segments, from the last one to the first, unless one cuts a character. -/
def edited (ns : List Naming) : Nat → List Segment → Option (List Char)
  | p, [] => putAt ns p [] []
  | p, g :: gs =>
    (edited ns (p + g.marked.length) gs).bind fun rest => putAt ns p (g :: gs) (g.blanked ++ rest)

/-- A word is put in the place of some segments. It takes the place of nothing, or of what starts
with a character and is followed by an opening brace. -/
def Naming.Fits (n : Naming) (p : Nat) (gs : List Segment) : Prop :=
  ∃ a mid b, gs = a ++ (mid ++ b) ∧ p + (markedOf a).length = n.start ∧
    n.start + (markedOf mid).length = n.stop ∧
    (mid = [] ∨ (∃ c mid', mid = .plain c :: mid') ∧ ∃ b', b = .plain '\x7b' :: b')

theorem edited_clear {a b : List Segment}
    (h : ∀ n ∈ ns, n.start < p ∨ p + (markedOf a).length ≤ n.start) :
    edited ns p (a ++ b) = (edited ns (p + (markedOf a).length) b).map (blankedOf a ++ ·) := by
  induction a generalizing p with
  | nil => simp
  | cons g a ih =>
    have hpos := g.marked_pos
    simp only [markedOf_cons, length_append] at h
    have hnone : ns.filter (·.start == p) = [] := by
      refine filter_start_eq_nil fun n hn => ?_
      have := h n hn
      omega
    have hrest := ih (p := p + g.marked.length) fun n hn => by
      have := h n hn
      omega
    simp only [cons_append, edited, putAt, hnone, hrest]
    cases h : edited ns (p + g.marked.length + (markedOf a).length) b <;> simp [← Nat.add_assoc, h]

theorem edited_cons_of_lt (h : n.start < p) (gs : List Segment) :
    edited (n :: ns) p gs = edited ns p gs := by
  have hskip (q : Nat) (hq : n.start < q) :
      (n :: ns).filter (·.start == q) = ns.filter (·.start == q) :=
    filter_cons_of_neg (by simpa using hq.ne)
  induction gs generalizing p with
  | nil => simp [edited, putAt, hskip p h]
  | cons g gs ih => simp [edited, putAt, hskip p h, ih (h.trans_le (Nat.le_add_right ..))]

theorem edited_cons_self (h : ∀ m ∈ ns, n.start < m.start) (gs : List Segment) :
    edited (n :: ns) n.start gs = (edited ns n.start gs).bind (n.put n.start gs) := by
  have hnone := filter_start_eq_nil fun m hm => (h m hm).ne'
  have hone : (n :: ns).filter (·.start == n.start) = [n] := by simp [hnone]
  cases gs with
  | nil => simp [edited, putAt, hone, hnone]
  | cons g gs =>
    have hpos := g.marked_pos
    have hlater : edited (n :: ns) (n.start + g.marked.length) gs = edited ns _ gs :=
      edited_cons_of_lt (by omega) gs
    simp [edited, putAt, hone, hnone, hlater, Option.bind_assoc]

/-! ### The same steps in the rewritten script -/

theorem insertedAt_of_ne (h : ∀ n ∈ ns, n.start ≠ p) : insertedAt ns p = [] := by
  rw [insertedAt, filter_start_eq_nil h, flatMap_nil]

theorem covered_of_lt (h : ∀ n ∈ ns, p < n.start) : covered ns p = false := by
  refine any_eq_false.mpr fun n hn => ?_
  have := h n hn
  simp only [Bool.and_eq_true, decide_eq_true_eq]
  omega

theorem covered_cons_of_mem (hstart : n.start ≤ p) (hstop : p < n.stop) (ns : List Naming) :
    covered (n :: ns) p = true := by
  simp [covered, hstart, hstop]

theorem covered_cons_of_le (h : n.stop ≤ p) (ns : List Naming) :
    covered (n :: ns) p = covered ns p := by
  simp [covered, h.not_gt]

theorem rewritten_clear {a b : List Segment} (h : ∀ n ∈ ns, p + (markedOf a).length ≤ n.start) :
    rewritten ns p (a ++ b) = blankedOf a ++ rewritten ns (p + (markedOf a).length) b := by
  induction a generalizing p with
  | nil => simp
  | cons g a ih =>
    have hpos := g.marked_pos
    simp only [markedOf_cons, length_append] at h
    have hlt : ∀ n ∈ ns, p < n.start := fun n hn => by
      have := h n hn
      omega
    have hrest := ih (p := p + g.marked.length) fun n hn => by
      have := h n hn
      omega
    rw [cons_append, rewritten, insertedAt_of_ne fun n hn => (hlt n hn).ne', covered_of_lt hlt,
      hrest]
    simp [Nat.add_assoc]

theorem rewritten_cons_of_lt (h : n.start < p) (hstop : n.stop ≤ p) (gs : List Segment) :
    rewritten (n :: ns) p gs = rewritten ns p gs := by
  have hword (q : Nat) (hq : n.start < q) : insertedAt (n :: ns) q = insertedAt ns q := by
    rw [insertedAt, filter_cons_of_neg (by simpa using hq.ne), insertedAt]
  induction gs generalizing p with
  | nil => exact hword p h
  | cons g gs ih =>
    rw [rewritten, rewritten, hword p h, covered_cons_of_le hstop,
      ih (h.trans_le (Nat.le_add_right ..)) (hstop.trans (Nat.le_add_right ..))]

theorem rewritten_within (hns : ∀ m ∈ ns, n.stop < m.start) (hp : n.start < p)
    (hstop : p + (markedOf mid).length = n.stop)
    (b : List Segment) :
    rewritten (n :: ns) p (mid ++ b) = lineFeeds (sourceOf mid) ++ rewritten ns n.stop b := by
  induction mid generalizing p with
  | nil =>
    subst hstop
    exact rewritten_cons_of_lt hp le_rfl b
  | cons g mid ih =>
    have hpos := g.marked_pos
    simp only [markedOf_cons, length_append] at hstop
    have hword : insertedAt (n :: ns) p = [] := by
      refine insertedAt_of_ne fun m hm => ?_
      rcases mem_cons.mp hm with rfl | hm
      · exact hp.ne
      · have := hns m hm
        omega
    rw [cons_append, rewritten, hword, covered_cons_of_mem hp.le (by omega),
      ih (by omega) (by omega)]
    simp [lineFeeds]

theorem rewritten_range (hns : ∀ m ∈ ns, n.stop < m.start)
    (hstop : n.start + (markedOf mid).length = n.stop) (b : List Segment) :
    rewritten (n :: ns) n.start (mid ++ b) =
      n.word ++ (lineFeeds (sourceOf mid) ++ rewritten ns n.stop b) := by
  have hword : insertedAt (n :: ns) n.start = n.word := by
    have hnone : ns.filter (·.start == n.start) = [] := by
      refine filter_start_eq_nil fun m hm => ?_
      have := hns m hm
      omega
    simp [insertedAt, hnone]
  cases mid with
  | nil =>
    simp only [markedOf_nil, length_nil, Nat.add_zero] at hstop
    have hnone := insertedAt_of_ne fun m hm => (hns m hm).ne'
    cases b with
    | nil => simp [rewritten, hword, hnone, lineFeeds]
    | cons g b =>
      have hpos := g.marked_pos
      have hcovered : covered (n :: ns) n.start = covered ns n.stop := by
        simp [covered, hstop]
      rw [nil_append, rewritten, hword, hcovered,
        rewritten_cons_of_lt (by omega) (by omega), rewritten, hnone, hstop]
      rfl
  | cons g mid =>
    have hpos := g.marked_pos
    simp only [markedOf_cons, length_append] at hstop
    rw [cons_append, rewritten, hword, covered_cons_of_mem le_rfl (by omega),
      rewritten_within hns (by omega) (by omega)]
    simp [lineFeeds]

/-! ### Narrow annotations -/

theorem narrow_append {a b : List Segment} :
    Narrow ns p (a ++ b) ↔ Narrow ns p a ∧ Narrow ns (p + (markedOf a).length) b := by
  induction a generalizing p with
  | nil => simp [Narrow]
  | cons g a ih => simp [Narrow, ih, and_assoc, Nat.add_assoc]

theorem narrow_clear {a : List Segment} (h : ∀ n ∈ ns, p + (markedOf a).length ≤ n.start) :
    Narrow ns p a := by
  induction a generalizing p with
  | nil => trivial
  | cons g a ih =>
    have hpos := g.marked_pos
    simp only [markedOf_cons, length_append] at h
    refine ⟨fun hc => ?_, ih fun n hn => ?_⟩
    · rw [covered_of_lt fun n hn => by have := h n hn; omega] at hc
      cases hc
    · have := h n hn
      omega

theorem narrow_within (hp : n.start ≤ p)
    (hstop : p + (markedOf mid).length ≤ n.stop) :
    Narrow (n :: ns) p mid ↔ ∀ g ∈ mid, g.Narrow := by
  induction mid generalizing p with
  | nil => simp [Narrow]
  | cons g mid ih =>
    have hpos := g.marked_pos
    simp only [markedOf_cons, length_append] at hstop
    rw [Narrow, ih (by omega) (by omega), covered_cons_of_mem hp (by omega)]
    simp

theorem narrow_cons_of_le (h : n.stop ≤ p) (gs : List Segment) :
    Narrow (n :: ns) p gs ↔ Narrow ns p gs := by
  induction gs generalizing p with
  | nil => exact Iff.rfl
  | cons g gs ih => rw [Narrow, Narrow, ih (h.trans (Nat.le_add_right ..)), covered_cons_of_le h]

theorem byteLength_blank (s : List Char) : byteLength (blank s) = s.length := by
  have hone : ∀ c ∈ blank s, c.utf8Size = 1 := by
    intro c hc
    obtain ⟨d, -, rfl⟩ := mem_map.mp hc
    by_cases hn : d = '\n' <;> by_cases hr : d = '\r' <;> simp [hn, hr] <;> rfl
  rw [(byteLength_eq_length_iff _).mpr hone, blank, length_map]

theorem byteLength_blankedOf (gs : List Segment) :
    byteLength (blankedOf gs) ≤ byteLength (sourceOf gs) ∧
      (byteLength (blankedOf gs) = byteLength (sourceOf gs) ↔ ∀ g ∈ gs, g.Narrow) := by
  induction gs with
  | nil => simp
  | cons g gs ih =>
    have hg : byteLength g.blanked ≤ byteLength g.source ∧
        (byteLength g.blanked = byteLength g.source ↔ g.Narrow) := by
      cases g with
      | plain c => simp [Segment.blanked, Segment.source, Segment.Narrow]
      | note o text =>
        rw [Segment.blanked, byteLength_blank, Segment.Narrow, ← byteLength_eq_length_iff]
        exact ⟨length_le_byteLength text, eq_comm⟩
    rw [forall_mem_cons, ← ih.2, ← hg.2]
    simp only [blankedOf_cons, sourceOf_cons, byteLength_append]
    omega

/-! ### The two compared -/

section Compared

variable {a mid b : List Segment}

theorem start_le_of_mem_cons (hns : ∀ m ∈ ns, n.stop < m.start) (hle : n.start ≤ n.stop) :
    ∀ m ∈ n :: ns, n.start ≤ m.start :=
  forall_mem_cons.mpr ⟨le_rfl, fun m hm => hle.trans (hns m hm).le⟩

section

variable (hstart : p + (markedOf a).length = n.start)

include hstart

variable (hstop : n.start + (markedOf mid).length = n.stop)

include hstop

variable (hns : ∀ m ∈ ns, n.stop < m.start)

include hns

/-- The first word takes the place of its range if what became of the script can be cut there. -/
theorem edited_cons_eq_some {t : List Char} :
    edited (n :: ns) p (a ++ (mid ++ b)) = some t ↔
      ∃ rest before after, edited ns n.stop b = some rest ∧ blankedOf mid ++ rest = before ++ after ∧
        byteLength before = byteLength (sourceOf mid) ∧
        t = blankedOf a ++ (n.word ++ lineFeeds (sourceOf mid) ++ after) := by
  have hfirst := start_le_of_mem_cons hns (by omega)
  have hmid : edited ns n.start (mid ++ b) = (edited ns n.stop b).map (blankedOf mid ++ ·) := by
    rw [edited_clear fun m hm => .inr (by have := hns m hm; omega), hstop]
  have hput : upTo n.stop n.start (mid ++ b) = mid := by
    rw [upTo_append mid b hstop.le, upTo_of_le hstop.ge, append_nil]
  rw [edited_clear fun m hm => .inr (hstart.trans_le (hfirst m hm)), hstart,
    edited_cons_self fun m hm => by have := hns m hm; omega, hmid]
  simp only [Option.map_eq_some_iff, Option.bind_eq_some_iff, Naming.put, hput, Prod.exists,
    cutBytes?_eq_some]
  constructor
  · rintro ⟨-, ⟨-, ⟨rest, hrest, rfl⟩, before, after, ⟨hcut, hbytes⟩, rfl⟩, rfl⟩
    exact ⟨rest, before, after, hrest, hcut, hbytes, rfl⟩
  · rintro ⟨rest, before, after, hrest, hcut, hbytes, rfl⟩
    exact ⟨_, ⟨_, ⟨rest, hrest, rfl⟩, before, after, ⟨hcut, hbytes⟩, rfl⟩, rfl⟩

theorem rewritten_cons :
    rewritten (n :: ns) p (a ++ (mid ++ b)) =
      blankedOf a ++ (n.word ++ lineFeeds (sourceOf mid) ++ rewritten ns n.stop b) := by
  have hfirst := start_le_of_mem_cons hns (by omega)
  rw [rewritten_clear fun m hm => hstart.trans_le (hfirst m hm), hstart, rewritten_range hns hstop, append_assoc]

theorem narrow_cons :
    Narrow (n :: ns) p (a ++ (mid ++ b)) ↔ (∀ g ∈ mid, g.Narrow) ∧ Narrow ns n.stop b := by
  have hfirst : Narrow (n :: ns) p a :=
    narrow_clear fun m hm => hstart.trans_le (start_le_of_mem_cons hns (by omega) m hm)
  rw [narrow_append, narrow_append, hstart, hstop, narrow_within le_rfl hstop.le,
    narrow_cons_of_le le_rfl]
  exact and_iff_right hfirst

end

theorem Naming.Fits.advance (h : n.Fits p (a ++ b)) (hle : p + (markedOf a).length ≤ n.start) :
    n.Fits (p + (markedOf a).length) b := by
  obtain ⟨a', mid, b', heq, hstart, hrest⟩ := h
  obtain ⟨c, rfl, rfl⟩ := cut_of_le heq (by omega)
  refine ⟨c, mid, b', rfl, ?_, hrest⟩
  simp only [markedOf_append, length_append] at hstart
  omega

end Compared

theorem Naming.Fits.later {m : Naming} {a b : List Segment} (hm : m.Fits p (a ++ (mid ++ b)))
    (hstart : p + (markedOf a).length = n.start) (hstop : n.start + (markedOf mid).length = n.stop)
    (hlt : n.stop < m.start) : m.Fits n.stop b := by
  have h := (hm.advance (by omega)).advance (by omega)
  rwa [hstart, hstop] at h

/-- No word is put in at a brace, so it is the first character that is left. -/
theorem edited_brace (hns : ∀ n ∈ ns, p < n.start) {gs : List Segment} {t : List Char}
    (ht : edited ns p (.plain '\x7b' :: gs) = some t) : ∃ t', t = '\x7b' :: t' := by
  have hbrace := edited_clear (a := [.plain '\x7b']) (b := gs) fun m hm => .inr (hns m hm)
  rw [singleton_append, ht, eq_comm, Option.map_eq_some_iff] at hbrace
  obtain ⟨t', -, rfl⟩ := hbrace
  exact ⟨t', rfl⟩

/-- Where a text is cut behind its first part, only bytes of the rest go with it. -/
theorem exists_append_of_byteLength_le {a rest before after : List Char}
    (h : a ++ rest = before ++ after) (hle : byteLength a ≤ byteLength before) :
    ∃ y, before = a ++ y ∧ rest = y ++ after := by
  rcases append_eq_append_iff.mp h with ⟨y, hb, hr⟩ | ⟨y, ha, hr⟩
  · exact ⟨y, hb, hr⟩
  · have hy := length_le_byteLength y
    rw [ha, byteLength_append] at hle
    obtain rfl : y = [] := length_eq_zero_iff.mp (by omega)
    exact ⟨[], by rw [ha, append_nil, append_nil], hr.symm⟩

/-- The edits give the rewritten script if annotations inside the ranges are narrow; otherwise
opening braces are lost, if not a character is cut. -/
theorem edited_eq_or_count_lt {gs : List Segment} (hfits : ∀ n ∈ ns, n.Fits p gs)
    (hns : ns.Pairwise fun n m => n.stop < m.start) :
    Narrow ns p gs ∧ edited ns p gs = some (rewritten ns p gs) ∨
    ¬ Narrow ns p gs ∧ ∀ t, edited ns p gs = some t →
      t.count '\x7b' < (rewritten ns p gs).count '\x7b' := by
  induction ns generalizing p gs with
  | nil =>
    have he : edited [] p (gs ++ []) = (edited [] _ []).map (blankedOf gs ++ ·) :=
      edited_clear (by simp)
    have hr : rewritten [] p (gs ++ []) = blankedOf gs ++ rewritten [] _ [] :=
      rewritten_clear (by simp)
    rw [append_nil] at he hr
    exact .inl ⟨narrow_clear (by simp), he.trans (congrArg some hr.symm)⟩
  | cons n ns ih =>
    obtain ⟨a, mid, b, rfl, hstart, hstop, hmid⟩ := hfits n (.head _)
    obtain ⟨hlater, hns⟩ := pairwise_cons.mp hns
    have hrest : ∀ m ∈ ns, m.Fits n.stop b := by
      intro m hm
      exact (hfits m (.tail _ hm)).later hstart hstop (hlater m hm)
    rw [rewritten_cons hstart hstop hlater, narrow_cons hstart hstop hlater]
    obtain ⟨hbytes, hnarrow⟩ := byteLength_blankedOf mid
    specialize ih hrest hns
    by_cases hN : (∀ g ∈ mid, g.Narrow) ∧ Narrow ns n.stop b
    · have hb := ih.resolve_right fun h => h.1 hN.2
      exact .inl ⟨hN, (edited_cons_eq_some hstart hstop hlater).mpr
        ⟨_, blankedOf mid, _, hb.2, rfl, hnarrow.mpr hN.1, rfl⟩⟩
    · refine .inr ⟨hN, fun t ht => ?_⟩
      obtain ⟨rest, before, after, hb, hcut, hbefore, rfl⟩ :=
        (edited_cons_eq_some hstart hstop hlater).mp ht
      -- what the blanked annotations of the range have lost is cut off after it
      obtain ⟨y, rfl, rfl⟩ := exists_append_of_byteLength_le hcut (hbefore ▸ hbytes)
      have hle : (y ++ after).count '\x7b' ≤ (rewritten ns n.stop b).count '\x7b' := by
        rcases ih with ⟨-, heq⟩ | ⟨-, hlt⟩
        · rw [Option.some.inj (hb.symm.trans heq)]
        · exact (hlt _ hb).le
      simp only [count_append] at hle ⊢
      by_cases hall : ∀ g ∈ mid, g.Narrow
      · have hlt := (ih.resolve_left fun h => hN ⟨hall, h.1⟩).2 _ hb
        rw [count_append] at hlt
        omega
      · obtain rfl | ⟨-, b', rfl⟩ := hmid
        · simp at hall
        · obtain ⟨t', ht'⟩ := edited_brace hlater hb
          cases y with
          | nil =>
            rw [append_nil] at hbefore
            exact absurd (hnarrow.mp hbefore) hall
          | cons c y =>
            cases ht'
            rw [count_cons_self] at hle
            omega

end Componentry.Annotations
