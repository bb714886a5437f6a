import Componentry.Proofs.Annotations.Rewriting

/-!
# Edits of segments

The edits of a script, one for each annotation and one for each word that is put in, start at cuts of
its segments. So the list of them, in the order in which they are applied, is said by recursion on the
segments, and so is what they make of the script.
-/

namespace Componentry.Annotations

open Text Script List

/-- The edit that puts a word in. -/
def Naming.edit (gs : List Segment) (n : Naming) : Edit :=
  let a := upTo n.start 0 gs
  let mid := (upTo n.stop 0 gs).drop a.length
  .at (byteLength (sourceOf a)) (byteLength (sourceOf mid)) (n.word ++ lineFeeds (sourceOf mid))

/-- The edits that blank annotations out. -/
def noteEdits (gs : List Segment) : List Edit :=
  (notesOf gs).map fun o => blanking (sourceOf gs) o.at_

/-- The edits that put words in at a place of the marked text, which is a place of the script too. -/
def insertions (ns : List Naming) (p place : Nat) (gs : List Segment) : List Edit :=
  (ns.filter (·.start == p)).map fun n => .at place (byteLength (sourceOf (upTo n.stop p gs)))
    (n.word ++ lineFeeds (sourceOf (upTo n.stop p gs)))

/-- The edit of an annotation that stands at a place of the script. -/
def Segment.blankings (place : Nat) : Segment → List Edit
  | .plain _ => []
  | .note _ text => [.at place (byteLength text) (blank text)]

/-- All edits of segments, in the order in which they are applied. -/
def editsOf (ns : List Naming) : Nat → Nat → List Segment → List Edit
  | p, place, [] => insertions ns p place []
  | p, place, g :: gs =>
    editsOf ns (p + g.marked.length) (place + byteLength g.source) gs ++
      (g.blankings place ++ insertions ns p place (g :: gs))

variable {ns : List Naming} {p place : Nat} {gs : List Segment} {g : Segment} {e : Edit}
  {n : Naming}

/-! ### What they make of the segments -/

theorem foldlM_insertions (x rest : List Char) (p : Nat) (gs : List Segment) :
    (insertions ns p (byteLength x) gs).foldlM Edit.apply (x ++ rest) =
      (putAt ns p gs rest).map (x ++ ·) := by
  rw [insertions, foldlM_map, putAt]
  induction ns.filter (·.start == p) generalizing rest with
  | nil => rfl
  | cons n ns ih =>
    rw [foldlM_cons, foldlM_cons, Edit.apply_append, Naming.put]
    cases cutBytes? (byteLength (sourceOf (upTo n.stop p gs))) rest with
    | none => rfl
    | some r => exact ih _

theorem foldlM_blankings (x rest : List Char) (g : Segment) :
    (g.blankings (byteLength x)).foldlM Edit.apply (x ++ (g.source ++ rest)) =
      some (x ++ (g.blanked ++ rest)) := by
  cases g with
  | plain c => rfl
  | note o text =>
    have hcut : cutBytes? (byteLength text) (text ++ rest) = some (text, rest) :=
      cutBytes?_eq_some.mpr ⟨rfl, rfl⟩
    simp [Segment.blankings, Edit.apply_append, Segment.source, hcut, Segment.blanked]

theorem foldlM_editsOf (x : List Char) (p : Nat) (gs : List Segment) :
    (editsOf ns p (byteLength x) gs).foldlM Edit.apply (x ++ sourceOf gs) =
      (edited ns p gs).map (x ++ ·) := by
  induction gs generalizing x p with
  | nil => exact foldlM_insertions x [] p []
  | cons g gs ih =>
    have hrest := ih (x ++ g.source) (p + g.marked.length)
    simp only [byteLength_append, append_assoc] at hrest
    rw [editsOf, foldlM_append, sourceOf_cons, hrest, edited]
    cases edited ns (p + g.marked.length) gs with
    | none => rfl
    | some rest =>
      simp [foldlM_blankings, foldlM_insertions]

/-! ### Their order -/

theorem start_insertions (he : e ∈ insertions ns p place gs) : e.at_.start = place := by
  obtain ⟨n, -, rfl⟩ := mem_map.mp he
  rfl

theorem start_blankings (he : e ∈ g.blankings place) : e.at_.start = place := by
  cases g with
  | plain c => cases he
  | note o text => rw [mem_singleton.mp he]; rfl

theorem le_start_editsOf (he : e ∈ editsOf ns p place gs) : place ≤ e.at_.start := by
  induction gs generalizing p place with
  | nil => exact (start_insertions he).ge
  | cons g gs ih =>
    rcases mem_append.mp he with he | he
    · exact (Nat.le_add_right ..).trans (ih he)
    · rcases mem_append.mp he with he | he
      · exact (start_blankings he).ge
      · exact (start_insertions he).ge

theorem Standing.source_pos {k : Nat} (h : Standing k (g :: gs)) : 0 < byteLength g.source := by
  cases g with
  | plain c => exact c.utf8Size_pos
  | note o text => exact (length_pos_iff.mpr h.1).trans_le (length_le_byteLength text)

theorem Naming.Fits.start_le (h : n.Fits p gs) : n.start ≤ n.stop := by
  obtain ⟨-, mid, -, -, -, hstop, -⟩ := h
  omega

/-- Where an annotation starts, only a word that takes the place of nothing is put in. -/
theorem Naming.Fits.stop_le {o : Occurrence} {text : List Char}
    (h : n.Fits p (.note o text :: gs)) (hstart : n.start = p) : n.stop ≤ p := by
  obtain ⟨a, mid, b, heq, ha, hstop, hmid⟩ := h
  cases a with
  | nil =>
    rcases hmid with rfl | ⟨⟨c, mid, rfl⟩, -⟩
    · exact (hstop.symm.trans hstart).le
    · cases heq
  | cons g a =>
    have := g.marked_pos
    simp only [markedOf_cons, length_append] at ha
    omega

section

variable (hfits : ∀ n ∈ ns, n.Fits 0 gs) (hns : ns.Pairwise fun n m => n.stop < m.start)

include hfits

theorem fits_cut {n : Naming} {a b : List Segment} (hcut : gs = a ++ b) (hn : n ∈ ns)
    (hle : (markedOf a).length ≤ n.start) : n.Fits (markedOf a).length b := by
  have h := (hcut ▸ hfits n hn).advance (by omega)
  rwa [Nat.zero_add] at h

include hns

theorem pairwise_insertions (p place : Nat) (b : List Segment) :
    (insertions ns p place b).Pairwise Edit.Above := by
  refine pairwise_map.mpr ((hns.filter _).imp_of_mem fun {n m} hn hm hlt => ?_)
  -- no two words are put in at one place
  obtain ⟨hn, hnp⟩ := mem_filter.mp hn
  obtain ⟨hm, hmp⟩ := mem_filter.mp hm
  have := (hfits n hn).start_le
  simp only [beq_iff_eq] at hnp hmp
  omega

theorem pairwise_editsOf (hs : Standing 0 gs) {a b : List Segment} (hcut : gs = a ++ b) :
    (editsOf ns (markedOf a).length (byteLength (sourceOf a)) b).Pairwise Edit.Above := by
  induction b generalizing a with
  | nil => exact pairwise_insertions hfits hns ..
  | cons g b ih =>
    have hrest := ih (a := a ++ [g]) (by rw [hcut]; simp)
    subst hcut
    have hpos := (standing_append.mp hs).2.source_pos
    simp only [markedOf_append, markedOf_cons, sourceOf_append, sourceOf_cons, length_append, byteLength_append] at hrest
    refine pairwise_append.mpr ⟨hrest, pairwise_append.mpr
      ⟨?_, pairwise_insertions hfits hns .., fun e he d hd => ?_⟩, fun e he d hd => .inl ?_⟩
    · cases g with
      | plain c => exact .nil
      | note o text => exact pairwise_singleton ..
    · cases g with
      | plain c => cases he
      | note o text =>
        obtain ⟨n, hn, rfl⟩ := mem_map.mp hd
        obtain ⟨hn, hstart⟩ := mem_filter.mp hn
        rw [beq_iff_eq] at hstart
        have hfit := fits_cut hfits rfl hn hstart.ge
        rw [mem_singleton.mp he, upTo_of_le (hfit.stop_le hstart)]
        exact .inr ⟨rfl, Nat.add_lt_add_left hpos _⟩
    · have hle := le_start_editsOf he
      have hd : d.at_.start = byteLength (sourceOf a) :=
        (mem_append.mp hd).elim start_blankings start_insertions
      omega

end

/-! ### They are all edits -/

theorem Naming.edit_eq {a b : List Segment} (hstart : (markedOf a).length = n.start)
    (hle : n.start ≤ n.stop) : n.edit (a ++ b) =
      .at (byteLength (sourceOf a)) (byteLength (sourceOf (upTo n.stop n.start b)))
        (n.word ++ lineFeeds (sourceOf (upTo n.stop n.start b))) := by
  have hfirst : upTo n.start 0 (a ++ b) = a := by
    rw [upTo_append a b (by omega), upTo_of_le (by omega), append_nil]
  have hrange : upTo n.stop 0 (a ++ b) = a ++ upTo n.stop n.start b := by
    rw [upTo_append a b (by omega), Nat.zero_add, hstart]
  simp [Naming.edit, hfirst, hrange]

theorem map_blanking {a b : List Segment} (hs : Standing 0 (a ++ g :: b)) :
    (notesOf [g]).map (fun o => blanking (sourceOf (a ++ g :: b)) o.at_) =
      g.blankings (byteLength (sourceOf a)) := by
  cases g with
  | plain c => rfl
  | note o text =>
    obtain ⟨-, hat, -⟩ := (standing_append.mp hs).2
    simp [notesOf, Segment.blankings, blanking, byteSpan, slice, hat, Edit.at, Segment.source, take_add]

/-- No word starts inside a segment. -/
theorem Naming.Fits.start_cases (h : n.Fits p (g :: gs)) :
    n.start = p ∨ p + g.marked.length ≤ n.start := by
  obtain ⟨a, mid, b, heq, ha, -⟩ := h
  cases a with
  | nil => exact .inl ha.symm
  | cons g a =>
    cases heq
    simp only [markedOf_cons, length_append] at ha
    omega

theorem filter_start_perm {next : Nat} (hlt : p < next)
    (h : ∀ n ∈ ns, p ≤ n.start → n.start = p ∨ next ≤ n.start) :
    (ns.filter fun n => p ≤ n.start).Perm
      (ns.filter (·.start == p) ++ ns.filter fun n => next ≤ n.start) := by
  have hperm := filter_append_perm (·.start == p) (ns.filter fun n => p ≤ n.start)
  rw [filter_filter, filter_filter] at hperm
  refine hperm.symm.trans (.of_eq (congrArg₂ _ (filter_congr fun n hn => ?_)
    (filter_congr fun n hn => ?_)))
  · rw [Bool.eq_iff_iff]
    simp only [Bool.and_eq_true, beq_iff_eq, decide_eq_true_eq]
    omega
  · have := h n hn
    rw [Bool.eq_iff_iff]
    simp only [Bool.and_eq_true, Bool.not_eq_true', beq_eq_false_iff_ne, decide_eq_true_eq]
    omega

section

variable {a b : List Segment} (hs : Standing 0 gs) (hfits : ∀ n ∈ ns, n.Fits 0 gs) (hcut : gs = a ++ b)

include hfits hcut

theorem insertions_eq : insertions ns (markedOf a).length (byteLength (sourceOf a)) b =
    (ns.filter (·.start == (markedOf a).length)).map (Naming.edit gs) := by
  refine map_congr_left fun n hn => ?_
  obtain ⟨hn, hstart⟩ := mem_filter.mp hn
  rw [beq_iff_eq] at hstart
  rw [hcut, Naming.edit_eq hstart.symm (hfits n hn).start_le, hstart]

include hs

theorem perm_editsOf :
    (editsOf ns (markedOf a).length (byteLength (sourceOf a)) b).Perm
      ((ns.filter fun n => (markedOf a).length ≤ n.start).map (Naming.edit gs) ++
        (notesOf b).map fun o => blanking (sourceOf gs) o.at_) := by
  induction b generalizing a with
  | nil =>
    have hend : ns.filter (fun n => (markedOf a).length ≤ n.start) =
        ns.filter (·.start == (markedOf a).length) := by
      refine filter_congr fun n hn => ?_
      rw [Bool.eq_iff_iff, decide_eq_true_eq, beq_iff_eq]
      refine ⟨fun hle => ?_, Eq.ge⟩
      obtain ⟨a', mid, b, heq, ha', -⟩ := fits_cut hfits hcut hn hle
      rw [(append_eq_nil_iff.mp heq.symm).1] at ha'
      exact ha'.symm
    rw [editsOf, insertions_eq hfits hcut, hend]
    exact .of_eq (append_nil _).symm
  | cons g b ih =>
    have hrest := ih (a := a ++ [g]) (by rw [hcut]; simp)
    simp only [markedOf_append, markedOf_cons, sourceOf_append, sourceOf_cons, length_append, byteLength_append] at hrest
    have hwords := filter_start_perm (Nat.lt_add_of_pos_right g.marked_pos)
      fun n hn hle => (fits_cut hfits hcut hn hle).start_cases
    have hnotes : notesOf (g :: b) = notesOf [g] ++ notesOf b := filterMap_append (l := [g])
    replace hwords := hwords.map (Naming.edit gs)
    rw [map_append] at hwords
    rw [editsOf, insertions_eq hfits hcut, hnotes, map_append]
    subst hcut
    rw [map_blanking hs]
    refine (hrest.append_right _).trans (perm_append_comm.trans ?_)
    rw [append_assoc, ← append_assoc _ (map _ _) (map _ _)]
    exact ((hwords.symm.append_right _).append_left _).trans (perm_append_comm_assoc ..)

end

theorem applyEdits_segments {edits : List Edit} (hs : Standing 0 gs) (hfits : ∀ n ∈ ns, n.Fits 0 gs)
    (hns : ns.Pairwise fun n m => n.stop < m.start)
    (hedits : edits.Perm (ns.map (Naming.edit gs) ++ noteEdits gs)) :
    applyEdits (sourceOf gs) edits = edited ns 0 gs := by
  have hperm := perm_editsOf hs hfits (a := []) rfl
  have hall : ns.filter (fun n => (markedOf []).length ≤ n.start) = ns := by simp
  rw [hall] at hperm
  rw [applyEdits, mergeSort_eq_of_perm (hedits.trans hperm.symm)
    (pairwise_editsOf hfits hns hs rfl)]
  exact (foldlM_editsOf [] 0 gs).trans (Option.map_id' ..)

end Componentry.Annotations
