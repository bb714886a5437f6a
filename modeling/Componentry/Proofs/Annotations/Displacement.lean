import Componentry.Proofs.Annotations.Naming
import Mathlib.Data.Nat.Find

/-!
# Names out of place

The name of a class goes after the first `class` that is spelled out in it. If that is not its own
word, such as in a comment before it, the name is out of place. It then shows in the script, whatever
else is put in.
-/

namespace Componentry.Annotations

open Text Script List

/-! ### Words at other places -/

variable {ns ns' : List Naming} {p : Nat} {a b gs : List Segment} {n n' : Naming}
  {zs : List (Naming × Naming)}

theorem narrow_congr (h : ∀ q, covered ns q = covered ns' q) (p : Nat) (gs : List Segment) :
    Narrow ns p gs ↔ Narrow ns' p gs := by
  induction gs generalizing p with
  | nil => exact Iff.rfl
  | cons g gs ih => rw [Narrow, Narrow, h, ih]

theorem count_rewritten_congr (h : ∀ q, covered ns q = covered ns' q)
    (hns : ∀ n ∈ ns, '\x7b' ∉ n.word) (hns' : ∀ n ∈ ns', '\x7b' ∉ n.word) (p : Nat)
    (gs : List Segment) : (rewritten ns p gs).count '\x7b' = (rewritten ns' p gs).count '\x7b' := by
  induction gs generalizing p with
  | nil => rw [rewritten, rewritten, count_insertedAt hns, count_insertedAt hns']
  | cons g gs ih =>
    rw [rewritten, rewritten, h, count_append, count_append, count_append,
      count_append, count_insertedAt hns, count_insertedAt hns', ih]

/-- A word that belongs right after an `s`, and is put in before it. -/
def Displaced (p : Nat) (gs : List Segment) (n' n : Naming) : Prop :=
  n'.word = n.word ∧ n'.stop = n'.start ∧ n.stop = n.start ∧ n'.start < n.start ∧
    ∃ a b, gs = a ++ .plain 's' :: b ∧ p + (markedOf a).length + 1 = n.start

theorem Displaced.advance (h : Displaced p (a ++ b) n' n)
    (hle : p + (markedOf a).length ≤ n'.start) : Displaced (p + (markedOf a).length) b n' n := by
  obtain ⟨hword, hstop', hstop, hlt, a', b', heq, hs⟩ := h
  obtain ⟨c, rfl, rfl⟩ := cut_of_le heq (by omega)
  refine ⟨hword, hstop', hstop, hlt, c, b', rfl, ?_⟩
  simp only [markedOf_append, length_append] at hs
  omega

theorem Displaced.later {m : Naming} {mid : List Segment} (h : Displaced p (a ++ (mid ++ b)) n' n)
    (hstart : p + (markedOf a).length = m.start) (hstop : m.start + (markedOf mid).length = m.stop)
    (hlt : m.stop < n'.start) : Displaced m.stop b n' n := by
  have h' := (h.advance (by omega)).advance (by omega)
  rwa [hstart, hstop] at h'

theorem rewritten_insert (hstart : p + (markedOf a).length = n.start) (hstop : n.stop = n.start)
    (hns : ∀ m ∈ ns, n.stop < m.start) :
    rewritten (n :: ns) p (a ++ b) = blankedOf a ++ (n.word ++ rewritten ns n.start b) := by
  have h : rewritten (n :: ns) p (a ++ ([] ++ b)) = _ := rewritten_cons hstart hstop.symm hns
  rw [nil_append] at h
  simp [h, lineFeeds, hstop]

theorem covered_displaced (hzs : ∀ z ∈ zs, z.1 = z.2 ∨ Displaced p gs z.1 z.2) (q : Nat) :
    covered (zs.map (·.1)) q = covered (zs.map (·.2)) q := by
  induction zs with
  | nil => rfl
  | cons z zs ih =>
    obtain ⟨hz, hzs⟩ := forall_mem_cons.mp hzs
    have hhead : (decide (z.1.start ≤ q) && decide (q < z.1.stop)) =
        (decide (z.2.start ≤ q) && decide (q < z.2.stop)) := by
      rcases hz with heq | ⟨-, hstop, hstop', -⟩
      · rw [heq]
      · rw [Bool.eq_iff_iff]
        simp only [Bool.and_eq_true, decide_eq_true_eq]
        omega
    have htail := ih hzs
    rw [covered, covered] at htail ⊢
    rw [map_cons, map_cons, any_cons, any_cons, htail, hhead]

theorem append_swap_ne {word m x y : List Char} {c : Char} (hm : m.getLast? = some 's')
    (hword : word.getLast? = some c) (hc : c ≠ 's') : word ++ (m ++ x) ≠ m ++ (word ++ y) := by
  intro h
  rw [← append_assoc, ← append_assoc] at h
  have hswap : word ++ m = m ++ word :=
    append_inj_left h (by rw [length_append, length_append, Nat.add_comm])
  have hlast := congrArg getLast? hswap
  rw [getLast?_append, getLast?_append, hm, hword] at hlast
  exact hc (Option.some.inj hlast).symm

theorem Displaced.rewritten (h : Displaced p gs n' n) (hfit : n'.Fits p gs)
    (hns' : ∀ m ∈ ns', n.stop < m.start) (hns : ∀ m ∈ ns, n.stop < m.start) :
    ∃ l m r r', rewritten (n' :: ns') p gs = l ++ (n'.word ++ (m ++ r)) ∧
      rewritten (n :: ns) p gs = l ++ (m ++ (n'.word ++ r')) ∧ m.getLast? = some 's' := by
  obtain ⟨hword, hstop', hstop, hlt, a', b', hgs, hs⟩ := h
  obtain ⟨a, mid, b, rfl, hstart, -⟩ := hfit
  have hcut : a ++ (mid ++ b) = (a' ++ [.plain 's']) ++ b' := by simp [hgs]
  have hlen : p + (markedOf (a' ++ [.plain 's'])).length = n.start := by
    simpa [Segment.marked, Nat.add_assoc] using hs
  obtain ⟨c, hc, hb⟩ := cut_of_le hcut (by omega)
  -- the segments between the two places end with the `s`
  obtain ⟨c', rfl⟩ : ∃ c', c = c' ++ [.plain 's'] := by
    rcases eq_nil_or_concat c with rfl | ⟨c', g, rfl⟩
    · rw [hc, append_nil] at hlen
      omega
    · have hg := congrArg getLast? hc
      simp only [concat_eq_append, ← append_assoc, getLast?_concat, Option.some.injEq] at hg
      exact ⟨c', by rw [hg, concat_eq_append]⟩
  have hplace : n'.start + (markedOf (c' ++ [.plain 's'])).length = n.start := by
    rw [hc] at hlen
    simp only [markedOf_append, length_append] at hlen ⊢
    omega
  refine ⟨blankedOf a, blankedOf (c' ++ [.plain 's']), rewritten ns' n.start b',
    Annotations.rewritten ns n.start b', ?_, ?_, ?_⟩
  · rw [rewritten_insert hstart hstop' fun m hm => by have := hns' m hm; omega, hb,
      rewritten_clear fun m hm => by have := hns' m hm; omega, hplace]
  · rw [hcut, hc, rewritten_insert (by rw [markedOf_append, length_append]; omega) hstop hns, hword]
    simp
  · simp [Segment.blanked]

theorem rewritten_displaced (hfits : ∀ z ∈ zs, z.1.Fits p gs)
    (hzs : ∀ z ∈ zs, z.1 = z.2 ∨ Displaced p gs z.1 z.2)
    (hpair : zs.Pairwise fun z w => z.2.stop < w.1.start) (hne : ∃ z ∈ zs, z.1 ≠ z.2) :
    ∃ z ∈ zs, ∃ l m r r', rewritten (zs.map (·.1)) p gs = l ++ (z.1.word ++ (m ++ r)) ∧
      rewritten (zs.map (·.2)) p gs = l ++ (m ++ (z.1.word ++ r')) ∧ m.getLast? = some 's' := by
  induction zs generalizing p gs with
  | nil => simp at hne
  | cons z zs ih =>
    obtain ⟨hlater, hpair⟩ := pairwise_cons.mp hpair
    obtain ⟨hfit, hfits⟩ := forall_mem_cons.mp hfits
    obtain ⟨hz, hzs⟩ := forall_mem_cons.mp hzs
    have hfirst : ∀ n ∈ zs.map (·.1), z.2.stop < n.start := by
      intro n hn
      obtain ⟨w, hw, rfl⟩ := mem_map.mp hn
      exact hlater w hw
    have hsecond : ∀ n ∈ zs.map (·.2), z.2.stop < n.start := by
      intro n hn
      obtain ⟨w, hw, rfl⟩ := mem_map.mp hn
      rcases hzs w hw with heq | ⟨-, -, -, hlt, -⟩
      · exact heq ▸ hlater w hw
      · exact (hlater w hw).trans hlt
    rw [map_cons, map_cons]
    rcases hz with heq | hdisplaced
    · -- the first word is in its place: the difference comes later
      rw [heq] at hfit ⊢
      obtain ⟨a, mid, b, rfl, hstart, hstop, -⟩ := hfit
      have hfits' : ∀ w ∈ zs, w.1.Fits z.2.stop b := by
        intro w hw
        exact (hfits w hw).later hstart hstop (hlater w hw)
      have hzs' : ∀ w ∈ zs, w.1 = w.2 ∨ Displaced z.2.stop b w.1 w.2 := by
        intro w hw
        exact (hzs w hw).imp_right fun h => h.later hstart hstop (hlater w hw)
      obtain ⟨w, hw, l, m, r, r', hl, hl', hm⟩ := ih hfits' hzs' hpair (by simpa [heq] using hne)
      refine ⟨w, .tail _ hw,
        blankedOf a ++ (z.2.word ++ lineFeeds (sourceOf mid) ++ l), m, r, r', ?_, ?_, hm⟩
      · rw [rewritten_cons hstart hstop hfirst, hl]
        simp
      · rw [rewritten_cons hstart hstop hsecond, hl']
        simp
    · exact ⟨z, .head _, hdisplaced.rewritten hfit hfirst hsecond⟩

/-! ### The first word -/

/-- Where `class` is first spelled out in a class that gets a name. -/
def firstWord (keyword : ClassOutline → Nat) (marked : List Char × List Placed)
    (c : ClassOutline) : Nat :=
  if unnamed marked.2 c then classWordEnd marked.1 c.at_.start - 5 else keyword c

section FirstWords

variable {keyword : ClassOutline → Nat} {marked : List Char × List Placed}
  {outline : Outline} {at_ : Span} {c : ClassOutline} {t : TopLevel} {z : Naming × Naming}
  {gs : List Segment}

theorem class_or_congr (t : TopLevel) : (∃ at_ c, t = .exportDefault at_ (.class_ c)) ∨
    ∀ (k k' : ClassOutline → Nat) (placed : List Placed), places k t = places k' t ∧
      words k t = words k' t ∧ naming? k placed t = naming? k' placed t := by
  match t with
  | .exportDefault at_ (.class_ c) => exact .inl ⟨at_, c, rfl⟩
  | .declaration _ | .exported _ | .names _ _ | .other | .exportDefault _ .function
  | .exportDefault _ .type | .exportDefault _ (.value (.object _))
  | .exportDefault _ (.value (.class_ _)) | .exportDefault _ (.value .function)
  | .exportDefault _ (.value (.name _)) | .exportDefault _ (.value (.wrapped _))
  | .exportDefault _ (.value .other) => exact .inr fun _ _ _ => ⟨rfl, rfl, rfl⟩

theorem pairwise_earlier {start word keyword : Nat} {rest : List Nat}
    (h : (start :: keyword :: (keyword + 5) :: rest).Pairwise (· ≤ ·)) (hstart : start ≤ word)
    (hword : word ≤ keyword) : (start :: word :: (word + 5) :: rest).Pairwise (· ≤ ·) := by
  simp only [pairwise_cons, mem_cons, forall_eq_or_imp] at h ⊢
  obtain ⟨⟨-, -, hrest⟩, -, hlast, hpairwise⟩ := h
  refine ⟨⟨hstart, by omega, hrest⟩, ⟨by omega, fun x hx => ?_⟩, fun x hx => ?_, hpairwise⟩
  · have := hlast x hx
    omega
  · have := hlast x hx
    omega

theorem words_firstWord {w : Nat × List Char} (hw : w ∈ words (firstWord keyword marked) t) :
    w ∈ words keyword t ∨ ∃ at_ c, t = .exportDefault at_ (.class_ c) ∧ unnamed marked.2 c = true ∧
      w = (firstWord keyword marked c, classWord) := by
  rcases class_or_congr t with ⟨at_, c, rfl⟩ | hcongr
  · have hw := mem_singleton.mp hw
    by_cases hc : unnamed marked.2 c = true
    · exact .inr ⟨at_, c, rfl, hc, hw⟩
    · rw [firstWord, if_neg hc] at hw
      exact .inl (mem_singleton.mpr hw)
  · exact .inl ((hcongr (firstWord keyword marked) keyword marked.2).2.1 ▸ hw)

section

variable (hf : Faithful keyword marked outline)

include hf

theorem Faithful.firstWord_spec (ht : .exportDefault at_ (.class_ c) ∈ outline)
    (hc : unnamed marked.2 c = true) :
    c.at_.start ≤ firstWord keyword marked c ∧
      firstWord keyword marked c ≤ keyword c ∧
      classWord <+: marked.1.drop (firstWord keyword marked c) ∧
      ∀ q, c.at_.start ≤ q → q < firstWord keyword marked c →
        ¬ classWord <+: marked.1.drop q := by
  obtain ⟨hle, -, hspelled⟩ := hf.class_places ht
  have hex : ∃ q, c.at_.start ≤ q ∧ classWord <+: marked.1.drop q := ⟨keyword c, hle, hspelled⟩
  have hmin (q : Nat) (hq : c.at_.start ≤ q) (hlt : q < Nat.find hex) :
      ¬ classWord <+: marked.1.drop q := fun h => Nat.find_min hex hlt ⟨hq, h⟩
  have hfind : firstWord keyword marked c = Nat.find hex := by
    rw [firstWord, if_pos hc, classWordEnd_eq (Nat.find_spec hex).1 (Nat.find_spec hex).2 hmin,
      Nat.add_sub_cancel]
  rw [hfind]
  exact ⟨(Nat.find_spec hex).1, Nat.find_min' hex ⟨hle, hspelled⟩, (Nat.find_spec hex).2, hmin⟩

theorem Faithful.start_le_firstWord (ht : .exportDefault at_ (.class_ c) ∈ outline) :
    c.at_.start ≤ firstWord keyword marked c ∧
      firstWord keyword marked c ≤ keyword c := by
  by_cases hc : unnamed marked.2 c = true
  · exact ⟨(hf.firstWord_spec ht hc).1, (hf.firstWord_spec ht hc).2.1⟩
  · rw [firstWord, if_neg hc]
    exact ⟨(hf.class_places ht).1, le_rfl⟩

theorem Faithful.places_firstWord (ht : t ∈ outline) :
    (places (firstWord keyword marked) t).Pairwise (· ≤ ·) ∧
      ∀ x ∈ places (firstWord keyword marked) t,
        (∃ y ∈ places keyword t, y ≤ x) ∧ ∃ y ∈ places keyword t, x ≤ y := by
  have hordered := (pairwise_flatMap.mp hf.ordered).1 t ht
  rcases class_or_congr t with ⟨at_, c, rfl⟩ | hcongr
  · obtain ⟨hstart, hword⟩ := hf.start_le_firstWord ht
    have hplaces (k : ClassOutline → Nat) : places k (.exportDefault at_ (.class_ c)) =
        c.at_.start :: k c :: (k c + 5) :: (classBody c).places := by
      simp [places, bodies]
    rw [hplaces] at hordered
    rw [hplaces, hplaces]
    refine ⟨pairwise_earlier hordered hstart hword, fun x hx => ?_⟩
    simp only [mem_cons] at hx ⊢
    rcases hx with rfl | rfl | rfl | hx
    · exact ⟨⟨_, .inl rfl, le_rfl⟩, _, .inl rfl, le_rfl⟩
    · exact ⟨⟨_, .inl rfl, hstart⟩, _, .inr (.inl rfl), hword⟩
    · exact ⟨⟨_, .inl rfl, by omega⟩, _, .inr (.inr (.inl rfl)), by omega⟩
    · exact ⟨⟨x, .inr (.inr (.inr hx)), le_rfl⟩, x, .inr (.inr (.inr hx)), le_rfl⟩
  · rw [(hcongr (firstWord keyword marked) keyword marked.2).1]
    exact ⟨hordered, fun x hx => ⟨⟨x, hx, le_rfl⟩, x, hx, le_rfl⟩⟩

theorem Faithful.earlier (hunmarked : KeywordUnmarked keyword marked outline) :
    Faithful (firstWord keyword marked) marked outline where
  ordered := by
    refine pairwise_flatMap.mpr ⟨fun t ht => (hf.places_firstWord ht).1, ?_⟩
    refine (pairwise_flatMap.mp hf.ordered).2.imp_of_mem fun {t u} ht hu h x hx y hy => ?_
    obtain ⟨-, x', hx', hle⟩ := (hf.places_firstWord ht).2 x hx
    obtain ⟨⟨y', hy', hle'⟩, -⟩ := (hf.places_firstWord hu).2 y hy
    exact hle.trans ((h x' hx' y' hy').trans hle')
  spelled := by
    intro w hw
    obtain ⟨t, ht, hw⟩ := mem_flatMap.mp hw
    rcases words_firstWord hw with hw | ⟨at_, c, rfl, hc, rfl⟩
    · exact hf.spelled w (mem_flatMap.mpr ⟨t, ht, hw⟩)
    · exact (hf.firstWord_spec ht hc).2.2.1
  apart := by
    intro w hw m hm
    obtain ⟨t, ht, hw⟩ := mem_flatMap.mp hw
    rcases words_firstWord hw with hw | ⟨at_, c, rfl, hc, rfl⟩
    · exact hf.apart w (mem_flatMap.mpr ⟨t, ht, hw⟩) m hm
    · obtain ⟨hstart, hle, hspelled, -⟩ := hf.firstWord_spec ht hc
      rcases hle.eq_or_lt with heq | hlt
      · rw [heq]
        exact hf.apart (keyword c, classWord) (mem_flatMap.mpr ⟨_, ht, by simp [words]⟩) m hm
      · exact hunmarked at_ c ht hc _ hstart hlt hspelled m hm

theorem Faithful.keywordFirst_firstWord :
    KeywordFirst (firstWord keyword marked) marked outline :=
  fun _ _ ht hc => (hf.firstWord_spec ht hc).2.2.2

theorem Faithful.firstWord_eq_iff (ht : .exportDefault at_ (.class_ c) ∈ outline)
    (hc : unnamed marked.2 c = true) :
    firstWord keyword marked c = keyword c ↔
      ∀ q, c.at_.start ≤ q → q < keyword c → ¬ classWord <+: marked.1.drop q := by
  obtain ⟨hstart, hle, hspelled, hmin⟩ := hf.firstWord_spec ht hc
  refine ⟨fun heq => heq ▸ hmin, fun h => ?_⟩
  rcases hle.eq_or_lt with heq | hlt
  · exact heq
  · exact absurd hspelled (h _ hstart hlt)

end

/-! ### Names by the first word -/

/-- The name of a statement, where it goes and where it belongs. -/
def displacement? (keyword : ClassOutline → Nat) (marked : List Char × List Placed)
    (t : TopLevel) : Option (Naming × Naming) :=
  (naming? (firstWord keyword marked) marked.2 t).bind fun n' =>
    (naming? keyword marked.2 t).map fun n => (n', n)

/-- The names of an outline, where they go and where they belong. -/
def displacements (keyword : ClassOutline → Nat) (marked : List Char × List Placed)
    (outline : Outline) : List (Naming × Naming) :=
  outline.filterMap (displacement? keyword marked)

theorem map_displacement? (t : TopLevel) : (displacement? keyword marked t).map (·.1) =
        naming? (firstWord keyword marked) marked.2 t ∧
      (displacement? keyword marked t).map (·.2) = naming? keyword marked.2 t := by
  unfold displacement?
  rcases class_or_congr t with ⟨at_, c, rfl⟩ | hcongr
  · simp only [naming?]
    split <;> exact ⟨rfl, rfl⟩
  · rw [(hcongr (firstWord keyword marked) keyword marked.2).2.2]
    cases naming? keyword marked.2 t <;> exact ⟨rfl, rfl⟩

theorem map_displacements : (displacements keyword marked outline).map (·.1) =
        namings (firstWord keyword marked) marked.2 outline ∧
      (displacements keyword marked outline).map (·.2) = namings keyword marked.2 outline := by
  rw [displacements, map_filterMap, map_filterMap]
  exact ⟨filterMap_congr fun t _ => (map_displacement? t).1,
    filterMap_congr fun t _ => (map_displacement? t).2⟩

theorem displacement?_eq_some (hz : displacement? keyword marked t = some z) :
    naming? (firstWord keyword marked) marked.2 t = some z.1 ∧
      naming? keyword marked.2 t = some z.2 := by
  obtain ⟨n', hn', hz⟩ := Option.bind_eq_some_iff.mp hz
  obtain ⟨n, hn, rfl⟩ := Option.map_eq_some_iff.mp hz
  exact ⟨hn', hn⟩

section

variable (hf : Faithful keyword marked outline)

include hf

theorem Faithful.pairwise_displacements
    (hunmarked : KeywordUnmarked keyword marked outline) :
    (displacements keyword marked outline).Pairwise fun z w => z.2.stop < w.1.start := by
  have hpair := (pairwise_flatMap.mp hf.ordered).2
  refine pairwise_filterMap.mpr (hpair.imp_of_mem fun {t u} ht hu h z hz w hw => ?_)
  obtain ⟨-, x, hx, hlt⟩ := naming?_places hf ht (displacement?_eq_some hz).2
  have hstart := (naming?_places (hf.earlier hunmarked) hu (displacement?_eq_some hw).1).1
  obtain ⟨⟨y, hy, hle⟩, -⟩ := (hf.places_firstWord hu).2 _ hstart
  exact hlt.trans_le ((h x hx y hy).trans hle)

theorem Faithful.displacements_eq_iff :
    (∀ z ∈ displacements keyword marked outline, z.1 = z.2) ↔
      KeywordFirst keyword marked outline := by
  constructor
  · intro h at_ c ht hc
    have hz : displacement? keyword marked (.exportDefault at_ (.class_ c)) =
        some (.class_ (firstWord keyword marked c + 5), .class_ (keyword c + 5)) := by
      simp [displacement?, naming?, hc]
    have heq := h _ (mem_filterMap.mpr ⟨_, ht, hz⟩)
    exact (hf.firstWord_eq_iff ht hc).mp (Nat.add_right_cancel (congrArg Naming.start heq))
  · intro hfirst z hz
    obtain ⟨t, ht, hz⟩ := mem_filterMap.mp hz
    obtain ⟨hfst, hsnd⟩ := displacement?_eq_some hz
    rcases naming?_cases hsnd with ⟨at_, c, rfl, hc, -⟩ | ⟨at_, o, rfl, -⟩
    · simp only [naming?, (hf.firstWord_eq_iff ht hc).mpr (hfirst at_ c ht hc)] at hfst hsnd
      exact Option.some.inj (hfst.symm.trans hsnd)
    · exact Option.some.inj (hfst.symm.trans hsnd)

theorem Faithful.namings_firstWord (hfirst : KeywordFirst keyword marked outline) :
    namings (firstWord keyword marked) marked.2 outline = namings keyword marked.2 outline := by
  rw [← map_displacements.1, ← map_displacements.2]
  exact map_congr_left (hf.displacements_eq_iff.mpr hfirst)

end

variable (hf : Faithful keyword (markedIn gs) outline)

include hf

theorem Faithful.displaced (ht : .exportDefault at_ (.class_ c) ∈ outline) {first : Nat}
    (hlt : first < keyword c) : Displaced 0 gs (.class_ (first + 5)) (.class_ (keyword c + 5)) := by
  refine ⟨rfl, rfl, rfl, Nat.add_lt_add_right hlt 5, ?_⟩
  obtain ⟨rest, hrest⟩ : classWord <+: (markedOf gs).drop (keyword c) := (hf.class_places ht).2.2
  have hs : ['s'] <+: (markedOf gs).drop (keyword c + 4) := by
    rw [← drop_drop, ← hrest]
    exact ⟨rest, rfl⟩
  have hapart : ∀ m ∈ placedIn 0 gs, m.at_.stop ≤ keyword c + 4 ∨
      keyword c + 4 + ['s'].length ≤ m.at_.start := by
    intro m hm
    have := hf.apart (keyword c, classWord) (mem_flatMap.mpr ⟨_, ht, by simp [words]⟩) m hm
    simp only [classWord, length_cons] at this ⊢
    omega
  obtain ⟨⟨a, b, rfl, ha⟩, -⟩ := word_cuts (by simp) hs hapart
  rw [← ha] at hs
  obtain ⟨b', rfl⟩ := word_head (by decide) hs
  exact ⟨a, b', rfl, show 0 + (markedOf a).length + 1 = keyword c + 5 by omega⟩

theorem Faithful.displacements_cases :
    ∀ z ∈ displacements keyword (markedIn gs) outline,
      z.1 = z.2 ∨ Displaced 0 gs z.1 z.2 := by
  intro z hz
  obtain ⟨t, ht, hz⟩ := mem_filterMap.mp hz
  obtain ⟨hfst, hsnd⟩ := displacement?_eq_some hz
  rcases naming?_cases hsnd with ⟨at_, c, rfl, hc, hn⟩ | ⟨at_, o, rfl, hn⟩
  · simp only [naming?, hc, if_true, Option.some.injEq] at hfst
    rw [← hfst, hn]
    rcases (hf.firstWord_spec ht hc).2.1.eq_or_lt with heq | hlt
    · rw [heq]
      exact .inl rfl
    · exact .inr (hf.displaced ht hlt)
  · exact .inl (Option.some.inj (hfst.symm.trans hsnd))

theorem Faithful.covered_firstWord (q : Nat) :
    covered (namings (firstWord keyword (markedIn gs)) (markedIn gs).2 outline) q =
      covered (namings keyword (markedIn gs).2 outline) q := by
  rw [← map_displacements.1, covered_displaced hf.displacements_cases, map_displacements.2]

/-- Otherwise the scripts differ, whatever is appended to them. -/
theorem Faithful.rewritten_firstWord_ne
    (hunmarked : KeywordUnmarked keyword (markedIn gs) outline)
    (hfirst : ¬ KeywordFirst keyword (markedIn gs) outline) (x y : List Char) :
    rewritten (namings (firstWord keyword (markedIn gs)) (markedIn gs).2 outline)
      0 gs ++ x ≠ rewritten (namings keyword (markedIn gs).2 outline) 0 gs ++ y := by
  have hfits : ∀ z ∈ displacements keyword (markedIn gs) outline,
      z.1.Fits 0 gs := by
    intro z hz
    obtain ⟨t, ht, hz⟩ := mem_filterMap.mp hz
    exact naming?_fits (hf.earlier hunmarked) ht (displacement?_eq_some hz).1
  have hne : ∃ z ∈ displacements keyword (markedIn gs) outline, z.1 ≠ z.2 := by
    simpa using mt hf.displacements_eq_iff.mp hfirst
  obtain ⟨z, hz, l, m, r, r', hl, hl', hm⟩ := rewritten_displaced hfits hf.displacements_cases
    (hf.pairwise_displacements hunmarked) hne
  have hword : z.1 ∈ namings (firstWord keyword (markedIn gs)) (markedIn gs).2
      outline := by
    rw [← map_displacements.1]
    exact mem_map_of_mem hz
  rw [← map_displacements.1, ← map_displacements.2, hl, hl']
  intro heq
  simp only [append_assoc] at heq
  have heq := append_cancel_left heq
  rcases word_of_mem_namings hword with hw | hw
  · exact append_swap_ne (c := 't') hm (hw ▸ by decide) (by decide) heq
  · exact append_swap_ne (c := ' ') hm (hw ▸ by decide) (by decide) heq

end FirstWords

end Componentry.Annotations
