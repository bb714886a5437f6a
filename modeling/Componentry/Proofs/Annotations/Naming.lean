import Componentry.Proofs.Annotations.Outlines
import Componentry.Proofs.Text.Scan

/-!
# Names of default exports

What an outline of the marked text says about default exports without a name, if it is faithful: where
their words stand, and that they stand apart. The word `class` is looked for from the start of its
class on, so the name of a class goes after the first `class` that is spelled there.
-/

namespace Componentry.Annotations

open Text Script List

/-! ### Faithful outlines -/

def classWord : List Char := ['c', 'l', 'a', 's', 's']

def exportWord : List Char := ['e', 'x', 'p', 'o', 'r', 't']

variable (keyword : ClassOutline → Nat)

/-- The words that tell where the default export stands, by their places. The outline does not say
where the word `class` is, so its place is given. -/
def words : TopLevel → List (Nat × List Char)
  | .exportDefault _ (.class_ c) => [(keyword c, classWord)]
  | .exportDefault at_ (.value (.object o)) =>
    [(at_.start, exportWord), (o.at_.start, ['\x7b'])]
  | _ => []

/-- The places of a statement in the order of the text. -/
def places (keyword : ClassOutline → Nat) (t : TopLevel) : List Nat :=
  (match t with
    | .exportDefault _ (.class_ c) => [c.at_.start, keyword c, keyword c + 5]
    | .exportDefault at_ (.value (.object _)) => [at_.start]
    | _ => []) ++ (bodies t).flatMap Body.places

/-- An outline whose places are right: they stand in the order of the text, each word stands where
its place says, and is no part of a marker, which is a comment. -/
structure Faithful (keyword : ClassOutline → Nat) (marked : List Char × List Placed)
    (outline : Outline) : Prop where
  ordered : (outline.flatMap (places keyword)).Pairwise (· ≤ ·)
  /-- Words stand at their places. -/
  spelled : ∀ w ∈ outline.flatMap (words keyword), w.2 <+: marked.1.drop w.1
  apart : ∀ w ∈ outline.flatMap (words keyword), ∀ m ∈ marked.2,
    m.at_.stop ≤ w.1 ∨ w.1 + w.2.length ≤ m.at_.start

variable (placed : List Placed)

/-- A class that gets a name: it has none, and some member is annotated. -/
def unnamed (c : ClassOutline) : Bool :=
  c.name.isNone && (classBody c).annotated placed

def naming? : TopLevel → Option Naming
  | .exportDefault _ (.class_ c) =>
    if unnamed placed c then some (.class_ (keyword c + 5)) else none
  | .exportDefault at_ (.value (.object o)) =>
    if (objectBody o).annotated placed then some (.object at_.start o.at_.start) else none
  | _ => none

/-- The names that an outline asks for. -/
def namings (outline : Outline) : List Naming :=
  outline.filterMap (naming? keyword placed)

/-- No other `class` is spelled out between the start of a class that gets a name and its word. -/
def KeywordFirst (marked : List Char × List Placed) (outline : Outline) : Prop :=
  ∀ at_ c, .exportDefault at_ (.class_ c) ∈ outline → unnamed marked.2 c = true →
    ∀ q, c.at_.start ≤ q → q < keyword c → ¬ classWord <+: marked.1.drop q

/-- If another `class` is spelled out there, it is at least not in a marker: no annotation that
stands there has it in its name. -/
def KeywordUnmarked (marked : List Char × List Placed) (outline : Outline) : Prop :=
  ∀ at_ c, .exportDefault at_ (.class_ c) ∈ outline → unnamed marked.2 c = true →
    ∀ q, c.at_.start ≤ q → q < keyword c → classWord <+: marked.1.drop q →
      ∀ m ∈ marked.2, m.at_.stop ≤ q ∨ q + 5 ≤ m.at_.start

theorem KeywordFirst.unmarked {keyword : ClassOutline → Nat} {marked : List Char × List Placed}
    {outline : Outline} (h : KeywordFirst keyword marked outline) :
    KeywordUnmarked keyword marked outline :=
  fun at_ c ht hc q hle hlt hspelled => absurd hspelled (h at_ c ht hc q hle hlt)

/-- The text of segments with markers, and where these stand. -/
def markedIn (gs : List Segment) : List Char × List Placed := (markedOf gs, placedIn 0 gs)

/-! ### Words cut the segments -/

section Words

variable {gs : List Segment} {p : Nat} {word : List Char}

theorem word_cuts (hword : word ≠ []) (hspelled : word <+: (markedOf gs).drop p)
    (hapart : ∀ m ∈ placedIn 0 gs, m.at_.stop ≤ p ∨ p + word.length ≤ m.at_.start) :
    (∃ a b, gs = a ++ b ∧ (markedOf a).length = p) ∧
      ∃ a b, gs = a ++ b ∧ (markedOf a).length = p + word.length := by
  have hlen := hspelled.length_le
  have hpos := length_pos_iff.mpr hword
  rw [length_drop] at hlen
  have hcut (q : Nat) (hq : q ≤ (markedOf gs).length)
      (hout : ∀ m ∈ placedIn 0 gs, q ≤ m.at_.start ∨ m.at_.stop ≤ q) :
      ∃ a b, gs = a ++ b ∧ (markedOf a).length = q := by
    obtain ⟨a, b, hab, ha⟩ := exists_cut (Nat.zero_le q) (by omega) hout
    exact ⟨a, b, hab, by omega⟩
  refine ⟨hcut p (by omega) fun m hm => ?_, hcut _ (by omega) fun m hm => ?_⟩
  · have := hapart m hm
    omega
  · have := hapart m hm
    omega

theorem word_head {a b : List Segment} {c : Char} (hc : c ≠ '/')
    (hspelled : c :: word <+: (markedOf (a ++ b)).drop (markedOf a).length) :
    ∃ b', b = .plain c :: b' := by
  rw [markedOf_append, drop_left] at hspelled
  cases b with
  | nil => simp at hspelled
  | cons g b =>
    cases g with
    | plain d =>
      obtain ⟨rfl, -⟩ := cons_prefix_cons.mp hspelled
      exact ⟨b, rfl⟩
    | note o text =>
      have hslash : ∃ rest, (Segment.note o text).marked = '/' :: rest := by
        simp [Segment.marked, encodeMarker]
      obtain ⟨rest, hrest⟩ := hslash
      rw [markedOf_cons, hrest, cons_append, cons_prefix_cons] at hspelled
      exact absurd hspelled.1 hc

theorem classWordEnd_eq {marked : List Char} {start keyword : Nat} (hle : start ≤ keyword)
    (hspelled : classWord <+: marked.drop keyword)
    (hfirst : ∀ q, start ≤ q → q < keyword → ¬ classWord <+: marked.drop q) :
    classWordEnd marked start = keyword + 5 := by
  have hlen := hspelled.length_le
  have hword : "class".toList = classWord := by decide
  rw [length_drop, show classWord.length = 5 from rfl] at hlen
  obtain ⟨x, hx, hxlen⟩ : ∃ x, marked.drop start = x ++ marked.drop keyword ∧
      x.length = keyword - start := by
    refine ⟨(marked.drop start).take (keyword - start), ?_, ?_⟩
    · conv_lhs => rw [← take_append_drop (keyword - start) (marked.drop start)]
      rw [drop_drop, show start + (keyword - start) = keyword by omega]
    · simp only [length_take, length_drop]
      omega
  have hbreak : breakAt (startsWith classWord) (marked.drop start) =
      some (x, marked.drop keyword) := by
    rw [hx]
    refine breakAt_append (startsWith_iff.mpr hspelled) fun u hu ⟨v, hv⟩ => ?_
    -- an earlier place of the text
    have hplace : marked.drop (start + v.length) = u ++ marked.drop keyword := by
      rw [← drop_drop, hx, ← hv, append_assoc, drop_left]
    have hupos := length_pos_iff.mpr hu
    have hvlen : v.length + u.length = x.length := by rw [← hv, length_append]
    rw [← hplace, Bool.eq_false_iff]
    exact mt startsWith_iff.mp (hfirst _ (by omega) (by omega))
  rw [classWordEnd, hword, hbreak]
  simp only [hxlen]
  omega

end Words

/-! ### Names have their place -/

section Names

variable {gs : List Segment} {marked : List Char × List Placed} {placed : List Placed}
  {keyword : ClassOutline → Nat} {outline : Outline} {n : Naming} {t : TopLevel}

theorem naming?_cases (hn : naming? keyword placed t = some n) :
    (∃ at_ c, t = .exportDefault at_ (.class_ c) ∧ unnamed placed c = true ∧
      n = .class_ (keyword c + 5)) ∨
    ∃ at_ o, t = .exportDefault at_ (.value (.object o)) ∧ n = .object at_.start o.at_.start := by
  unfold naming? at hn
  split at hn
  · rename_i at_ c
    split at hn
    next h =>
      cases hn
      exact .inl ⟨at_, c, rfl, h, rfl⟩
    next => cases hn
  · rename_i at_ o
    split at hn
    · cases hn
      exact .inr ⟨at_, o, rfl, rfl⟩
    · cases hn
  · cases hn

theorem word_of_mem_namings (hn : n ∈ namings keyword placed outline) :
    n.word = (" " ++ defaultOwner).toList ∨ n.word = ("const " ++ defaultOwner ++ " = ").toList := by
  obtain ⟨t, -, hn⟩ := mem_filterMap.mp hn
  rcases naming?_cases hn with ⟨at_, c, -, -, rfl⟩ | ⟨at_, o, -, rfl⟩
  · exact .inl rfl
  · exact .inr rfl

theorem notMem_word {c : Char} (hclass : c ∉ (" " ++ defaultOwner).toList)
    (hobject : c ∉ ("const " ++ defaultOwner ++ " = ").toList) :
    ∀ n ∈ namings keyword placed outline, c ∉ n.word := by
  intro n hn
  rcases word_of_mem_namings hn with hw | hw
  · exact hw ▸ hclass
  · exact hw ▸ hobject

section

variable (hf : Faithful keyword marked outline)

include hf

theorem Faithful.class_places {at_ : Span} {c : ClassOutline}
    (h : .exportDefault at_ (.class_ c) ∈ outline) :
    c.at_.start ≤ keyword c ∧ keyword c + 5 ≤ c.bodyStart ∧
      classWord <+: marked.1.drop (keyword c) := by
  have hordered := (pairwise_flatMap.mp hf.ordered).1 _ h
  simp only [places, bodies, Body.places, flatMap_singleton, cons_append,
    nil_append, pairwise_cons, mem_cons, forall_eq_or_imp] at hordered
  have hspelled := hf.spelled (keyword c, classWord) (mem_flatMap.mpr ⟨_, h, by simp [words]⟩)
  exact ⟨hordered.1.1, hordered.2.2.1.1, hspelled⟩

theorem Faithful.object_places {at_ : Span} {o : ObjectOutline}
    (h : .exportDefault at_ (.value (.object o)) ∈ outline) :
    at_.start ≤ o.at_.start ∧ exportWord <+: marked.1.drop at_.start ∧
      ['\x7b'] <+: marked.1.drop o.at_.start := by
  have hordered := (pairwise_flatMap.mp hf.ordered).1 _ h
  simp only [places, bodies, Body.places, flatMap_singleton, cons_append,
    nil_append, pairwise_cons, mem_cons, forall_eq_or_imp] at hordered
  have hspelled (w : Nat × List Char)
      (hw : w ∈ [(at_.start, exportWord), (o.at_.start, ['\x7b'])]) : w.2 <+: marked.1.drop w.1 :=
    hf.spelled w (mem_flatMap.mpr ⟨_, h, hw⟩)
  exact ⟨hordered.1.1, hspelled (at_.start, exportWord) (by simp),
    hspelled (o.at_.start, ['\x7b']) (by simp)⟩

theorem naming?_places (ht : t ∈ outline) (hn : naming? keyword marked.2 t = some n) :
    n.start ∈ places keyword t ∧ ∃ x ∈ places keyword t, n.stop < x := by
  rcases naming?_cases hn with ⟨at_, c, rfl, -, rfl⟩ | ⟨at_, o, rfl, rfl⟩
  · have hle := (hf.class_places ht).2.1
    refine ⟨by simp [places, Naming.class_], c.bodyStart + 1, ?_, Nat.lt_succ_of_le hle⟩
    simp [places, bodies, classBody, Body.places]
  · refine ⟨by simp [places, Naming.object], o.at_.start + 1, ?_, Nat.lt_add_one _⟩
    simp [places, bodies, objectBody, Body.places]

theorem pairwise_namings :
    (namings keyword marked.2 outline).Pairwise fun n m => n.stop < m.start := by
  have hpair := (pairwise_flatMap.mp hf.ordered).2
  refine pairwise_filterMap.mpr (hpair.imp_of_mem fun {t u} ht hu h n hn m hm => ?_)
  obtain ⟨-, x, hx, hlt⟩ := naming?_places hf ht hn
  obtain ⟨hy, -⟩ := naming?_places hf hu hm
  exact hlt.trans_le (h x hx _ hy)

end

theorem gaps_sublist (start : Nat) (ms : List MemberOutline) :
    (((gaps start ms).map (·.1)).flatMap fun g => [g.start, g.stop]).Sublist
      (start :: ms.flatMap fun m => [m.at_.start, m.at_.stop]) := by
  induction ms generalizing start with
  | nil => exact nil_sublist _
  | cons m ms ih => exact ((ih m.at_.stop).cons_cons m.at_.start).cons_cons start

theorem Body.gaps_sublist (b : Body) :
    ((b.gaps.map (·.1)).flatMap fun g => [g.start, g.stop]).Sublist b.places :=
  (Annotations.gaps_sublist _ _).cons b.start

theorem pairwise_gapsOf (hordered : (outline.flatMap (places keyword)).Pairwise (· ≤ ·)) :
    (gapsOf outline).Pairwise Span.Apart := by
  have hsub : ((gapsOf outline).flatMap fun g => [g.start, g.stop]).Sublist
      (outline.flatMap (places keyword)) := by
    rw [gapsOf, flatMap_assoc]
    refine Sublist.flatMap_right _ fun t _ => ?_
    refine Sublist.trans ?_ (sublist_append_right _ _)
    rw [flatMap_assoc]
    exact Sublist.flatMap_right _ fun b _ => b.gaps_sublist
  obtain ⟨-, hpair⟩ := pairwise_flatMap.mp (hordered.sublist hsub)
  exact hpair.imp fun h => .inl (h _ (by simp) _ (by simp))

theorem Naming.Fits.object {start brace : Nat} (hle : start ≤ brace)
    (hexport : ∃ a b, gs = a ++ b ∧ (markedOf a).length = start)
    (hbrace : ∃ a b, gs = a ++ b ∧ (markedOf a).length = brace)
    (hspelled : exportWord <+: (markedOf gs).drop start)
    (hopen : ['\x7b'] <+: (markedOf gs).drop brace) : (Naming.object start brace).Fits 0 gs := by
  obtain ⟨a, b, rfl, ha⟩ := hexport
  obtain ⟨a', b', heq, ha'⟩ := hbrace
  obtain ⟨mid, rfl, rfl⟩ := cut_of_le heq (by omega)
  rw [← append_assoc, ← ha'] at hopen
  obtain ⟨b'', rfl⟩ := word_head (by decide) hopen
  rw [← ha] at hspelled
  obtain ⟨rest, hrest⟩ := word_head (by decide) hspelled
  have hlen : (markedOf (a ++ mid)).length = start + (markedOf mid).length := by
    rw [markedOf_append, length_append, ha]
  refine ⟨a, mid, .plain '\x7b' :: b'', rfl, ?_, ?_, .inr ⟨?_, b'', rfl⟩⟩
  · rw [Nat.zero_add, ha]
    rfl
  · exact hlen.symm.trans ha'
  · -- the range is not empty: it starts with another character than a brace
    cases mid with
    | nil => simp at hrest
    | cons g mid =>
      cases hrest
      exact ⟨'e', mid, rfl⟩

theorem naming?_fits (hf : Faithful keyword (markedIn gs) outline) (ht : t ∈ outline)
    (hn : naming? keyword (placedIn 0 gs) t = some n) : n.Fits 0 gs := by
  have hcuts (w : Nat × List Char) (hw : w ∈ words keyword t) (hne : w.2 ≠ []) :=
    have hmem := mem_flatMap.mpr ⟨t, ht, hw⟩
    word_cuts hne (hf.spelled w hmem) (hf.apart w hmem)
  rcases naming?_cases hn with ⟨at_, c, rfl, -, rfl⟩ | ⟨at_, o, rfl, rfl⟩
  · obtain ⟨-, a, b, rfl, ha⟩ := hcuts (keyword c, classWord) (by simp [words]) (by simp [classWord])
    exact ⟨a, [], b, rfl, by rw [Nat.zero_add, ha]; rfl, rfl, .inl rfl⟩
  · obtain ⟨hle, hexport, hbrace⟩ := hf.object_places ht
    have hstart := hcuts (at_.start, exportWord) (by simp [words]) (by simp [exportWord])
    have hstop := hcuts (o.at_.start, ['\x7b']) (by simp [words]) (by simp)
    exact .object hle hstart.1 hstop.1 hexport hbrace

theorem Naming.Fits.edit_eq (hs : Standing 0 gs) (hn : n.Fits 0 gs) :
    (cutRange? ⟨(finderOf gs).place n.start, (finderOf gs).place n.stop⟩ (sourceOf gs)).map
      (fun r => ⟨⟨(finderOf gs).place n.start, (finderOf gs).place n.stop⟩,
        n.word ++ lineFeeds r.2.1⟩) = some (n.edit gs) := by
  obtain ⟨a, mid, b, rfl, hstart, hstop, -⟩ := hn
  rw [Nat.zero_add] at hstart
  have hfirst : (finderOf (a ++ (mid ++ b))).place n.start = byteLength (sourceOf a) :=
    hstart ▸ unmarkedPlace_cut hs
  have hlast : (finderOf (a ++ (mid ++ b))).place n.stop = byteLength (sourceOf (a ++ mid)) := by
    have hlen : (markedOf (a ++ mid)).length = n.stop := by
      rw [markedOf_append, length_append, hstart, hstop]
    rw [← append_assoc] at hs ⊢
    exact hlen ▸ unmarkedPlace_cut hs
  have hcut : cutBytes? (byteLength (sourceOf mid)) (sourceOf (mid ++ b)) =
      some (sourceOf mid, sourceOf b) := cutBytes?_eq_some.mpr ⟨sourceOf_append .., rfl⟩
  rw [hfirst, hlast, sourceOf_append a mid, byteLength_append, sourceOf_append a, cutRange?_append,
    hcut, Naming.edit_eq hstart (by omega), upTo_append mid b hstop.le, upTo_of_le hstop.ge,
    append_nil]
  rfl

/-- The edits that give names to the default exports among some owners. -/
def namingEdits? (script : List Char) (owners : List Owner) : Option (List Edit) :=
  ((owners.filter Owner.isAnnotated).filterMap Owner.anonymous).mapM (Anonymous.edit? script)

theorem namingEdits?_flatMap {script : List Char} {α : Type} {ts : List α} {f : α → List Owner}
    {g : α → List Edit} (h : ∀ t ∈ ts, namingEdits? script (f t) = some (g t)) :
    namingEdits? script (ts.flatMap f) = some (ts.flatMap g) := by
  induction ts with
  | nil => rfl
  | cons t ts ih =>
    obtain ⟨ht, hts⟩ := forall_mem_cons.mp h
    have hrest := ih hts
    rw [namingEdits?] at ht hrest ⊢
    rw [flatMap_cons, filter_append, filterMap_append, mapM_append, ht, hrest]
    rfl

theorem namingEdits?_eq_nil {script : List Char} {owners : List Owner}
    (h : ∀ o ∈ owners, o.anonymous = none) : namingEdits? script owners = some [] := by
  have hnone : (owners.filter Owner.isAnnotated).filterMap Owner.anonymous = [] :=
    filterMap_eq_nil_iff.mpr fun o ho => h o (mem_of_mem_filter ho)
  rw [namingEdits?, hnone]
  rfl

theorem namingEdits?_singleton {o : Owner} {x : Anonymous} {annotated : Bool}
    (hx : o.anonymous = some x) (ho : o.isAnnotated = annotated)
    (he : annotated = true → x.edit? (sourceOf gs) = some (n.edit gs)) :
    namingEdits? (sourceOf gs) [o] =
      some ((if annotated then some n else none).toList.map (Naming.edit gs)) := by
  cases annotated with
  | false => simp [namingEdits?, ho]
  | true => simp [namingEdits?, ho, hx, he rfl]

theorem ownersIn_naming (hs : Standing 0 gs)
    (hf : Faithful keyword (markedIn gs) outline)
    (hfirst : KeywordFirst keyword (markedIn gs) outline) (ht : t ∈ outline) :
    namingEdits? (sourceOf gs) (ownersIn (finderOf gs) (markedOf gs) t) =
      some ((naming? keyword (placedIn 0 gs) t).toList.map (Naming.edit gs)) := by
  match t with
  | .declaration d | .exported d =>
    refine namingEdits?_eq_nil fun o ho => ?_
    obtain ⟨⟨name, _ | _⟩, -, rfl⟩ := mem_map.mp ho <;> rfl
  | .exportDefault at_ (.class_ c) =>
    cases hname : c.name with
    | some name =>
      simp only [ownersIn, naming?, unnamed, hname]
      exact namingEdits?_eq_nil fun o ho => by rw [mem_singleton.mp ho]; rfl
    | none =>
      have hunnamed : unnamed (placedIn 0 gs) c = (classBody c).annotated (placedIn 0 gs) := by
        simp [unnamed, hname]
      simp only [ownersIn, naming?, hname]
      rw [hunnamed]
      refine namingEdits?_singleton rfl (isAnnotated_eq (classOwner_found _ _ c)) fun h => ?_
      have hfits : (Naming.class_ (keyword c + 5)).Fits 0 gs :=
        naming?_fits hf ht (by simp [naming?, hunnamed, h])
      have hword : classWordEnd (markedOf gs) c.at_.start = _ := classWordEnd_eq
        (hf.class_places ht).1 (hf.class_places ht).2.2 (hfirst at_ c ht (hunnamed.trans h))
      -- the range of the edit is empty
      obtain ⟨⟨before, inner, after⟩, hcut, hedit⟩ := Option.map_eq_some_iff.mp (hfits.edit_eq hs)
      obtain rfl : inner = [] := by
        simp only [Naming.class_, cutRange?, Nat.sub_self, cutBytes?, le_refl, if_true] at hcut
        obtain ⟨r, -, hr⟩ := Option.bind_eq_some_iff.mp hcut
        exact (Prod.mk.inj (Prod.mk.inj (Option.some.inj hr)).2).1.symm
      rw [← hedit, hword]
      simp [Anonymous.edit?, Naming.class_, lineFeeds]
  | .exportDefault at_ (.value (.object o)) =>
    refine namingEdits?_singleton rfl (isAnnotated_eq (objectOwner_found _ _ o)) fun h => ?_
    have hfits : (Naming.object at_.start o.at_.start).Fits 0 gs :=
      naming?_fits hf ht (by simp [naming?, h])
    exact hfits.edit_eq hs
  | .names _ _ | .other | .exportDefault _ .function | .exportDefault _ .type => rfl
  | .exportDefault _ (.value (.class_ _)) | .exportDefault _ (.value .function)
  | .exportDefault _ (.value (.name _)) | .exportDefault _ (.value (.wrapped _))
  | .exportDefault _ (.value .other) => rfl

end Names

end Componentry.Annotations
