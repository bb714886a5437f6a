import Componentry.Params
import Componentry.Proofs.Keyed
import Componentry.Proofs.Text.Scan
import Mathlib.Data.List.Induction

/-!
# Routes filled and matched

A route pattern is filled by putting a text without slashes in place of each parameter. Matching a
path undoes this: a path matches exactly if it is the pattern filled in some way, perhaps with a
slash at the end. Where each parameter is a whole segment there is only one such way, so matching
gives back the texts that were put in.
-/

namespace Componentry

open List

theorem Dictionary.find?_ofList {α : Type} (entries : List (String × α)) (k : String) :
    (Dictionary.ofList entries).find? k = (entries.reverse.find? fun e => e.1 == k).map (·.2) := by
  induction entries using reverseRecOn with
  | nil => rfl
  | append_singleton entries e ih =>
    rw [Dictionary.ofList, foldl_concat, Dictionary.find?_insert, reverse_concat, find?_cons]
    by_cases he : k = e.1
    · simp [he]
    · have hne : (e.1 == k) = false := by simpa using Ne.symm he
      rw [if_neg he, hne]
      exact ih

namespace Params

open Text

variable {c : Char} {s cs name rest tail path : List Char} {fills : List (String × String)}

/-- A path is a pattern with texts in place of its parameters, followed by `tail`. A parameter is a
colon with the longest name after it; no text is empty or holds a slash. The names are listed with
their texts. -/
inductive Filled (tail : List Char) : List Char → List (String × String) → List Char → Prop
  | nil : Filled tail [] [] tail
  | literal {c : Char} {cs path : List Char} {fills : List (String × String)}
    (hc : c = ':' → ∀ d ∈ cs.head?, isNameStart d = false) (h : Filled tail cs fills path) :
    Filled tail (c :: cs) fills (c :: path)
  | param {c : Char} {name rest text path : List Char} {fills : List (String × String)}
    (hstart : isNameStart c = true) (hname : ∀ d ∈ name, isNameChar d = true)
    (hend : ∀ d ∈ rest.head?, isNameChar d = false) (hne : text ≠ []) (hslash : '/' ∉ text)
    (h : Filled tail rest fills path) :
    Filled tail (':' :: c :: (name ++ rest))
      ((String.ofList (c :: name), String.ofList text) :: fills) (text ++ path)

/-- A path is a filled pattern, perhaps with a slash at the end. -/
def Fits (pattern : List Char) (fills : List (String × String)) (path : List Char) : Prop :=
  Filled [] pattern fills path ∨ Filled ['/'] pattern fills path

def Part.keepsApart : Part → Part → Bool
  | .literal _, .literal _ => true
  | .param _, p | p, .param _ => p == .literal ['/']

/-- Every parameter is all that stands between two slashes or the ends of the pattern. -/
def WholeSegments (pattern : List Char) : Prop :=
  (parts pattern).IsChain fun p q => p.keepsApart q

/-! ### The parts of a pattern -/

theorem paramAt_eq_some_iff : paramAt s = some (name, rest) ↔
    ∃ c cs, name = c :: cs ∧ s = ':' :: c :: (cs ++ rest) ∧ isNameStart c = true ∧
      (∀ d ∈ cs, isNameChar d = true) ∧ ∀ d ∈ rest.head?, isNameChar d = false := by
  constructor
  · intro h
    unfold paramAt at h
    split at h
    next c cs =>
      split at h
      next hc =>
        cases h
        refine ⟨c, _, rfl, by rw [takeWhile_append_dropWhile], hc,
          fun d => mem_takeWhile_imp, fun d hd => ?_⟩
        have hstop := head?_dropWhile_not isNameChar cs
        rwa [Option.mem_def.mp hd] at hstop
      next => cases h
    next => cases h
  · rintro ⟨c, cs, rfl, rfl, hc, hcs, hrest⟩
    rw [paramAt, if_pos hc, takeWhile_append_stop hcs hrest, dropWhile_append_stop hcs hrest]

theorem paramAt_eq_none_iff : paramAt (c :: cs) = none ↔
    (c = ':' → ∀ d ∈ cs.head?, isNameStart d = false) := by
  cases cs with
  | nil => simp [paramAt]
  | cons d cs =>
    by_cases hc : c = ':'
    · subst hc
      simp [paramAt]
    · rw [paramAt.eq_2 _ fun _ _ h => hc (cons.inj h).1]
      simp [hc]

theorem parts_of_some (h : paramAt s = some (name, rest)) :
    parts s = .param name :: parts rest := by
  rw [parts]
  split
  next h' =>
    cases h.symm.trans h'
    rfl
  next h' => cases h.symm.trans h'

theorem parts_of_none (h : paramAt (c :: cs) = none) :
    parts (c :: cs) = .literal [c] :: parts cs := by
  rw [parts]
  split
  next h' => cases h.symm.trans h'
  next => rfl

theorem Filled.names_eq (h : Filled tail s fills path) :
    fills.map (·.1) = names (String.ofList s) := by
  rw [names, String.toList_ofList]
  induction h with
  | nil =>
    rw [parts]
    rfl
  | literal hc h ih =>
    rw [parts_of_none (paramAt_eq_none_iff.mpr hc)]
    exact ih
  | param hstart hname hend hne hslash h ih =>
    rw [parts_of_some (paramAt_eq_some_iff.mpr ⟨_, _, rfl, rfl, hstart, hname, hend⟩), map_cons, ih]
    rfl

theorem fits_of_matchParts (h : matchParts (parts s) path = some fills) : Fits s fills path := by
  fun_induction parts s generalizing path fills with
  | case1 s name rest hp hlt ih =>
    obtain ⟨c, cs, rfl, rfl, hstart, hname, hend⟩ := paramAt_eq_some_iff.mp hp
    obtain ⟨n, hn, hmap⟩ := exists_of_findSome?_eq_some h
    obtain ⟨fills, hmatch, rfl⟩ := Option.map_eq_some_iff.mp hmap
    have hn : n < (path.takeWhile (· != '/')).length := by simpa using hn
    have htake : path.take (n + 1) = (path.takeWhile (· != '/')).take (n + 1) := by
      conv_lhs => rw [← takeWhile_append_dropWhile (p := (· != '/')) (l := path)]
      exact take_append_of_le_length hn
    have hne : path.take (n + 1) ≠ [] := by
      rw [htake, ← length_pos_iff, length_take]
      omega
    have hslash : '/' ∉ path.take (n + 1) := fun hmem =>
      absurd (mem_takeWhile_imp (mem_of_mem_take (htake ▸ hmem))) (by simp)
    have hpath := take_append_drop (n + 1) path
    refine (ih hmatch).imp (fun hrest => ?_) fun hrest => ?_
    all_goals
      have := Filled.param hstart hname hend hne hslash hrest
      rwa [hpath] at this
  | case2 hp =>
    rw [matchParts] at h
    split at h
    next hend =>
      cases h
      rcases Bool.or_eq_true_iff.mp hend with hend | hend
      · rw [isEmpty_iff.mp hend]
        exact .inl .nil
      · rw [eq_of_beq hend]
        exact .inr .nil
    next => cases h
  | case3 c cs hp ih =>
    obtain ⟨rest, hrest, hmatch⟩ := Option.bind_eq_some_iff.mp h
    obtain rfl : path = c :: rest := dropLead?_eq_some_iff.mp hrest
    have hc := paramAt_eq_none_iff.mp hp
    exact (ih hmatch).imp (.literal hc) (.literal hc)

theorem Filled.isSome_matchParts (h : Filled tail s fills path) (htail : tail = [] ∨ tail = ['/']) :
    (matchParts (parts s) path).isSome = true := by
  induction h with
  | nil => rcases htail with rfl | rfl <;> rw [parts] <;> rfl
  | literal hc h ih =>
    rw [parts_of_none (paramAt_eq_none_iff.mpr hc), matchParts, dropLead?, beq_self_eq_true]
    exact ih
  | @param c name rest text path fills hstart hname hend hne hslash h ih =>
    obtain ⟨k, hk⟩ : ∃ k, text.length = k + 1 := Nat.exists_eq_succ_of_ne_zero (by simpa using hne)
    rw [parts_of_some (paramAt_eq_some_iff.mpr ⟨_, _, rfl, rfl, hstart, hname, hend⟩), matchParts,
      findSome?_isSome_iff]
    refine ⟨k, ?_, ?_⟩
    · have hlong := (sublist_append_left text (path.takeWhile (· != '/'))).length_le
      rw [mem_reverse, mem_range, takeWhile_append_of_pos fun d hd => ?_]
      · omega
      · simpa using fun he : d = '/' => hslash (he ▸ hd)
    · rw [← hk, drop_left, Option.isSome_map]
      exact ih

theorem Filled.matchParts_eq (h : Filled tail s fills path) (htail : tail = [] ∨ tail = ['/'])
    (hwhole : WholeSegments s) : matchParts (parts s) path = some fills := by
  unfold WholeSegments at hwhole
  induction h with
  | nil => rcases htail with rfl | rfl <;> rw [parts] <;> rfl
  | literal hc h ih =>
    rw [parts_of_none (paramAt_eq_none_iff.mpr hc)] at hwhole ⊢
    rw [matchParts, dropLead?, beq_self_eq_true]
    exact ih hwhole.of_cons
  | @param c name rest text path fills hstart hname hend hne hslash h ih =>
    have hsome := paramAt_eq_some_iff.mpr ⟨_, _, rfl, rfl, hstart, hname, hend⟩
    rw [parts_of_some hsome] at hwhole ⊢
    obtain ⟨k, hk⟩ : ∃ k, text.length = k + 1 := Nat.exists_eq_succ_of_ne_zero (by simpa using hne)
    -- the text ends where the path has a slash or ends
    have hpath : ∀ d ∈ path.head?, (d != '/') = false := by
      cases h with
      | nil => rcases htail with rfl | rfl <;> simp
      | literal hc =>
        rw [parts_of_none (paramAt_eq_none_iff.mpr hc)] at hwhole
        simpa [Part.keepsApart] using (isChain_cons_cons.mp hwhole).1
      | param hs hn he =>
        rw [parts_of_some (paramAt_eq_some_iff.mpr ⟨_, _, rfl, rfl, hs, hn, he⟩)] at hwhole
        cases (isChain_cons_cons.mp hwhole).1
    have hlong := takeWhile_append_stop (fun d hd => by simpa using fun he : d = '/' => hslash (he ▸
      hd)) hpath
    have hfirst :=
      congrArg (Option.map ((String.ofList (c :: name), String.ofList text) :: ·)) (ih hwhole.of_cons)
    rw [matchParts, hlong, hk, range_succ, reverse_concat, findSome?_cons, ← hk,
      drop_left, take_left, hfirst]
    rfl

/-- Matching undoes filling. A path matches a pattern exactly if it is the pattern with texts in place
of its parameters, perhaps with a slash at the end, and then gives a value to each parameter. If the
parameters are whole segments, each gets the text that was put in for its last occurrence, so that
filling the pattern with the values gives the path back if the names are distinct. -/
theorem ofRoute?_filled (pattern path : String) :
    ((ofRoute? pattern path).isSome = true ↔ ∃ fills, Fits pattern.toList fills path.toList) ∧
    (∀ params, ofRoute? pattern path = some params →
      ∀ k, params.contains k = true ↔ k ∈ names pattern) ∧
    (WholeSegments pattern.toList → ∀ fills, Fits pattern.toList fills path.toList →
      ∃ params, ofRoute? pattern path = some params ∧
        (∀ k, params.find? k = (fills.reverse.find? fun e => e.1 == k).map (·.2)) ∧
        ((names pattern).Nodup → Fits pattern.toList
          ((names pattern).map fun k => (k, (params.find? k).getD "")) path.toList)) := by
  have hnames {fills : List (String × String)} (h : Fits pattern.toList fills path.toList) :
      fills.map (·.1) = names pattern := by
    rcases h with h | h <;> simpa using h.names_eq
  refine ⟨?_, ?_, fun hwhole fills h => ?_⟩
  · rw [ofRoute?, Option.isSome_map, Option.isSome_iff_exists]
    constructor
    · rintro ⟨fills, h⟩
      exact ⟨fills, fits_of_matchParts h⟩
    · rintro ⟨fills, h | h⟩
      · exact Option.isSome_iff_exists.mp (h.isSome_matchParts (.inl rfl))
      · exact Option.isSome_iff_exists.mp (h.isSome_matchParts (.inr rfl))
  · intro params h k
    obtain ⟨fills, hmatch, rfl⟩ := Option.map_eq_some_iff.mp h
    rw [← hnames (fits_of_matchParts hmatch), Dictionary.contains, Dictionary.find?_ofList]
    simp
  · have hmatch : matchParts (parts pattern.toList) path.toList = some fills := by
      rcases h with h' | h'
      · exact h'.matchParts_eq (.inl rfl) hwhole
      · exact h'.matchParts_eq (.inr rfl) hwhole
    refine ⟨_, congrArg (Option.map Dictionary.ofList) hmatch, Dictionary.find?_ofList fills, ?_⟩
    intro hnodup
    rw [← hnames h] at hnodup ⊢
    have hkeyed : Keyed (·.1) fills.reverse := Keyed.perm hnodup (reverse_perm _).symm
    have hsame : (fills.map (·.1)).map (fun k => (k, ((Dictionary.ofList fills).find? k).getD "")) =
        fills := by
      rw [map_map]
      refine (map_congr_left fun e he => ?_).trans (map_id _)
      have hfind := hkeyed.find?_eq_some_iff.mpr ⟨mem_reverse.mpr he, rfl⟩
      simp [Dictionary.find?_ofList, hfind]
    rwa [hsame]

/-- A name occurs twice, and a slash follows. -/
theorem ofRoute?_filled_twice : ∃ params,
    ofRoute? "/:id/a.b/:id" "/x/a.b/y z/" = some params ∧ params.find? "id" = some "y z" := by
  have hfits : Fits "/:id/a.b/:id".toList [("id", "x"), ("id", "y z")] "/x/a.b/y z/".toList :=
    fits_of_matchParts (by decide +kernel)
  obtain ⟨-, -, hwhole⟩ := ofRoute?_filled "/:id/a.b/:id" "/x/a.b/y z/"
  obtain ⟨params, hparams, hfind, -⟩ := hwhole (by unfold WholeSegments; decide +kernel) _ hfits
  exact ⟨params, hparams, hfind "id"⟩

end Params

end Componentry
