import Componentry.Text.Bytes
import Componentry.Text.Scan
import Mathlib.Data.List.Basic
import Mathlib.Data.List.TakeWhile

/-!
# Scanners on texts in two parts

What a scanner finds in a text does not change when more text follows, as long as that text starts
with a character at which the scanner stops anyway.
-/

namespace Componentry.Text

/-! ### Bytes read back -/

variable (s : List Char)

theorem ofUtf8?_utf8 : ofUtf8? (utf8 s) = some (String.ofList s) := by
  have hbytes : (⟨(utf8 s).toArray⟩ : ByteArray) = s.utf8Encode := by
    apply ByteArray.ext
    exact List.data_toByteArray.symm
  rw [ofUtf8?, hbytes, String.fromUTF8?, dif_pos ByteArray.isValidUTF8_utf8Encode]
  rfl

theorem hexValue?_hexDigit {n : Nat} (h : n < 16) : hexValue? (hexDigit n) = some n := by
  have hall : ∀ n < 16, hexValue? (hexDigit n) = some n := by decide
  exact hall n h

theorem isAlphanum_hexDigit {n : Nat} (h : n < 16) : (hexDigit n).isAlphanum = true := by
  have hall : ∀ n < 16, (hexDigit n).isAlphanum = true := by decide
  exact hall n h

theorem hexDecode?_hexEncode (bytes : List UInt8) : hexDecode? (hexEncode bytes) = some bytes := by
  induction bytes with
  | nil => rfl
  | cons b bytes ih =>
    have hb : b.toNat < 256 := b.toNat_lt
    have hhigh := hexValue?_hexDigit (show b.toNat / 16 < 16 by omega)
    have hlow := hexValue?_hexDigit (show b.toNat % 16 < 16 by omega)
    have hbyte : UInt8.ofNat (b.toNat / 16 * 16 + b.toNat % 16) = b := by
      rw [show b.toNat / 16 * 16 + b.toNat % 16 = b.toNat by omega]
      exact UInt8.ofNat_toNat
    change hexDecode? (hexDigit (b.toNat / 16) :: hexDigit (b.toNat % 16) :: hexEncode bytes) = _
    simp only [hexDecode?, hhigh, hlow, ih, Option.bind_eq_bind, Option.bind_some, hbyte]
    rfl

theorem isAlphanum_of_mem_hexEncode {bytes : List UInt8} {c : Char} (h : c ∈ hexEncode bytes) :
    c.isAlphanum = true := by
  obtain ⟨b, -, hc⟩ := List.mem_flatMap.mp h
  have hb : b.toNat < 256 := b.toNat_lt
  rcases List.mem_cons.mp hc with rfl | hc
  · exact isAlphanum_hexDigit (by omega)
  · rw [List.mem_singleton.mp hc]
    exact isAlphanum_hexDigit (by omega)

open List

/-! ### Bytes of a text in parts -/

@[simp] theorem byteLength_nil : byteLength [] = 0 := rfl

@[simp] theorem byteLength_cons (c : Char) (s : List Char) :
    byteLength (c :: s) = c.utf8Size + byteLength s := rfl

@[simp] theorem byteLength_append (a b : List Char) :
    byteLength (a ++ b) = byteLength a + byteLength b := by
  induction a with
  | nil => simp
  | cons c a ih => rw [cons_append, byteLength_cons, byteLength_cons, ih, Nat.add_assoc]

theorem length_le_byteLength : s.length ≤ byteLength s := by
  induction s with
  | nil => simp
  | cons c s ih =>
    have hc := c.utf8Size_pos
    simp only [length_cons, byteLength_cons]
    omega

theorem byteLength_eq_length_iff : byteLength s = s.length ↔ ∀ c ∈ s, c.utf8Size = 1 := by
  induction s with
  | nil => simp
  | cons c s ih =>
    have hc := c.utf8Size_pos
    have hs := length_le_byteLength s
    rw [forall_mem_cons, ← ih, byteLength_cons, length_cons]
    omega

/-- A text is cut after the part that takes as many bytes. -/
theorem cutBytes?_eq_some {n : Nat} {s a b : List Char} :
    cutBytes? n s = some (a, b) ↔ s = a ++ b ∧ byteLength a = n := by
  fun_induction cutBytes? n s generalizing a b with
  | case1 s =>
    cases a with
    | nil => simp
    | cons c a =>
      have hc := c.utf8Size_pos
      simp
      omega
  | case2 n => cases a <;> simp
  | case3 n c s hle ih =>
    cases a with
    | nil => simp
    | cons d a =>
      simp only [Option.map_eq_some_iff, Prod.exists, ih, Prod.mk.injEq, cons.injEq, cons_append,
        byteLength_cons]
      constructor
      · rintro ⟨a', b', ⟨rfl, hn⟩, ⟨rfl, rfl⟩, rfl⟩
        exact ⟨⟨rfl, rfl⟩, by omega⟩
      · rintro ⟨⟨rfl, rfl⟩, hn⟩
        exact ⟨a, b, ⟨rfl, by omega⟩, ⟨rfl, rfl⟩, rfl⟩
  | case4 n c s hlt =>
    cases a with
    | nil => simp
    | cons d a =>
      simp only [reduceCtorEq, cons_append, cons.injEq, byteLength_cons, false_iff]
      rintro ⟨⟨rfl, -⟩, hn⟩
      omega

/-! ### Scanners -/

variable {a b s lead : List Char} {c p : Char} {f : Char → Bool}

/-! ### Case folding and blanks -/

theorem isLower_iff : c.isLower = true ↔ 97 ≤ c.toNat ∧ c.toNat ≤ 122 := by
  have heq : c.isLower = (decide (97 ≤ c.val) && decide (c.val ≤ 122)) := rfl
  simp [heq, UInt32.le_iff_toNat_le]

theorem isUpper_iff : c.isUpper = true ↔ 65 ≤ c.toNat ∧ c.toNat ≤ 90 := by
  have heq : c.isUpper = decide (65 ≤ c.val ∧ c.val ≤ 90) := rfl
  simp [heq, UInt32.le_iff_toNat_le]

theorem isLower_toLower (h : c.isUpper = true) : c.toLower.isLower = true := by
  have hc := isUpper_iff.mp h
  unfold Char.toLower
  split
  next =>
    refine isLower_iff.mpr ?_
    simp
    omega
  next hn => exact absurd hc (by simpa [UInt32.le_iff_toNat_le] using hn)

theorem toLower_eq (h : c.isUpper = false) : c.toLower = c := dif_neg (of_decide_eq_false h)

theorem toLower_toLower (c : Char) : c.toLower.toLower = c.toLower := by
  by_cases hc : c.isUpper = true
  · have hlower := isLower_iff.mp (isLower_toLower hc)
    refine toLower_eq (Bool.eq_false_iff.mpr fun h => ?_)
    have hupper := isUpper_iff.mp h
    omega
  · rw [toLower_eq (Bool.eq_false_iff.mpr hc), toLower_eq (Bool.eq_false_iff.mpr hc)]

theorem foldCase_cases (c : Char) : foldCase c = c ∨ (foldCase c).isLower = true := by
  unfold foldCase
  split
  · exact .inr rfl
  · split
    · exact .inr rfl
    · by_cases hc : c.isUpper = true
      · exact .inr (isLower_toLower hc)
      · exact .inl (toLower_eq (Bool.eq_false_iff.mpr hc))

theorem eq_of_foldCase (hp : p.isLower = false) (h : foldCase c = p) : c = p := by
  rcases foldCase_cases c with he | he
  · exact he.symm.trans h
  · rw [h, hp] at he
    cases he

section

variable (h : isBlank c = true)

include h

theorem isBlank_plain : c.isUpper = false ∧ c.isLower = false ∧ c.isDigit = false := by
  simp [isBlank, ← UInt32.toNat_inj, UInt32.le_iff_toNat_le] at h
  refine ⟨Bool.eq_false_iff.mpr fun hc => ?_, Bool.eq_false_iff.mpr fun hc => ?_,
    Bool.eq_false_iff.mpr fun hc => ?_⟩
  · have := isUpper_iff.mp hc
    omega
  · have := isLower_iff.mp hc
    omega
  · simp only [Char.isDigit, UInt32.le_iff_toNat_le] at hc
    simp at hc
    omega

theorem isAlphanum_of_isBlank : c.isAlpha = false ∧ c.isAlphanum = false := by
  obtain ⟨hupper, hlower, hdigit⟩ := isBlank_plain h
  have halpha : c.isAlpha = false := Bool.or_eq_false_iff.mpr ⟨hupper, hlower⟩
  exact ⟨halpha, Bool.or_eq_false_iff.mpr ⟨halpha, hdigit⟩⟩

theorem ne_of_isBlank {d : Char} (hd : isBlank d = false) : c ≠ d := by
  rintro rfl
  rw [hd] at h
  cases h

end

theorem notMem_of_blanks (h : ∀ c ∈ s, isBlank c = true) (hc : isBlank c = false) : c ∉ s := fun hm =>
  ne_of_isBlank (h c hm) hc rfl

/-! ### Leads -/

theorem dropLeadFold?_eq_some_iff :
    dropLeadFold? lead s = some b ↔ ∃ a, s = a ++ b ∧ a.map foldCase = lead := by
  induction lead generalizing s with
  | nil => simp [dropLeadFold?]
  | cons p lead ih =>
    cases s with
    | nil => simp [dropLeadFold?]
    | cons c s =>
      constructor
      · intro h
        simp only [dropLeadFold?] at h
        split at h
        next hp =>
          obtain ⟨a, rfl, rfl⟩ := ih.mp h
          exact ⟨c :: a, rfl, by rw [map_cons, eq_of_beq hp]⟩
        next => cases h
      · rintro ⟨_ | ⟨d, a⟩, hs, ha⟩
        · cases ha
        · cases hs
          cases ha
          simp only [dropLeadFold?, beq_self_eq_true]
          exact ih.mpr ⟨a, rfl, rfl⟩

theorem dropLeadFold?_self (h : ∀ p ∈ lead, foldCase p = p) (s : List Char) :
    dropLeadFold? lead (lead ++ s) = some s :=
  dropLeadFold?_eq_some_iff.mpr ⟨lead, rfl, (map_congr_left h).trans (map_id' lead)⟩

theorem dropLeadFold?_append (hc : ∀ p ∈ lead, p ≠ foldCase c) (a b : List Char) :
    dropLeadFold? lead (a ++ c :: b) = (dropLeadFold? lead a).map (· ++ c :: b) := by
  induction lead generalizing a with
  | nil => rfl
  | cons p lead ih =>
    obtain ⟨hp, hlead⟩ := forall_mem_cons.mp hc
    cases a with
    | nil => simp [dropLeadFold?, hp]
    | cons d a =>
      simp only [cons_append, dropLeadFold?]
      split
      · exact ih hlead a
      · rfl

theorem dropLeadFold?_cons_ne (h : p ≠ foldCase c) (lead s : List Char) :
    dropLeadFold? (p :: lead) (c :: s) = none := by
  simp [dropLeadFold?, h]

theorem dropLead?_eq_some_iff : dropLead? lead s = some b ↔ s = lead ++ b := by
  induction lead generalizing s with
  | nil => exact Option.some_inj
  | cons p lead ih =>
    cases s with
    | nil => simp [dropLead?]
    | cons c s =>
      by_cases hp : p = c
      · simp [dropLead?, hp, ih]
      · simp [dropLead?, hp, Ne.symm hp]

theorem dropLead?_append (lead s : List Char) : dropLead? lead (lead ++ s) = some s :=
  dropLead?_eq_some_iff.mpr rfl

theorem dropLead?_suffix (h : dropLead? lead s = some b) : b <:+ s :=
  ⟨lead, (dropLead?_eq_some_iff.mp h).symm⟩

theorem startsWith_iff : startsWith lead a = true ↔ lead <+: a := by
  simp only [startsWith, Option.isSome_iff_exists, dropLead?_eq_some_iff]
  exact exists_congr fun b => eq_comm

/-! ### Breaks -/

theorem breakAt_skip {here : List Char → Bool}
    (ha : ∀ u, u ≠ [] → u <:+ a → here (u ++ b) = false) :
    breakAt here (a ++ b) = (breakAt here b).map fun r => (a ++ r.1, r.2) := by
  induction a with
  | nil => simp
  | cons c a ih =>
    have hc : here (c :: (a ++ b)) = false := ha (c :: a) (cons_ne_nil c a) (suffix_refl _)
    have hrest := ih fun u hu hs => ha u hu (hs.trans (suffix_cons c a))
    rw [cons_append, breakAt, hc, hrest]
    cases breakAt here b <;> rfl

theorem breakAt_append {here : List Char → Bool} (hb : here b = true)
    (ha : ∀ u, u ≠ [] → u <:+ a → here (u ++ b) = false) : breakAt here (a ++ b) = some (a, b) := by
  rw [breakAt_skip ha]
  cases b <;> simp [breakAt, hb]

theorem contains_of_suffix (hs : b <:+ s) (hb : startsWith lead b = true) : contains lead s = true := by
  obtain ⟨a, rfl⟩ := hs
  unfold contains
  induction a with
  | nil => cases b <;> simp [breakAt, hb]
  | cons c a ih =>
    rw [cons_append, breakAt]
    split
    · rfl
    · rwa [Option.isSome_map]

theorem splitOnce_append {q : Char} (ha : q ∉ a) (b : List Char) :
    splitOnce [q] (a ++ q :: b) = some (a, b) := by
  have hbreak : breakAt (startsWith [q]) (a ++ q :: b) = some (a, q :: b) := by
    refine breakAt_append ?_ fun u hu hs => ?_
    · simp [startsWith, dropLead?]
    · cases u with
      | nil => exact absurd rfl hu
      | cons d u =>
        have hd : q ≠ d := fun he => ha (he ▸ hs.subset (.head _))
        simp [startsWith, dropLead?, hd]
  simp [splitOnce, hbreak]

theorem splitOnce_of_notMem {q : Char} (h : q ∉ s) : splitOnce [q] s = none := by
  have hbreak : breakAt (startsWith [q]) s = none := by
    induction s with
    | nil => rfl
    | cons c s ih =>
      obtain ⟨hc, hs⟩ := not_or.mp (fun he => h (mem_cons.mpr he))
      simp [breakAt, startsWith, dropLead?, hc, ih hs]
  simp [splitOnce, hbreak]

/-- A run of characters ends where the next text starts with another one. -/
theorem takeWhile_append_stop (ha : ∀ c ∈ a, f c = true) (hb : ∀ c ∈ b.head?, f c = false) :
    (a ++ b).takeWhile f = a := by
  rw [takeWhile_append_of_pos ha]
  cases b with
  | nil => simp
  | cons c b => simp [hb c rfl]

theorem dropWhile_append_stop (ha : ∀ c ∈ a, f c = true) (hb : ∀ c ∈ b.head?, f c = false) :
    (a ++ b).dropWhile f = b := by
  rw [dropWhile_append_of_pos ha]
  cases b with
  | nil => rfl
  | cons c b => simp [hb c rfl]

theorem exists_of_firstMatch {α : Type} {f : Option Char → List Char → Option α} {x : α}
    {before : Option Char} (h : firstMatch f before s = some x) : ∃ b t, f b t = some x := by
  induction s generalizing before with
  | nil => exact ⟨before, [], h⟩
  | cons c s ih =>
    rw [firstMatch] at h
    cases hf : f before (c :: s) with
    | some y =>
      rw [hf] at h
      exact ⟨before, c :: s, hf.trans h⟩
    | none =>
      rw [hf] at h
      exact ih h

/-! ### Trimming -/

theorem trim_blanks_append (ha : ∀ c ∈ a, isBlank c = true) (s : List Char) :
    trim (a ++ s) = trim s := by
  unfold trim trimStart
  rw [dropWhile_append_of_pos ha]

theorem trimEnd_append_blanks (hb : ∀ c ∈ b, isBlank c = true) (s : List Char) :
    trimEnd (s ++ b) = trimEnd s := by
  unfold trimEnd
  rw [reverse_append, dropWhile_append_of_pos fun c hc => hb c (mem_reverse.mp hc)]

theorem trim_append_blanks (hb : ∀ c ∈ b, isBlank c = true) (s : List Char) :
    trim (s ++ b) = trim s := by
  unfold trim trimStart
  rw [dropWhile_append]
  split
  next h =>
    have hnil := dropWhile_eq_nil_iff.mpr hb
    rw [isEmpty_iff.mp h, hnil]
  next => exact trimEnd_append_blanks hb _

theorem trimEnd_concat (hc : isBlank c = false) (s : List Char) : trimEnd (s ++ [c]) = s ++ [c] := by
  unfold trimEnd
  rw [reverse_append, reverse_singleton, singleton_append,
    dropWhile_cons_of_neg (by simp [hc]), reverse_cons, reverse_reverse]

/-- A text is the blanks that are trimmed in front, what is left and the blanks that are trimmed
behind. -/
theorem exists_takeWhile_trim (s : List Char) :
    ∃ b, (∀ c ∈ b, isBlank c = true) ∧ s = s.takeWhile isBlank ++ (trim s ++ b) := by
  refine ⟨((trimStart s).reverse.takeWhile isBlank).reverse, ?_, ?_⟩
  · exact fun c hc => all_eq_true.mp all_takeWhile c (mem_reverse.mp hc)
  · have hend : trim s ++ ((trimStart s).reverse.takeWhile isBlank).reverse = trimStart s := by
      unfold trim trimEnd
      rw [← reverse_append, takeWhile_append_dropWhile, reverse_reverse]
    rw [hend]
    exact takeWhile_append_dropWhile.symm

theorem exists_trim (s : List Char) :
    ∃ a b, (∀ c ∈ a, isBlank c = true) ∧ (∀ c ∈ b, isBlank c = true) ∧ s = a ++ (trim s ++ b) := by
  obtain ⟨b, hb, hs⟩ := exists_takeWhile_trim s
  exact ⟨s.takeWhile isBlank, b, all_eq_true.mp all_takeWhile, hb, hs⟩

theorem mem_of_mem_trim (h : c ∈ trim s) : c ∈ s := by
  obtain ⟨a, b, -, -, hs⟩ := exists_trim s
  rw [hs]
  exact mem_append_right a (mem_append_left b h)

theorem trim_trim (s : List Char) : trim (trim s) = trim s := by
  obtain ⟨a, b, ha, hb, hs⟩ := exists_trim s
  have htrim := congrArg trim hs
  rw [trim_blanks_append ha, trim_append_blanks hb] at htrim
  exact htrim.symm

/-- A text that neither starts nor ends with a blank. -/
structure Solid (s : List Char) : Prop where
  ne_nil : s ≠ []
  first : ∀ c ∈ s.head?, isBlank c = false
  last : ∀ c ∈ s.getLast?, isBlank c = false

theorem solid_of_forall (hne : s ≠ []) (h : ∀ c ∈ s, isBlank c = false) : Solid s :=
  ⟨hne, fun c hc => h c (mem_of_head? hc), fun c hc => h c (mem_of_getLast? hc)⟩

theorem Solid.append (ha : Solid a) (hb : Solid b) (s : List Char) : Solid (a ++ (s ++ b)) where
  ne_nil := append_ne_nil_of_left_ne_nil ha.ne_nil _
  first := by
    rw [head?_append_of_ne_nil _ ha.ne_nil]
    exact ha.first
  last := by
    rw [← append_assoc, getLast?_append_of_ne_nil _ hb.ne_nil]
    exact hb.last

theorem Solid.trim_eq (h : Solid s) (ha : ∀ c ∈ a, isBlank c = true) (hb : ∀ c ∈ b, isBlank c = true) :
    trim (a ++ (s ++ b)) = s := by
  have hstart : trimStart s = s := dropWhile_append_stop (a := []) nofun h.first
  rw [trim_blanks_append ha, trim_append_blanks hb, trim, hstart]
  obtain rfl | ⟨l, d, rfl⟩ := eq_nil_or_concat' s
  · rfl
  · exact trimEnd_concat (h.last d (by simp)) l

/-! ### Pieces -/

variable {sep : Char} {init rest : List (List Char)} {first last : List Char}

theorem splitOn_eq (sep : Char) (s : List Char) : splitOn sep s = List.splitOn sep s := by
  induction s with
  | nil => rfl
  | cons c s ih =>
    rw [splitOn, ih, splitOn_cons_eq_if_modifyHead]
    cases h : List.splitOn sep s with
    | nil => exact absurd h (splitOn_ne_nil sep s)
    | cons => rfl

theorem exists_splitOn_cons (sep : Char) (s : List Char) : ∃ first rest, splitOn sep s = first :: rest :=
  splitOn_eq sep s ▸ exists_cons_of_ne_nil (splitOn_ne_nil sep s)

theorem exists_splitOn_concat (sep : Char) (s : List Char) :
    ∃ init last, splitOn sep s = init ++ [last] := by
  obtain ⟨first, rest, h⟩ := exists_splitOn_cons sep s
  exact ⟨_, _, h.trans (dropLast_concat_getLast (cons_ne_nil first rest)).symm⟩

theorem splitOn_of_notMem (h : sep ∉ s) : splitOn sep s = [s] :=
  (splitOn_eq sep s).trans (splitOn_eq_singleton h)

theorem splitOn_append_of_notMem (ha : sep ∉ a) (hb : splitOn sep b = first :: rest) :
    splitOn sep (a ++ b) = (a ++ first) :: rest := by
  induction a with
  | nil => exact hb
  | cons c a ih =>
    obtain ⟨hc, ha⟩ := not_or.mp (mt mem_cons.mpr ha)
    simp [splitOn, ih ha, Ne.symm hc]

theorem splitOn_append (ha : splitOn sep a = init ++ [last]) (hb : splitOn sep b = first :: rest) :
    splitOn sep (a ++ b) = init ++ (last ++ first) :: rest := by
  by_cases hsep : sep ∈ a
  · -- the last piece is what stands behind the last separator
    obtain ⟨y, x, hx, hy⟩ := eq_append_cons_of_mem (mem_reverse.mpr hsep)
    obtain rfl : a = x.reverse ++ sep :: y.reverse := by simpa using congrArg reverse hx
    have hy : sep ∉ y.reverse := mt mem_reverse.mp hy
    rw [splitOn_eq, splitOn_append_cons_self, splitOn_eq_singleton hy] at ha
    obtain ⟨rfl, hlast⟩ := append_inj' ha rfl
    rw [splitOn_eq, append_assoc, cons_append, splitOn_append_cons_self, ← splitOn_eq sep (_ ++ b),
      splitOn_append_of_notMem hy hb, singleton_inj.mp hlast]
  · rw [splitOn_of_notMem hsep, ← nil_append [a]] at ha
    obtain ⟨rfl, hlast⟩ := append_inj' ha rfl
    rw [splitOn_append_of_notMem hsep hb, singleton_inj.mp hlast, nil_append]

theorem splitOn_joinWith {pieces : List (List Char)} (hne : pieces ≠ [])
    (h : ∀ p ∈ pieces, sep ∉ p) : splitOn sep (joinWith [sep] pieces) = pieces := by
  have hjoin (pieces : List (List Char)) : joinWith [sep] pieces = [sep].intercalate pieces := by
    fun_induction joinWith [sep] pieces with
    | case1 | case2 => simp
    | case3 s rest hrest ih => simp [ih, intercalate_cons_of_ne_nil hrest]
  rw [splitOn_eq, hjoin, splitOn_intercalate sep h hne]

theorem length_splitOn (sep : Char) (s : List Char) : (splitOn sep s).length = s.count sep + 1 := by
  induction s with
  | nil => rfl
  | cons c s ih =>
    rw [splitOn]
    split
    next hc => rw [length_cons, ih, eq_of_beq hc, count_cons_self]
    next hc =>
      rw [count_cons_of_ne (by simpa using hc), ← ih]
      obtain ⟨first, rest, h⟩ := exists_splitOn_cons sep s
      rw [h]
      rfl

/-- The first piece starts as the text does, unless that is with a separator. -/
theorem head?_eq_iff_of_splitOn (h : splitOn sep s = first :: rest) (hc : c ≠ sep) :
    first.head? = some c ↔ s.head? = some c := by
  cases s with
  | nil =>
    cases h
    rfl
  | cons d s =>
    rw [splitOn] at h
    split at h
    next hd =>
      cases h
      simp [eq_of_beq hd, hc.symm]
    next =>
      obtain ⟨first', rest', hs⟩ := exists_splitOn_cons sep s
      rw [hs] at h
      cases h
      rfl

theorem count_of_splitOn (h : splitOn sep s = init ++ [last]) : s.count sep = init.length := by
  have hlength := length_splitOn sep s
  rw [h, length_append, length_singleton] at hlength
  omega

/-- The pieces of a text that follows another: the first of them goes on where that one ended. -/
theorem getElem?_splitOn_append_right (ha : splitOn sep a = init ++ [last]) (s : List Char) (i : Nat) :
    (splitOn sep (a ++ s))[a.count sep + i]? =
      (splitOn sep s)[i]?.map ((if i = 0 then last else []) ++ ·) := by
  obtain ⟨first, rest, hs⟩ := exists_splitOn_cons sep s
  rw [splitOn_append ha hs, hs, count_of_splitOn ha, getElem?_append_right (Nat.le_add_right _ i),
    Nat.add_sub_cancel_left]
  cases i with
  | zero => rfl
  | succ i => simp

/-- The pieces of a text that another follows: the last of them goes on where that one starts. -/
theorem getElem?_splitOn_append_left (hb : splitOn sep b = first :: rest) {i : Nat}
    (hi : i ≤ s.count sep) : (splitOn sep (s ++ b))[i]? =
      (splitOn sep s)[i]?.map (· ++ if i = s.count sep then first else []) := by
  obtain ⟨init, last, hs⟩ := exists_splitOn_concat sep s
  rw [splitOn_append hs hb, hs]
  rw [count_of_splitOn hs] at hi ⊢
  rcases hi.lt_or_eq with hlt | rfl
  · rw [getElem?_append_left hlt, getElem?_append_left hlt, if_neg hlt.ne]
    simp
  · simp

theorem getElem?_splitOn_between (ha : splitOn sep a = init ++ [last])
    (hb : splitOn sep b = first :: rest) {i : Nat} {piece : List Char}
    (hi : (splitOn sep s)[i]? = some piece) : (splitOn sep (a ++ (s ++ b)))[a.count sep + i]? =
      some ((if i = 0 then last else []) ++ (piece ++ if i = s.count sep then first else [])) := by
  have hle : i ≤ s.count sep := by
    have hlt := (List.getElem?_eq_some_iff.mp hi).1
    rw [length_splitOn] at hlt
    omega
  rw [getElem?_splitOn_append_right ha, getElem?_splitOn_append_left hb hle, hi]
  rfl

end Componentry.Text
