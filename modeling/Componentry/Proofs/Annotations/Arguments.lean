import Componentry.Proofs.Annotations.Lexemes
import Componentry.Proofs.Source.Attributes
import Mathlib.Data.List.Forall2

/-!
# Arguments read back

A list of arguments as it is usually written: texts in quotes with their escapes, whole numbers,
`true`, `false` and `null`, with commas between them and blanks around them. Reading it takes two
passes, one that looks for commas outside quotes and one that undoes quotes and escapes, and gives
the values back.
-/

namespace Componentry.Annotations

open Text Source List

/-! ### Written arguments -/

/-- A text as it may be written between quotes: a backslash stands before the quote and before a
backslash, and a line feed or tab may be a letter after a backslash. -/
inductive Escaped (q : Char) : List Char → List Char → Prop
  | nil : Escaped q [] []
  | plain {c : Char} {s t : List Char} (hslash : c ≠ '\\') (hq : c ≠ q) (h : Escaped q s t) :
    Escaped q (c :: s) (c :: t)
  | escape {c : Char} {s t : List Char} (hc : c = '\\' ∨ c = q) (h : Escaped q s t) :
    Escaped q (c :: s) ('\\' :: c :: t)
  | lineFeed {s t : List Char} (h : Escaped q s t) : Escaped q ('\n' :: s) ('\\' :: 'n' :: t)
  | tab {s t : List Char} (h : Escaped q s t) : Escaped q ('\t' :: s) ('\\' :: 't' :: t)

/-- A value as it may be written among arguments. -/
inductive Written : Json → List Char → Prop
  | string {q : Char} (hq : isQuote q = true) {s : String} {t : List Char}
    (h : Escaped q s.toList t) : Written (.string s) (q :: (t ++ [q]))
  | int (n : Int64) : Written (.int n.toInt) n.toInt.repr.toList
  | true_ : Written (.bool true) "true".toList
  | false_ : Written (.bool false) "false".toList
  | null : Written .null "null".toList

/-- A value as it may be written, with blanks around it. -/
def Spaced (v : Json) (p : List Char) : Prop :=
  ∃ (before after : Blanks) (w : List Char), Written v w ∧ p = before.1 ++ (w ++ after.1)

/-! ### Telling the pieces apart -/

/-- The characters that mean something where arguments are told apart. -/
def special : List Char := [',', '"', '\x27', '\x60', '(', '[', '\x7b', ')', ']', '\x7d']

variable {p s t w : List Char} {c q : Char} {v : Json}

theorem pieces_plain (h : ∀ c ∈ s, c ∉ special) (acc rest : List Char) :
    pieces none 0 acc (s ++ rest) = pieces none 0 (s.reverse ++ acc) rest := by
  induction s generalizing acc with
  | nil => rfl
  | cons c s ih =>
    obtain ⟨hc, hs⟩ := forall_mem_cons.mp h
    simp only [special, mem_cons, not_or] at hc
    rw [cons_append, pieces]
    simp [isQuote, isOpening, hc, ih hs]

theorem Escaped.pieces_append (hq : isQuote q = true) (h : Escaped q s t) (acc rest : List Char) :
    pieces (some q) 0 acc (t ++ q :: rest) = pieces none 0 (q :: (t.reverse ++ acc)) rest := by
  have hpass {c : Char} (hc : c ≠ '\\') (acc cs : List Char) : pieces (some q) 0 acc (c :: cs) =
      pieces (if c == q then none else some q) 0 (c :: acc) cs :=
    pieces.eq_4 _ _ _ _ _ fun _ _ he => absurd he hc
  induction h generalizing acc with
  | nil =>
    rw [nil_append, hpass (ne_of_isQuote hq rfl), beq_self_eq_true]
    rfl
  | plain hc hcq h ih =>
    rw [cons_append, hpass hc, if_neg (by simpa using hcq), ih]
    simp
  | escape hc h ih | lineFeed h ih | tab h ih =>
    rw [cons_append, cons_append, pieces, ih]
    simp

theorem Escaped.unescape_eq (hq : isQuote q = true) (h : Escaped q s t) : unescape t = s := by
  induction h with
  | nil => rfl
  | plain hc hcq h ih =>
    rw [unescape.eq_4 _ _ (fun he => absurd he hc) (fun _ _ he => absurd he hc), ih]
  | escape hc h ih =>
    rcases hc with rfl | rfl
    · rw [unescape, ih]
      rfl
    · rw [unescape, ih]
      simp [ne_of_isQuote (d := 'n') hq rfl, ne_of_isQuote (d := 't') hq rfl]
  | lineFeed h ih | tab h ih =>
    rw [unescape, ih]
    rfl

/-! ### Whole numbers -/

theorem repr_cases (n : Int) : 0 ≤ n ∧ n.repr.toList = Nat.toDigits 10 n.natAbs ∨
    n < 0 ∧ n.repr.toList = '-' :: Nat.toDigits 10 n.natAbs := by
  cases n with
  | ofNat k => exact .inl ⟨Int.natCast_nonneg k, Nat.toList_repr⟩
  | negSucc k =>
    refine .inr ⟨Int.negSucc_lt_zero k, ?_⟩
    change ("-" ++ (k + 1).repr).toList = _
    rw [String.toList_append, Nat.toList_repr]
    rfl

theorem isDigit_of_mem_toDigits {n : Nat} (h : c ∈ Nat.toDigits 10 n) : c.isDigit = true :=
  Nat.isDigit_of_mem_toDigits (by omega) (by omega) h

theorem notMem_repr {n : Int} (hdigit : c.isDigit = false) (hminus : c ≠ '-') :
    c ∉ n.repr.toList := by
  have hnot : c ∉ Nat.toDigits 10 n.natAbs := fun h => by simp [isDigit_of_mem_toDigits h] at hdigit
  rcases repr_cases n with ⟨-, heq⟩ | ⟨-, heq⟩ <;> simp [heq, hnot, hminus]

theorem digitsValue_toDigits (n : Nat) : digitsValue (Nat.toDigits 10 n) = n := by
  have heq (cs : List Char) : digitsValue cs = Nat.ofDigitChars 10 cs 0 := by
    unfold digitsValue Nat.ofDigitChars
    simp only [Nat.mul_comm]
    rfl
  rw [heq, Nat.ofDigitChars_ten_toDigits]

theorem whole?_repr (n : Int64) : whole? n.toInt.repr.toList = some n.toInt := by
  have hrange : (Int64.minValue.toInt ≤ n.toInt && n.toInt ≤ Int64.maxValue.toInt) = true := by
    simpa using ⟨n.minValue_le_toInt, n.toInt_le⟩
  have hdigits : ((Nat.toDigits 10 n.toInt.natAbs).isEmpty ||
      !(Nat.toDigits 10 n.toInt.natAbs).all Char.isDigit) = false := by
    have hall := all_eq_true.mpr fun c => isDigit_of_mem_toDigits (n := n.toInt.natAbs)
    simp [hall]
  rcases repr_cases n.toInt with ⟨hsign, heq⟩ | ⟨hsign, heq⟩
  · have hplain : sign (Nat.toDigits 10 n.toInt.natAbs) =
        (false, Nat.toDigits 10 n.toInt.natAbs) := by
      cases hd : Nat.toDigits 10 n.toInt.natAbs with
      | nil => rfl
      | cons d ds =>
        have hdigit : d.isDigit = true := isDigit_of_mem_toDigits (hd ▸ mem_cons_self)
        rw [sign.eq_3]
        all_goals
          rintro cs ⟨rfl, -⟩
          exact absurd hdigit (by decide)
    rw [heq, whole?, hplain]
    simp only [hdigits, digitsValue_toDigits, Int.natAbs_of_nonneg hsign, Bool.false_eq_true,
      if_false, hrange]
    rfl
  · have hvalue : -(n.toInt.natAbs : Int) = n.toInt := by omega
    rw [heq, whole?, sign]
    simp only [hdigits, digitsValue_toDigits, if_true, hvalue, hrange]
    rfl

/-! ### Values -/

theorem Written.value_eq (h : Written v w) : value w = v := by
  cases h with
  | string hq h => simp [value, unquoted?, hq, h.unescape_eq hq]
  | int n =>
    have hword (text : String) {c : Char} (hc : c ∈ text.toList) (hdigit : c.isDigit = false)
        (hminus : c ≠ '-') : (String.ofList n.toInt.repr.toList == text) = false := by
      rw [beq_eq_false_iff_ne]
      rintro rfl
      exact notMem_repr hdigit hminus (by simpa using hc)
    have hopen : unquoted? n.toInt.repr.toList = none := by
      unfold unquoted?
      split
      next c rest heq =>
        have hc : isQuote c = false := by
          refine Bool.eq_false_iff.mpr fun hq => ?_
          simp only [isQuote, Bool.or_eq_true, beq_iff_eq] at hq
          have hmem := heq ▸ mem_cons_self
          rcases hq with (rfl | rfl) | rfl <;> exact notMem_repr rfl (by decide) hmem
        rw [hc]
        rfl
      next => rfl
    rw [value, hopen]
    simp only [hword "true" (c := 't') (by decide) rfl (by decide),
      hword "false" (c := 'f') (by decide) rfl (by decide),
      hword "null" (c := 'n') (by decide) rfl (by decide), whole?_repr]
    rfl
  | true_ | false_ | null => rfl

theorem Written.solid (h : Written v w) : Solid w := by
  cases h with
  | @string q hq s t h =>
    have hquote : Solid [q] := by
      simp only [isQuote, Bool.or_eq_true, beq_iff_eq] at hq
      rcases hq with (rfl | rfl) | rfl <;> exact solid_of_forall (by simp) (by simp [isBlank])
    exact hquote.append hquote t
  | int n =>
    refine solid_of_forall ?_ fun c hc => Bool.eq_false_iff.mpr fun hb => ?_
    · rcases repr_cases n.toInt with ⟨-, heq⟩ | ⟨-, heq⟩ <;> simp [heq, Nat.toDigits_ne_nil]
    · exact notMem_repr (isBlank_plain hb).2.2 (ne_of_isBlank hb rfl) hc
  | true_ | false_ | null => exact solid_of_forall (by simp) (by simp [isBlank])

theorem Written.pieces_append (h : Written v w) (acc rest : List Char) :
    pieces none 0 acc (w ++ rest) = pieces none 0 (w.reverse ++ acc) rest := by
  cases h with
  | @string q hq s t h =>
    have hcomma : q ≠ ',' := ne_of_isQuote hq rfl
    rw [cons_append, pieces, if_neg (by simp [hcomma]), if_pos hq, append_assoc,
      singleton_append, h.pieces_append hq]
    simp
  | int n =>
    have hspecial : ∀ c ∈ special, c.isDigit = false ∧ c ≠ '-' := by simp [special]
    exact pieces_plain (fun c hc hs => notMem_repr (hspecial c hs).1 (hspecial c hs).2 hc) acc rest
  | true_ | false_ | null => exact pieces_plain (by simp [special]) acc rest

theorem Spaced.pieces_append (h : Spaced v p) (acc rest : List Char) :
    pieces none 0 acc (p ++ rest) = pieces none 0 (p.reverse ++ acc) rest := by
  obtain ⟨before, after, w, hw, rfl⟩ := h
  have hspecial : ∀ c ∈ special, isBlank c = false := by simp [special, isBlank]
  have hplain (b : Blanks) : ∀ c ∈ b.1, c ∉ special := fun c hc hs => by
    simpa [b.2 c hc] using hspecial c hs
  rw [append_assoc, pieces_plain (hplain before), append_assoc, hw.pieces_append,
    pieces_plain (hplain after)]
  simp

theorem Spaced.trim_eq (h : Spaced v p) : Written v (trim p) := by
  obtain ⟨before, after, w, hw, rfl⟩ := h
  rwa [hw.solid.trim_eq before.2 after.2]

theorem pieces_joinWith {values : List Json} {ps : List (List Char)}
    (h : Forall₂ Spaced values ps) : pieces none 0 [] (joinWith [','] ps) = .ok ps := by
  induction h with
  | nil => rfl
  | @cons v p values ps hp h ih =>
    cases h with
    | nil =>
      have hfilled : ¬allBlank p.reverse = true := by
        intro hblank
        refine hp.trim_eq.solid.ne_nil ?_
        have hnil := trim_blanks_append (by simpa [allBlank] using hblank) []
        rwa [append_nil] at hnil
      have happend := hp.pieces_append [] []
      simp only [append_nil] at happend
      rw [joinWith, happend, pieces, if_neg hfilled, reverse_reverse]
    | cons hp' h' =>
      rw [joinWith, append_assoc, hp.pieces_append, singleton_append, pieces,
        ih, append_nil, reverse_reverse]
      · rfl
      · exact cons_ne_nil _ _

/-- Arguments are read back: a list of texts, whole numbers of 64 bits, truth values and nulls,
written with any of the quotes, any choice of escapes and any blanks around commas. -/
theorem arguments_written {values : List Json} {ps : List (List Char)}
    (h : Forall₂ Spaced values ps) :
    arguments (String.ofList (joinWith [','] ps)) = .ok values := by
  have hvalues : ps.map (fun p => value (trim p)) = values := by
    induction h with
    | nil => rfl
    | cons hp h ih => rw [map_cons, ih, hp.trim_eq.value_eq]
  rw [arguments, String.toList_ofList, pieces_joinWith h]
  exact congrArg Except.ok hvalues

theorem arguments_written_mixed :
    arguments " 'a,\\'\\\\)\\n' ,\t-7,null , true" =
      .ok [.string "a,'\\)\n", .int (-7), .null, .bool true] := by
  have htext : Escaped '\x27' "a,'\\)\n".toList "a,\\'\\\\)\\n".toList :=
    .plain (by decide) (by decide) (.plain (by decide) (by decide) (.escape (.inr rfl)
      (.escape (.inl rfl) (.plain (by decide) (by decide) (.lineFeed .nil)))))
  have hspaced {v : Json} {w : List Char} (before after : List Char)
      (hblank : (before ++ after).all isBlank = true) (h : Written v w) :
      Spaced v (before ++ (w ++ after)) := by
    have hall := all_eq_true.mp hblank
    exact ⟨⟨before, fun c hc => hall c (mem_append_left _ hc)⟩,
      ⟨after, fun c hc => hall c (mem_append_right _ hc)⟩, w, h, rfl⟩
  exact arguments_written (.cons (hspaced [' '] [' '] rfl (.string rfl htext))
    (.cons (hspaced ['\t'] [] rfl (.int (-7))) (.cons (hspaced [] [' '] rfl .null)
      (.cons (hspaced [' '] [] rfl .true_) .nil))))

end Componentry.Annotations
