import Componentry.Json.Read
import Componentry.Proofs.Text.Scan
import Mathlib.Data.List.DropRight

/-!
# JSON read back

The compact text of a value is read as that value. Strings and natural numbers of 64 bits always come
back; a value also has to respect the bound on nesting, and its other numbers have to come back one by
one, since a fraction is rounded twice when it is read.
-/

namespace Componentry.Json

open List

/-! ### Strings -/

variable {c : Char} {depth fuel n : Nat} {rest t : List Char} {xs : List Json}
  {ms : List (String × Json)} {j : Json}

theorem unicodeEscape_control (h : c.toNat < 0x20) (rest : List Char) :
    unicodeEscape ('0' :: '0' :: Text.hexDigit (c.toNat / 16) :: Text.hexDigit (c.toNat % 16) :: rest) =
      some (c, rest) := by
  have hzero : Text.hexValue? '0' = some 0 := rfl
  have hhigh := Text.hexValue?_hexDigit (show c.toNat / 16 < 16 by omega)
  have hlow := Text.hexValue?_hexDigit (show c.toNat % 16 < 16 by omega)
  have hvalue : (((0 * 16 + 0) * 16 + 0) * 16 + c.toNat / 16) * 16 + c.toNat % 16 = c.toNat := by omega
  have hfour : Text.hexDigits? 4 0 ('0' :: '0' :: Text.hexDigit (c.toNat / 16) ::
      Text.hexDigit (c.toNat % 16) :: rest) = some (c.toNat, rest) := by
    simp only [Text.hexDigits?, hzero, hhigh, hlow, Option.bind_eq_bind, Option.bind_some, hvalue]
  have hlow : (0xDC00 ≤ c.toNat && c.toNat ≤ 0xDFFF) = false := by simp; omega
  have hhigh : (0xD800 ≤ c.toNat && c.toNat ≤ 0xDBFF) = false := by simp; omega
  simp only [unicodeEscape, hfour, Option.bind_eq_bind, Option.bind_some, hlow, hhigh,
    Char.ofNat_toNat]
  rfl

theorem stringTail_escapeChar (fuel : Nat) (acc : List Char) (c : Char) (rest : List Char) :
    stringTail (fuel + 1) acc (escapeChar c ++ rest) = stringTail fuel (c :: acc) rest := by
  rw [escapeChar]
  split
  · next h => rw [eq_of_beq h]; rfl
  split
  · next h => rw [eq_of_beq h]; rfl
  split
  · next hquote hslash hplain =>
    have hvisible : ¬ c.toNat < 0x20 := by omega
    exact (if_neg hquote).trans ((if_neg hslash).trans (if_neg hvisible))
  split
  · next h => rw [eq_of_beq h]; rfl
  split
  · next h => rw [eq_of_beq h]; rfl
  split
  · next h => rw [eq_of_beq h]; rfl
  split
  · next h =>
    have hc : Char.ofNat 8 = c := by rw [← eq_of_beq h, Char.ofNat_toNat]
    rw [← hc]; rfl
  split
  · next h =>
    have hc : Char.ofNat 12 = c := by rw [← eq_of_beq h, Char.ofNat_toNat]
    rw [← hc]; rfl
  · have hread := unicodeEscape_control (show c.toNat < 0x20 by omega) rest
    exact congrArg (Option.bind · fun r => stringTail fuel (r.1 :: acc) r.2) hread

theorem stringTail_escaped (s acc rest : List Char) (h : s.length < fuel) :
    stringTail fuel acc (s.flatMap escapeChar ++ '"' :: rest) =
      some (String.ofList (acc.reverse ++ s), rest) := by
  induction s generalizing fuel acc with
  | nil =>
    obtain ⟨fuel, rfl⟩ := Nat.exists_eq_add_of_lt h
    rw [append_nil]
    rfl
  | cons c s ih =>
    obtain _ | fuel := fuel
    · omega
    have hs : s.length < fuel := by
      rw [length_cons] at h
      omega
    rw [flatMap_cons, append_assoc, stringTail_escapeChar, ih (c :: acc) hs]
    simp

theorem length_le_escaped (s : List Char) : s.length ≤ (s.flatMap escapeChar).length := by
  have hchar : ∀ c, 1 ≤ (escapeChar c).length := by
    intro c
    rw [escapeChar]
    repeat' split
    all_goals simp
  induction s with
  | nil => exact Nat.le_refl 0
  | cons c s ih =>
    have hc := hchar c
    rw [flatMap_cons, length_append, length_cons]
    omega

theorem stringAt_quote (s : String) (rest : List Char) :
    stringAt ((quote s).toList ++ rest) = some (s, rest) := by
  have hs := length_le_escaped s.toList
  have hquote : (quote s).toList ++ rest = '"' :: (s.toList.flatMap escapeChar ++ '"' :: rest) := by
    simp [quote]
  rw [hquote, stringAt, stringTail_escaped, reverse_nil, nil_append, String.ofList_toList]
  rw [length_append]
  omega

theorem skipSpace_quote (s : String) (rest : List Char) :
    skipSpace ((quote s).toList ++ rest) = (quote s).toList ++ rest := by
  rw [quote, String.toList_ofList]
  rfl

/-! ### Numbers -/

/-- What stands after a value in a compact text: nothing, a comma or a closing bracket. -/
def Ends (rest : List Char) : Prop := ∀ c ∈ rest.head?, c = ',' ∨ c = ']' ∨ c = '\x7d'

/-- A number that is read back from its text, whatever follows it. -/
def Number.ReadsBack (n : Number) : Prop :=
  ∀ fuel depth rest, Ends rest →
    valueAt (fuel + 1) depth (n.text.toList ++ rest) = some (.number n, rest)

theorem takeDigits_append {digits : List Char} (hdigits : ∀ c ∈ digits, c.isDigit = true)
    (hrest : Ends rest) {acc : Nat} (n : Nat)
    (hfit : Nat.ofDigitChars 10 digits acc ≤ maxSignificand) : takeDigits acc n (digits ++ rest) =
      (Nat.ofDigitChars 10 digits acc, n + digits.length, rest, false) := by
  induction digits generalizing acc n with
  | nil =>
    cases rest with
    | nil => rfl
    | cons c rest =>
      have hc : c.isDigit = false := by
        rcases hrest c rfl with rfl | rfl | rfl <;> rfl
      simp [takeDigits, hc]
  | cons c digits ih =>
    obtain ⟨hc, hdigits⟩ := forall_mem_cons.mp hdigits
    have hstep : 10 * acc + (c.toNat - '0'.toNat) = acc * 10 + (c.toNat - 48) := by
      rw [Nat.mul_comm]
      rfl
    rw [Nat.ofDigitChars_cons, hstep] at hfit ⊢
    have hnext : ¬ acc * 10 + (c.toNat - 48) > maxSignificand := by
      have hgrow := @Nat.ofDigitChars_eq_ofDigitChars_zero digits (acc * 10 + (c.toNat - 48))
      have hpow : 0 < 10 ^ digits.length := Nat.pow_pos (by omega)
      have hmul := Nat.le_mul_of_pos_left (acc * 10 + (c.toNat - 48)) hpow
      omega
    rw [cons_append, takeDigits, if_pos hc, if_neg hnext, ih hdigits (n + 1) hfit, length_cons]
    congr 2
    omega

theorem toDigits_head (h : 0 < n) : ∃ d ds, Nat.toDigits 10 n = d :: ds ∧ d ≠ '0' := by
  induction n using Nat.strongRecOn with
  | ind n ih =>
    by_cases hlt : n < 10
    · refine ⟨n.digitChar, [], Nat.toDigits_of_lt_base hlt, ?_⟩
      have hall : ∀ n < 10, 0 < n → n.digitChar ≠ '0' := by decide
      exact hall n hlt h
    · obtain ⟨d, ds, hd, hne⟩ := ih (n / 10) (by omega) (by omega)
      rw [Nat.toDigits_of_base_le (by omega) (by omega), hd]
      exact ⟨d, _, rfl, hne⟩

theorem numberTail_ends (hrest : Ends rest) (significand : Nat) :
    numberTail false significand 0 false rest = some (.whole significand, rest) := by
  cases rest with
  | nil => rfl
  | cons c rest =>
    rcases hrest c rfl with rfl | rfl | rfl <;> rfl

theorem unsignedNumber_toDigits (h : n < UInt64.size) (hrest : Ends rest) :
    unsignedNumber false (Nat.toDigits 10 n ++ rest) = some (.whole n, rest) := by
  rcases Nat.eq_zero_or_pos n with rfl | hpos
  · have htail := numberTail_ends hrest 0
    cases rest with
    | nil => exact htail
    | cons c rest =>
      have hc : c.isDigit = false := by
        rcases hrest c rfl with rfl | rfl | rfl <;> rfl
      change (if c.isDigit = true then none else numberTail false 0 0 false (c :: rest)) = _
      rw [hc, if_neg Bool.false_ne_true, htail]
  · obtain ⟨d, ds, hd, hne⟩ := toDigits_head hpos
    have hdigits : ∀ c ∈ Nat.toDigits 10 n, c.isDigit = true := fun c hc =>
      Nat.isDigit_of_mem_toDigits (by omega) (by omega) hc
    have hvalue : Nat.ofDigitChars 10 (Nat.toDigits 10 n) 0 = n := Nat.ofDigitChars_ten_toDigits
    have hfit : Nat.ofDigitChars 10 (Nat.toDigits 10 n) 0 ≤ maxSignificand := by
      rw [maxSignificand]
      omega
    have htake := takeDigits_append hdigits hrest 0 hfit
    rw [hvalue] at htake
    have hfirst : d.isDigit = true := hdigits d (hd ▸ (.head _))
    rw [hd] at htake ⊢
    unfold unsignedNumber
    split
    · next heq => exact absurd (cons.inj heq).1 hne
    · next heq =>
      cases heq
      rw [if_pos hfirst, htake]
      exact numberTail_ends hrest n
    · next heq => cases heq

/-! ### Values -/

theorem skipSpace_cons (h : isSpace c = false) (t : List Char) : skipSpace (c :: t) = c :: t := by
  rw [skipSpace, dropWhile_cons_of_neg (by simp [h])]

theorem skipSpace_skipSpace (s : List Char) : skipSpace (skipSpace s) = skipSpace s :=
  dropWhile_idempotent ..

theorem valueAt_digit {d : Char} (hd : d.isDigit = true) (fuel depth : Nat) (t : List Char) :
    valueAt (fuel + 1) depth (d :: t) =
      (unsignedNumber false (d :: t)).map fun r => (.number r.1, r.2) := by
  have hspace : isSpace d = false := by
    cases hspace : isSpace d with
    | false => rfl
    | true =>
      simp only [isSpace, Bool.or_eq_true, beq_iff_eq] at hspace
      rcases hspace with ((rfl | rfl) | rfl) | rfl <;> exact absurd hd (by decide)
  rw [valueAt, skipSpace_cons hspace]
  split
  case h_8 => rfl
  all_goals
    next heq =>
      rw [(cons.inj heq).1] at hd
      exact absurd hd (by decide)

theorem readsBack_whole (h : n < UInt64.size) : (Number.whole n).ReadsBack := by
  intro fuel depth rest hrest
  have htext : (Number.whole n).text.toList = Nat.toDigits 10 n := Nat.toList_repr
  have hread := unsignedNumber_toDigits h hrest
  rw [htext]
  cases hdigits : Nat.toDigits 10 n with
  | nil => exact absurd hdigits Nat.toDigits_ne_nil
  | cons d ds =>
    have hd : d.isDigit = true :=
      Nat.isDigit_of_mem_toDigits (by omega) (by omega) (hdigits ▸ mem_cons_self)
    rw [hdigits] at hread
    rw [cons_append, valueAt_digit hd, ← cons_append, hread]
    rfl

/-- A value that is read back from its compact text: its numbers are, and it is nested less deep than
a depth. -/
inductive ReadsBack : Nat → Json → Prop
  | null {depth : Nat} : ReadsBack depth .null
  | bool {depth : Nat} (b : Bool) : ReadsBack depth (.bool b)
  | number {depth : Nat} {n : Number} (h : n.ReadsBack) : ReadsBack depth (.number n)
  | string {depth : Nat} (s : String) : ReadsBack depth (.string s)
  | array {depth : Nat} {xs : List Json} (hdepth : 0 < depth) (h : ∀ x ∈ xs, ReadsBack depth x) :
    ReadsBack (depth + 1) (.array xs)
  | object {depth : Nat} {ms : List (String × Json)} (hdepth : 0 < depth)
    (h : ∀ m ∈ ms, ReadsBack depth m.2) : ReadsBack (depth + 1) (.object ms)

/-- The compact text of a value is read as that value, given two units of fuel for each character. -/
def ReadAt (depth : Nat) (j : Json) : Prop :=
  ∀ fuel rest, Ends rest → 2 * j.compact.toList.length ≤ fuel →
    valueAt (fuel + 1) depth (j.compact.toList ++ rest) = some (j, rest)

theorem valueAt_skipSpace (fuel depth : Nat) (s : List Char) :
    valueAt fuel depth (skipSpace s) = valueAt fuel depth s := by
  cases fuel with
  | zero => rw [valueAt, valueAt]
  | succ fuel => rw [valueAt, valueAt, skipSpace_skipSpace]

theorem itemsAt_skipSpace (fuel depth : Nat) (s : List Char) :
    itemsAt fuel depth (skipSpace s) = itemsAt fuel depth s := by
  cases fuel with
  | zero => rw [itemsAt, itemsAt]
  | succ fuel => rw [itemsAt, itemsAt, valueAt_skipSpace]

theorem membersAt_skipSpace (fuel depth : Nat) (s : List Char) :
    membersAt fuel depth (skipSpace s) = membersAt fuel depth s := by
  cases fuel with
  | zero => rw [membersAt, membersAt]
  | succ fuel => rw [membersAt, membersAt, skipSpace_skipSpace]

theorem valueAt_array (hdepth : 0 < depth) (h : itemsAt fuel depth t = some (xs, rest)) :
    valueAt (fuel + 1) (depth + 1) ('[' :: t) = some (.array xs, rest) := by
  rw [← itemsAt_skipSpace] at h
  rw [valueAt, skipSpace_cons (by decide)]
  simp only [show ¬ depth + 1 ≤ 1 by omega, if_false, Nat.add_sub_cancel]
  split
  · next hclose =>
    -- no item starts with a closing bracket
    cases fuel with
    | zero => simp [itemsAt] at h
    | succ fuel =>
      cases fuel with
      | zero => simp [itemsAt, valueAt] at h
      | succ fuel =>
        rw [hclose] at h
        cases h
  · rw [h]
    rfl

theorem valueAt_object (hdepth : 0 < depth) (h : membersAt fuel depth t = some (ms, rest)) :
    valueAt (fuel + 1) (depth + 1) ('\x7b' :: t) = some (.object ms, rest) := by
  rw [← membersAt_skipSpace] at h
  rw [valueAt, skipSpace_cons (by decide)]
  simp only [show ¬ depth + 1 ≤ 1 by omega, if_false, Nat.add_sub_cancel]
  split
  · next hclose =>
    cases fuel with
    | zero => simp [membersAt] at h
    | succ fuel =>
      rw [hclose] at h
      cases h
  · rw [h]
    rfl

theorem itemsAt_items {x : Json} (h : ∀ y ∈ x :: xs, ReadAt depth y) (rest : List Char)
    (hfuel : 2 * (compact.items (x :: xs)).toList.length ≤ fuel) :
    itemsAt (fuel + 2) depth ((compact.items (x :: xs)).toList ++ ']' :: rest) =
      some (x :: xs, rest) := by
  induction xs generalizing x fuel with
  | nil =>
    rw [compact.items] at hfuel ⊢
    rw [itemsAt, h x (.head _) fuel (']' :: rest) (by simp [Ends]) hfuel]
    rfl
  | cons y ys ih =>
    obtain ⟨hx, hys⟩ := forall_mem_cons.mp h
    have htext : (compact.items (x :: y :: ys)).toList =
        x.compact.toList ++ ',' :: (compact.items (y :: ys)).toList := by
      rw [compact.items]
      simp
    rw [htext] at hfuel ⊢
    rw [length_append, length_cons] at hfuel
    have hx := hx fuel (',' :: ((compact.items (y :: ys)).toList ++ ']' :: rest)) (by simp [Ends])
      (by omega)
    obtain _ | fuel := fuel
    · omega
    rw [append_assoc, cons_append, itemsAt, hx, Option.bind_some, skipSpace_cons (by decide)]
    simp only [ih hys (show 2 * (compact.items (y :: ys)).toList.length ≤ fuel by omega)]
    rfl

theorem membersAt_members {m : String × Json} (h : ∀ n ∈ m :: ms, ReadAt depth n.2)
    (rest : List Char) (hfuel : 2 * (compact.members (m :: ms)).toList.length ≤ fuel) :
    membersAt (fuel + 2) depth ((compact.members (m :: ms)).toList ++ '\x7d' :: rest) =
      some (m :: ms, rest) := by
  induction ms generalizing m fuel with
  | nil =>
    have htext : (compact.members [m]).toList = (quote m.1).toList ++ ':' :: m.2.compact.toList := by
      rw [compact.members]
      simp
    rw [htext] at hfuel ⊢
    rw [length_append, length_cons] at hfuel
    have hm := h m (.head _) fuel ('\x7d' :: rest) (by simp [Ends]) (by omega)
    rw [append_assoc, cons_append, membersAt, skipSpace_quote, stringAt_quote,
      Option.bind_some, skipSpace_cons (by decide)]
    simp [hm, skipSpace_cons (show isSpace '\x7d' = false by decide)]
  | cons n ns ih =>
    obtain ⟨hm, hns⟩ := forall_mem_cons.mp h
    have htext : (compact.members (m :: n :: ns)).toList = (quote m.1).toList ++
        ':' :: (m.2.compact.toList ++ ',' :: (compact.members (n :: ns)).toList) := by
      rw [compact.members]
      simp
    rw [htext] at hfuel ⊢
    simp only [length_append, length_cons] at hfuel
    have hm := hm fuel (',' :: ((compact.members (n :: ns)).toList ++ '\x7d' :: rest)) (by simp [Ends])
      (by omega)
    obtain _ | fuel := fuel
    · omega
    simp only [append_assoc, cons_append]
    rw [membersAt, skipSpace_quote, stringAt_quote, Option.bind_some, skipSpace_cons (by decide)]
    simp only [hm, Option.bind_some, skipSpace_cons (show isSpace ',' = false by decide),
      ih hns (show 2 * (compact.members (n :: ns)).toList.length ≤ fuel by omega)]
    rfl

theorem ReadsBack.readAt (h : ReadsBack depth j) : ReadAt depth j := by
  intro fuel rest hrest hfuel
  induction h generalizing fuel rest with
  | null => rfl
  | bool b => cases b <;> rfl
  | number h => exact h _ _ rest hrest
  | string s =>
    have hread := stringAt_quote s rest
    rw [compact, valueAt, skipSpace_quote]
    rw [quote, String.toList_ofList] at hread ⊢
    simp only [cons_append] at hread ⊢
    rw [hread]
    rfl
  | @array depth xs hdepth _ ih =>
    have htext : (Json.array xs).compact.toList = '[' :: ((compact.items xs).toList ++ [']']) := by
      rw [compact]
      simp
    rw [htext] at hfuel ⊢
    simp only [length_cons, length_append] at hfuel
    obtain ⟨fuel, rfl⟩ := Nat.exists_eq_add_of_le' (show 2 ≤ fuel by omega)
    rw [cons_append, append_assoc]
    cases xs with
    | nil =>
      rw [valueAt]
      simp only [show ¬ depth + 1 ≤ 1 by omega]
      rfl
    | cons x xs => exact valueAt_array hdepth (itemsAt_items ih rest (by omega))
  | @object depth ms hdepth _ ih =>
    have htext : (Json.object ms).compact.toList =
        '\x7b' :: ((compact.members ms).toList ++ ['\x7d']) := by
      rw [compact]
      simp
    rw [htext] at hfuel ⊢
    simp only [length_cons, length_append] at hfuel
    obtain ⟨fuel, rfl⟩ := Nat.exists_eq_add_of_le' (show 2 ≤ fuel by omega)
    rw [cons_append, append_assoc]
    cases ms with
    | nil =>
      rw [valueAt]
      simp only [show ¬ depth + 1 ≤ 1 by omega]
      rfl
    | cons m ms => exact valueAt_object hdepth (membersAt_members ih rest (by omega))

theorem read?_compact (h : ReadsBack nestingLimit j) : read? j.compact = some j := by
  have hread := h.readAt (2 * j.compact.toList.length + 1) [] nofun (by omega)
  rw [append_nil] at hread
  rw [read?]
  simp only [hread]
  rfl

end Componentry.Json
