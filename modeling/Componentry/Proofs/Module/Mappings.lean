import Componentry.Module.Basic
import Componentry.Proofs.Text.Scan
import Mathlib.Tactic.Ring

/-!
# Reading line maps back

The text form of a line map is read here the way any reader of version 3 of the format does: lines
end with a semicolon, segments with a comma, and a segment holds one, four or five numbers in base
64, each the difference to the number of its kind that was read last. The column of the code starts
anew on each line; everything else runs on.

What is read from the text of a map with increasing lines is one mapping for each of its pairs, and
nothing else.
-/

namespace Componentry.LineMap

open Text
open List hiding splitOn

/-! ### Numbers -/

/-- What a digit of base 64 stands for. -/
def value? (c : Char) : Option Nat :=
  if 'A' ≤ c ∧ c ≤ 'Z' then some (c.toNat - 65)
  else if 'a' ≤ c ∧ c ≤ 'z' then some (c.toNat - 71)
  else if '0' ≤ c ∧ c ≤ '9' then some (c.toNat + 4)
  else if c = '+' then some 62
  else if c = '/' then some 63
  else none

/-- The numbers in a text, after `low` was read of the first one and its next group of bits counts
`weight`. A text that ends within a number has none. -/
def naturals? : Nat → Nat → List Char → Option (List Nat)
  | _, weight, [] => if weight = 1 then some [] else none
  | low, weight, c :: cs => do
    let v ← value? c
    if v < 32 then
      return (low + v * weight) :: (← naturals? 0 1 cs)
    else
      naturals? (low + (v - 32) * weight) (weight * 32) cs

/-- The number whose sign is in the lowest bit. -/
def signed (n : Nat) : Int := if n % 2 = 1 then -(n / 2 : Nat) else (n / 2 : Nat)

/-- The numbers of a segment. -/
def fields? (s : List Char) : Option (List Int) := (naturals? 0 1 s).map (map signed)

variable {generated line n source : Nat} {c : Char} {lines : List (Nat × Nat)} {last : Int}
  {pieces : List (List Char)}

theorem value?_digit (h : n < 64) : value? (digit n) = some n := by
  revert n
  decide +kernel

/-- What is written as a number is read as that number, in front of whatever follows. -/
theorem naturals?_encodeNat (n low weight : Nat) (rest : List Char) :
    naturals? low weight (encodeNat n ++ rest) =
      (naturals? 0 1 rest).map ((low + n * weight) :: ·) := by
  induction n using Nat.strongRecOn generalizing low weight with
  | ind n ih =>
    rw [encodeNat]
    split
    next hsmall =>
      simp only [singleton_append, naturals?, value?_digit (by omega : n < 64),
        Option.bind_eq_bind, Option.bind_some, if_pos hsmall]
      cases naturals? 0 1 rest <;> rfl
    next hbig =>
      have hvalue : low + (n % 32 + 32 - 32) * weight + n / 32 * (weight * 32) =
          low + n * weight := by
        have hn : n % 32 * weight + n / 32 * (weight * 32) = (n % 32 + 32 * (n / 32)) * weight := by
          ring
        rw [Nat.add_sub_cancel, Nat.add_assoc, hn, Nat.mod_add_div]
      simp only [cons_append, naturals?, value?_digit (by omega : n % 32 + 32 < 64),
        Option.bind_eq_bind, Option.bind_some, if_neg (by omega : ¬n % 32 + 32 < 32)]
      rw [ih (n / 32) (by omega), hvalue]

theorem signed_encoded (n : Int) :
    signed (if n < 0 then n.natAbs * 2 + 1 else n.natAbs * 2) = n := by
  unfold signed
  split <;> split <;> omega

/-- What is written as a whole number is read as that number, in front of whatever follows. -/
theorem fields?_encodeInt (n : Int) (rest : List Char) :
    fields? (encodeInt n ++ rest) = (fields? rest).map (n :: ·) := by
  unfold fields? encodeInt
  rw [naturals?_encodeNat, Nat.zero_add, Nat.mul_one, Option.map_map, Option.map_map]
  congr 1
  funext l
  simp [signed_encoded]

theorem fields?_segment (difference : Int) : fields? (segment difference) = some [0, 0, difference, 0] := by
  have hnil : fields? [] = some [] := rfl
  have hlast : fields? (encodeInt 0) = some [0] := by
    simpa [hnil] using fields?_encodeInt 0 []
  unfold segment
  rw [append_assoc, append_assoc, fields?_encodeInt, fields?_encodeInt, fields?_encodeInt, hlast]
  rfl

theorem mem_digits_of_mem_encodeNat (h : c ∈ encodeNat n) : c ∈ digits := by
  have hdigit : ∀ k < 64, digit k ∈ digits := by decide +kernel
  induction n using Nat.strongRecOn with
  | ind n ih =>
    rw [encodeNat] at h
    split at h
    next hsmall =>
      rw [mem_singleton.mp h]
      exact hdigit n (by omega)
    next =>
      rcases mem_cons.mp h with rfl | h
      · exact hdigit _ (by omega)
      · exact ih (n / 32) (by omega) h

theorem mem_digits_of_mem_segment {d : Int} (h : c ∈ segment d) : c ∈ digits := by
  simp only [segment, mem_append] at h
  rcases h with ((h | h) | h) | h <;> exact mem_digits_of_mem_encodeNat h

theorem segment_ne_nil (d : Int) : segment d ≠ [] := by
  intro h
  have hfields := fields?_segment d
  rw [h] at hfields
  exact absurd hfields (by simp [fields?, naturals?])

/-! ### Segments and lines -/

/-- A place in a unit, counted from zero as in the text form. -/
structure Origin where
  unit : Int
  line : Int
  column : Int
deriving DecidableEq, Repr

/-- One mapping: a place of the code, whose line is counted from one, and where it comes from. -/
structure Mapping where
  line : Nat
  column : Int
  /-- Where the code comes from, if it comes from anywhere. -/
  origin : Option Origin
  /-- The number of the name it had there. -/
  name : Option Int
deriving DecidableEq, Repr

/-- What was read last of each kind. -/
structure Cursor where
  column : Int := 0
  origin : Origin := ⟨0, 0, 0⟩
  name : Int := 0
deriving DecidableEq, Repr

def Cursor.read? (line : Nat) (c : Cursor) (s : List Char) : Option (Mapping × Cursor) := do
  match ← fields? s with
  | [column] =>
    let c := { c with column := c.column + column }
    return (⟨line, c.column, none, none⟩, c)
  | [column, unit, place, there] =>
    let c := { c with
      column := c.column + column
      origin := ⟨c.origin.unit + unit, c.origin.line + place, c.origin.column + there⟩ }
    return (⟨line, c.column, some c.origin, none⟩, c)
  | [column, unit, place, there, name] =>
    let c : Cursor :=
      ⟨c.column + column,
        ⟨c.origin.unit + unit, c.origin.line + place, c.origin.column + there⟩, c.name + name⟩
    return (⟨line, c.column, some c.origin, some c.name⟩, c)
  | _ => none

/-- Reads segments that follow one another on a line. -/
def Cursor.readAll? (line : Nat) : Cursor → List (List Char) → Option (List Mapping × Cursor)
  | c, [] => some ([], c)
  | c, s :: rest => do
    let (m, c) ← c.read? line s
    let (ms, c) ← c.readAll? line rest
    return (m :: ms, c)

def Cursor.readLine? (line : Nat) (c : Cursor) (s : List Char) : Option (List Mapping × Cursor) :=
  ({ c with column := 0 } : Cursor).readAll? line (if s.isEmpty then [] else splitOn ',' s)

def readLines? : Nat → Cursor → List (List Char) → Option (List Mapping)
  | _, _, [] => some []
  | line, c, s :: rest => do
    let (ms, c) ← c.readLine? line s
    return ms ++ (← readLines? (line + 1) c rest)

/-- All mappings that a text holds. -/
def readMappings? (s : String) : Option (List Mapping) :=
  readLines? 1 {} (splitOn ';' s.toList)

/-- The mapping from the start of a line of the code to the start of a line of the first unit, both
counted from one. -/
def Mapping.ofLines (p : Nat × Nat) : Mapping := ⟨p.1, 0, some ⟨0, p.2 - 1, 0⟩, none⟩

/-- At the start of a line, after line `last` of the first unit was named. -/
def Cursor.after (last : Int) : Cursor := { origin := ⟨0, last, 0⟩ }

theorem readLine?_nil (line : Nat) (last : Int) :
    (Cursor.after last).readLine? line [] = some ([], .after last) := rfl

theorem readLines?_replicate (k line : Nat) (last : Int) (rest : List (List Char)) :
    readLines? line (.after last) (replicate k [] ++ rest) =
      readLines? (line + k) (.after last) rest := by
  induction k generalizing line with
  | zero => rfl
  | succ k ih =>
    rw [replicate_succ, cons_append, readLines?, readLine?_nil]
    simp only [Option.bind_eq_bind, Option.bind_some, ih]
    rw [show line + 1 + k = line + (k + 1) by omega]
    cases readLines? (line + (k + 1)) (.after last) rest <;> rfl

theorem readLine?_segment (line : Nat) (last place : Int) :
    (Cursor.after last).readLine? line (segment (place - last)) =
      some ([⟨line, 0, some ⟨0, place, 0⟩, none⟩], .after place) := by
  have hsplit : splitOn ',' (segment (place - last)) = [segment (place - last)] :=
    splitOn_of_notMem fun h => absurd (mem_digits_of_mem_segment h) (by decide)
  unfold Cursor.readLine?
  rw [if_neg (by simpa using segment_ne_nil _), hsplit]
  simp [Cursor.readAll?, Cursor.read?, fields?_segment, Cursor.after]

/-! ### Maps -/

/-- The lines of the code increase, and lines are counted from one. -/
structure Ordered (lines : List (Nat × Nat)) : Prop where
  /-- No line of the code comes twice or too late. -/
  increasing : lines.Pairwise fun p q => p.1 < q.1
  positive : ∀ p ∈ lines, 0 < p.1 ∧ 0 < p.2

theorem Ordered.tail {p : Nat × Nat} (h : Ordered (p :: lines)) : Ordered lines :=
  ⟨h.increasing.of_cons, fun q hq => h.positive q (mem_cons_of_mem p hq)⟩

/-- The lines of the text for a first pair: empty ones up to its own, that one, and what follows. -/
theorem splitOn_segments_cons {rest : List (Nat × Nat)} (hline : line ≤ generated)
    (hrest : splitOn ';' (segments generated (source - 1 : Nat) rest) = [] :: pieces) :
    splitOn ';' (segments line last ((generated, source) :: rest)) =
      replicate (generated - line) [] ++ segment ((source - 1 : Nat) - last) :: pieces := by
  have hsegment : splitOn ';' (segment ((source - 1 : Nat) - last) ++
      segments generated (source - 1 : Nat) rest) =
      segment ((source - 1 : Nat) - last) :: pieces := by
    have hnot : ';' ∉ segment ((source - 1 : Nat) - last) := fun h =>
      absurd (mem_digits_of_mem_segment h) (by decide)
    rw [splitOn_append_of_notMem hnot hrest, append_nil]
  rw [segments, if_neg (by omega), append_assoc]
  induction generated - line with
  | zero => exact hsegment
  | succ k ih =>
    rw [replicate_succ, replicate_succ, cons_append, splitOn,
      if_pos (beq_self_eq_true _), ih, cons_append]

theorem readLines?_cons {ms : List Mapping} (hline : line ≤ generated) (hsource : 0 < source)
    (hrest : readLines? (generated + 1) (.after (source - 1 : Nat)) pieces = some ms) :
    readLines? line (.after last)
        (replicate (generated - line) [] ++ segment ((source - 1 : Nat) - last) :: pieces) =
      some (.ofLines (generated, source) :: ms) := by
  have hone : ((source - 1 : Nat) : Int) = source - 1 := by omega
  rw [readLines?_replicate, Nat.add_sub_cancel' hline, readLines?, readLine?_segment]
  simp only [Option.bind_eq_bind, Option.bind_some, hrest]
  rw [Mapping.ofLines, ← hone]
  rfl

/-- After a line of the code the text goes on at its end, and what is read from there are the
mappings for the later lines. -/
theorem exists_splitOn_segments {line : Nat} {last : Int} {lines : List (Nat × Nat)}
    (h : Ordered lines) (hlater : ∀ p ∈ lines, line < p.1) :
    ∃ pieces, splitOn ';' (segments line last lines) = [] :: pieces ∧
      readLines? (line + 1) (.after last) pieces = some (lines.map .ofLines) := by
  induction lines generalizing line last with
  | nil => exact ⟨[], rfl, rfl⟩
  | cons p rest ih =>
    obtain ⟨generated, source⟩ := p
    have hline : line < generated := hlater _ (.head _)
    obtain ⟨-, hsource⟩ := h.positive _ (.head _)
    obtain ⟨pieces, hsplit, hread⟩ := ih h.tail
      (fun q hq => rel_of_pairwise_cons h.increasing hq)
    -- at least one semicolon separates the line from the next one that is mapped
    refine ⟨_, ?_, readLines?_cons hline hsource hread⟩
    rw [splitOn_segments_cons hline.le hsplit,
      show generated - line = generated - (line + 1) + 1 by omega, replicate_succ,
      cons_append]

theorem readMappings?_mappings {m : LineMap} (h : Ordered m.lines) :
    readMappings? m.mappings = some (m.lines.map .ofLines) := by
  unfold readMappings? mappings
  rw [String.toList_ofList]
  cases hm : m.lines with
  | nil => rfl
  | cons p rest =>
    rw [hm] at h
    obtain ⟨hline, hsource⟩ := h.positive _ (.head _)
    obtain ⟨pieces, hsplit, hread⟩ := exists_splitOn_segments h.tail
      (fun q hq => rel_of_pairwise_cons h.increasing hq)
    rw [splitOn_segments_cons hline hsplit]
    exact readLines?_cons hline hsource hread

/-! ### Ranges -/

theorem insertLine_of_lt (h : ∀ p ∈ lines, p.1 < generated) (source : Nat) :
    insertLine generated source lines = lines ++ [(generated, source)] := by
  induction lines with
  | nil => rfl
  | cons p lines ih =>
    obtain ⟨hp, hlines⟩ := forall_mem_cons.mp h
    rw [insertLine, if_neg (by omega), if_neg (by simp; omega), ih hlines, cons_append]

theorem lines_addRange (generated source count : Nat) :
    (({} : LineMap).addRange generated source count).lines =
      (range count).map fun i => (generated + i, source + i) := by
  induction count with
  | zero => rfl
  | succ count ih =>
    unfold addRange at ih ⊢
    rw [range_succ, foldl_append, foldl_cons, foldl_nil, add, ih,
      insertLine_of_lt, map_append, map_singleton]
    intro p hp
    obtain ⟨i, hi, rfl⟩ := mem_map.mp hp
    exact Nat.add_lt_add_left (mem_range.mp hi) generated

theorem ordered_range (hg : 0 < generated) (hs : 0 < source) (count : Nat) :
    Ordered ((range count).map fun i => (generated + i, source + i)) := by
  refine ⟨pairwise_map.mpr ?_, ?_⟩
  · exact pairwise_lt_range.imp fun h => Nat.add_lt_add_left h generated
  · intro p hp
    obtain ⟨i, -, rfl⟩ := mem_map.mp hp
    exact ⟨Nat.add_pos_left hg i, Nat.add_pos_left hs i⟩

theorem readMappings?_addRange (hg : 0 < generated) (hs : 0 < source) (count : Nat) :
    readMappings? (({} : LineMap).addRange generated source count).mappings =
      some ((range count).map fun i => .ofLines (generated + i, source + i)) := by
  have hlines := lines_addRange generated source count
  have hordered : Ordered (({} : LineMap).addRange generated source count).lines := by
    rw [hlines]
    exact ordered_range hg hs count
  rw [readMappings?_mappings hordered, hlines, map_map]
  rfl

end Componentry.LineMap
