import Componentry.Proofs.Keyed
import Componentry.Proofs.Module.Mappings

/-!
# Line maps as they are built

A map is built by putting in single lines and ranges of lines, in any order and over one another.
Whatever the order, its pairs stay sorted by their lines of the code, and the pair that was put in
last for a line is the one that counts. So what is read from the text of a map is, line by line, what
the map itself answers.
-/

namespace Componentry.LineMap

open Text
open List hiding splitOn

/-! ### Pairs in their places -/

variable {generated source : Nat} {lines : List (Nat × Nat)} {p : Nat × Nat} {m : LineMap}

theorem mem_insertLine (h : p ∈ insertLine generated source lines) :
    p = (generated, source) ∨ p ∈ lines := by
  fun_induction insertLine generated source lines with
  | case1 => exact .inl (mem_singleton.mp h)
  | case2 g s rest hlt => exact mem_cons.mp h
  | case3 g s rest hlt heq => exact (mem_cons.mp h).imp_right (mem_cons_of_mem _)
  | case4 g s rest hlt heq ih =>
    rcases mem_cons.mp h with rfl | h
    · exact .inr (.head _)
    · exact (ih h).imp_right (mem_cons_of_mem _)

theorem Ordered.insertLine (h : Ordered lines) (hg : 0 < generated) (hs : 0 < source) :
    Ordered (insertLine generated source lines) := by
  refine ⟨?_, fun p hp => ?_⟩
  · have hincreasing := h.increasing
    clear h
    fun_induction LineMap.insertLine generated source lines with
    | case1 => exact pairwise_singleton ..
    | case2 g s rest hlt =>
      refine hincreasing.cons (forall_mem_cons.mpr ⟨hlt, fun q hq => ?_⟩)
      exact hlt.trans (rel_of_pairwise_cons hincreasing hq)
    | case3 g s rest hlt heq =>
      obtain rfl := eq_of_beq heq
      exact hincreasing.of_cons.cons fun q => rel_of_pairwise_cons hincreasing
    | case4 g s rest hlt heq ih =>
      refine (ih hincreasing.of_cons).cons fun q hq => ?_
      rcases mem_insertLine hq with rfl | hq
      · have := mt beq_iff_eq.mpr heq
        omega
      · exact rel_of_pairwise_cons hincreasing hq
  · rcases mem_insertLine hp with rfl | hp
    · exact ⟨hg, hs⟩
    · exact h.positive p hp

theorem source?_add (m : LineMap) (generated source line : Nat) :
    (m.add generated source).source? line =
      if generated = line then some source else m.source? line := by
  simp only [source?, add]
  fun_induction insertLine generated source m.lines with
  | case1 | case2 g s rest hlt => by_cases h : generated = line <;> simp [h]
  | case3 g s rest hlt heq =>
    obtain rfl := eq_of_beq heq
    by_cases h : generated = line <;> simp [h]
  | case4 g s rest hlt heq ih =>
    by_cases h : g = line
    · have hne : generated ≠ line := fun hgl => heq (beq_iff_eq.mpr (hgl.trans h.symm))
      simp [h, hne]
    · simpa [h] using ih

/-! ### Building -/

/-- One call that puts lines into a map. -/
inductive Entry where
  | line (generated source : Nat)
  | range (generated source count : Nat)
deriving DecidableEq, Repr

def Entry.put (m : LineMap) : Entry → LineMap
  | .line generated source => m.add generated source
  | .range generated source count => m.addRange generated source count

def build (entries : List Entry) : LineMap := entries.foldl Entry.put {}

/-- The pairs that a call puts in, one after the other. -/
def Entry.pairs : Entry → List (Nat × Nat)
  | .line generated source => [(generated, source)]
  | .range generated source count => (List.range count).map fun i => (generated + i, source + i)

theorem Entry.put_eq (m : LineMap) (e : Entry) :
    e.put m = e.pairs.foldl (fun m p => m.add p.1 p.2) m := by
  cases e with
  | line generated source => rfl
  | range generated source count =>
    rw [pairs, foldl_map]
    rfl

theorem build_eq (entries : List Entry) :
    build entries = (entries.flatMap Entry.pairs).foldl (fun m p => m.add p.1 p.2) {} := by
  rw [build, foldl_flatMap]
  congr
  funext m e
  exact e.put_eq m

theorem ordered_foldl_add (hm : Ordered m.lines) {pairs : List (Nat × Nat)}
    (h : ∀ p ∈ pairs, 0 < p.1 ∧ 0 < p.2) :
    Ordered (pairs.foldl (fun m p => m.add p.1 p.2) m).lines :=
  foldlRecOn (motive := fun m : LineMap => Ordered m.lines) pairs _ hm fun _ hm p hp =>
    hm.insertLine (h p hp).1 (h p hp).2

theorem source?_foldl_add (m : LineMap) (pairs : List (Nat × Nat)) (line : Nat) :
    (pairs.foldl (fun m p => m.add p.1 p.2) m).source? line =
      ((pairs.reverse.find? fun p => p.1 == line).map (·.2)).or (m.source? line) := by
  induction pairs generalizing m with
  | nil => rfl
  | cons p pairs ih =>
    rw [foldl_cons, ih, source?_add, reverse_cons, find?_append]
    by_cases h : p.1 = line <;>
      cases pairs.reverse.find? (fun p => p.1 == line) <;> simp [h]

theorem mem_foldl_add {pairs : List (Nat × Nat)}
    (h : p ∈ (pairs.foldl (fun m p => m.add p.1 p.2) m).lines) :
    p ∈ pairs ∨ p ∈ m.lines := by
  induction pairs generalizing m with
  | nil => exact .inr h
  | cons q pairs ih =>
    rcases ih h with h | h
    · exact .inl (mem_cons_of_mem q h)
    · rcases mem_insertLine h with rfl | h
      · exact .inl (.head _)
      · exact .inr h

/-! ### Reading what was built -/

theorem filter_ofLines (h : Ordered m.lines) (line : Nat) :
    (m.lines.map Mapping.ofLines).filter (fun r => r.line == line) =
      ((m.source? line).map fun source => Mapping.ofLines (line, source)).toList := by
  have hline : (fun r : Mapping => r.line == line) ∘ Mapping.ofLines = fun p => p.1 == line := rfl
  have hkeyed : Keyed (·.1) m.lines := pairwise_map.mpr (h.increasing.imp Nat.ne_of_lt)
  rw [filter_map, hline, hkeyed.filter_eq_toList, source?]
  cases hfind : m.lines.find? (fun p => p.1 == line) with
  | none => rfl
  | some p =>
    obtain rfl : p.1 = line := by simpa using find?_some hfind
    rfl

/-- The numbers on a line of the text: none, or four of which the third alone differs from zero and
is less than `bound` in size. -/
def Modest (bound : Nat) (line : List Char) : Prop :=
  line = [] ∨ ∃ d : Int, fields? line = some [0, 0, d, 0] ∧ d.natAbs < bound

theorem modest_splitOn_segments {bound line last : Nat} (h : Ordered lines)
    (hline : ∀ p ∈ lines, line ≤ p.1) (hlast : last < bound) (hbound : ∀ p ∈ lines, p.2 < bound) :
    ∀ s ∈ splitOn ';' (segments line last lines), Modest bound s := by
  induction lines generalizing line last with
  | nil =>
    intro s hs
    exact .inl (mem_singleton.mp hs)
  | cons p rest ih =>
    obtain ⟨generated, source⟩ := p
    obtain ⟨hsource, hrest⟩ := forall_mem_cons.mp hbound
    have hlater : ∀ q ∈ rest, generated < q.1 := fun q => rel_of_pairwise_cons h.increasing
    obtain ⟨pieces, hsplit, -⟩ := @exists_splitOn_segments generated (source - 1 : Nat) rest h.tail
      hlater
    have htail := @ih generated (source - 1) h.tail (fun q hq => (hlater q hq).le) (by omega) hrest
    rw [hsplit] at htail
    rw [splitOn_segments_cons (hline _ (.head _)) hsplit]
    intro s hs
    rcases mem_append.mp hs with hs | hs
    · exact .inl (eq_of_mem_replicate hs)
    · rcases mem_cons.mp hs with rfl | hs
      · refine .inr ⟨_, fields?_segment _, ?_⟩
        omega
      · exact htail s (.tail _ hs)

/-- Whatever calls a map is built by, reading its text gives, for each line of the code, the one
mapping that the map answers, from the start of that line to the start of a line of the first unit,
and no other mapping. What the map answers is what was put in last for that line. Lines are counted
from one and below the bound, as the numbers that are written then are: with its sign as lowest bit,
each fits into 63 bits. -/
theorem built_mappings_read_back (entries : List Entry)
    (h : ∀ e ∈ entries, ∀ p ∈ e.pairs, 0 < p.1 ∧ p.1 < 2 ^ 62 ∧ 0 < p.2 ∧ p.2 < 2 ^ 62) :
    (∃ ms, readMappings? (build entries).mappings = some ms ∧
      ∀ line, ms.filter (fun r => r.line == line) =
        (((build entries).source? line).map fun source => Mapping.ofLines (line, source)).toList) ∧
    (∀ line, (build entries).source? line =
      ((entries.flatMap Entry.pairs).reverse.find? fun p => p.1 == line).map (·.2)) ∧
    ∀ s ∈ splitOn ';' (build entries).mappings.toList, Modest (2 ^ 62) s := by
  have hpairs : ∀ p ∈ entries.flatMap Entry.pairs,
      0 < p.1 ∧ p.1 < 2 ^ 62 ∧ 0 < p.2 ∧ p.2 < 2 ^ 62 := by
    intro p hp
    obtain ⟨e, he, hp⟩ := mem_flatMap.mp hp
    exact h e he p hp
  have hnil : Ordered ({} : LineMap).lines := ⟨.nil, fun _ hp => absurd hp not_mem_nil⟩
  have hordered : Ordered (build entries).lines := by
    rw [build_eq]
    exact ordered_foldl_add hnil fun p hp => ⟨(hpairs p hp).1, (hpairs p hp).2.2.1⟩
  refine ⟨⟨_, readMappings?_mappings hordered, filter_ofLines hordered⟩, fun line => ?_, ?_⟩
  · rw [build_eq, source?_foldl_add]
    exact Option.or_none
  · rw [mappings, String.toList_ofList]
    refine modest_splitOn_segments hordered (fun p hp => (hordered.positive p hp).1)
      (by decide) fun p hp => ?_
    rw [build_eq] at hp
    rcases mem_foldl_add hp with hp | hp
    · exact (hpairs p hp).2.2.2
    · exact absurd hp not_mem_nil

/-- A range, a line far down the code that comes from further up, and a line of the range put in
again. -/
theorem built_mappings_read_back_overlaid :
    let entries : List Entry := [.range 2 5 2, .line 5 1, .line 3 (2 ^ 62 - 1)]
    (∀ e ∈ entries, ∀ p ∈ e.pairs, 0 < p.1 ∧ p.1 < 2 ^ 62 ∧ 0 < p.2 ∧ p.2 < 2 ^ 62) ∧
    ∃ ms, readMappings? (build entries).mappings = some ms ∧
      ms.filter (fun r => r.line == 3) = [.ofLines (3, 2 ^ 62 - 1)] ∧
      ms.filter (fun r => r.line == 4) = [] := by
  intro entries
  have h : ∀ e ∈ entries, ∀ p ∈ e.pairs,
      0 < p.1 ∧ p.1 < 2 ^ 62 ∧ 0 < p.2 ∧ p.2 < 2 ^ 62 := by decide +kernel
  obtain ⟨⟨ms, hms, hread⟩, hlast, -⟩ := built_mappings_read_back entries h
  refine ⟨h, ms, hms, ?_, ?_⟩
  · rw [hread, hlast]
    rfl
  · rw [hread, hlast]
    rfl

end Componentry.LineMap
