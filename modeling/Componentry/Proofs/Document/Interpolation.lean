import Componentry.Proofs.Document.Upkeep
import Componentry.Proofs.Source.Attributes

/-!
# Placeholders in texts and trees

A text made of plain pieces and placeholders is filled piece by piece: values go in as they are, and a
placeholder without a value stays as it was written. In a tree just the texts below a node are filled,
and the number of them that changed is told.
-/

namespace Componentry.Params

open Text List
open Source (Blanks)

/-- A piece of a text: plain text without an opening brace, or a placeholder with blanks around its
name. -/
inductive Piece where
  | plain (s : List Char) (h : '\x7b' ∉ s)
  | hole (before : Blanks) (first : Char) (others : List Char) (after : Blanks)
      (hfirst : isNameStart first = true) (hothers : ∀ c ∈ others, isPlaceholderChar c = true)

namespace Piece

def text : Piece → List Char
  | .plain s _ => s
  | .hole before first others after _ _ =>
    '\x7b' :: '\x7b' :: (before.1 ++ first :: (others ++ (after.1 ++ ['\x7d', '\x7d'])))

/-- What becomes of a piece. -/
def filled (params : Params) : Piece → List Char
  | .plain s _ => s
  | .hole before first others after hfirst hothers =>
    match params.find? (String.ofList (first :: others)) with
    | some value => value.toList
    | none => (hole before first others after hfirst hothers).text

end Piece

variable {s : List Char}

theorem isPlaceholderChar_of_isBlank {c : Char} (h : isBlank c = true) :
    isPlaceholderChar c = false := by
  have hne := fun d => ne_of_isBlank (d := d) h
  simp [isPlaceholderChar, isNameChar, isAlphanum_of_isBlank h, hne '_' rfl, hne '$' rfl,
    hne '.' rfl, hne '-' rfl]

theorem placeholderAt_hole (before : Blanks) {first : Char} {others : List Char} (after : Blanks)
    (hfirst : isNameStart first = true) (hothers : ∀ c ∈ others, isPlaceholderChar c = true)
    (s : List Char) :
    placeholderAt ((Piece.hole before first others after hfirst hothers).text ++ s) =
      some (first :: others, s) := by
  have hblank : isBlank first = false := Bool.eq_false_iff.mpr fun h => by
    have hne := fun d => ne_of_isBlank (d := d) h
    simp [isNameStart, isAlphanum_of_isBlank h, hne '_' rfl, hne '$' rfl] at hfirst
  let close := after.1 ++ '\x7d' :: '\x7d' :: s
  have hstop : ∀ c ∈ close.head?, isPlaceholderChar c = false :=
    after.head_append isPlaceholderChar_of_isBlank rfl _
  have hinner : afterBlanks (before.1 ++ first :: (others ++ close)) = first :: (others ++ close) :=
    Source.afterBlanks_append before (by rintro c ⟨⟩; exact hblank)
  have hclose : afterBlanks close = '\x7d' :: '\x7d' :: s :=
    Source.afterBlanks_append after (by rintro c ⟨⟩; rfl)
  have htext : (Piece.hole before first others after hfirst hothers).text ++ s =
      ['\x7b', '\x7b'] ++ (before.1 ++ first :: (others ++ close)) := by
    simp [Piece.text, close]
  rw [htext, placeholderAt, dropLead?_append]
  dsimp only [Option.bind_eq_bind, Option.bind_some]
  rw [hinner]
  dsimp only [head?_cons, Option.bind_some]
  rw [drop_one, tail_cons, takeWhile_append_stop hothers hstop, hfirst, length_cons, drop_succ_cons,
    drop_left, hclose]
  rfl

theorem placeholderAt_plain {c : Char} (h : c ≠ '\x7b') : placeholderAt (c :: s) = none := by
  have hlead : dropLead? ['\x7b', '\x7b'] (c :: s) = none := by simp [dropLead?, h.symm]
  rw [placeholderAt, hlead]
  rfl

variable (params : Params)

theorem fillFrom_plain {a : List Char} (ha : '\x7b' ∉ a) {fuel : Nat}
    (hfuel : (a ++ s).length ≤ fuel) :
    ∃ k, s.length ≤ k ∧ fillFrom params fuel (a ++ s) = a ++ fillFrom params k s := by
  induction a generalizing fuel with
  | nil => exact ⟨fuel, hfuel, rfl⟩
  | cons c a ih =>
    obtain ⟨hc, ha⟩ := ne_and_not_mem_of_not_mem_cons ha
    cases fuel with
    | zero => cases hfuel
    | succ fuel =>
      obtain ⟨k, hk, hrest⟩ := ih ha (Nat.le_of_succ_le_succ hfuel)
      refine ⟨k, hk, ?_⟩
      rw [cons_append, fillFrom, placeholderAt_plain hc.symm]
      exact congrArg (c :: ·) hrest

theorem fillFrom_pieces (ps : List Piece) {fuel : Nat}
    (hfuel : (ps.flatMap Piece.text).length ≤ fuel) :
    fillFrom params fuel (ps.flatMap Piece.text) = ps.flatMap (Piece.filled params) := by
  induction ps generalizing fuel with
  | nil => cases fuel <;> rfl
  | cons p ps ih =>
    rw [flatMap_cons] at hfuel ⊢
    rw [flatMap_cons]
    cases p with
    | plain s h =>
      obtain ⟨k, hk, hrest⟩ := fillFrom_plain params h hfuel
      exact hrest.trans (congrArg (s ++ ·) (ih hk))
    | hole before first others after hfirst hothers =>
      have hat := placeholderAt_hole before after hfirst hothers (ps.flatMap Piece.text)
      generalize hp : Piece.hole before first others after hfirst hothers = p at hat hfuel ⊢
      obtain ⟨cs, hcs⟩ : ∃ cs, p.text = '\x7b' :: cs := by
        subst hp
        exact ⟨_, rfl⟩
      have htake : take ((cs ++ ps.flatMap Piece.text).length + 1 - (ps.flatMap Piece.text).length)
          ('\x7b' :: (cs ++ ps.flatMap Piece.text)) = p.text := by
        rw [hcs, ← length_cons, ← cons_append, length_append, Nat.add_sub_cancel, take_left]
      rw [hcs, cons_append] at hat hfuel ⊢
      obtain ⟨k, rfl⟩ := Nat.exists_eq_add_of_le' ((Nat.succ_le_succ (Nat.zero_le _)).trans hfuel)
      have hk : (ps.flatMap Piece.text).length ≤ k :=
        (sublist_append_right ..).length_le.trans (Nat.le_of_succ_le_succ hfuel)
      rw [fillFrom, hat]
      dsimp only
      rw [htake, ih hk, ← hp, Piece.filled]
      cases params.find? (String.ofList (first :: others)) <;> rfl

theorem fill_pieces (ps : List Piece) :
    params.fill (String.ofList (ps.flatMap Piece.text)) =
      String.ofList (ps.flatMap (Piece.filled params)) := by
  rw [fill, String.toList_ofList, fillFrom_pieces params ps (by simp)]

/-! ### Trees -/

open Document

/-- The filling of a node gives it another text. -/
def changes (f : Forest) (n : NodeId) : Bool :=
  (f.text? n).map params.fill != f.text? n

theorem count_fillNodes {l : List NodeId} (hl : l.Nodup) (f : Forest) (n : Nat) :
    (l.foldl (fun (f, n) id =>
      let (f, changed) := fillNode params f id
      (f, if changed then n + 1 else n)) (f, n)).2 = n + l.countP (params.changes f) := by
  induction l generalizing f n with
  | nil => rfl
  | cons x l ih =>
    obtain ⟨hx, hl⟩ := nodup_cons.mp hl
    -- the texts of the nodes that follow are as they were
    have hrest : l.countP (params.changes (fillNode params f x).1) = l.countP (params.changes f) := by
      refine countP_congr fun y hy => ?_
      have hnode : (fillNode params f x).1.node y = f.node y := by
        rw [Forest.fillNode_eq, Forest.node_update_of_default rfl, if_neg (ne_of_mem_of_not_mem hy hx)]
      rw [changes, changes, Forest.text?_eq_kind, Forest.text?_eq_kind, Forest.kind, Forest.kind, hnode]
    rw [foldl_cons, ih hl, hrest, countP_cons, Forest.fillNode_eq]
    change (if params.changes f x then n + 1 else n) + _ = _
    split <;> omega

section

variable {f : Forest} {documents : Bool} (hf : f.WellFormed documents) (params : Params) (root : NodeId)

include hf

theorem mem_textNodes_iff {x : NodeId} :
    x ∈ f.textNodes root ↔ f.isText x ∧ ∃ k, f.rise (k + 1) x = some root := by
  rw [Forest.textNodes, mem_filter, hf.mem_descendants_iff, and_comm]

theorem nodup_textNodes : (f.textNodes root).Nodup := (hf.nodup_below ..).filter _

theorem count_fillTree : (params.fillTree f root).2 = (f.textNodes root).countP (params.changes f) := by
  unfold fillTree
  split
  next hempty =>
    have hsame : ∀ x, params.changes f x = false := by
      simp [changes, funext (fill_of_isEmpty hempty)]
    exact (countP_eq_zero.mpr fun x _ => by simp [hsame]).symm
  next => exact (count_fillNodes params (nodup_textNodes hf root) f 0).trans (Nat.zero_add _)

/-- The texts that changed are the ones among all nodes that are others afterwards. -/
theorem count_texts_fillTree : (params.fillTree f root).2 =
    (range f.nodes.size).countP fun x => (params.fillTree f root).1.text? x != f.text? x := by
  rw [count_fillTree hf, countP_eq_length_filter, countP_eq_length_filter]
  refine Perm.length_eq ((perm_ext_iff_of_nodup ((nodup_textNodes hf root).filter _)
    (nodup_range.filter _)).mpr fun x => ?_)
  rw [mem_filter, mem_filter, hf.text?_fillTree]
  by_cases hx : x ∈ f.textNodes root
  · obtain ⟨-, k, hrise⟩ := (mem_textNodes_iff hf root).mp hx
    obtain ⟨p, hp, -⟩ := Option.bind_eq_some_iff.mp hrise
    simp [Forest.lt_size_of_parent hp, changes]
  · simp [hx]

end

/-- A text is filled piece by piece, all at once: the values are not looked at again. In a tree this is
done to the texts below a node and to no other node, and the number of texts that are others
afterwards is told. -/
theorem interpolation_substitutes (params : Params) :
    (∀ ps : List Piece, params.fill (String.ofList (ps.flatMap Piece.text)) =
      String.ofList (ps.flatMap (Piece.filled params))) ∧
    ∀ {f : Forest} {documents : Bool}, f.WellFormed documents → ∀ root,
      let r := params.fillTree f root
      (∀ x text, f.kind x = .text text → (∃ k, f.rise (k + 1) x = some root) →
        r.1.node x = { f.node x with kind := .text (params.fill text) }) ∧
      (∀ x, ¬ (f.isText x ∧ ∃ k, f.rise (k + 1) x = some root) → r.1.node x = f.node x) ∧
      r.1.nodes.size = f.nodes.size ∧ r.1.lastListener = f.lastListener ∧
      r.2 = (range f.nodes.size).countP fun x => r.1.text? x != f.text? x := by
  refine ⟨fill_pieces params, fun {f _} hf root => ?_⟩
  have hframe : Forest.Frame fun f g : Forest =>
      g.nodes.size = f.nodes.size ∧ g.lastListener = f.lastListener :=
    ⟨fun _ => ⟨rfl, rfl⟩, fun h h' => ⟨h'.1.trans h.1, h'.2.trans h.2⟩⟩
  obtain ⟨hsize, hlast⟩ :=
    hframe.fillTree (fun _ _ _ => ⟨Forest.size_update .., rfl⟩) params f root
  refine ⟨fun x text hk hrise => ?_, fun x hx => ?_, hsize, hlast,
    count_texts_fillTree hf params root⟩
  · rw [hf.node_fillTree, if_pos ((mem_textNodes_iff hf root).mpr ⟨by rw [Forest.isText, hk], hrise⟩)]
    simp [refill, show (f.node x).kind = .text text from hk]
  · rw [hf.node_fillTree, if_neg fun h => hx ((mem_textNodes_iff hf root).mp h)]

/-- A document with a paragraph whose text has a placeholder. -/
def sign : Forest := (Forest.grove.foldl Forest.perform {}).perform (.setText 3 "no. \x7b\x7b id \x7d\x7d")

theorem wellFormed_sign : sign.WellFormed true :=
  (Forest.reachable_grove.step (.setText 3 _) trivial).wellFormed

/-- The value reads like a placeholder of itself and is put in as it is. The paragraph is no text and
stays. -/
theorem interpolation_substitutes_sign :
    let params := Dictionary.ofList [("id", "\x7b\x7bid\x7d\x7d")]
    let r := fillTree params sign 0
    sign.WellFormed true ∧ sign.kind 3 = .text "no. \x7b\x7b id \x7d\x7d" ∧ sign.rise 2 3 = some 0 ∧
    r.1.node 3 = { sign.node 3 with kind := .text "no. \x7b\x7bid\x7d\x7d" } ∧
    (¬ (sign.isText 1 ∧ ∃ k, sign.rise (k + 1) 1 = some 0) ∧ r.1.node 1 = sign.node 1) ∧ r.2 = 1 := by
  intro params r
  obtain ⟨-, htree⟩ := interpolation_substitutes params
  obtain ⟨htext, hother, -, -, hcount⟩ := htree wellFormed_sign 0
  have hone : ¬ (sign.isText 1 ∧ ∃ k, sign.rise (k + 1) 1 = some 0) := fun h => absurd h.1 (by decide)
  have hkind : sign.kind 3 = .text "no. \x7b\x7b id \x7d\x7d" := by decide
  have hfill : fill params "no. \x7b\x7b id \x7d\x7d" = "no. \x7b\x7bid\x7d\x7d" := by decide +kernel
  have hthree := htext 3 _ hkind ⟨1, by decide⟩
  rw [hfill] at hthree
  exact ⟨wellFormed_sign, hkind, by decide, hthree, ⟨hone, hother 1 hone⟩,
    hcount.trans (by decide +kernel)⟩

end Componentry.Params
