import Componentry.Proofs.Document.Refill
import Componentry.Proofs.Text.Scan

/-!
# Texts and placeholders

Which changes of a forest leave texts alone, and what filling placeholders below a node does to each
text: it is filled if its node hangs below by children alone, without a hidden tree in between, and
left alone otherwise. Whether a text hangs below a node depends on the parents of old nodes only, so it
stays when a forest grows.
-/

namespace Componentry

open List

/-! ### Placeholders -/

namespace Params

variable {params : Params} {s : List Char}

theorem suffix_placeholderAt {name rest : List Char} (h : placeholderAt s = some (name, rest)) :
    rest <:+ s := by
  obtain ⟨inner, hinner, h⟩ := Option.bind_eq_some_iff.mp h
  obtain ⟨first, -, h⟩ := Option.bind_eq_some_iff.mp h
  obtain ⟨-, -, h⟩ := Option.bind_eq_some_iff.mp h
  obtain ⟨after, hafter, h⟩ := Option.bind_eq_some_iff.mp h
  obtain rfl : after = rest := congrArg Prod.snd (Option.some.inj h)
  have hblanks : ∀ l, Text.afterBlanks l <:+ l := fun l => dropWhile_suffix _
  exact (Text.dropLead?_suffix hafter).trans ((hblanks _).trans ((drop_suffix ..).trans
    ((hblanks _).trans (Text.dropLead?_suffix hinner))))

/-- A text holds a placeholder that has a value. -/
def Names (params : Params) (text : List Char) : Prop :=
  ∃ name rest, (∃ l, l <:+ text ∧ placeholderAt l = some (name, rest)) ∧
    ∃ value, params.find? (String.ofList name) = some value

theorem Names.of_suffix {l : List Char} (h : params.Names l) (hl : l <:+ s) : params.Names s := by
  obtain ⟨name, rest, ⟨l', hl', hp⟩, hv⟩ := h
  exact ⟨name, rest, ⟨l', hl'.trans hl, hp⟩, hv⟩

theorem fillFrom_of_not_names (h : ¬ params.Names s) (fuel : Nat) : fillFrom params fuel s = s := by
  induction fuel generalizing s with
  | zero => rfl
  | succ fuel ih =>
    cases s with
    | nil => rfl
    | cons c cs =>
      rw [fillFrom]
      split
      next name rest hp =>
        obtain ⟨before, hs⟩ := suffix_placeholderAt hp
        have hnone : params.find? (String.ofList name) = none := by
          rw [Option.eq_none_iff_forall_ne_some]
          exact fun value hv => h ⟨name, rest, ⟨_, suffix_rfl, hp⟩, value, hv⟩
        simp only [hnone, Option.map_none, Option.getD_none, ih fun hn => h (hn.of_suffix ⟨before, hs⟩)]
        have hlength : cs.length + 1 - rest.length = before.length := by
          have htotal := congrArg length hs
          simp only [length_append, length_cons] at htotal
          omega
        rw [hlength, ← hs, take_left]
      next => rw [ih fun hn => h (hn.of_suffix (suffix_cons c cs))]

theorem fill_of_not_names {text : String} (h : ¬ params.Names text.toList) :
    params.fill text = text := by
  rw [fill, fillFrom_of_not_names h, String.ofList_toList]

theorem fill_of_isEmpty (h : params.isEmpty) (text : String) : params.fill text = text := by
  refine fill_of_not_names ?_
  rintro ⟨name, rest, -, value, hv⟩
  rw [Dictionary.find?, isEmpty_iff.mp h] at hv
  cases hv

/-- A placeholder starts with two opening braces. -/
theorem fill_of_not_contains {text : String}
    (h : Text.contains ['\x7b', '\x7b'] text.toList = false) : params.fill text = text := by
  refine fill_of_not_names ?_
  rintro ⟨name, rest, ⟨l, hl, hp⟩, -⟩
  obtain ⟨inner, hinner, -⟩ := Option.bind_eq_some_iff.mp hp
  have hstart : Text.startsWith ['\x7b', '\x7b'] l = true := by rw [Text.startsWith, hinner]; rfl
  exact absurd (Text.contains_of_suffix hl hstart) (by rw [h]; decide)

/-- A node with the placeholders of its text replaced. -/
def refill (params : Params) (n : Document.Node) : Document.Node :=
  match n.kind with
  | .text value => { n with kind := .text (params.fill value) }
  | _ => n

end Params

namespace Document

def Kind.text? : Kind → Option String
  | .text value => some value
  | _ => none

namespace Forest

variable {f g h : Forest} {n x r : NodeId} {params : Params} {k : Nat} {documents : Bool}

theorem text?_eq_kind (f : Forest) (n : NodeId) : f.text? n = (f.kind n).text? := by
  rfl

/-! ### Texts left alone -/

/-- Old nodes have the texts they had. -/
structure KeepsTexts (f g : Forest) : Prop where
  size_le : f.nodes.size ≤ g.nodes.size
  text_eq : ∀ n < f.nodes.size, g.text? n = f.text? n

namespace KeepsTexts

theorem refl (f : Forest) : KeepsTexts f f := ⟨le_rfl, fun _ _ => rfl⟩

theorem trans (hfg : KeepsTexts f g) (hgh : KeepsTexts g h) : KeepsTexts f h :=
  ⟨hfg.size_le.trans hgh.size_le, fun n hn =>
    (hgh.text_eq n (hn.trans_le hfg.size_le)).trans (hfg.text_eq n hn)⟩

theorem of_sameNodes (hs : SameNodes f g) : KeepsTexts f g :=
  ⟨hs.size_eq.symm.le, fun n _ => by rw [text?_eq_kind, text?_eq_kind, hs.kind_eq]⟩

variable (f)

theorem update (id : NodeId) {k : Node → Node}
    (hk : ∀ n, (k n).kind.text? = n.kind.text?) : KeepsTexts f (f.update id k) :=
  ⟨(size_update ..).symm.le, fun n _ => part_update (·.kind.text?) f id n hk⟩

theorem create (kind : Kind) : KeepsTexts f (f.create kind).1 := by
  refine ⟨by rw [size_create]; exact Nat.le_succ _, fun n hn => ?_⟩
  rw [text?_eq_kind, text?_eq_kind, Forest.kind, Forest.kind, node_create, if_neg hn.ne]

theorem attachShadow (host : NodeId) : KeepsTexts f (f.attachShadow host).1 := by
  unfold Forest.attachShadow
  split
  · exact refl f
  · exact (create f _).trans (update _ host fun _ => rfl)

theorem updateAttributes (id : NodeId) (k : Dictionary String → Dictionary String) :
    KeepsTexts f (f.updateAttributes id k) := by
  refine update f id fun n => ?_
  cases hn : n.kind <;> simp [hn, Kind.text?]

theorem frame : Frame.Open KeepsTexts where
  refl := refl
  trans := trans
  relink f id _ _ := update f id fun _ => rfl
  create := create
  attributes := updateAttributes

theorem adoptSheet (id : NodeId) (sheet : Sheet) : KeepsTexts f (f.adoptSheet id sheet) := by
  refine update f id fun n => ?_
  split <;> rfl

end KeepsTexts

/-! ### Nodes below others -/

/-- The parent so many steps up, hidden trees not left. -/
def rise (f : Forest) : Nat → NodeId → Option NodeId
  | 0, n => some n
  | k + 1, n => (f.parent n).bind (f.rise k)

theorem rise_succ_eq_some :
    f.rise (k + 1) n = some r ↔ ∃ c, f.rise k n = some c ∧ f.parent c = some r := by
  induction k generalizing n with
  | zero => simp [rise]
  | succ k ih =>
    change (f.parent n).bind (f.rise (k + 1)) = some r ↔
      ∃ c, (f.parent n).bind (f.rise k) = some c ∧ f.parent c = some r
    simp only [Option.bind_eq_some_iff, ih]
    constructor
    · rintro ⟨p, hp, c, hc, hr⟩
      exact ⟨c, ⟨p, hp, hc⟩, hr⟩
    · rintro ⟨c, ⟨p, hp, hc⟩, hr⟩
      exact ⟨p, hp, c, hc, hr⟩

variable (hf : f.WellFormed documents)

include hf

theorem WellFormed.ascend_of_rise (hk : f.rise k n = some r) : f.ascend k n = some r := by
  induction k generalizing n with
  | zero => exact hk
  | succ k ih =>
    obtain ⟨p, hp, hk⟩ := Option.bind_eq_some_iff.mp hk
    rw [ascend, hf.composedParent_of_parent hp]
    exact ih hk

theorem WellFormed.mem_below_iff (depth : Nat) (r : NodeId) :
    x ∈ f.below depth r ↔ ∃ k < depth, f.rise (k + 1) x = some r := by
  induction depth generalizing r with
  | zero => simp [below]
  | succ depth ih =>
    simp only [below, mem_flatMap, mem_cons, ih]
    constructor
    · rintro ⟨c, hc, rfl | ⟨k, hk, hrise⟩⟩
      · exact ⟨0, Nat.succ_pos _, rise_succ_eq_some.mpr ⟨x, rfl, (hf.child_iff r x).mp hc⟩⟩
      · exact ⟨k + 1, Nat.succ_lt_succ hk, rise_succ_eq_some.mpr ⟨c, hrise, (hf.child_iff r c).mp hc⟩⟩
    · rintro ⟨k, hk, hrise⟩
      obtain ⟨c, hc, hp⟩ := rise_succ_eq_some.mp hrise
      refine ⟨c, (hf.child_iff r c).mpr hp, ?_⟩
      cases k with
      | zero => exact .inl (Option.some.inj hc)
      | succ k => exact .inr ⟨k, Nat.lt_of_succ_lt_succ hk, hc⟩

theorem WellFormed.mem_descendants_iff : x ∈ f.descendants r ↔ ∃ k, f.rise (k + 1) x = some r := by
  rw [descendants, hf.mem_below_iff]
  refine ⟨fun ⟨k, _, hk⟩ => ⟨k, hk⟩, fun ⟨k, hk⟩ => ⟨k, ?_, hk⟩⟩
  obtain ⟨p, hp, -⟩ := Option.bind_eq_some_iff.mp hk
  have hsteps := hf.steps_lt_size (lt_size_of_parent hp) (hf.ascend_of_rise hk)
  exact Nat.lt_of_succ_lt hsteps

omit hf

theorem WellFormed.under_of_mem_textNodes (hf : f.WellFormed) (hx : x ∈ f.textNodes r) :
    f.Under r x ∧ x ≠ r := hf.under_of_mem_below (mem_filter.mp hx).1

theorem Extends.parent_eq_of_lt (he : f.Extends g) (hf : f.WellFormed) (hg : g.WellFormed)
    (hn : n < f.nodes.size) : g.parent n = f.parent n := by
  have hparents := he.parent_eq n hn
  by_cases hs : ∃ host, f.kind n = .shadow host
  · obtain ⟨host, hk⟩ := hs
    rw [hf.parent_eq_none (by rw [hk]; rfl), hg.parent_eq_none (by rw [he.kind_shadow hk]; rfl)]
  · have hne : ∀ host, f.kind n ≠ .shadow host := fun host hk => hs ⟨host, hk⟩
    have hne' : ∀ host, g.kind n ≠ .shadow host := by
      intro host hk
      rw [← Kind.bare_eq_shadow, he.kind_eq n hn, Kind.bare_eq_shadow] at hk
      exact hne host hk
    rwa [composedParent_of_ne_shadow hne, composedParent_of_ne_shadow hne'] at hparents

theorem Extends.mem_textNodes_iff (he : f.Extends g) (hf : f.WellFormed) (hg : g.WellFormed)
    (hx : x < f.nodes.size) : x ∈ g.textNodes r ↔ x ∈ f.textNodes r := by
  have hrise : ∀ k x, x < f.nodes.size → g.rise k x = f.rise k x := by
    intro k
    induction k with
    | zero => exact fun _ _ => rfl
    | succ k ih =>
      intro x hx
      rw [rise, rise, he.parent_eq_of_lt hf hg hx]
      cases hp : f.parent x with
      | none => rfl
      | some p => exact ih p (hf.inside x p (hf.composedParent_of_parent hp))
  have htext : g.isText x = f.isText x := by
    have hk := he.kind_eq x hx
    unfold isText
    cases hf : f.kind x <;> cases hg : g.kind x <;> simp_all [Kind.bare]
  simp [textNodes, hf.mem_descendants_iff, hg.mem_descendants_iff, hrise _ x hx, htext]

/-! ### Filling placeholders -/

theorem fillNode_eq (params : Params) (f : Forest) (n : NodeId) : params.fillNode f n =
    (f.update n params.refill, (f.text? n).map params.fill != f.text? n) := by
  unfold Params.fillNode
  cases ht : f.text? n with
  | none =>
    have hstay : params.refill (f.node n) = f.node n := by
      unfold Params.refill
      split
      next hk => simp [text?, kind, hk] at ht
      next => rfl
    rw [update_of_eq hstay]
    rfl
  | some text =>
    have hk : (f.node n).kind = .text text := by
      rw [text?_eq_kind, kind] at ht
      cases hk : (f.node n).kind <;> simp_all [Kind.text?]
    have hrefill : params.refill (f.node n) = { f.node n with kind := .text (params.fill text) } := by
      simp [Params.refill, hk]
    have hstay : params.fill text = text → f.update n params.refill = f := by
      intro hsame
      refine update_of_eq ?_
      rw [hrefill, hsame, ← hk]
    dsimp only
    split
    next hc =>
      have hsame : params.fill text = text := Params.fill_of_not_contains (by simpa using hc)
      rw [hstay hsame, Option.map_some, hsame, bne_self_eq_false]
    next =>
      split
      next hsame =>
        rw [hstay (eq_of_beq hsame), Option.map_some, eq_of_beq hsame, bne_self_eq_false]
      next hother =>
        have hset : f.setText n (params.fill text) = f.update n params.refill := by
          refine update_congr ?_
          simp [hk, hrefill]
        rw [hset]
        simpa using hother

theorem node_fillNodes (params : Params) {l : List NodeId} (hl : l.Nodup) (f : Forest) (x : NodeId) :
    (l.foldl (fun f n => (params.fillNode f n).1) f).node x =
      if x ∈ l then params.refill (f.node x) else f.node x := by
  induction l generalizing f with
  | nil => rw [if_neg not_mem_nil]; rfl
  | cons n l ih =>
    obtain ⟨hn, hl⟩ := nodup_cons.mp hl
    rw [foldl_cons, ih hl, fillNode_eq, node_update_of_default rfl]
    by_cases hx : x = n
    · subst hx
      rw [if_neg hn, if_pos rfl, if_pos mem_cons_self]
    · simp [hx]

theorem refill_of_isEmpty (h : params.isEmpty) (n : Node) : params.refill n = n := by
  unfold Params.refill
  split
  next hk => rw [Params.fill_of_isEmpty h, ← hk]
  next => rfl

theorem WellFormed.node_fillTree (hf : f.WellFormed documents) (params : Params) (r x : NodeId) :
    (params.fillTree f r).1.node x =
      if x ∈ f.textNodes r then params.refill (f.node x) else f.node x := by
  rw [fillTree_forest]
  split
  next hempty => rw [refill_of_isEmpty hempty, ite_self]
  next => exact node_fillNodes params ((hf.nodup_below ..).filter _) f x

theorem text?_refill (params : Params) (n : Node) :
    (params.refill n).kind.text? = n.kind.text?.map params.fill := by
  unfold Params.refill
  cases hk : n.kind <;> simp [hk, Kind.text?]

theorem WellFormed.text?_fillTree (hf : f.WellFormed documents) (params : Params) (r x : NodeId) :
    (params.fillTree f r).1.text? x =
      if x ∈ f.textNodes r then (f.text? x).map params.fill else f.text? x := by
  rw [text?_eq_kind, kind, hf.node_fillTree, apply_ite Node.kind, apply_ite Kind.text?, text?_refill]
  rfl

/-! ### What stands in the document -/

theorem WellFormed.isConnected_eq (hf : f.WellFormed) {p : NodeId} (hp : f.composedParent n = some p) :
    f.isConnected n = f.isConnected p := by
  obtain ⟨hu, hroot⟩ := hf.rootOf_spec p
  have hsame := hf.rootOf_eq_iff.mpr ⟨hu.step hp, hroot⟩
  rw [isConnected, isConnected, hsame]

theorem Extends.isConnected_eq (he : f.Extends g) (hf : f.WellFormed) (hg : g.WellFormed)
    (hn : n < f.nodes.size) : g.isConnected n = f.isConnected n := by
  obtain ⟨hu, hroot⟩ := hf.rootOf_spec n
  have hlt := hf.lt_size_of_under hn hu
  have hsame := hg.rootOf_eq_iff.mpr ⟨(he.under_iff hf hn).mpr hu, (he.parent_eq _ hlt).trans hroot⟩
  rw [isConnected, isConnected, hsame, decide_eq_decide]
  exact he.document_iff hlt

/-! ### Ways up -/

theorem Extends.climb_eq (he : f.Extends g) (hf : f.WellFormed) (hx : x < f.nodes.size) (k : Nat) :
    g.climb k x = f.climb k x := by
  rw [Forest.climb_eq, Forest.climb_eq]
  exact filterMap_congr fun j _ => he.ascend_eq hf hx j

def way (f : Forest) (e x : NodeId) : List NodeId := (f.eventPath x).reverse.dropWhile (· != e)

theorem WellFormed.way_eq (hf : f.WellFormed) (hx : x < f.nodes.size) {e : NodeId}
    (hk : f.ascend k x = some e) : f.way e x = (f.climb k x).reverse := by
  have hrest : ∀ j, ∃ rest, f.climb (k + j) x = f.climb k x ++ rest ∧ ∀ m ∈ rest, m ≠ e := by
    intro j
    induction j with
    | zero => exact ⟨[], (append_nil _).symm, nofun⟩
    | succ j ih =>
      obtain ⟨rest, he, hne⟩ := ih
      refine ⟨rest ++ (f.ascend (k + j + 1) x).toList, ?_, forall_mem_append.mpr ⟨hne, ?_⟩⟩
      · rw [← Nat.add_assoc, climb_succ, he, append_assoc]
      · -- no node is met twice
        rintro m hm rfl
        have hsteps := hf.ascend_inj hk (Option.mem_toList.mp hm)
        omega
  obtain ⟨rest, he, hne⟩ := hrest (f.nodes.size - k)
  have hle := (hf.steps_lt_size hx hk).le
  rw [Nat.add_sub_cancel' hle] at he
  have hend : ∃ before, f.climb k x = before ++ [e] := by
    cases k with
    | zero => exact ⟨[], by rw [Option.some.inj hk]; rfl⟩
    | succ k => exact ⟨f.climb k x, by rw [climb_succ, hk]; rfl⟩
  obtain ⟨before, hbefore⟩ := hend
  rw [way, eventPath, he, reverse_append, dropWhile_append_of_pos, hbefore]
  · simp
  · intro m hm
    simpa using hne m (mem_reverse.mp hm)

end Forest

end Document

end Componentry
