import Componentry.Proofs.Document.Frame
import Mathlib.Data.List.Nodup
import Mathlib.Data.List.Perm.Subperm

/-!
# Ancestry

Composed parents lead from a node up to its root. In a well-formed forest children and parents,
hosts and hidden trees agree, and no node is its own ancestor; so every way up ends at a root, within
as many steps as there are nodes. Nodes whose composed parents stay the same keep their ancestors,
and moving one node moves exactly what is under it.
-/

namespace Componentry.Document

open List

/-- Kinds of nodes that can be the child of another; documents can where they are let in. -/
def Kind.isInner (k : Kind) (documents : Bool := false) : Bool :=
  match k with
  | .element .. | .text _ | .comment _ => true
  | .document => documents
  | .shadow _ | .fragment => false

def Shape.composedParent (s : Shape) : Option NodeId :=
  match s.kind with
  | .shadow host => some host
  | _ => s.parent

namespace Forest

variable {f g : Forest} {a b c m n p : NodeId} {j k : Nat} {documents : Bool}

/-! ### Ways up -/

def ascend (f : Forest) : Nat → NodeId → Option NodeId
  | 0, n => some n
  | k + 1, n => (f.composedParent n).bind (f.ascend k)

/-- A node is another or stands under it. -/
def Under (f : Forest) (a n : NodeId) : Prop := ∃ k, f.ascend k n = some a

theorem composedParent_eq_shape (f : Forest) (n : NodeId) :
    f.composedParent n = (f.node n).shape.composedParent := by
  unfold composedParent Shape.composedParent kind Node.shape
  cases (f.node n).kind <;> rfl

theorem ascend_add (f : Forest) (j k : Nat) (n : NodeId) :
    f.ascend (j + k) n = (f.ascend j n).bind (f.ascend k) := by
  induction j generalizing n with
  | zero => rw [Nat.zero_add]; rfl
  | succ j ih =>
    rw [Nat.succ_add]
    simp only [ascend]
    cases f.composedParent n with
    | none => rfl
    | some p => exact ih p

theorem ascend_succ_eq_some :
    f.ascend (k + 1) n = some a ↔ ∃ c, f.ascend k n = some c ∧ f.composedParent c = some a := by
  rw [ascend_add]
  simp [ascend, Option.bind_eq_some_iff]

theorem ascend_sub (hj : f.ascend j n = some b) (hk : f.ascend k n = some a) (h : j ≤ k) :
    f.ascend (k - j) b = some a := by
  have hs := f.ascend_add j (k - j) n
  rw [Nat.add_sub_cancel' h, hk, hj] at hs
  exact hs.symm

theorem climb_eq (f : Forest) (k : Nat) (n : NodeId) :
    f.climb k n = (range (k + 1)).filterMap (f.ascend · n) := by
  induction k generalizing n with
  | zero => rfl
  | succ k ih =>
    rw [climb, range_succ_eq_map, filterMap_cons, filterMap_map]
    cases hp : f.composedParent n with
    | none => simp [Function.comp_def, ascend, hp]
    | some p => simp [Function.comp_def, ascend, hp, ih]

theorem climb_succ (f : Forest) (k : Nat) (n : NodeId) :
    f.climb (k + 1) n = f.climb k n ++ (f.ascend (k + 1) n).toList := by
  rw [climb_eq, climb_eq, range_succ, filterMap_append]
  cases h : f.ascend (k + 1) n <;> simp [h]

theorem mem_climb : a ∈ f.climb k n ↔ ∃ j ≤ k, f.ascend j n = some a := by
  simp [climb_eq, mem_filterMap, mem_range, Nat.lt_succ_iff]

/-- A climb ends at a node on the way up, which is a root unless the climb was too short. -/
theorem climb_last (f : Forest) (k : Nat) (n : NodeId) :
    ∃ j ≤ k, f.ascend j n = some ((f.climb k n).getLastD n) ∧
      (j = k ∨ f.composedParent ((f.climb k n).getLastD n) = none) := by
  induction k with
  | zero => exact ⟨0, le_rfl, rfl, .inl rfl⟩
  | succ k ih =>
    rw [climb_succ]
    cases hk : f.ascend (k + 1) n with
    | none =>
      obtain ⟨j, hj, ha, hlast⟩ := ih
      rw [Option.toList_none, append_nil]
      refine ⟨j, Nat.le_succ_of_le hj, ha, .inr (hlast.elim ?_ id)⟩
      rintro rfl
      rw [ascend_add, ha] at hk
      simpa [ascend] using hk
    | some a => exact ⟨k + 1, le_rfl, by simpa using hk, .inl rfl⟩

theorem Under.refl (f : Forest) (n : NodeId) : f.Under n n := ⟨0, rfl⟩

theorem Under.step (hp : f.composedParent n = some p) (h : f.Under a p) : f.Under a n := by
  obtain ⟨k, hk⟩ := h
  exact ⟨k + 1, by rw [ascend, hp]; exact hk⟩

theorem Under.trans (h : f.Under a b) (h' : f.Under b n) : f.Under a n := by
  obtain ⟨k, hk⟩ := h
  obtain ⟨j, hj⟩ := h'
  exact ⟨j + k, by rw [ascend_add, hj]; exact hk⟩

theorem Under.parent (h : f.Under a n) (hne : n ≠ a) :
    ∃ p, f.composedParent n = some p ∧ f.Under a p := by
  obtain ⟨k, hk⟩ := h
  cases k with
  | zero => exact absurd (Option.some.inj hk) hne
  | succ k =>
    obtain ⟨p, hp, hk⟩ := Option.bind_eq_some_iff.mp hk
    exact ⟨p, hp, k, hk⟩

theorem Under.child (h : f.Under a n) (hne : n ≠ a) :
    ∃ c, f.composedParent c = some a ∧ f.Under c n := by
  obtain ⟨k, hk⟩ := h
  cases k with
  | zero => exact absurd (Option.some.inj hk) hne
  | succ k =>
    obtain ⟨c, hc, hp⟩ := ascend_succ_eq_some.mp hk
    exact ⟨c, hp, k, hc⟩

theorem Under.total (ha : f.Under a n) (hb : f.Under b n) : f.Under a b ∨ f.Under b a := by
  obtain ⟨k, hk⟩ := ha
  obtain ⟨j, hj⟩ := hb
  rcases Nat.le_total j k with h | h
  · exact .inl ⟨k - j, ascend_sub hj hk h⟩
  · exact .inr ⟨j - k, ascend_sub hk hj h⟩

theorem Under.eq_of_root (h : f.Under a n) (hn : f.composedParent n = none) : n = a := by
  by_contra hne
  obtain ⟨p, hp, -⟩ := h.parent hne
  rw [hn] at hp
  cases hp

/-- What holds of a node and goes down from parents holds of all that is under the node. -/
@[elab_as_elim] theorem Under.induct {motive : NodeId → Prop} (h : f.Under a n) (here : motive a)
    (down : ∀ n p, f.composedParent n = some p → f.Under a p → motive p → motive n) : motive n := by
  obtain ⟨k, hk⟩ := h
  induction k generalizing n with
  | zero => exact Option.some.inj hk ▸ here
  | succ k ih =>
    obtain ⟨p, hp, hk⟩ := Option.bind_eq_some_iff.mp hk
    exact down n p hp ⟨k, hk⟩ (ih hk)

/-! ### Forests that agree on parents -/

/-- Ways up are the same if they only pass nodes that have the same parents. -/
theorem ascend_eq_of (alike : NodeId → Prop) (hn : alike n)
    (h : ∀ n, alike n → g.composedParent n = f.composedParent n ∧
      ∀ p, f.composedParent n = some p → alike p) (k : Nat) : g.ascend k n = f.ascend k n := by
  induction k generalizing n with
  | zero => rfl
  | succ k ih =>
    obtain ⟨he, hup⟩ := h n hn
    rw [ascend, ascend, he]
    cases hp : f.composedParent n with
    | none => rfl
    | some p => exact ih (hup p hp)

theorem ascend_congr (h : ∀ n, g.composedParent n = f.composedParent n) (k : Nat) (n : NodeId) :
    g.ascend k n = f.ascend k n :=
  ascend_eq_of (fun _ => True) trivial (fun n _ => ⟨h n, fun _ _ => trivial⟩) k

/-- Two forests have the same composed parents but for one node. -/
def DifferAt (f g : Forest) (c : NodeId) : Prop :=
  ∀ n, n ≠ c → g.composedParent n = f.composedParent n

namespace DifferAt

variable (h : f.DifferAt g c)

include h

theorem symm : g.DifferAt f c := fun n hn => (h n hn).symm

theorem ascend_eq (hn : ¬ f.Under c n) (k : Nat) : g.ascend k n = f.ascend k n := by
  refine ascend_eq_of (¬ f.Under c ·) hn (fun n hn => ⟨h n ?_, fun p hp hc => hn (hc.step hp)⟩) k
  rintro rfl
  exact hn (.refl f n)

theorem under (hn : f.Under c n) : g.Under c n := by
  refine hn.induct (.refl g c) fun n p hp _ ih => ?_
  by_cases hne : n = c
  · exact hne ▸ Under.refl g n
  · exact ih.step ((h n hne).trans hp)

theorem under_iff : g.Under c n ↔ f.Under c n := ⟨h.symm.under, h.under⟩

theorem under_iff_of_not (hn : ¬ f.Under c n) : g.Under a n ↔ f.Under a n := by
  simp [Under, h.ascend_eq hn]

end DifferAt

/-! ### Well-formed forests -/

/-- Children and parents, hosts and hidden trees agree, and no node is its own ancestor. -/
structure WellFormed (f : Forest) (documents : Bool := false) : Prop where
  /-- The children of a node are those that have it as parent. -/
  child_iff : ∀ p c, c ∈ f.children p ↔ f.parent c = some p
  nodup : ∀ p, (f.children p).Nodup
  /-- The hidden tree of a node is the one that has it as host. -/
  shadow_iff : ∀ h r, f.shadow h = some r ↔ f.kind r = .shadow h
  /-- Only elements, text and comments are children, and documents where they are let in. -/
  inner : ∀ n p, f.parent n = some p → (f.kind n).isInner documents
  inside : ∀ n p, f.composedParent n = some p → p < f.nodes.size
  /-- Ways up lead to ever lower levels. -/
  grounded : ∃ level : NodeId → Nat, ∀ n p, f.composedParent n = some p → level p < level n

theorem composedParent_of_size_le (h : f.nodes.size ≤ n) : f.composedParent n = none := by
  rw [composedParent_eq_shape, node_of_size_le h]
  rfl

theorem lt_size_of_composedParent (h : f.composedParent n = some p) : n < f.nodes.size := by
  by_contra hn
  rw [composedParent_of_size_le (not_lt.mp hn)] at h
  cases h

theorem lt_size_of_ascend (h : f.ascend (k + 1) n = some a) : n < f.nodes.size := by
  obtain ⟨p, hp, -⟩ := Option.bind_eq_some_iff.mp h
  exact lt_size_of_composedParent hp

theorem Under.lt_size (h : f.Under a n) (ha : a < f.nodes.size) : n < f.nodes.size := by
  by_contra hn
  exact hn (h.eq_of_root (composedParent_of_size_le (not_lt.mp hn)) ▸ ha)

namespace WellFormed

theorem level_add_le {level : NodeId → Nat}
    (hl : ∀ n p, f.composedParent n = some p → level p < level n) (h : f.ascend k n = some a) :
    level a + k ≤ level n := by
  induction k generalizing n with
  | zero => exact Option.some.inj h ▸ le_rfl
  | succ k ih =>
    obtain ⟨p, hp, hk⟩ := Option.bind_eq_some_iff.mp h
    have hlt := hl n p hp
    have hle := ih hk
    omega

variable (hf : f.WellFormed documents)

include hf

theorem parent_eq_none (h : (f.kind n).isInner documents = false) : f.parent n = none := by
  cases hp : f.parent n with
  | none => rfl
  | some p => cases (hf.inner n p hp).symm.trans h

theorem composedParent_of_parent (h : f.parent n = some p) : f.composedParent n = some p := by
  have hi := hf.inner n p h
  unfold composedParent
  split
  next host hk => rw [hk] at hi; cases hi
  next => exact h

theorem composedParent_of_child (h : c ∈ f.children p) : f.composedParent c = some p :=
  hf.composedParent_of_parent ((hf.child_iff p c).mp h)

theorem composedParent_iff :
    f.composedParent c = some n ↔ c ∈ (f.shadow n).toList ++ f.children n := by
  rw [mem_append, Option.mem_toList, hf.child_iff]
  constructor
  · intro h
    unfold composedParent at h
    split at h
    next host hk =>
      have he : host = n := Option.some.inj h
      subst he
      exact .inl ((hf.shadow_iff _ _).mpr hk)
    next => exact .inr h
  · rintro (h | h)
    · unfold composedParent
      rw [(hf.shadow_iff _ _).mp h]
    · exact hf.composedParent_of_parent h

theorem nodup_composed (n : NodeId) : ((f.shadow n).toList ++ f.children n).Nodup := by
  refine nodup_append.mpr ⟨?_, hf.nodup n, ?_⟩
  · cases f.shadow n <;> simp
  · intro r hr c hc he
    subst he
    have hk := (hf.shadow_iff _ _).mp (Option.mem_toList.mp hr)
    have hi := hf.inner r n ((hf.child_iff _ _).mp hc)
    rw [hk] at hi
    cases hi

theorem ascend_self (h : f.ascend k n = some n) : k = 0 := by
  obtain ⟨level, hl⟩ := hf.grounded
  have hle := level_add_le hl h
  omega

theorem ascend_inj (hj : f.ascend j n = some a) (hk : f.ascend k n = some a) : j = k := by
  rcases Nat.le_total j k with h | h
  · have := hf.ascend_self (ascend_sub hj hk h)
    omega
  · have := hf.ascend_self (ascend_sub hk hj h)
    omega

theorem not_under_child (hp : f.composedParent c = some p) : ¬ f.Under c p := by
  rintro ⟨k, hk⟩
  have hc : f.ascend (k + 1) c = some c := by rw [ascend, hp]; exact hk
  cases hf.ascend_self hc

theorem eq_of_under_siblings (ha : f.composedParent a = some p) (hb : f.composedParent b = some p)
    (hna : f.Under a n) (hnb : f.Under b n) : a = b := by
  by_contra hne
  rcases hna.total hnb with h | h
  · obtain ⟨q, hq, h⟩ := h.parent fun he => hne he.symm
    rw [hb] at hq
    exact hf.not_under_child ha (Option.some.inj hq ▸ h)
  · obtain ⟨q, hq, h⟩ := h.parent hne
    rw [ha] at hq
    exact hf.not_under_child hb (Option.some.inj hq ▸ h)

theorem ascend_lt_size (hn : n < f.nodes.size) (h : f.ascend k n = some a) : a < f.nodes.size := by
  cases k with
  | zero => exact Option.some.inj h ▸ hn
  | succ k =>
    obtain ⟨c, -, hp⟩ := ascend_succ_eq_some.mp h
    exact hf.inside c a hp

theorem steps_lt_size (hn : n < f.nodes.size) (h : f.ascend k n = some a) : k < f.nodes.size := by
  -- The nodes on the way, from the first to the last.
  let way := (range (k + 1)).map fun i => (f.ascend i n).getD 0
  have hsome : ∀ i ≤ k, ∃ x, f.ascend i n = some x := by
    intro i hi
    have hs := f.ascend_add i (k - i) n
    rw [Nat.add_sub_cancel' hi, h] at hs
    obtain ⟨x, hx, -⟩ := Option.bind_eq_some_iff.mp hs.symm
    exact ⟨x, hx⟩
  have hnodup : way.Nodup := by
    refine (nodup_map_iff_inj_on nodup_range).mpr ?_
    intro i hi j hj he
    obtain ⟨x, hx⟩ := hsome i (Nat.le_of_lt_succ (mem_range.mp hi))
    obtain ⟨y, hy⟩ := hsome j (Nat.le_of_lt_succ (mem_range.mp hj))
    rw [hx, hy] at he
    have he : x = y := he
    exact hf.ascend_inj hx (he ▸ hy)
  have hsub : way ⊆ range f.nodes.size := by
    intro x hx
    obtain ⟨i, hi, rfl⟩ := mem_map.mp hx
    obtain ⟨y, hy⟩ := hsome i (Nat.le_of_lt_succ (mem_range.mp hi))
    rw [hy]
    exact mem_range.mpr (hf.ascend_lt_size hn hy)
  have hle := (hnodup.subperm hsub).length_le
  rw [length_map, length_range, length_range] at hle
  exact hle

/-! ### Roots -/

theorem rootOf_spec (n : NodeId) :
    f.Under (f.rootOf n) n ∧ f.composedParent (f.rootOf n) = none := by
  obtain ⟨j, hj, ha, hlast⟩ := climb_last f f.nodes.size n
  refine ⟨⟨j, ha⟩, ?_⟩
  rcases hlast with rfl | hlast
  · by_cases hn : n < f.nodes.size
    · exact absurd (hf.steps_lt_size hn ha) (lt_irrefl _)
    · have hnone := composedParent_of_size_le (not_lt.mp hn)
      have he : n = f.rootOf n := Under.eq_of_root ⟨_, ha⟩ hnone
      rw [← he, hnone]
  · exact hlast

theorem rootOf_eq_iff {r : NodeId} : f.rootOf n = r ↔ f.Under r n ∧ f.composedParent r = none := by
  obtain ⟨hu, hr⟩ := hf.rootOf_spec n
  constructor
  · rintro rfl
    exact ⟨hu, hr⟩
  · rintro ⟨hu', hr'⟩
    rcases hu.total hu' with h | h
    · exact (h.eq_of_root hr').symm
    · exact h.eq_of_root hr

theorem mem_eventPath (hn : n < f.nodes.size) (h : f.Under a n) : a ∈ f.eventPath n := by
  obtain ⟨k, hk⟩ := h
  exact mem_climb.mpr ⟨k, (hf.steps_lt_size hn hk).le, hk⟩

/-! ### Descendants -/

theorem under_of_mem_below {depth : Nat} (h : m ∈ f.below depth n) : f.Under n m ∧ m ≠ n := by
  induction depth generalizing n with
  | zero => cases h
  | succ depth ih =>
    obtain ⟨c, hc, hm⟩ := mem_flatMap.mp h
    have hp := hf.composedParent_of_child hc
    have hu : f.Under c m := by
      rcases mem_cons.mp hm with rfl | hm
      · exact Under.refl f m
      · exact (ih hm).1
    refine ⟨((Under.refl f n).step hp).trans hu, ?_⟩
    rintro rfl
    exact hf.not_under_child hp hu

theorem nodup_below (depth : Nat) (n : NodeId) : (f.below depth n).Nodup := by
  induction depth generalizing n with
  | zero => exact nodup_nil
  | succ depth ih =>
    have hunder : ∀ c, ∀ x ∈ c :: f.below depth c, f.Under c x := by
      intro c x hx
      rcases mem_cons.mp hx with rfl | hx
      · exact Under.refl f x
      · exact (hf.under_of_mem_below hx).1
    refine nodup_flatMap.mpr ⟨?_, ?_⟩
    · intro c _
      exact nodup_cons.mpr ⟨fun hc => (hf.under_of_mem_below hc).2 rfl, ih c⟩
    · refine Pairwise.imp_of_mem ?_ (hf.nodup n)
      intro b c hb hc hne x hxb hxc
      exact hne (hf.eq_of_under_siblings (hf.composedParent_of_child hb)
        (hf.composedParent_of_child hc) (hunder b x hxb) (hunder c x hxc))

end WellFormed

/-! ### Trees side by side -/

/-- No root is under another. -/
def Apart (f : Forest) (roots : List NodeId) : Prop :=
  roots.Pairwise fun r r' => ¬ f.Under r r' ∧ ¬ f.Under r' r

namespace Apart

variable {roots : List NodeId}

theorem of_under (h : f.Apart roots) (hu : ∀ a, ∀ b ∈ roots, g.Under a b → f.Under a b) :
    g.Apart roots :=
  h.imp_of_mem fun ha hb h => ⟨fun hab => h.1 (hu _ _ hb hab), fun hba => h.2 (hu _ _ ha hba)⟩

theorem not_under (h : f.Apart (n :: roots)) (ha : a ∈ roots) (hb : f.Under n b) : ¬ f.Under a b := by
  obtain ⟨hna, han⟩ := (pairwise_cons.mp h).1 a ha
  intro hab
  rcases hb.total hab with hu | hu
  · exact hna hu
  · exact han hu

/-- The trees under a root stand side by side in its place. -/
theorem descend (h : f.Apart (n :: roots)) (hf : f.WellFormed) :
    f.Apart (((f.shadow n).toList ++ f.children n) ++ roots) := by
  have hparent : ∀ c ∈ (f.shadow n).toList ++ f.children n, f.composedParent c = some n := fun c =>
    hf.composedParent_iff.mpr
  refine pairwise_append.mpr ⟨(hf.nodup_composed n).imp_of_mem fun {b c} hb hc hne => ?_,
    (pairwise_cons.mp h).2, fun c hc r hr => ?_⟩
  · have hsame := fun m => hf.eq_of_under_siblings (n := m) (hparent b hb) (hparent c hc)
    exact ⟨fun hu => hne (hsame c hu (.refl f c)), fun hu => hne (hsame b (.refl f b) hu)⟩
  · have hnc := (Under.refl f n).step (hparent c hc)
    exact ⟨fun hu => h.not_under hr (hnc.trans hu) (.refl f r), h.not_under hr hnc⟩

end Apart

end Forest

end Componentry.Document
