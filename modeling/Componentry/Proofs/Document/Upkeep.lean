import Componentry.Proofs.Document.Texts

/-!
# Forests that are worked on

A forest grows from nothing by operations: nodes are made, hung, taken out and changed. As long as no
root of a hidden tree is hung and nothing is hung under itself, each operation keeps it well-formed.
Then the ways up end at roots, and the nodes below a node are those that have it above them, in the
order of the tree.
-/

namespace Componentry.Document.Forest

variable {f g : Forest} {n r : NodeId} {documents : Bool}

/-! ### Ways up and down -/

theorem getElem?_climb (f : Forest) (length k : Nat) (n : NodeId) :
    (f.climb length n)[k]? = if k ≤ length then f.ascend k n else none := by
  induction length generalizing k n with
  | zero => cases k <;> rfl
  | succ length ih =>
    rw [climb]
    cases k with
    | zero => cases f.composedParent n <;> rfl
    | succ k =>
      rw [ascend]
      cases f.composedParent n with
      | none => simp
      | some p => simp [ih]

variable (hf : f.WellFormed documents)

include hf

theorem WellFormed.getElem?_eventPath (n : NodeId) (k : Nat) :
    (f.eventPath n)[k]? = f.ascend k n := by
  rw [eventPath, getElem?_climb]
  split
  · rfl
  next hk =>
    cases ha : f.ascend k n with
    | none => rfl
    | some a =>
      cases k with
      | zero => exact absurd (Nat.zero_le _) hk
      | succ k =>
        have hlt := hf.steps_lt_size (lt_size_of_ascend ha) ha
        omega

theorem WellFormed.below_succ {depth : Nat}
    (hd : ∀ x k, f.rise (k + 1) x = some r → k < depth) :
    f.below (depth + 1) r = f.below depth r := by
  induction depth generalizing r with
  | zero =>
    have hnone : f.children r = [] := by
      refine List.eq_nil_iff_forall_not_mem.mpr fun c hc => ?_
      exact Nat.not_lt_zero 0 (hd c 0 (rise_succ_eq_some.mpr ⟨c, rfl, (hf.child_iff r c).mp hc⟩))
    simp [below, hnone]
  | succ depth ih =>
    refine List.flatMap_congr fun c hc => ?_
    rw [ih fun x k hx => ?_]
    have hx := rise_succ_eq_some.mpr ⟨c, hx, (hf.child_iff r c).mp hc⟩
    exact Nat.lt_of_succ_lt_succ (hd x (k + 1) hx)

theorem WellFormed.descendants_eq (r : NodeId) :
    f.descendants r = (f.children r).flatMap fun c => c :: f.descendants c := by
  rw [descendants, ← hf.below_succ]
  · rfl
  · intro x k hx
    obtain ⟨p, hp, -⟩ := Option.bind_eq_some_iff.mp hx
    exact Nat.lt_of_succ_lt (hf.steps_lt_size (lt_size_of_parent hp) (hf.ascend_of_rise hx))

/-- A walk with a stack: from the nodes on it, those that are taken from it until it is empty, where the
children of a node go on top. -/
inductive Unstacks (f : Forest) : List NodeId → List NodeId → Prop where
  | done : Unstacks f [] []
  | next {n : NodeId} {stack out : List NodeId} (h : Unstacks f (f.children n ++ stack) out) :
    Unstacks f (n :: stack) (n :: out)

theorem WellFormed.unstacks_iff {stack out : List NodeId} :
    f.Unstacks stack out ↔ out = stack.flatMap fun c => c :: f.descendants c := by
  have hstep : ∀ n stack, ((n :: stack).flatMap fun c => c :: f.descendants c) =
      n :: (f.children n ++ stack).flatMap fun c => c :: f.descendants c := by
    intro n stack
    rw [List.flatMap_append, ← hf.descendants_eq]
    rfl
  constructor
  · intro h
    induction h with
    | done => rfl
    | next _ ih => rw [hstep, ih]
  · rintro rfl
    -- by induction on how many nodes are still to come
    induction hn : (stack.flatMap fun c => c :: f.descendants c).length generalizing stack with
    | zero =>
      cases stack with
      | nil => exact .done
      | cons n stack => cases hn
    | succ k ih =>
      cases stack with
      | nil => cases hn
      | cons n stack =>
        rw [hstep] at hn ⊢
        exact .next (ih (Nat.succ.inj hn))

/-! ### Operations -/

/-- What can be done to a forest. -/
inductive Op where
  | createDocument
  | createElement (tag : String)
  | createText (value : String)
  | createComment (value : String)
  | createFragment
  | attachShadow (host : NodeId)
  | append (parent child : NodeId)
  | detach (id : NodeId)
  | clearChildren (id : NodeId)
  | setAttribute (id : NodeId) (name value : String)
  | removeAttribute (id : NodeId) (name : String)
  | setText (id : NodeId) (value : String)

def perform (f : Forest) : Op → Forest
  | .createDocument => f.createDocument.1
  | .createElement tag => (f.createElement tag).1
  | .createText value => (f.createText value).1
  | .createComment value => (f.createComment value).1
  | .createFragment => f.createFragment.1
  | .attachShadow host => (f.attachShadow host).1
  | .append parent child => f.append parent child
  | .detach id => f.detach id
  | .clearChildren id => f.clearChildren id
  | .setAttribute id name value => (f.setAttribute id name value).1
  | .removeAttribute id name => (f.removeAttribute id name).1
  | .setText id value => f.setText id value

/-- Hosts, and nodes that are hung, are there; no root of a hidden tree is hung, and nothing is hung
under itself or under what it is above of. -/
def Allows (f : Forest) : Op → Prop
  | .attachShadow host => host < f.nodes.size
  | .append parent child => parent < f.nodes.size ∧ child < f.nodes.size ∧
      (∀ host, f.kind child ≠ .shadow host) ∧ ¬ f.Under child parent
  | _ => True

/-- A forest that was made by operations. -/
inductive Reachable : Forest → Prop where
  | empty : Reachable {}
  | step {f : Forest} (h : Reachable f) (op : Op) (ha : f.Allows op) : Reachable (f.perform op)

/-- Taking out the root of a hidden tree does nothing, as it has no parent. -/
theorem WellFormed.detach_any (id : NodeId) : (f.detach id).WellFormed documents := by
  cases hp : f.parent id with
  | none =>
    rw [Forest.detach, hp]
    exact hf
  | some p => exact hf.detach (Kind.ne_shadow_of_isInner (hf.inner id p hp))

theorem WellFormed.attachShadow {host : NodeId}
    (hh : host < f.nodes.size) : (f.attachShadow host).1.WellFormed documents := by
  rw [attachShadow_eq]
  cases hs : f.shadow host with
  | some root => exact hf
  | none => exact hf.addShadow hh hs

omit hf

/-- What is no root of a hidden tree can be hung, where documents are let in. -/
theorem isInner_of_ne {k : Kind} (hs : ∀ host, k ≠ .shadow host) (hk : k ≠ .fragment) :
    k.isInner true := by
  cases k with
  | shadow host => exact absurd rfl (hs host)
  | fragment => exact absurd rfl hk
  | _ => rfl

theorem WellFormed.perform (hf : f.WellFormed true) {op : Op} (ha : f.Allows op) :
    (f.perform op).WellFormed true := by
  have hnew : ∀ {kind : Kind}, kind.isLoose → (f.create kind).1.WellFormed true := fun hk =>
    (KeepsTree.create f hk).wellFormed hf
  cases op with
  | createDocument =>
    exact hf.of_node_eq (Nat.le_of_lt (by simp [Forest.perform, createDocument])) (node_createDocument f)
  | createElement tag | createText value | createComment value | createFragment => exact hnew rfl
  | attachShadow host => exact hf.attachShadow ha
  | append parent child =>
    obtain ⟨hp, hc, hs, hn⟩ := ha
    exact (hf.append hc hp (isInner_of_ne hs) hn).wellFormed
  | detach id => exact hf.detach_any id
  | clearChildren id => exact hf.clearChildren id
  | setAttribute id name value | removeAttribute id name =>
    exact (KeepsTree.updateAttributes f id _).wellFormed hf
  | setText id value => exact (KeepsTree.setText f id value).wellFormed hf

theorem Reachable.wellFormed (h : Reachable f) : f.WellFormed true := by
  induction h with
  | empty => exact wellFormed_empty
  | step _ op ha ih => exact ih.perform ha

/-- A forest made by operations is a forest: parents and children, hosts and hidden trees agree,
fragments stand alone, and no way up comes back. The descendants of a node are those that have it
above them, each once and in the order of the tree, as a walk with a stack finds them, and the way of
an event leads up to the root. -/
theorem reachable_forest (h : Reachable f) :
    (∀ p c, c ∈ f.children p ↔ f.parent c = some p) ∧ (∀ p, (f.children p).Nodup) ∧
    (∀ n, f.kind n = .fragment → f.parent n = none) ∧
    (∀ host r, f.shadow host = some r ↔ f.kind r = .shadow host) ∧
    (∀ n k, f.ascend (k + 1) n ≠ some n) ∧
    (∀ r, (∀ n, n ∈ f.descendants r ↔ ∃ k, f.rise (k + 1) n = some r) ∧ (f.descendants r).Nodup ∧
      f.descendants r = ((f.children r).flatMap fun c => c :: f.descendants c) ∧
      ∀ out, f.Unstacks (f.children r) out ↔ out = f.descendants r) ∧
    ∀ n, (∀ k, (f.eventPath n)[k]? = f.ascend k n) ∧
      (f.eventPath n).getLast? = some (f.rootOf n) ∧ f.composedParent (f.rootOf n) = none := by
  have hf := h.wellFormed
  refine ⟨hf.child_iff, hf.nodup, fun n hn => ?_, hf.shadow_iff, fun n k ha => ?_, fun r => ?_,
    fun n => ⟨hf.getElem?_eventPath n, ?_, (hf.rootOf_spec n).2⟩⟩
  · exact hf.parent_eq_none (by rw [hn]; rfl)
  · cases hf.ascend_self ha
  · refine ⟨fun n => hf.mem_descendants_iff, hf.nodup_below _ r, hf.descendants_eq r, fun out => ?_⟩
    rw [hf.unstacks_iff, ← hf.descendants_eq]
  · have hne : f.eventPath n ≠ [] := by
      intro he
      have hfirst := hf.getElem?_eventPath n 0
      rw [he] at hfirst
      cases hfirst
    rw [rootOf, List.getLastD_eq_getLast?, List.getLast?_eq_some_getLast hne]
    rfl

theorem Reachable.hang (h : Reachable f) (p c : NodeId) (ha : p < f.nodes.size ∧ c < f.nodes.size ∧
    (f.kind c).isLoose ∧ f.composedParent p = none ∧ p ≠ c) : Reachable (f.perform (.append p c)) := by
  obtain ⟨hp, hc, hk, hroot, hne⟩ := ha
  refine h.step _ ⟨hp, hc, fun host he => ?_, fun hu => hne (hu.eq_of_root hroot)⟩
  rw [he] at hk
  cases hk

/-- A document with a paragraph, which has text from a fragment and a hidden tree. -/
def grove : List Op :=
  [.createDocument, .createElement "p", .createFragment, .createText "hi", .append 2 3, .append 1 2,
    .append 0 1, .attachShadow 1]

theorem reachable_grove : Reachable (grove.foldl perform {}) := by
  have hmade := (((Reachable.empty.step .createDocument trivial).step (.createElement "p")
    trivial).step .createFragment trivial).step (.createText "hi") trivial
  have htext := hmade.hang 2 3 (by decide)
  have hfilled := htext.hang 1 2 (by decide)
  have hhung := hfilled.hang 0 1 (by decide)
  exact hhung.step (.attachShadow 1) (show 1 < _ by decide)

theorem reachable_forest_grove : Reachable (grove.foldl perform {}) ∧
    ((grove.foldl perform {}).descendants 0 = [1, 3] ∧ (grove.foldl perform {}).eventPath 4 = [4, 1, 0]) ∧
    (grove.foldl perform {}).descendants 0 = ((grove.foldl perform {}).children 0).flatMap fun c =>
      c :: (grove.foldl perform {}).descendants c := by
  obtain ⟨-, -, -, -, -, hdescendants, -⟩ := reachable_forest reachable_grove
  exact ⟨reachable_grove, by decide, (hdescendants 0).2.2.1⟩

end Componentry.Document.Forest
