import Componentry.Proofs.Document.Growth
import Componentry.Proofs.Keyed
import Mathlib.Data.List.Induction

/-!
# Copies of fragments

Copying a fragment under a node makes a new node for each of its nodes and no other. Each is linked as
its pattern is, with its tag and the names of its attributes in lower case, and the tops of the copies
become the last children of the node, in order. The nodes that were there are otherwise left as they
are, with their listeners and sheets.
-/

namespace Componentry.Markup

mutual

/-- The number of nodes of a tree. -/
def FragmentNode.count : FragmentNode → Nat
  | .element _ _ children => FragmentNode.countAll children + 1
  | .text _ | .comment _ => 1

def FragmentNode.countAll : List FragmentNode → Nat
  | [] => 0
  | n :: rest => n.count + FragmentNode.countAll rest

end

theorem FragmentNode.count_pos (t : FragmentNode) : 0 < t.count := by
  cases t <;> simp [FragmentNode.count]

end Componentry.Markup

namespace Componentry.Document

open Markup (FragmentNode)

namespace Forest

open List

variable {f g h : Forest} {n root parent : NodeId} {t : FragmentNode}

mutual

/-- A child of `parent` is a copy of a tree. Of several attributes with one name the last counts. -/
def IsCopy (f : Forest) (parent : NodeId) : FragmentNode → NodeId → Prop
  | .text s, n => f.node n = { kind := .text s, parent := some parent }
  | .comment s, n => f.node n = { kind := .comment s, parent := some parent }
  | .element tag attributes children, n => ∃ d ids,
    f.node n = { kind := .element tag.toLower d, parent := some parent, children := ids } ∧
    (∀ name, d.find? name = (attributes.reverse.find? fun a => a.1.toLower == name).map (·.2)) ∧
    AreCopies f n children ids

def AreCopies (f : Forest) (parent : NodeId) : List FragmentNode → List NodeId → Prop
  | [], ids => ids = []
  | t :: rest, ids => ∃ n others, ids = n :: others ∧ IsCopy f parent t n ∧
    AreCopies f parent rest others

end

/-- A tree was made whose first node has no parent yet: once it is given one and the others are left
alone, it is a copy of the pattern. -/
structure Made (f g : Forest) (t : FragmentNode) : Prop where
  size_eq : g.nodes.size = f.nodes.size + t.count
  node_eq : ∀ n < f.nodes.size, g.node n = f.node n
  listener_eq : g.lastListener = f.lastListener
  top : (g.node f.nodes.size).parent = none ∧ (g.node f.nodes.size).kind ≠ .fragment
  copy : ∀ (h : Forest) parent, (∀ n, f.nodes.size ≤ n → n < g.nodes.size → h.node n =
      if n = f.nodes.size then { g.node n with parent := some parent } else g.node n) →
    h.IsCopy parent t f.nodes.size

/-- Trees were made under a node, and are copies of their patterns as long as the new nodes are left
alone. -/
structure Planted (f g : Forest) (root : NodeId) (l : List FragmentNode) (ids : List NodeId) :
    Prop where
  size_eq : g.nodes.size = f.nodes.size + FragmentNode.countAll l
  node_eq : ∀ n < f.nodes.size, g.node n =
    if n = root then { f.node n with children := (f.node n).children ++ ids } else f.node n
  listener_eq : g.lastListener = f.lastListener
  fresh : ∀ n ∈ ids, f.nodes.size ≤ n ∧ n < g.nodes.size
  copies : ∀ h : Forest, (∀ n, f.nodes.size ≤ n → n < g.nodes.size → h.node n = g.node n) →
    h.AreCopies root l ids

theorem node_newElement (f : Forest) (tag : String) (attributes : List (String × String)) :
    let g := attributes.foldl (fun g a => (g.setAttribute f.nodes.size a.1 a.2).1)
      (f.createElement tag).1
    g.nodes.size = f.nodes.size + 1 ∧ g.lastListener = f.lastListener ∧
      (∀ n < f.nodes.size, g.node n = f.node n) ∧
      ∃ d, g.node f.nodes.size = { kind := .element tag.toLower d } ∧ ∀ name, d.find? name =
        (attributes.reverse.find? fun a => a.1.toLower == name).map (·.2) := by
  induction attributes using reverseRecOn with
  | nil =>
    exact ⟨size_create .., rfl, fun n hn => (node_create ..).trans (if_neg hn.ne),
      .empty, (node_create ..).trans (if_pos rfl), fun _ => rfl⟩
  | append_singleton attributes a ih =>
    obtain ⟨hsize, hl, hold, d, hd, hfind⟩ := ih
    rw [foldl_concat]
    refine ⟨(size_update ..).trans hsize, hl, fun n hn => ?_, d.insert a.1.toLower a.2, ?_,
      fun name => ?_⟩
    · exact ((node_update ..).trans (if_neg fun h => hn.ne h.1)).trans (hold n hn)
    · refine (node_update ..).trans ((if_pos ⟨rfl, hsize ▸ Nat.lt_add_one _⟩).trans ?_)
      rw [hd]
    · rw [Dictionary.find?_insert, hfind, reverse_concat, find?_cons]
      by_cases he : name = a.1.toLower
      · simp [he]
      · rw [if_neg he, beq_false_of_ne (Ne.symm he)]

theorem Made.append_eq (hm : f.Made g t) (root : NodeId) :
    g.append root f.nodes.size = g.hang root f.nodes.size := by
  have hdetach : g.detach f.nodes.size = g := by
    rw [detach, show g.parent f.nodes.size = none from hm.top.1]
  have hlink : g.append root f.nodes.size = g.link root f.nodes.size := by
    unfold append
    split
    next hk => exact absurd hk hm.top.2
    next => rfl
  rw [hlink, link_eq, hdetach]

theorem Made.node_hang (hm : f.Made g t) (hroot : root < f.nodes.size)
    (n : NodeId) : (g.hang root f.nodes.size).node n =
      if n = f.nodes.size then { g.node n with parent := some root }
      else if n = root then { f.node n with children := (f.node n).children ++ [f.nodes.size] }
      else g.node n := by
  have hlt : f.nodes.size < g.nodes.size := by
    rw [hm.size_eq]
    exact Nat.lt_add_of_pos_right (FragmentNode.count_pos t)
  rw [hang, node_update, node_update]
  by_cases hn : n = f.nodes.size
  · subst hn
    simp [hlt, hroot.ne']
  · by_cases hr : n = root
    · subst hr
      simp [hn, hroot.trans hlt, hm.node_eq n hroot]
    · simp [hn, hr]

theorem Made.create (f : Forest) (kind : Kind) (hk : kind ≠ .fragment)
    (ht : t.count = 1) (hcopy : ∀ (h : Forest) parent n,
      h.node n = { kind, parent := some parent } → h.IsCopy parent t n) :
    f.Made (f.create kind).1 t := by
  have htop : (f.create kind).1.node f.nodes.size = { kind } := (node_create ..).trans (if_pos rfl)
  refine ⟨by rw [size_create, ht], fun n hn => (node_create ..).trans (if_neg hn.ne), rfl, ?_,
    fun h parent hh => hcopy h parent _ ?_⟩
  · rw [htop]
    exact ⟨rfl, hk⟩
  · rw [hh _ le_rfl (by simp), if_pos rfl, htop]

mutual

theorem build_made (f : Forest) : ∀ t : FragmentNode, f.Made (f.build t).1 t
  | .text s => .create f (.text s) nofun rfl fun _ _ _ hn => hn
  | .comment s => .create f (.comment s) nofun rfl fun _ _ _ hn => hn
  | .element tag attributes children => by
    obtain ⟨hsize, hl, hold, d, hd, hfind⟩ := node_newElement f tag attributes
    unfold build
    simp only [show (f.createElement tag).2 = f.nodes.size from rfl]
    generalize attributes.foldl _ _ = g at hsize hl hold hd ⊢
    have hp := buildAll_planted g f.nodes.size (hsize ▸ Nat.lt_add_one _) children
    have htop := hp.node_eq f.nodes.size (hsize ▸ Nat.lt_add_one _)
    rw [if_pos rfl, hd, nil_append] at htop
    refine ⟨?_, fun n hn => ?_, hp.listener_eq.trans hl, ?_, fun h parent hh => ⟨d, _, ?_, hfind,
      hp.copies h fun n hn hlt => ?_⟩⟩
    · rw [hp.size_eq, hsize, FragmentNode.count, Nat.add_assoc, Nat.add_comm 1]
    · rw [hp.node_eq n (by omega), if_neg hn.ne, hold n hn]
    · rw [htop]
      exact ⟨rfl, nofun⟩
    · rw [hh _ le_rfl (by have := hp.size_eq; omega), if_pos rfl, htop]
    · rw [hh n (by omega) hlt, if_neg (by omega)]

theorem buildAll_planted (f : Forest) (root : NodeId) (hroot : root < f.nodes.size) : ∀ l : List FragmentNode,
    f.Planted (f.buildAll root l).1 root l (f.buildAll root l).2
  | [] => ⟨rfl, fun n _ => by simp [buildAll], rfl, fun _ hn => absurd hn not_mem_nil,
      fun _ _ => rfl⟩
  | t :: rest => by
    have hm := build_made f t
    have hsize : ((f.build t).1.hang root f.nodes.size).nodes.size = f.nodes.size + t.count :=
      (SameNodes.hang ..).size_eq.trans hm.size_eq
    have hp := buildAll_planted ((f.build t).1.hang root f.nodes.size) root
      (hsize ▸ Nat.lt_add_right _ hroot) rest
    have he : f.buildAll root (t :: rest) =
        ((((f.build t).1.hang root f.nodes.size).buildAll root rest).1,
          f.nodes.size :: (((f.build t).1.hang root f.nodes.size).buildAll root rest).2) := by
      rw [← hm.append_eq, ← build_id f t]
      rfl
    rw [he]
    have hpos := FragmentNode.count_pos t
    have hle := hsize ▸ Nat.le.intro hp.size_eq.symm
    have hnew : ∀ n, f.nodes.size ≤ n → n < f.nodes.size + t.count →
        (((f.build t).1.hang root f.nodes.size).buildAll root rest).1.node n =
          if n = f.nodes.size then { (f.build t).1.node n with parent := some root }
          else (f.build t).1.node n := by
      intro n hn hlt
      have hne : n ≠ root := fun he => absurd (he ▸ hn) hroot.not_ge
      rw [hp.node_eq n (hsize ▸ hlt), if_neg hne, hm.node_hang hroot, if_neg hne]
    refine ⟨?_, fun n hn => ?_, hp.listener_eq.trans hm.listener_eq, fun n hn => ?_, fun h hh => ?_⟩
    · rw [hp.size_eq, hsize, FragmentNode.countAll, Nat.add_assoc]
    · rw [hp.node_eq n (by omega), hm.node_hang hroot, if_neg hn.ne]
      split
      · rw [append_assoc]
        rfl
      · exact hm.node_eq n hn
    · rcases mem_cons.mp hn with rfl | hn
      · exact ⟨le_rfl, (Nat.lt_add_of_pos_right hpos).trans_le hle⟩
      · obtain ⟨hge, hlt⟩ := hp.fresh n hn
        exact ⟨(Nat.le_add_right ..).trans (hsize ▸ hge), hlt⟩
    · refine ⟨_, _, rfl, hm.copy h root fun n hn hlt => ?_, hp.copies h fun n hn hlt => ?_⟩
      · rw [hm.size_eq] at hlt
        rw [hh n hn (hlt.trans_le hle)]
        exact hnew n hn hlt
      · exact hh n ((Nat.le_add_right ..).trans (hsize ▸ hn)) hlt

end

/-- Copying a fragment under a node. What is new are exact copies of the fragment and nothing else: the
copies hang last under the node, in order, and have as many nodes as were made. Every other node is
what it was. -/
theorem buildAll_copies {f : Forest} (hf : f.WellFormed) {parent : NodeId}
    (hparent : parent < f.nodes.size) (fragment : List FragmentNode) :
    let (g, ids) := f.buildAll parent fragment
    g.WellFormed ∧ g.nodes.size = f.nodes.size + FragmentNode.countAll fragment ∧
    g.AreCopies parent fragment ids ∧ ids.Nodup ∧
    (∀ n ∈ ids, f.nodes.size ≤ n ∧ n < g.nodes.size) ∧
    (∀ n < f.nodes.size, g.node n =
      if n = parent then { f.node n with children := (f.node n).children ++ ids } else f.node n) ∧
    g.lastListener = f.lastListener := by
  have hp := buildAll_planted f parent hparent fragment
  have hg := (buildAll_grown f hf hparent fragment).1.wellFormed
  have hchildren : (f.buildAll parent fragment).1.children parent =
      f.children parent ++ (f.buildAll parent fragment).2 := by
    rw [children, hp.node_eq parent hparent, if_pos rfl]
    rfl
  have hnodup := hg.nodup parent
  rw [hchildren] at hnodup
  exact ⟨hg, hp.size_eq, hp.copies _ fun _ _ _ => rfl, (nodup_append.mp hnodup).2.1, hp.fresh,
    hp.node_eq, hp.listener_eq⟩

def listItem : List FragmentNode := [.element "LI" [("Class", "old"), ("class", "new")] [.text "one"]]

theorem buildAll_copies_item : let f := (({} : Forest).createElement "ul").1
    let g := (f.buildAll 0 listItem).1
    g.children 0 = [1] ∧ g.tag? 1 = some "li" ∧ g.attribute? 1 "class" = some "new" ∧
      g.AreCopies 0 listItem (f.buildAll 0 listItem).2 := by
  have hf : (({} : Forest).createElement "ul").1.WellFormed :=
    (KeepsTree.create {} rfl).wellFormed wellFormed_empty
  refine ⟨by decide +kernel, by decide +kernel, by decide +kernel, ?_⟩
  exact (buildAll_copies hf (by decide) listItem).2.2.1

end Forest

end Componentry.Document
