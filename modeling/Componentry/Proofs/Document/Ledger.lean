import Componentry.Document.Selector
import Componentry.Proofs.Document.Frame
import Mathlib.Data.List.Nodup

/-!
# The ledger of listeners

Listeners stand on nodes, and owners keep records of where theirs stand. A ledger says that the two
agree: every listener is in the record of the owner that its binding names, and every record leads to
such a listener. Adding a listener together with its record keeps a ledger, and so does removing all
that an owner has recorded.

Listeners are no part of the tree, so what a selector finds does not depend on them.
-/

namespace Componentry.Document.Forest

open List

variable {f g : Forest} {records records' : Nat → List (NodeId × ListenerId)} {owner : Nat}
  {ws : List Wish}

/-- The listeners on the nodes are those in the records of their owners. -/
structure Ledger (f : Forest) (records : Nat → List (NodeId × ListenerId)) : Prop where
  listed : ∀ n, ∀ l ∈ (f.node n).listeners, (n, l.id) ∈ records l.binding.owner
  present : ∀ id, ∀ r ∈ records id, ∃ l ∈ (f.node r.1).listeners, l.id = r.2 ∧ l.binding.owner = id
  /-- Numbers were given out before. -/
  numbered : ∀ n, ∀ l ∈ (f.node n).listeners, l.id ≤ f.lastListener
  distinct : ∀ n n' l l', l ∈ (f.node n).listeners → l' ∈ (f.node n').listeners → l.id = l'.id →
    n = n' ∧ l = l'
  /-- No listener stands twice on a node. -/
  nodup : ∀ n, (f.node n).listeners.Nodup
  /-- Nothing is recorded twice. -/
  nodupRecords : ∀ id, (records id).Nodup

/-! ### Adding and removing -/

theorem listeners_addListener (f : Forest) (id n : NodeId) (event : String) (binding : Binding) :
    ((f.addListener id event binding).1.node n).listeners =
      if n = id ∧ n < f.nodes.size then
        (f.node n).listeners ++ [⟨f.lastListener + 1, event, binding⟩]
      else (f.node n).listeners := by
  have h := node_update { f with lastListener := f.lastListener + 1 } id n fun m =>
    { m with listeners := m.listeners ++ [⟨f.lastListener + 1, event, binding⟩] }
  refine (congrArg Node.listeners h).trans ?_
  split <;> rfl

theorem listeners_removeAll (f : Forest) (rs : List (NodeId × ListenerId)) (n : NodeId) :
    ((rs.foldl (fun f r => f.removeListener r.1 r.2) f).node n).listeners =
      (f.node n).listeners.filter fun l => decide ((n, l.id) ∉ rs) := by
  induction rs generalizing f with
  | nil => simp
  | cons r rs ih =>
    rw [foldl_cons, ih]
    have hone : ((f.removeListener r.1 r.2).node n).listeners =
        (f.node n).listeners.filter fun l => decide ((n, l.id) ≠ r) := by
      unfold removeListener
      rw [node_update_of_default rfl]
      obtain ⟨node, listener⟩ := r
      by_cases hn : n = node <;> simp [hn, bne, Bool.beq_eq_decide_eq]
    rw [hone, filter_filter]
    refine filter_congr fun l _ => ?_
    simp only [mem_cons, not_or, ← Bool.decide_and]
    exact decide_eq_decide.mpr and_comm

theorem removeAll_frame (f : Forest) (rs : List (NodeId × ListenerId)) :
    (rs.foldl (fun f r => f.removeListener r.1 r.2) f).nodes.size = f.nodes.size ∧
      (rs.foldl (fun f r => f.removeListener r.1 r.2) f).lastListener = f.lastListener := by
  induction rs generalizing f with
  | nil => exact ⟨rfl, rfl⟩
  | cons r rs ih =>
    obtain ⟨hs, hl⟩ := ih (f.removeListener r.1 r.2)
    exact ⟨hs.trans (size_update ..), hl⟩

namespace Ledger

theorem empty (hf : ∀ n, (f.node n).listeners = []) (hr : ∀ id, records id = []) :
    f.Ledger records := by
  constructor <;> simp [hf, hr]

section

variable (h : f.Ledger records)

include h

theorem keep (hk : f.KeepsListeners g) (hr : ∀ id, records' id = records id) :
    g.Ledger records' := by
  obtain rfl : records' = records := funext hr
  have hl := hk.listeners_eq
  constructor
  · simpa only [hl] using h.listed
  · simpa only [hl] using h.present
  · intro n l hn
    rw [hl] at hn
    exact (h.numbered n l hn).trans hk.last_le
  · simpa only [hl] using h.distinct
  · simpa only [hl] using h.nodup
  · exact h.nodupRecords

theorem number_ne {n : NodeId} {l : Listener} (hl : l ∈ (f.node n).listeners) :
    l.id ≠ f.lastListener + 1 := (Nat.lt_succ_of_le (h.numbered n l hl)).ne

theorem next_not_recorded (id : Nat) (n : NodeId) : (n, f.lastListener + 1) ∉ records id := by
  intro hm
  obtain ⟨l, hl, he, -⟩ := h.present id _ hm
  exact h.number_ne hl he

theorem add {target : NodeId} (ht : target < f.nodes.size) (event method : String)
    (hown : records' owner = records owner ++ [(target, f.lastListener + 1)])
    (hother : ∀ id, id ≠ owner → records' id = records id) :
    (f.addListener target event ⟨owner, method⟩).1.Ledger records' := by
  let new : Listener := ⟨f.lastListener + 1, event, ⟨owner, method⟩⟩
  -- The listeners of a node are the old ones, and the new one on its target.
  have hmem : ∀ n l, l ∈ ((f.addListener target event ⟨owner, method⟩).1.node n).listeners ↔
      l ∈ (f.node n).listeners ∨ n = target ∧ l = new := by
    intro n l
    rw [listeners_addListener]
    by_cases hn : n = target
    · rw [if_pos ⟨hn, hn ▸ ht⟩]
      simp [hn, new]
    · simp [hn]
  have hrec : ∀ id r, r ∈ records' id ↔
      r ∈ records id ∨ id = owner ∧ r = (target, f.lastListener + 1) := by
    intro id r
    by_cases hid : id = owner
    · subst hid
      simp [hown]
    · simp [hother id hid, hid]
  constructor
  · intro n l hl
    rcases (hmem n l).mp hl with hl | ⟨rfl, rfl⟩
    · exact (hrec _ _).mpr (.inl (h.listed n l hl))
    · exact (hrec _ _).mpr (.inr ⟨rfl, rfl⟩)
  · intro id r hr
    rcases (hrec id r).mp hr with hr | ⟨rfl, rfl⟩
    · obtain ⟨l, hl, he⟩ := h.present id r hr
      exact ⟨l, (hmem _ l).mpr (.inl hl), he⟩
    · exact ⟨new, (hmem _ _).mpr (.inr ⟨rfl, rfl⟩), rfl, rfl⟩
  · intro n l hl
    rcases (hmem n l).mp hl with hl | ⟨-, rfl⟩
    · exact Nat.le_succ_of_le (h.numbered n l hl)
    · exact le_rfl
  · intro n n' l l' hl hl' he
    rcases (hmem n l).mp hl with hold | ⟨hn, hnew⟩
    · rcases (hmem n' l').mp hl' with hold' | ⟨-, hnew'⟩
      · exact h.distinct n n' l l' hold hold' he
      · exact absurd (he.trans (congrArg Listener.id hnew')) (h.number_ne hold)
    · rcases (hmem n' l').mp hl' with hold' | ⟨hn', hnew'⟩
      · exact absurd (he.symm.trans (congrArg Listener.id hnew)) (h.number_ne hold')
      · exact ⟨hn.trans hn'.symm, hnew.trans hnew'.symm⟩
  · intro n
    rw [listeners_addListener]
    split
    · exact concat_eq_append ▸ (h.nodup n).concat fun hm => h.number_ne hm rfl
    · exact h.nodup n
  · intro id
    by_cases hid : id = owner
    · subst hid
      rw [hown, ← concat_eq_append]
      exact (h.nodupRecords id).concat (h.next_not_recorded id target)
    · rw [hother id hid]
      exact h.nodupRecords id

theorem release (hown : records' owner = [])
    (hother : ∀ id, id ≠ owner → records' id = records id) :
    ((records owner).foldl (fun f r => f.removeListener r.1 r.2) f).Ledger records' := by
  have hmem : ∀ n l, l ∈ (((records owner).foldl (fun f r => f.removeListener r.1 r.2) f).node
      n).listeners ↔ l ∈ (f.node n).listeners ∧ l.binding.owner ≠ owner := by
    intro n l
    rw [listeners_removeAll, mem_filter, decide_eq_true_iff]
    refine and_congr_right fun hl => not_congr ⟨fun hr => ?_, fun ho => ho ▸ h.listed n l hl⟩
    -- A record of the owner leads to a listener of its own with that number.
    obtain ⟨l', hl', hid, ho⟩ := h.present owner _ hr
    rw [← (h.distinct n n l' l hl' hl hid).2]
    exact ho
  obtain ⟨-, hlast⟩ := removeAll_frame f (records owner)
  constructor
  · intro n l hl
    obtain ⟨hl, ho⟩ := (hmem n l).mp hl
    rw [hother _ ho]
    exact h.listed n l hl
  · intro id r hr
    have hid : id ≠ owner := by
      rintro rfl
      rw [hown] at hr
      cases hr
    rw [hother id hid] at hr
    obtain ⟨l, hl, he, ho⟩ := h.present id r hr
    exact ⟨l, (hmem _ l).mpr ⟨hl, ho ▸ hid⟩, he, ho⟩
  · intro n l hl
    rw [hlast]
    exact h.numbered n l ((hmem n l).mp hl).1
  · intro n n' l l' hl hl' he
    exact h.distinct n n' l l' ((hmem n l).mp hl).1 ((hmem n' l').mp hl').1 he
  · intro n
    rw [listeners_removeAll]
    exact (h.nodup n).filter _
  · intro id
    by_cases hid : id = owner
    · rw [hid, hown]
      exact nodup_nil
    · rw [hother id hid]
      exact h.nodupRecords id

end

end Ledger

/-! ### Adding many listeners -/

/-- A listener that is wanted. -/
structure Wish where
  target : NodeId
  /-- The type of event it is to hear. -/
  event : String
  method : String
deriving DecidableEq, Repr

/-- Adds the wanted listeners of an owner, one after the other. -/
def addAll (f : Forest) (owner : Nat) (ws : List Wish) : Forest :=
  ws.foldl (fun f w => (f.addListener w.target w.event ⟨owner, w.method⟩).1) f

def Wish.granted (owner first : Nat) : List Wish → List (NodeId × Listener)
  | [] => []
  | w :: ws => (w.target, ⟨first, w.event, ⟨owner, w.method⟩⟩) :: granted owner (first + 1) ws

/-- What an owner records of the wanted listeners: where each stands, and its number. -/
def Wish.recorded (owner first : Nat) (ws : List Wish) : List (NodeId × ListenerId) :=
  (granted owner first ws).map fun x => (x.1, x.2.id)

theorem Wish.granted_append (owner first : Nat) (ws vs : List Wish) :
    granted owner first (ws ++ vs) =
      granted owner first ws ++ granted owner (first + ws.length) vs := by
  induction ws generalizing first with
  | nil => rfl
  | cons w ws ih =>
    simp only [granted, cons_append, ih, length_cons]
    rw [Nat.add_assoc, Nat.add_comm 1]

theorem addAll_frame (f : Forest) (owner : Nat) (ws : List Wish) :
    (f.addAll owner ws).nodes.size = f.nodes.size ∧
      (f.addAll owner ws).lastListener = f.lastListener + ws.length := by
  induction ws generalizing f with
  | nil => exact ⟨rfl, rfl⟩
  | cons w ws ih =>
    obtain ⟨hs, hl⟩ := ih (f.addListener w.target w.event ⟨owner, w.method⟩).1
    refine ⟨hs.trans (size_update ..), hl.trans ?_⟩
    rw [length_cons, Nat.add_comm ws.length, ← Nat.add_assoc]
    rfl

theorem listeners_addAll (f : Forest) (owner : Nat) (hw : ∀ w ∈ ws, w.target < f.nodes.size)
    (n : NodeId) :
    ((f.addAll owner ws).node n).listeners = (f.node n).listeners ++
      ((Wish.granted owner (f.lastListener + 1) ws).filter (·.1 = n)).map (·.2) := by
  induction ws generalizing f with
  | nil => exact (append_nil _).symm
  | cons w ws ih =>
    obtain ⟨hlt, hws⟩ := forall_mem_cons.mp hw
    have hsize : (f.addListener w.target w.event ⟨owner, w.method⟩).1.nodes.size = f.nodes.size :=
      size_update ..
    have hrest := ih (f.addListener w.target w.event ⟨owner, w.method⟩).1 (by simpa [hsize] using hws)
    refine hrest.trans ?_
    rw [listeners_addListener, Wish.granted]
    by_cases hn : w.target = n
    · rw [if_pos ⟨hn.symm, hn ▸ hlt⟩, filter_cons_of_pos (by simpa using hn), append_assoc]
      rfl
    · rw [if_neg fun h => hn h.1.symm, filter_cons_of_neg (by simpa using hn)]
      rfl

theorem Ledger.addAll (h : f.Ledger records) (hw : ∀ w ∈ ws, w.target < f.nodes.size)
    (hown : records' owner = records owner ++ Wish.recorded owner (f.lastListener + 1) ws)
    (hother : ∀ id, id ≠ owner → records' id = records id) :
    (f.addAll owner ws).Ledger records' := by
  induction ws generalizing f records with
  | nil =>
    refine h.keep (.refl f) fun id => ?_
    by_cases hid : id = owner
    · rw [hid, hown, Wish.recorded, Wish.granted, map_nil, append_nil]
    · exact hother id hid
  | cons w ws ih =>
    obtain ⟨hlt, hws⟩ := forall_mem_cons.mp hw
    let between : Nat → List (NodeId × ListenerId) := fun id =>
      if id = owner then records owner ++ [(w.target, f.lastListener + 1)] else records id
    have hadd := h.add hlt w.event w.method (if_pos rfl : between owner = _)
      fun id hid => if_neg hid
    refine ih hadd ?_ ?_ ?_
    · intro v hv
      exact Nat.lt_of_lt_of_eq (hws v hv) (size_update ..).symm
    · rw [hown, if_pos rfl, append_assoc]
      rfl
    · intro id hid
      rw [hother id hid, if_neg hid]

/-! ### What selectors find -/

/-- Two forests look the same to a selector. -/
structure LooksLike (f g : Forest) : Prop where
  size_eq : g.nodes.size = f.nodes.size
  /-- They are the same, with their attributes and text. -/
  kind_eq : g.kind = f.kind
  parent_eq : g.parent = f.parent
  children_eq : g.children = f.children

namespace LooksLike

theorem refl (f : Forest) : f.LooksLike f := ⟨rfl, rfl, rfl, rfl⟩

theorem trans {h : Forest} (hfg : f.LooksLike g) (hgh : g.LooksLike h) : f.LooksLike h :=
  ⟨hgh.size_eq.trans hfg.size_eq, hgh.kind_eq.trans hfg.kind_eq, hgh.parent_eq.trans hfg.parent_eq,
    hgh.children_eq.trans hfg.children_eq⟩

theorem addListener (f : Forest) (id : NodeId) (event : String) (binding : Binding) :
    f.LooksLike (f.addListener id event binding).1 := by
  have hpart {α : Type} (part : Node → α) (h : ∀ m l, part { m with listeners := l } = part m) :
      ∀ n, part ((f.addListener id event binding).1.node n) = part (f.node n) :=
    fun n => part_update part { f with lastListener := f.lastListener + 1 } id n fun m => h m _
  exact ⟨size_update .., funext (hpart Node.kind fun _ _ => rfl), funext (hpart Node.parent fun _ _ => rfl),
    funext (hpart Node.children fun _ _ => rfl)⟩

theorem addAll (f : Forest) (owner : Nat) (ws : List Wish) : f.LooksLike (f.addAll owner ws) := by
  induction ws generalizing f with
  | nil => exact refl f
  | cons w ws ih => exact (addListener f ..).trans (ih _)

variable (h : f.LooksLike g)

include h

theorem below (depth : Nat) : g.below depth = f.below depth := by
  induction depth with
  | zero => rfl
  | succ depth ih =>
    simp [Forest.below, h.children_eq, ih]

theorem isElement : g.isElement = f.isElement := by
  funext n
  simp [Forest.isElement, h.kind_eq]

theorem elementParent? : Selector.elementParent? g = Selector.elementParent? f := by
  funext n
  simp [Selector.elementParent?, h.parent_eq, h.isElement]

theorem elementAncestors : Selector.elementAncestors g = Selector.elementAncestors f := by
  have hup : ∀ k, Selector.elementAncestorsUpTo g k = Selector.elementAncestorsUpTo f k := by
    intro k
    induction k with
    | zero => rfl
    | succ k ih =>
      simp [Selector.elementAncestorsUpTo, h.elementParent?, ih]
  funext n
  simp [Selector.elementAncestors, h.size_eq, hup]

theorem satisfies : Selector.satisfies g = Selector.satisfies f := by
  funext n c
  simp [Selector.satisfies, h.kind_eq]

theorem matchesChain (c : Compound) (context : List (Combinator × Compound)) :
    Selector.matchesChain g c context = Selector.matchesChain f c context := by
  induction context generalizing c with
  | nil =>
    simp [Selector.matchesChain, h.satisfies]
  | cons x context ih =>
    obtain ⟨combinator, outer⟩ := x
    cases combinator <;>
      simp [Selector.matchesChain, h.satisfies, h.elementParent?, h.elementAncestors, ih]

theorem queryAll (root : NodeId) (selector : String) :
    g.queryAll root selector = f.queryAll root selector := by
  have hmatch : ∀ s : Selector, s.isMatch g = s.isMatch f := by
    intro s
    funext n
    simp [Selector.isMatch, h.matchesChain]
  simp [Forest.queryAll, descendants, h.size_eq, h.below, hmatch]

end LooksLike

theorem isElement_of_queryAll {root n : NodeId} {selector : String} {found : List NodeId}
    (h : f.queryAll root selector = .ok found) (hn : n ∈ found) : f.isElement n := by
  unfold queryAll at h
  cases hs : Selector.parse selector with
  | error e => rw [hs] at h; cases h
  | ok s =>
    rw [hs] at h
    cases h
    obtain ⟨-, hm⟩ := mem_filter.mp hn
    obtain ⟨c, -, hc⟩ := any_eq_true.mp hm
    have hsat : Selector.satisfies f n c.subject = true := by
      cases hctx : c.context with
      | nil => rw [hctx] at hc; exact hc
      | cons x rest =>
        obtain ⟨combinator, outer⟩ := x
        rw [hctx] at hc
        cases combinator <;> exact (Bool.and_eq_true_iff.mp hc).1
    unfold Selector.satisfies at hsat
    unfold isElement
    cases hk : f.kind n with
    | element tag attributes => rfl
    | _ => rw [hk] at hsat; cases hsat

end Componentry.Document.Forest
