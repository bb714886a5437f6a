import Componentry.Proofs.Live.Housed
import Mathlib.Data.List.Chain

/-!
# Turning an element

Connecting or disconnecting an element alters its instance and what is under it, and its author is
told. So calls alternate, the last of them says whether the element is connected, and what is added
under the element is no more than its component weighs.
-/

namespace Componentry.Live

open Document List

variable {σ : Type}

namespace Page

variable {s t u : Page σ} {id : InstanceId} {i j : Instance σ} {n m p : NodeId} {c : Component σ}
  {log : σ → Diary} {rel : Forest → Forest → Prop} {live : Bool} {tags : List String} {tag : String}
  {cls : ClassId}

/-! ### Sound pages -/

/-- The page is in order, its components are known and do not hold themselves, and authors report. -/
structure Sound (log : σ → Diary) (s : Page σ) : Prop extends Housed Forest.KeepsTree s where
  single : ∀ n < s.forest.nodes.size, s.forest.kind n = .document → n = s.document
  /-- Every tag has its component. -/
  registered : ∀ tag cls, s.registry.find? tag = some cls → ∃ c, s.class? cls = some c
  reports : ∀ id i, s.instance? id = some i → i.behaviour.Reports log
  /-- The behaviours that components make do, too. -/
  reportsClasses : ∀ x ∈ s.classes, x.2.Reports log
  acyclic : s.Acyclic

theorem Sound.persists (h : s.Sound log) (hp : Persists s t) (ht : t.Housed Forest.KeepsTree)
    (hfresh : ∀ n, s.forest.nodes.size ≤ n → n < t.forest.nodes.size → t.forest.kind n ≠ .document) :
    t.Sound log := by
  refine { ht with
    single := ?_, registered := ?_, reports := ?_, reportsClasses := ?_
    acyclic := h.acyclic.congr hp.classes hp.registry }
  · intro n hn hk
    rw [hp.document]
    by_cases hlt : n < s.forest.nodes.size
    · refine h.single n hlt ?_
      rw [← Kind.bare_eq_document, ← hp.nodes.kind_eq n hlt, hk]
      rfl
    · exact absurd hk (hfresh n (not_lt.mp hlt) hn)
  · intro tag cls hr
    rw [hp.class?_eq]
    exact h.registered tag cls (hp.registry ▸ hr)
  · exact hp.instances.all (p := fun x => x.2.2.Reports log) h.reports
  · rw [hp.classes]
    exact h.reportsClasses

/-! ### How elements stand -/

theorem Housed.standing_eq (h : s.Housed rel) (hi : s.instance? id = some i) :
    s.standing i.element = some i.standing := by
  rw [standing, h.instanceOf?_iff.mpr ⟨id, hi, rfl⟩]
  rfl

theorem standing_of_owner?_none (ho : s.owner? n = none) : s.standing n = none := by
  rw [standing, instanceOf?, ho]
  rfl

theorem Housed.tag_of_standing (h : s.Housed rel) {x : Standing} (hx : s.standing n = some x) :
    ∃ tag, s.forest.tag? n = some tag := by
  obtain ⟨i, hof, -⟩ := Option.map_eq_some_iff.mp hx
  obtain ⟨id, hi, rfl⟩ := h.instanceOf?_iff.mp hof
  exact h.element id i hi

theorem Housed.standing_of_size_le (h : s.Housed rel) (hn : s.forest.nodes.size ≤ n) :
    s.standing n = none := by
  cases hx : s.standing n with
  | none => rfl
  | some x =>
    obtain ⟨tag, ht⟩ := h.tag_of_standing hx
    exact absurd (Forest.lt_size_of_tag? ht) hn.not_gt

theorem Reseats.standing_self (h : Reseats id s t j) (ht : t.Housed rel) (hi : s.instance? id = some i) :
    t.standing i.element = some j.standing := by
  rw [standing, h.instanceOf?_self ht hi]
  rfl

theorem Reseats.standing_of_ne (h : Reseats id s t j) (hs : s.Housed rel) (hi : s.instance? id = some i)
    (hn : n ≠ i.element) : t.standing n = s.standing n := by
  have hfoot := congrArg (Option.map (·.2.2)) (h.apart hs hi hn)
  rwa [Option.map_map, Option.map_map] at hfoot

/-! ### Calls that alternate -/

/-- No call is made twice in a row, and the first says that the element went live. -/
def Alternates (l : List Bool) : Prop := l.IsChain (· ≠ ·) ∧ l.head? ≠ some false

theorem Alternates.snoc {l : List Bool} (h : Alternates l) {b : Bool}
    (hb : l.getLast? = some true ↔ b = false) : Alternates (l ++ [b]) := by
  obtain ⟨hchain, hhead⟩ := h
  constructor
  · refine hchain.append (isChain_singleton b) ?_
    intro x hx y hy
    cases hy
    rintro rfl
    rw [Option.mem_def.mp hx] at hb
    cases x <;> simp at hb
  · cases l with
    | nil =>
      intro he
      have hb' : b = false := Option.some.inj he
      cases hb.mpr hb'
    | cons x l => exact hhead

/-- What the author of an element was told agrees with how it stands. -/
structure Told (log : σ → Diary) (s : Page σ) (n : NodeId) : Prop where
  alternates : Alternates (s.calls log n)
  /-- The last call says whether the element is connected. -/
  last_iff : (s.calls log n).getLast? = some true ↔
    (s.standing n).map (·.state) = some .connected
  /-- No connection is under way. -/
  settled : (s.standing n).map (·.state) ≠ some .connecting

/-- A page that is sound, and where all authors were told. -/
structure Coherent (log : σ → Diary) (s : Page σ) : Prop extends Sound log s where
  told : ∀ n, s.Told log n

theorem Told.congr (h : s.Told log n) (hs : t.standing n = s.standing n)
    (hc : t.calls log n = s.calls log n) : t.Told log n := by
  constructor
  · rw [hc]
    exact h.alternates
  · rw [hc, hs]
    exact h.last_iff
  · rw [hs]
    exact h.settled

theorem Coherent.turn {f : Forest} {levels : Nat} (h : s.Coherent log)
    (hi : s.instance? id = some i) (ht : Shifts live id s i f t j)
    (hg : s.forest.Grown f i.element levels tags) (hbefore : i.state = .connected ↔ live = false) :
    t.Coherent log := by
  have hk := ht.keepsTree (h.gentle id i hi) fun h => h
  have hlog := ht.log_eq (h.reports id i hi)
  have hsound := h.toSound.persists ht.persists (ht.housed h.toHoused ht.seated) (hg.kind_of_keepsTree hk)
  refine { hsound with told := fun n => ?_ }
  have hcalls := calls_append hlog n
  by_cases hn : n = i.element
  · subst hn
    rw [if_pos rfl] at hcalls
    have hstanding := ht.standing_self hsound.toHoused hi
    have hlast := (h.told i.element).last_iff
    rw [h.standing_eq hi] at hlast
    constructor
    · rw [hcalls]
      refine (h.told _).alternates.snoc (hlast.trans ?_)
      rw [← hbefore]
      exact Option.some_inj
    · rw [hcalls, getLast?_concat, hstanding]
      change some live = some true ↔ some j.state = some .connected
      rw [ht.state]
      cases live <;> simp
    · rw [hstanding]
      change some j.state ≠ some .connecting
      rw [ht.state]
      cases live <;> simp
  · rw [if_neg hn] at hcalls
    exact (h.told n).congr (ht.standing_of_ne h.toHoused hi hn) hcalls

/-! ### Visits -/

/-- An element was visited: it may have turned, with nodes added under it, and no other element has
turned. -/
structure Visited (log : σ → Diary) (s t : Page σ) (n : NodeId) : Prop where
  coherent : t.Coherent log
  forest : s.forest.Extends t.forest
  /-- New nodes are under the element or stand alone. -/
  fresh : ∀ m p, s.forest.nodes.size ≤ m → t.forest.composedParent m = some p → t.forest.Under n m
  /-- Other elements stand as they did. -/
  apart : ∀ m, m ≠ n → t.standing m = s.standing m
  registry : t.registry = s.registry
  document : t.document = s.document

theorem Visited.refl (h : s.Coherent log) (n : NodeId) : s.Visited log s n :=
  ⟨h, .refl _, fun _ _ hm hp => absurd (Forest.lt_size_of_composedParent hp) hm.not_gt,
    fun _ _ => rfl, rfl, rfl⟩

theorem Coherent.visited_of_turn {g : Forest} {levels : Nat} (h : s.Coherent log)
    (hi : s.instance? id = some i) (ht : Shifts live id s i g t j)
    (hg : s.forest.Grown g i.element levels tags) (hbefore : i.state = .connected ↔ live = false) :
    s.Visited log t i.element := by
  have hk := ht.keepsTree (h.gentle id i hi) fun h => h
  refine ⟨h.turn hi ht hg hbefore, hg.extends_.trans hk.extends, fun m p hm hp => ?_,
    fun m hm => ht.standing_of_ne h.toHoused hi hm, ht.persists.registry, ht.persists.document⟩
  rw [hk.composedParent_eq] at hp
  obtain ⟨k, -, hup⟩ := (hg.fresh m hm (Forest.lt_size_of_composedParent hp)).under
  exact hk.under_iff.mpr ⟨k, hup⟩

theorem Sound.withInstance (h : s.Sound log) (ho : s.owner? n = none)
    (ht : s.forest.tag? n = some tag) (hc : s.class? cls = some c) :
    (s.withInstance n cls c).Sound log :=
  { h.toHoused.withInstance ho ht hc, h with
    reports := forall_withInstance h.numbered (h.reportsClasses _ (mem_of_class? hc) s.world).2 h.reports
    acyclic := h.acyclic.congr rfl rfl }

theorem Housed.standing_withInstance (h : s.Housed rel) (cls : ClassId) (c : Component σ) (hm : m ≠ n) :
    (s.withInstance n cls c).standing m = s.standing m := by
  rw [standing, h.instanceOf?_withInstance, if_neg hm]
  rfl

theorem Coherent.withInstance (h : s.Coherent log) (ho : s.owner? n = none)
    (ht : s.forest.tag? n = some tag) (hc : s.class? cls = some c) :
    s.Visited log (s.withInstance n cls c) n := by
  have hsound := h.toSound.withInstance ho ht hc
  have hstored := (instance?_withInstance h.numbered n cls c _).trans (if_pos rfl)
  have hnew := hsound.standing_eq hstored
  have hnone := standing_of_owner?_none ho
  have hcalls : ∀ m, (s.withInstance n cls c).calls log m = s.calls log m := by
    intro m
    have hlog : log (s.withInstance n cls c).world = log s.world :=
      (h.reportsClasses _ (mem_of_class? hc) s.world).1
    rw [calls, calls, hlog]
  have htold : ∀ m, (s.withInstance n cls c).Told log m := by
    intro m
    by_cases hm : m = n
    · subst hm
      have hlast := (h.told m).last_iff
      rw [hnone] at hlast
      refine ⟨by rw [hcalls]; exact (h.told m).alternates, ?_, ?_⟩
      · rw [hcalls, hlast, hnew]
        simp [Instance.standing]
      · rw [hnew]
        simp [Instance.standing]
    · exact (h.told m).congr (h.standing_withInstance cls c hm) (hcalls m)
  exact { Visited.refl h n with
    coherent := { hsound with told := htold }
    apart := fun m hm => h.standing_withInstance cls c hm }

theorem Visited.trans (hst : s.Visited log t n) (htu : t.Visited log u n)
    (hforest : t.forest = s.forest) : s.Visited log u n where
  coherent := htu.coherent
  forest := hst.forest.trans htu.forest
  fresh m p hm := htu.fresh m p (hforest ▸ hm)
  apart m hm := (htu.apart m hm).trans (hst.apart m hm)
  registry := htu.registry.trans hst.registry
  document := htu.document.trans hst.document

theorem Coherent.connect (h : s.Coherent log) (hi : s.instance? id = some i) :
    s.Visited log (s.connect id) i.element ∧
      ∃ x, (s.connect id).standing i.element = some x ∧ x.state = .connected := by
  have hstanding := h.standing_eq hi
  have hsettled := (h.told i.element).settled
  rw [hstanding] at hsettled
  unfold Page.connect
  simp only [hi]
  split
  next hstate =>
    refine ⟨.refl h _, _, hstanding, ?_⟩
    simp only [Bool.or_eq_true, decide_eq_true_eq] at hstate
    exact hstate.resolve_left fun he => hsettled (congrArg some he)
  next hstate =>
    simp only [Bool.or_eq_true, decide_eq_true_eq, not_or] at hstate
    obtain ⟨c, hc⟩ := h.known id i hi
    obtain ⟨f, j, hj, -, hg⟩ := h.runConnection hi hc (!i.mounted) (by simp)
    have hv := h.visited_of_turn hi hj (hg rfl) (by simp [hstate.2])
    exact ⟨hv, j.standing, hj.standing_self hv.coherent.toHoused hi, hj.state⟩

theorem Coherent.disconnect (h : s.Coherent log) (hi : s.instance? id = some i) :
    s.Visited log (s.disconnect id) i.element ∧
      ∃ x, (s.disconnect id).standing i.element = some x ∧ x.state ≠ .connected := by
  have hstanding := h.standing_eq hi
  by_cases hs : i.state = .connected
  · obtain ⟨j, hj⟩ := h.disconnect_shifts hi (.inr hs)
    have hv := h.visited_of_turn hi hj (.refl h.wellFormed _ 0 []) (by simp [hs])
    refine ⟨hv, j.standing, hj.standing_self hv.coherent.toHoused hi, ?_⟩
    change j.state ≠ .connected
    rw [hj.state]
    nofun
  · have hsame : s.disconnect id = s := by
      have hsettled := (h.told i.element).settled
      rw [hstanding] at hsettled
      have hc : i.state ≠ .connecting := fun he => hsettled (congrArg some he)
      unfold Page.disconnect
      simp [hi, hs, hc]
    rw [hsame]
    exact ⟨.refl h _, _, hstanding, hs⟩

end Page

end Componentry.Live
