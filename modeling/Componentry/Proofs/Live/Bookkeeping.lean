import Componentry.Proofs.Document.Ledger
import Componentry.Proofs.Live.Changes

/-!
# Keeping the books of listeners

Instances listen while they are connected. What they listen to is recorded, and a page keeps its books
when the listeners on its nodes are those that its instances have recorded. The page is followed through
two groups of facts: what it knows about its components and instances, which little ever changes, and
its books, the ledger of listeners with the marks that say who listens. Connecting, disconnecting and
changing the tree keep the books, as long as callbacks leave listeners alone.
-/

namespace Componentry.Live

open Document

variable {σ : Type}

def Instance.account (i : Instance σ) :
    (NodeId × ClassId × Behaviour σ) × Lifecycle × Bool × List (NodeId × ListenerId) :=
  (i.identity, i.state, i.wired, i.listeners)

namespace Page

variable {s t u : Page σ} {id : InstanceId} {i : Instance σ} {g : Instance σ → Instance σ}
  {c : Component σ}

/-! ### What a page knows -/

/-- Every instance has its component and its element, plans are those of their component, and callbacks
leave listeners alone. -/
structure Grounded (s : Page σ) : Prop extends Staffed Forest.KeepsListeners s where
  standing : ∀ id i, s.instance? id = some i → i.element < s.forest.nodes.size
  planned : ∀ e ∈ s.plans.plans, ∃ c, s.class? e.1 = some c ∧
    e.2 = WiringPlan.ofAnnotations c.description.annotations

/-- Instances change, but neither what they are nor what the page knows. -/
structure Follows (s t : Page σ) : Prop extends SameCast Instance.identity s t where
  size_le : s.forest.nodes.size ≤ t.forest.nodes.size
  plans : t.plans = s.plans

theorem Grounded.follows (h : s.Grounded) (hf : Follows s t) : t.Grounded := by
  refine { h.toStaffed.sameCast hf.toSameCast with standing := ?_, planned := ?_ }
  · exact hf.instances.all (p := fun x => x.1 < t.forest.nodes.size)
      fun id i hi => (h.standing id i hi).trans_le hf.size_le
  · rw [hf.plans]
    simpa only [hf.class?_eq] using h.planned

/-! ### The books -/

def records (s : Page σ) (id : InstanceId) : List (NodeId × ListenerId) :=
  ((s.instance? id).map (·.listeners)).getD []

theorem records_of_instance? (h : s.instance? id = some i) : s.records id = i.listeners := by
  rw [records, h]
  rfl

/-- The listeners on the nodes are the recorded ones, only wired instances have any, and only
connected instances are wired. -/
structure Kept (s : Page σ) : Prop extends Grounded s where
  /-- Listeners and records agree. -/
  ledger : s.forest.Ledger s.records
  silent : ∀ id i, s.instance? id = some i → i.wired = false → i.listeners = []
  live : ∀ id i, s.instance? id = some i → i.wired = true → i.state = .connected

/-- Every connected instance that is not wired, but for one, waits for its small task. -/
def AwaitsBut (s : Page σ) (x : Option InstanceId) : Prop :=
  ∀ id i, some id ≠ x → s.instance? id = some i → i.state = .connected → i.wired = false →
    Task.wire id ∈ s.scheduler.microtasks

/-- The books are kept, and whoever is to be wired waits for it. -/
structure Bookkept (s : Page σ) : Prop extends Kept s where
  /-- Every connected instance that is not wired waits for its small task. -/
  awaits : s.AwaitsBut none

/-- Nothing that bears on listeners happens, but for small tasks that are queued. -/
structure Steady (s t : Page σ) : Prop extends SameCast Instance.account s t where
  forest : s.forest.KeepsListeners t.forest
  plans : t.plans = s.plans
  waits : ∀ id, Task.wire id ∈ s.scheduler.microtasks → Task.wire id ∈ t.scheduler.microtasks

namespace Steady

theorem refl (s : Page σ) : Steady s s := ⟨.of_eq rfl, .refl _, rfl, fun _ h => h⟩

theorem trans (hst : Steady s t) (htu : Steady t u) : Steady s u :=
  ⟨hst.toSameCast.trans htu.toSameCast, hst.forest.trans htu.forest, htu.plans.trans hst.plans,
    fun id h => htu.waits id (hst.waits id h)⟩

theorem follows (h : Steady s t) : Follows s t :=
  ⟨h.toSameCast.map (·.1), h.forest.size_le, h.plans⟩

theorem records_eq (h : Steady s t) (id : InstanceId) : t.records id = s.records id := by
  have hl := (h.instances.map (·.2.2.2)).same id
  exact congrArg (Option.getD · []) hl

theorem update (s : Page σ) (id : InstanceId)
    (hg : ∀ i, s.instance? id = some i → (g i).account = i.account) :
    Steady s (s.updateInstance id g) := ⟨.update s id hg, .refl _, rfl, fun _ h => h⟩

theorem run {α : Type} (s : Page σ) {callback : Authored σ α}
    (h : Live.Respects Forest.KeepsListeners callback) : Steady s (s.run callback).1 :=
  ⟨.of_eq rfl, h s.forest s.world, rfl, fun _ h => h⟩

theorem decorated (h : Decorated s t) : Steady s t :=
  ⟨h.toSameCast.map Instance.account, h.listeners, h.plans, fun _ hm => h.scheduler ▸ hm⟩

end Steady

theorem Kept.steady (h : s.Kept) (hs : Steady s t) : t.Kept := by
  exact { h.toGrounded.follows hs.follows with
    ledger := h.ledger.keep hs.forest hs.records_eq
    silent := hs.instances.all (p := fun x => x.2.2.1 = false → x.2.2.2 = []) h.silent
    live := hs.instances.all (p := fun x => x.2.2.1 = true → x.2.1 = .connected) h.live }

theorem AwaitsBut.steady {x : Option InstanceId} (h : s.AwaitsBut x) (hs : Steady s t) :
    t.AwaitsBut x := by
  intro id j hx hj hc hw
  obtain ⟨i, hi, he⟩ := hs.instances.of_some hj
  have hstate : j.state = i.state := congrArg (·.2.1) he
  have hwired : j.wired = i.wired := congrArg (·.2.2.1) he
  exact hs.waits id (h id i hx hi (hstate ▸ hc) (hwired ▸ hw))

theorem AwaitsBut.weaken (h : s.AwaitsBut none) (x : Option InstanceId) : s.AwaitsBut x :=
  fun id i _ => h id i (by simp)

theorem Bookkept.steady (h : s.Bookkept) (hs : Steady s t) : t.Bookkept :=
  { h.toKept.steady hs with awaits := h.awaits.steady hs }

theorem AwaitsBut.update (h : s.AwaitsBut (some id)) (g : Instance σ → Instance σ) :
    (s.updateInstance id g).AwaitsBut (some id) := by
  intro id' j hx hj hc hw
  have hne : id' ≠ id := fun he => hx (congrArg some he)
  rw [instance?_updateInstance_ne hne] at hj
  exact h id' j hx hj hc hw

/-- An instance that is not connected need not wait. -/
theorem AwaitsBut.of_instance (h : s.AwaitsBut (some id)) (hi : s.instance? id = some i)
    (hstate : i.state ≠ .connected) : s.AwaitsBut none := by
  intro id' j _ hj hc hw
  refine h id' j (fun he => hstate ?_) hj hc hw
  cases he
  exact Option.some.inj (hi.symm.trans hj) ▸ hc

/-! ### Connecting -/

theorem Steady.mount (hi : s.instance? id = some i) (d : Description) :
    Steady s (s.mount id i d).1 := by
  have hforest : s.forest.KeepsListeners (s.mount id i d).1.forest :=
    mount_forest Forest.KeepsListeners.frame .attachShadow (fun _ _ _ => .update _ _ fun _ => rfl) ..
  exact ⟨.mount hi d rfl, hforest, rfl, fun _ h => h⟩

/-- A change of an instance that is not wired, but for what it is and has recorded, keeps the
books. -/
theorem Kept.idle (h : s.Kept) (hi : s.instance? id = some i) (hid : (g i).identity = i.identity)
    (hl : (g i).listeners = i.listeners) (hw : i.wired = false) (hw' : (g i).wired = false) :
    (s.updateInstance id g).Kept := by
  have hfollows : Follows s (s.updateInstance id g) :=
    ⟨⟨.update_of hi hid, rfl, rfl, rfl, rfl, rfl⟩, le_rfl, rfl⟩
  have hrecords : ∀ id', (s.updateInstance id g).records id' = s.records id' := by
    have hk : KeepsInstances (·.listeners) s (s.updateInstance id g) := .update_of hi hl
    exact fun id' => congrArg (Option.getD · []) (hk.same id')
  exact { h.toGrounded.follows hfollows with
    ledger := h.ledger.keep (.refl _) hrecords
    silent := forall_updateInstance hi (fun _ => hl.trans (h.silent id i hi hw)) fun id' j _ => h.silent id' j
    live := forall_updateInstance hi (fun hwi => absurd (hw'.symm.trans hwi) nofun)
      fun id' j _ => h.live id' j }

section

variable (h : s.Bookkept) (hi : s.instance? id = some i)

include h hi

theorem Bookkept.unwired_of (hstate : i.state ≠ .connected) : i.wired = false :=
  Bool.eq_false_iff.mpr fun hw => hstate (h.live id i hi hw)

theorem Bookkept.opening (hstate : i.state ≠ .connected) :
    (s.updateInstance id fun _ => { i with state := .connecting }).Bookkept := by
  have hw := h.unwired_of hi hstate
  have hkept : (s.updateInstance id fun _ => { i with state := .connecting }).Kept :=
    h.toKept.idle hi rfl rfl hw hw
  exact { hkept with
    awaits := ((h.awaits.weaken _).update _).of_instance (instance?_updateInstance_self hi _) (by simp) }

theorem Bookkept.settled (hstate : i.state = .connecting) :
    ({ s.updateInstance id fun i => { i with state := .connected } with
      scheduler := s.scheduler.queueMicrotask (.wire id) } : Page σ).Bookkept := by
  have hw := h.unwired_of hi (by simp [hstate])
  let marked := s.updateInstance id fun i => { i with state := .connected }
  have hmarked : marked.Kept := h.toKept.idle hi rfl rfl hw hw
  have hawaits : marked.AwaitsBut (some id) := (h.awaits.weaken _).update _
  have hqueue : Steady marked
      { marked with scheduler := s.scheduler.queueMicrotask (.wire id) } :=
    ⟨.of_eq rfl, .refl _, rfl, fun _ h => List.mem_append_left _ h⟩
  refine { hmarked.steady hqueue with awaits := ?_ }
  intro id' j _ hj hcj hwj
  by_cases hne : id' = id
  · subst hne
    exact List.mem_append_right _ (List.mem_singleton_self _)
  · exact hawaits.steady hqueue id' j (fun he => hne (Option.some.inj he)) hj hcj hwj

end

/-! ### Disconnecting -/

theorem unwire_kept (h : s.Grounded) (hledger : s.forest.Ledger s.records)
    (hsilent : ∀ id i, s.instance? id = some i → i.wired = false → i.listeners = [])
    (hlive : ∀ id' i, id' ≠ id → s.instance? id' = some i → i.wired = true → i.state = .connected) :
    (s.unwire id).Kept := by
  unfold unwire
  split
  next hi =>
    refine { h with ledger := hledger, silent := hsilent, live := ?_ }
    intro id' j hj hw
    refine hlive id' j ?_ hj hw
    rintro rfl
    rw [hi] at hj
    cases hj
  next i hi =>
    let released : Page σ :=
      { s with forest := i.listeners.foldl (fun f r => f.removeListener r.1 r.2) s.forest }
    let g : Instance σ → Instance σ := fun i => { i with listeners := [], wired := false }
    have hself := instance?_updateInstance_self hi g
    have hfollows : Follows s (released.updateInstance id g) := by
      obtain ⟨hsize, -⟩ := Forest.removeAll_frame s.forest i.listeners
      have hsame : SameCast Instance.identity s released := .of_eq rfl
      exact ⟨hsame.trans (.update released id fun _ _ => rfl), hsize.symm.le, rfl⟩
    have hrelease : released.forest.Ledger (released.updateInstance id g).records := by
      have hrest : ∀ id', id' ≠ id →
          (released.updateInstance id g).records id' = s.records id' :=
        fun id' hne => by rw [records, instance?_updateInstance_ne hne]; rfl
      have hall := hledger.release (records_of_instance? hself) hrest
      rwa [records_of_instance? hi] at hall
    exact { h.follows hfollows with
      ledger := hrelease
      silent := forall_updateInstance hi (fun _ => rfl) fun id' j _ => hsilent id' j
      live := forall_updateInstance hi nofun hlive }

theorem scheduler_unwire (s : Page σ) (id : InstanceId) : (s.unwire id).scheduler = s.scheduler := by
  unfold unwire
  split <;> rfl

theorem AwaitsBut.unwire (h : s.AwaitsBut (some id)) : (s.unwire id).AwaitsBut (some id) := by
  intro id' j hx hj hc hw
  have hne : id' ≠ id := fun he => hx (congrArg some he)
  rw [instance?_unwire, if_neg hne] at hj
  rw [scheduler_unwire]
  exact h id' j hx hj hc hw

section

variable (h : s.Bookkept)

include h

theorem Bookkept.reopening (hi : (s.unwire id).instance? id = some i) :
    ((s.unwire id).updateInstance id fun _ => { i with state := .connecting }).Bookkept := by
  have hunwired : (s.unwire id).Kept :=
    unwire_kept h.toGrounded h.ledger h.silent fun id' i _ => h.live id' i
  have hw : i.wired = false := by
    rw [instance?_unwire, if_pos rfl] at hi
    obtain ⟨j, -, rfl⟩ := Option.map_eq_some_iff.mp hi
    rfl
  have hkept : ((s.unwire id).updateInstance id fun _ => { i with state := .connecting }).Kept :=
    hunwired.idle hi rfl rfl hw hw
  exact { hkept with
    awaits := ((h.awaits.weaken _).unwire.update _).of_instance (instance?_updateInstance_self hi _)
      (by simp) }

theorem Bookkept.left (hi : s.instance? id = some i) (stage : Stage) :
    (((s.updateInstance id fun i => { i with state := .disconnected }).unwire id).run
      (i.behaviour.disconnected stage)).1.Bookkept := by
  let marked := s.updateInstance id fun i => { i with state := .disconnected }
  have hfollows : Follows s marked := ⟨.update s id fun _ _ => rfl, le_rfl, rfl⟩
  have hlisteners : KeepsInstances (fun i => (i.wired, i.listeners)) s marked :=
    .update s id fun _ _ => rfl
  have hkept : (marked.unwire id).Kept := by
    refine unwire_kept (h.toGrounded.follows hfollows) ?_ ?_ ?_
    · refine h.ledger.keep (.refl _) fun id' => ?_
      exact congrArg (Option.getD · []) ((hlisteners.map (·.2)).same id')
    · exact hlisteners.all (p := fun x => x.1 = false → x.2 = []) h.silent
    · intro id' j hne hj hw
      exact h.live id' j (instance?_updateInstance_ne hne _ ▸ hj) hw
  have hstored := instance?_unwire marked id id
  rw [if_pos rfl, instance?_updateInstance_self hi, Option.map_some] at hstored
  have hkeep : (marked.unwire id).Bookkept :=
    { hkept with awaits := ((h.awaits.weaken _).update _).unwire.of_instance hstored (by simp) }
  exact hkeep.steady (.run _ ((h.gentle id i hi).disconnected _))

/-! ### Instances and components -/

theorem Bookkept.withInstance {element : NodeId} {cls : ClassId} (ho : s.owner? element = none)
    (hlt : element < s.forest.nodes.size) (hc : s.class? cls = some c) :
    (s.withInstance element cls c).Bookkept := by
  have hrecords : ∀ id, (s.withInstance element cls c).records id = s.records id := by
    intro id
    unfold records
    rw [instance?_withInstance h.numbered]
    split
    next he =>
      rw [he, instance?_next h.numbered]
      rfl
    next => rfl
  exact { h.toStaffed.withInstance ho hc with
    standing := forall_withInstance h.numbered hlt h.standing
    planned := h.planned
    ledger := h.ledger.keep (.refl _) hrecords
    silent := forall_withInstance h.numbered (fun _ => rfl) h.silent
    live := forall_withInstance h.numbered (fun hw => nomatch hw) h.live
    awaits := fun id i _ => forall_withInstance h.numbered
      (fun hc => nomatch hc) (fun id i hi => h.awaits id i (by simp) hi) id i }

theorem Bookkept.register (hc : c.Respects Forest.KeepsListeners) : (s.register c).Bookkept := by
  have hnext : ({ s with lastId := s.lastId + 1 } : Page σ).Bookkept := { h.toStaffed.next, h with }
  obtain ⟨t, -, hshare, hfresh, he, hstaffed⟩ := h.toStaffed.register hc
  have hs := hnext.steady (.decorated hshare)
  rw [he] at hstaffed ⊢
  exact { hstaffed, hs with
    planned := fun e he => (hs.planned e he).imp fun _ => And.imp_left (class?_cons hfresh rfl) }

theorem Bookkept.recast (sourceId template : String) (styles globalStyles : Option String) :
    (s.recast sourceId template styles globalStyles).Bookkept :=
  { h.toStaffed.recast sourceId template styles globalStyles, h with
    planned := by
      intro e he
      obtain ⟨c, hc, hp⟩ := h.planned e he
      refine ⟨_, (class?_recast ..).trans (congrArg _ hc), hp.trans ?_⟩
      dsimp only
      split <;> rfl }

end

theorem Steady.forest_only (s : Page σ) {f : Forest} (h : s.forest.KeepsListeners f) :
    Steady s { s with forest := f } := ⟨.of_eq rfl, h, rfl, fun _ h => h⟩

/-- The books are kept whatever happens apart from events and the passing of time, as long as callbacks
leave listeners alone. -/
theorem Bookkept.durable : Durable (Component.Respects Forest.KeepsListeners) (Bookkept (σ := σ)) where
  forest h hf := h.steady (.forest_only _ (hf Forest.KeepsListeners.frame))
  told h hi hb := h.steady (.run _ (hb (h.gentle _ _ hi)))
  location _ h := h.steady ⟨.of_eq rfl, .refl _, rfl, fun _ h => h⟩
  made h ho ht hc := h.withInstance ho (Forest.lt_size_of_tag? ht) hc
  opening h hi hstate := h.opening hi hstate
  reopening h hi := h.reopening hi
  unwired h hi hc := absurd (h.known _ _ hi) (by simp [hc])
  mounted h hi _ := h.steady (.mount hi _)
  decorated h ht := h.steady (.decorated ht)
  settled h hi hstate := h.settled hi hstate
  left stage h hi := h.left hi stage
  registered h hc := h.register hc
  recast _ _ _ _ h := h.recast ..

end Page

end Componentry.Live
