import Componentry.Proofs.Document.Ancestry
import Componentry.Proofs.Live.Bookkeeping
import Componentry.Proofs.Live.Operation
import Componentry.Proofs.Live.Timers

/-!
# Listening

Listeners are added when an instance is wired, by a small task after it was connected, and taken away
when it is disconnected or connected anew. Over every run of a page the listeners on its nodes are
exactly those that its instances have recorded, and the small task of an instance adds one for each
event of the plan of its component and each target of that event.
-/

namespace Componentry.Live

open Document List

variable {σ : Type}

namespace Page

variable {s t u : Page σ} {id : InstanceId} {i : Instance σ} {c : Component σ}
  {scheduler : Scheduler Task} {r : NodeId × ListenerId × InstanceId}

/-! ### Wiring -/

/-- The listeners that an entry of a plan asks for: one for each target, if the instance has the
method. -/
def wishes (s : Page σ) (i : Instance σ) : WiringEntry → List Forest.Wish
  | .event method event selector =>
    if i.behaviour.hasMethod method then
      (s.targets i selector).map fun target => ⟨target, event, method⟩
    else []
  | .timing .. => []

theorem wishes_congr {j : Instance σ} (hf : s.forest.LooksLike t.forest)
    (hb : j.behaviour = i.behaviour) (he : j.element = i.element) (hr : j.root = i.root)
    (entry : WiringEntry) : t.wishes j entry = s.wishes i entry := by
  have htargets : ∀ selector, t.targets j selector = s.targets i selector := by
    intro selector
    unfold targets
    cases selector with
    | none => rw [he]
    | some text =>
      dsimp only
      rw [hr, hf.queryAll]
  cases entry with
  | event method event selector => simp [wishes, hb, htargets]
  | timing => rfl

def planWishes (s : Page σ) (i : Instance σ) (c : Component σ) : List Forest.Wish :=
  (WiringPlan.ofAnnotations c.description.annotations).flatMap (s.wishes i)

theorem target_lt_size (hi : i.element < s.forest.nodes.size) {w : Forest.Wish}
    (hw : w ∈ s.planWishes i c) : w.target < s.forest.nodes.size := by
  obtain ⟨entry, -, hw⟩ := mem_flatMap.mp hw
  cases entry with
  | timing => cases hw
  | event method event selector =>
    simp only [wishes] at hw
    split at hw
    · obtain ⟨target, ht, rfl⟩ := mem_map.mp hw
      unfold targets at ht
      cases selector with
      | none => exact mem_singleton.mp ht ▸ hi
      | some text =>
        dsimp only at ht
        split at ht
        next nodes hq => exact Forest.lt_size_of_isElement (Forest.isElement_of_queryAll hq ht)
        next => cases ht
    · cases hw

/-- Wishes of an instance are granted: listeners are added to the forest, the instance records them,
and nothing else changes but its held-back methods. -/
def Grants (id : InstanceId) (ws : List Forest.Wish) (s t : Page σ) : Prop :=
  ∃ g : Instance σ → Instance σ,
    t = ({ s with forest := s.forest.addAll id ws }).updateInstance id g ∧
    ∀ i, g i = { i with
      listeners := i.listeners ++ Forest.Wish.recorded id (s.forest.lastListener + 1) ws
      timing := (g i).timing }

namespace Grants

variable {ws vs : List Forest.Wish}

theorem hold (s : Page σ) (id : InstanceId)
    (g : List (String × TimingWrapper) → List (String × TimingWrapper)) :
    Grants id [] s (s.updateInstance id fun i => { i with timing := g i.timing }) :=
  ⟨fun i => { i with timing := g i.timing }, rfl, fun i => by
    rw [Forest.Wish.recorded, Forest.Wish.granted, map_nil, append_nil]⟩

theorem refl (id : InstanceId) (s : Page σ) : Grants id [] s s := by
  have h := hold s id fun l => l
  rwa [updateInstance_self s id fun _ => rfl] at h

theorem listen (s : Page σ) (id : InstanceId) (method event : String) (target : NodeId) :
    Grants id [⟨target, event, method⟩] s (listen id method event s target) :=
  ⟨fun i => { i with listeners := i.listeners ++ [(target, s.forest.lastListener + 1)] }, rfl,
    fun _ => rfl⟩

theorem trans (h : Grants id ws s t) (h' : Grants id vs t u) : Grants id (ws ++ vs) s u := by
  obtain ⟨g, rfl, hg⟩ := h
  obtain ⟨g', rfl, hg'⟩ := h'
  refine ⟨fun i => g' (g i), ?_, fun i => ?_⟩
  · have hforest : s.forest.addAll id (ws ++ vs) = (s.forest.addAll id ws).addAll id vs :=
      foldl_append ..
    rw [hforest]
    exact updateInstance_updateInstance ({ s with
      forest := (s.forest.addAll id ws).addAll id vs } : Page σ) id g g'
  · have hlast : (({ s with forest := s.forest.addAll id ws } : Page σ).updateInstance id
        g).forest.lastListener + 1 = s.forest.lastListener + 1 + ws.length := by
      refine (congrArg (· + 1) (Forest.addAll_frame s.forest id ws).2).trans ?_
      exact Nat.add_right_comm ..
    dsimp only
    rw [hg' (g i), hg i, hlast]
    simp [Forest.Wish.recorded, Forest.Wish.granted_append]

theorem listenAll (s : Page σ) (id : InstanceId) (method event : String) (targets : List NodeId) :
    Grants id (targets.map fun target => ⟨target, event, method⟩) s
      (targets.foldl (Page.listen id method event) s) := by
  induction targets generalizing s with
  | nil => exact refl id s
  | cons target targets ih => exact (listen s id method event target).trans (ih _)

theorem looksLike (h : Grants id ws s t) : s.forest.LooksLike t.forest := by
  obtain ⟨g, rfl, -⟩ := h
  exact .addAll ..

/-- The instance records what was wished for and is otherwise what it was. -/
theorem instance? (h : Grants id ws s t) (hi : s.instance? id = some i) :
    ∃ timing, t.instance? id = some { i with
      listeners := i.listeners ++ Forest.Wish.recorded id (s.forest.lastListener + 1) ws
      timing } := by
  obtain ⟨g, rfl, hg⟩ := h
  refine ⟨(g i).timing, ?_⟩
  rw [← hg i]
  exact instance?_updateInstance_self hi g

theorem wireEntry (hi : s.instance? id = some i) (entry : WiringEntry) :
    Grants id (s.wishes i entry) s (Page.wireEntry id s entry) := by
  unfold Page.wireEntry
  rw [hi]
  dsimp only
  by_cases hm : i.behaviour.hasMethod entry.method = true
  · rw [if_neg (by simp [hm])]
    cases entry with
    | event method event selector =>
      have hw : s.wishes i (.event method event selector) = _ := if_pos hm
      rw [hw]
      exact listenAll s id method event _
    | timing method kind delay =>
      dsimp
      split
      · exact refl id s
      · exact hold s id fun l => l ++ [(method, ({ kind, delay } : TimingWrapper))]
  · rw [if_pos (by simp [hm])]
    have hw : s.wishes i entry = [] := by
      cases entry with
      | event => exact if_neg hm
      | timing => rfl
    rw [hw]
    exact refl id s

theorem wirePlan (hi : s.instance? id = some i) (plan : WiringPlan) :
    Grants id (plan.flatMap (s.wishes i)) s (plan.foldl (Page.wireEntry id) s) := by
  induction plan generalizing s i with
  | nil => exact refl id s
  | cons entry plan ih =>
    have hone := wireEntry hi entry
    obtain ⟨j, hj, hb, he, hr⟩ : ∃ j, (Page.wireEntry id s entry).instance? id = some j ∧
        j.behaviour = i.behaviour ∧ j.element = i.element ∧ j.root = i.root := by
      obtain ⟨timing, hj⟩ := hone.instance? hi
      exact ⟨_, hj, rfl, rfl, rfl⟩
    have hrest := ih hj
    rw [flatMap_congr fun e _ => wishes_congr hone.looksLike hb he hr e] at hrest
    exact hone.trans hrest

end Grants

theorem Grounded.plan (h : s.Grounded) {cls : ClassId} (hc : s.class? cls = some c) :
    (s.plans.plan cls c.description.annotations).2 =
        WiringPlan.ofAnnotations c.description.annotations ∧
      ∀ e ∈ (s.plans.plan cls c.description.annotations).1.plans, ∃ c, s.class? e.1 = some c ∧
        e.2 = WiringPlan.ofAnnotations c.description.annotations := by
  unfold PlanCache.plan
  split
  next e he =>
    obtain ⟨hm, hk⟩ := Keyed.mem_of_find? he
    obtain ⟨c', hc', hp⟩ := h.planned e hm
    have hcc : c' = c := Option.some.inj (hc'.symm.trans (hk ▸ hc))
    exact ⟨hcc ▸ hp, h.planned⟩
  next =>
    refine ⟨rfl, fun e he => ?_⟩
    rcases mem_cons.mp he with rfl | he
    · exact ⟨c, hc, rfl⟩
    · exact h.planned e he

/-- Wiring an instance that is to be wired: the listeners its plan asks for are added and recorded,
and it is marked. -/
theorem Grounded.wire (h : s.Grounded) (hi : s.instance? id = some i) (hs : i.state = .connected)
    (hw : i.wired = false) (hc : s.class? i.cls = some c) :
    ∃ g : Instance σ → Instance σ, s.wire id = ({ s with
        plans := (s.plans.plan i.cls c.description.annotations).1
        forest := s.forest.addAll id (s.planWishes i c) }).updateInstance id g ∧
      ∀ j, g j = { j with
        listeners := j.listeners ++
          Forest.Wish.recorded id (s.forest.lastListener + 1) (s.planWishes i c)
        timing := (g j).timing
        wired := true } := by
  obtain ⟨hplan, -⟩ := h.plan hc
  obtain ⟨g, ht, hg⟩ := Grants.wirePlan (s := { s with
    plans := (s.plans.plan i.cls c.description.annotations).1 }) hi
    (WiringPlan.ofAnnotations c.description.annotations)
  refine ⟨fun j => { g j with wired := true }, ?_, fun j => ?_⟩
  · unfold Page.wire
    simp only [hi, hs, hw, hc, hplan, ht]
    exact updateInstance_updateInstance ({ s with
      plans := (s.plans.plan i.cls c.description.annotations).1
      forest := s.forest.addAll id (s.planWishes i c) } : Page σ) id g
      fun j => { j with wired := true }
  · dsimp only
    rw [hg j]
    rfl

theorem wire_of_idle
    (h : ∀ i, s.instance? id = some i → ¬ (i.state = .connected ∧ i.wired = false)) :
    s.wire id = s := by
  unfold wire
  cases hi : s.instance? id with
  | none => rfl
  | some i =>
    dsimp only
    cases hw : i.wired with
    | true => simp
    | false =>
      have hs : i.state ≠ .connected := fun hs => h i hi ⟨hs, hw⟩
      simp [hs]

theorem Kept.wire_ready (h : s.Kept) (ha : s.AwaitsBut (some id)) (hi : s.instance? id = some i)
    (hs : i.state = .connected) (hw : i.wired = false) : (s.wire id).Bookkept := by
  obtain ⟨c, hc⟩ := h.known id i hi
  obtain ⟨g, ht, hg⟩ := h.toGrounded.wire hi hs hw hc
  rw [ht]
  let planned : Page σ := { s with
    plans := (s.plans.plan i.cls c.description.annotations).1
    forest := s.forest.addAll id (s.planWishes i c) }
  have hsize := (Forest.addAll_frame s.forest id (s.planWishes i c)).1
  have hplanned : planned.Grounded :=
    { h with
      standing := fun id' j hj => Nat.lt_of_lt_of_eq (h.standing id' j hj) hsize.symm
      planned := (h.plan hc).2 }
  have hself := instance?_updateInstance_self (s := planned) hi g
  have hwired : (g i).wired = true := by rw [hg i]
  have hfollows : Follows planned (planned.updateInstance id g) := by
    refine ⟨.update planned id fun j _ => ?_, le_rfl, rfl⟩
    rw [hg j]
    rfl
  refine { hplanned.follows hfollows with
    ledger := h.ledger.addAll (fun w => target_lt_size (h.standing id i hi)) ?_ fun id' hne => ?_
    silent := forall_updateInstance hi (fun hw => absurd (hw.symm.trans hwired) nofun)
      fun id' j _ => h.silent id' j
    live := forall_updateInstance hi (fun _ => by rw [hg i]; exact hs)
      fun id' j _ => h.live id' j
    awaits := fun id' j _ => forall_updateInstance
      hi
      (fun _ hw => absurd (hw.symm.trans hwired) nofun)
      (fun id' j hne => ha id' j fun he => hne (Option.some.inj he)) id' j }
  · rw [records_of_instance? hself, hg i, records_of_instance? hi]
  · rw [records, instance?_updateInstance_ne hne]
    rfl

theorem Kept.wire (h : s.Kept) (ha : s.AwaitsBut (some id)) : (s.wire id).Bookkept := by
  by_cases hready : ∃ i, s.instance? id = some i ∧ i.state = .connected ∧ i.wired = false
  · obtain ⟨i, hi, hs, hw⟩ := hready
    exact h.wire_ready ha hi hs hw
  · rw [wire_of_idle fun i hi hr => hready ⟨i, hi, hr⟩]
    refine { h with awaits := fun id' j _ hj hc hw => ?_ }
    refine ha id' j (fun he => ?_) hj hc hw
    exact hready ⟨j, Option.some.inj he ▸ hj, hc, hw⟩

/-! ### Calls and time -/

theorem Steady.updateTiming (s : Page σ) (id : InstanceId) (method : String)
    (g : TimingWrapper → TimingWrapper) : Steady s (s.updateTiming id method g) :=
  .update s id fun _ _ => rfl

theorem Steady.scheduler_only (s : Page σ) (h : scheduler.microtasks = s.scheduler.microtasks) :
    Steady s { s with scheduler } :=
  ⟨.of_eq rfl, .refl _, rfl, fun id hm => by
    rw [h]
    exact hm⟩

section

variable (h : s.Bookkept)

include h

theorem Bookkept.callNow (id : InstanceId) (method : String) (event : Option Event) :
    (s.callNow id method event).1.Bookkept := by
  unfold Page.callNow
  split
  · exact h
  next i hi => exact h.steady (.run s ((h.gentle id i hi).call _ _ _))

theorem Bookkept.invoke (id : InstanceId) (method : String) (event : Option Event) :
    (s.invoke id method event).1.Bookkept := by
  unfold Page.invoke
  split
  · exact h
  next i hi =>
    split
    · exact h.callNow id method event
    next w hw =>
      dsimp only
      have hs := h.steady (.updateTiming s id method fun _ => (w.decide s.scheduler.now).1)
      split
      · exact hs.callNow id method event
      · exact hs
      next cancel delay hd =>
        dsimp only
        refine (hs.steady (.scheduler_only _ ?_)).steady (.updateTiming ..)
        exact Scheduler.microtasks_withdraw _ cancel

theorem Bookkept.runTask (task : Task) : (s.runTask task).Bookkept := by
  cases task with
  | wire id => exact h.toKept.wire (h.awaits.weaken _)
  | fire id method event => exact (h.steady (.updateTiming s id method _)).callNow id method event

/-- Taking out the next small task leaves the books kept, and all waiting but the instance that the
task is for. -/
theorem Bookkept.popMicrotask {task : Task}
    (hp : s.scheduler.popMicrotask = some (task, scheduler)) :
    ({ s with scheduler } : Page σ).Kept ∧
      ∀ x, (∀ id, task = .wire id → some id = x) → ({ s with scheduler } : Page σ).AwaitsBut x := by
  refine ⟨{ h.toKept with }, fun x hx id i hne hi hc hw => ?_⟩
  have hm := h.awaits id i (by simp) hi hc hw
  unfold Scheduler.popMicrotask at hp
  split at hp
  · cases hp
  next t rest hq =>
    cases hp
    rw [hq] at hm
    rcases mem_cons.mp hm with rfl | hm
    · exact absurd (hx id rfl) hne
    · exact hm

theorem Bookkept.runMicrotask : (s.perform .runMicrotask).Bookkept := by
  simp only [perform]
  split
  · exact h
  next task scheduler hp =>
    obtain ⟨hk, ha⟩ := h.popMicrotask hp
    cases task with
    | wire id => exact hk.wire (ha _ fun id' he => congrArg some (Task.wire.inj he).symm)
    | fire id method event =>
      have hall : ({ s with scheduler } : Page σ).Bookkept :=
        { hk with awaits := ha none fun id' he => by cases he }
      exact hall.runTask _

theorem Bookkept.runTimer (deadline : Nat) : (s.perform (.runTimer deadline)).Bookkept := by
  simp only [perform]
  split
  · exact h
  next task scheduler hp =>
    refine (h.steady (.scheduler_only s ?_)).runTask task
    unfold Scheduler.popDue at hp
    split at hp
    · cases hp
    · split at hp
      · cases hp
      · cases hp
        rfl

end

/-! ### Runs -/

theorem Bookkept.part {op : Operation σ} (hop : Operation.Part op) (h : s.Bookkept) :
    (s.perform op).Bookkept := by
  cases hop with
  | invoke id method event => exact h.invoke id method event
  | runMicrotask => exact h.runMicrotask
  | runTimer deadline => exact h.runTimer deadline
  | setNow now => exact h.steady (.scheduler_only s rfl)

theorem Bookkept.start (world : σ) : (Page.start world).Bookkept := by
  have hnone : ∀ id, (Page.start world).instance? id = none := fun _ => rfl
  have hlisteners : ∀ n, ((Page.start world).forest.node n).listeners = [] := by
    intro n
    have hnode := Forest.node_create {} .document n
    refine (congrArg Node.listeners hnode).trans ?_
    split
    · rfl
    · rfl
  exact { Staffed.start world with
    standing := by simp [hnone]
    planned := fun e he => absurd he not_mem_nil
    ledger := .empty hlisteners fun id => by rw [records]; rfl
    silent := by simp [hnone]
    live := by simp [hnone]
    awaits := fun id i _ hi => by simp [hnone] at hi }

theorem Bookkept.performAll (h : s.Bookkept) (ops : List (Operation σ))
    (hops : ∀ c, .define c ∈ ops → c.Respects Forest.KeepsListeners) :
    (s.performAll ops).Bookkept :=
  foldlRecOn ops Page.perform h fun _ hs _ hop =>
    Bookkept.durable.perform hs (fun _ _ ht => ht.keeps (fun _ _ => .part) hs) fun c he => hops c (he ▸ hop)

/-! ### Small tasks come to an end -/

theorem scheduler_runTask (s : Page σ) (task : Task) : (s.runTask task).scheduler = s.scheduler := by
  cases task with
  | wire id =>
    exact wire_keeps (p := fun t => t.scheduler = s.scheduler) rfl (fun _ => rfl) (fun _ _ _ _ h => h)
      (fun _ _ _ _ _ _ _ h => h) fun _ h => h
  | fire id method event =>
    simp only [runTask, callNow]
    split <;> rfl

theorem microtasks_runMicrotasksUpTo {limit : Nat} (h : s.scheduler.microtasks.length ≤ limit) :
    (runMicrotasksUpTo limit s).1.scheduler.microtasks = [] := by
  induction limit generalizing s with
  | zero => exact eq_nil_of_length_eq_zero (Nat.le_zero.mp h)
  | succ limit ih =>
    rw [runMicrotasksUpTo]
    unfold Scheduler.popMicrotask
    cases hq : s.scheduler.microtasks with
    | nil => exact hq
    | cons task rest =>
      refine ih ?_
      rw [scheduler_runTask]
      rw [hq] at h
      exact Nat.le_of_succ_le_succ h

theorem Bookkept.wired_of_runMicrotasks (h : s.Bookkept)
    (hi : s.runMicrotasks.1.instance? id = some i) (hs : i.state = .connected) : i.wired = true := by
  have hend : s.runMicrotasks.1.Bookkept :=
    (runMicrotasksUpTo_evolves _ s).keeps (fun _ _ => .part) h
  have hnone : s.runMicrotasks.1.scheduler.microtasks = [] :=
    microtasks_runMicrotasksUpTo le_rfl
  cases hw : i.wired with
  | true => rfl
  | false =>
    have hm := hend.awaits id i (by simp) hi hs hw
    rw [hnone] at hm
    cases hm

/-! ### Listeners and records, one by one -/

/-- The listeners on the nodes: where each stands, its number and the instance it calls. -/
def present (s : Page σ) : List (NodeId × ListenerId × InstanceId) :=
  (range s.forest.nodes.size).flatMap fun n =>
    (s.forest.node n).listeners.map fun l => (n, l.id, l.binding.owner)

def recorded (s : Page σ) : List (NodeId × ListenerId × InstanceId) :=
  s.instances.flatMap fun x => x.2.listeners.map fun r => (r.1, r.2, x.1)

theorem mem_present :
    r ∈ s.present ↔ ∃ l ∈ (s.forest.node r.1).listeners, l.id = r.2.1 ∧ l.binding.owner = r.2.2 := by
  constructor
  · intro h
    obtain ⟨n, -, h⟩ := mem_flatMap.mp h
    obtain ⟨l, hl, rfl⟩ := mem_map.mp h
    exact ⟨l, hl, rfl, rfl⟩
  · obtain ⟨n, k, id⟩ := r
    rintro ⟨l, hl, rfl, rfl⟩
    refine mem_flatMap.mpr ⟨n, mem_range.mpr ?_, mem_map_of_mem hl⟩
    by_contra hn
    rw [Forest.node_of_size_le (not_lt.mp hn)] at hl
    cases hl

theorem Kept.mem_recorded (h : s.Kept) : r ∈ s.recorded ↔ (r.1, r.2.1) ∈ s.records r.2.2 := by
  constructor
  · intro hm
    obtain ⟨x, hx, hm⟩ := mem_flatMap.mp hm
    obtain ⟨q, hr, rfl⟩ := mem_map.mp hm
    have hi := (instance?_eq_some_iff h.keyed).mpr hx
    rw [records_of_instance? hi]
    exact hr
  · obtain ⟨n, k, id⟩ := r
    intro hm
    unfold records at hm
    cases hi : s.instance? id with
    | none => rw [hi] at hm; cases hm
    | some i =>
      rw [hi] at hm
      exact mem_flatMap.mpr ⟨(id, i), mem_of_instance? hi, mem_map.mpr ⟨(n, k), hm, rfl⟩⟩

theorem Kept.nodup_present (h : s.Kept) : (s.present.map (·.2.1)).Nodup := by
  unfold present
  rw [map_flatMap]
  simp only [map_map]
  refine nodup_flatMap.mpr ⟨fun n _ => ?_, ?_⟩
  · refine (h.ledger.nodup n).map_on fun l hl l' hl' he => ?_
    exact (h.ledger.distinct n n l l' hl hl' he).2
  · refine Pairwise.imp_of_mem ?_ nodup_range
    intro m n _ _ hne k hm hn
    obtain ⟨l, hl, rfl⟩ := mem_map.mp hm
    obtain ⟨l', hl', he⟩ := mem_map.mp hn
    exact hne (h.ledger.distinct m n l l' hl hl' he.symm).1

theorem Kept.present_perm (h : s.Kept) :
    s.present.Perm s.recorded ∧ (s.recorded.map (·.2.1)).Nodup := by
  have hpresent : s.present.Nodup := h.nodup_present.of_map _
  have hrecorded : s.recorded.Nodup := by
    refine nodup_flatMap.mpr ⟨fun x hx => ?_, ?_⟩
    · have hi := (instance?_eq_some_iff h.keyed).mpr hx
      have hn := h.ledger.nodupRecords x.1
      rw [records_of_instance? hi] at hn
      refine hn.map_on fun r _ r' _ he => ?_
      obtain ⟨h1, he⟩ := Prod.mk.inj he
      exact Prod.ext h1 (Prod.mk.inj he).1
    · refine Pairwise.imp ?_ (pairwise_map.mp h.keyed)
      intro x y hne r hx hy
      obtain ⟨a, -, rfl⟩ := mem_map.mp hx
      obtain ⟨b, -, he⟩ := mem_map.mp hy
      exact hne (congrArg (·.2.2) he).symm
  have hperm : s.present.Perm s.recorded := by
    refine (perm_ext_iff_of_nodup hpresent hrecorded).mpr fun r => ?_
    rw [mem_present, h.mem_recorded]
    constructor
    · rintro ⟨l, hl, hid, ho⟩
      have hm := h.ledger.listed r.1 l hl
      rwa [hid, ho] at hm
    · exact h.ledger.present r.2.2 (r.1, r.2.1)
  exact ⟨hperm, (hperm.map _).nodup_iff.mp h.nodup_present⟩

theorem nodup_wishes (hf : s.forest.WellFormed) (i : Instance σ) (entry : WiringEntry) :
    (s.wishes i entry).Nodup := by
  cases entry with
  | timing => exact nodup_nil
  | event method event selector =>
    simp only [wishes]
    split
    · refine Nodup.map (fun a b he => congrArg Forest.Wish.target he) ?_
      unfold targets
      cases selector with
      | none => exact nodup_singleton _
      | some text =>
        dsimp only
        unfold Forest.queryAll
        cases Selector.parse text with
        | error e => exact nodup_nil
        | ok selector => exact (hf.nodup_below _ _).filter _
    · exact nodup_nil

/-- The small task of an instance that is to be wired adds and records exactly the listeners that the
plan of its component asks for. -/
theorem Bookkept.wiring (h : s.Bookkept)
    (hp : s.scheduler.popMicrotask = some (.wire id, scheduler)) (hi : s.instance? id = some i)
    (hs : i.state = .connected) (hw : i.wired = false) :
    ∃ c j, s.class? i.cls = some c ∧ (s.perform .runMicrotask).instance? id = some j ∧
      j.wired = true ∧
      j.listeners = Forest.Wish.recorded id (s.forest.lastListener + 1) (s.planWishes i c) ∧
      ∀ n, ((s.perform .runMicrotask).forest.node n).listeners = (s.forest.node n).listeners ++
        ((Forest.Wish.granted id (s.forest.lastListener + 1) (s.planWishes i c)).filter
          (·.1 = n)).map (·.2) := by
  obtain ⟨c, hc⟩ := h.known id i hi
  have hpop : ({ s with scheduler } : Page σ).Grounded := { h.toGrounded with }
  obtain ⟨g, ht, hg⟩ := hpop.wire hi hs hw hc
  have hperform : s.perform .runMicrotask = ({ s with scheduler } : Page σ).wire id := by
    simp only [perform, hp]
    rfl
  rw [hperform, ht]
  refine ⟨c, g i, hc, ?_, by rw [hg i], ?_, ?_⟩
  · exact instance?_updateInstance_self hi g
  · rw [hg i, h.silent id i hi hw]
    rfl
  · exact Forest.listeners_addAll s.forest id fun w => target_lt_size (h.standing id i hi)

/-- Listening is kept exactly over every run whose components leave listeners alone. The listeners on
the nodes are those in the records of the instances they call, each number once. Only connected and
wired instances have recorded any. A connected instance that is not wired waits for its small task,
so after the small tasks ran all connected instances are wired. Its small task gives an instance one
listener for each event of its component's plan and each target of that event. -/
theorem listeners_match_records (world : σ) (ops : List (Operation σ))
    (hquiet : ∀ c, .define c ∈ ops → c.Respects Forest.KeepsListeners) :
    let s := (Page.start world).performAll ops
    (s.present.Perm s.recorded ∧ (s.recorded.map (·.2.1)).Nodup) ∧
    (∀ id i, s.instance? id = some i → i.state ≠ .connected ∨ i.wired = false →
      i.listeners = []) ∧
    (∀ id i, s.instance? id = some i → i.state = .connected → i.wired = false →
      .wire id ∈ s.scheduler.microtasks) ∧
    (∀ id i, s.runMicrotasks.1.instance? id = some i → i.state = .connected → i.wired = true) ∧
    (∀ id i scheduler, s.scheduler.popMicrotask = some (.wire id, scheduler) →
      s.instance? id = some i → i.state = .connected → i.wired = false →
      ∃ c j, s.class? i.cls = some c ∧ (s.perform .runMicrotask).instance? id = some j ∧
        j.wired = true ∧
        j.listeners = Forest.Wish.recorded id (s.forest.lastListener + 1) (s.planWishes i c) ∧
        (∀ n, ((s.perform .runMicrotask).forest.node n).listeners = (s.forest.node n).listeners ++
          ((Forest.Wish.granted id (s.forest.lastListener + 1) (s.planWishes i c)).filter
            (·.1 = n)).map (·.2)) ∧
        (s.forest.WellFormed → ∀ entry, (s.wishes i entry).Nodup)) := by
  intro s
  have h : s.Bookkept := (Bookkept.start world).performAll ops hquiet
  refine ⟨h.toKept.present_perm, ?_, ?_, ?_, ?_⟩
  · rintro id i hi (hs | hw)
    · refine h.silent id i hi ?_
      cases hw : i.wired with
      | false => rfl
      | true => exact absurd (h.live id i hi hw) hs
    · exact h.silent id i hi hw
  · exact fun id i => h.awaits id i (by simp)
  · exact fun id i => h.wired_of_runMicrotasks
  · intro id i scheduler hp hi hs hw
    obtain ⟨c, j, hc, hj, hwired, hl, hn⟩ := h.wiring hp hi hs hw
    exact ⟨c, j, hc, hj, hwired, hl, hn, fun hf => nodup_wishes hf i⟩

/-- A bell with two parts to click on. -/
def bell : Component Unit := .still
  { tag := "x-bell"
    template := "<b></b><b></b>"
    annotations := [{ method := "ring", name := "click", kind := .event "click" (some "b") }] }

/-- The bell is hung up, taken down and hung up again, before its first small task ran. -/
def rehung : List (Operation Unit) :=
  [.define bell, .createElement "x-bell", .append 0 1, .remove 1, .append 0 1]

theorem bell_quiet : bell.Respects Forest.KeepsListeners := Component.respects_still .refl _

/-- Both of its small tasks wait then; the first one gives each part its listener, and the second
one does nothing. -/
theorem listeners_match_records_rehung :
    (∀ c, .define c ∈ rehung → c.Respects Forest.KeepsListeners) ∧
    ((Page.start ()).performAll rehung).scheduler.microtasks = [.wire 2, .wire 2] ∧
    ((Page.start ()).performAll rehung).runMicrotasks.1.present = [(2, 1, 2), (3, 2, 2)] ∧
    ∀ id i, ((Page.start ()).performAll rehung).runMicrotasks.1.instance? id = some i →
      i.state = .connected → i.wired = true := by
  have hquiet : ∀ c, .define c ∈ rehung → c.Respects Forest.KeepsListeners := by
    intro c hc
    simp only [rehung, mem_cons, not_mem_nil, or_false, reduceCtorEq,
      Operation.define.injEq] at hc
    exact hc ▸ bell_quiet
  exact ⟨hquiet, by decide +kernel, by decide +kernel,
    (listeners_match_records () rehung hquiet).2.2.2.1⟩

end Page

end Componentry.Live
