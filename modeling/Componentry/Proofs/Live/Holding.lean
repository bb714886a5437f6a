import Componentry.Proofs.Live.Changes
import Componentry.Proofs.Live.Moments

/-!
# Held-back methods left alone

Methods are held back from when their instance is wired for the first time, for as long as the page
lasts: nothing that happens to the tree, to components or to the lifecycle of instances takes a held
back method away or changes its state, and none of it touches timers or the clock.
-/

namespace Componentry.Live

open Document List

variable {σ α : Type}

namespace Page

variable {s t u : Page σ} {id : InstanceId} {i : Instance σ} {method : String} {n : NodeId}

/-! ### The state of held-back methods -/

theorem wrapper?_congr (h : (t.instance? id).map Instance.timing = (s.instance? id).map Instance.timing)
    (method : String) : t.wrapper? id method = s.wrapper? id method := by
  unfold wrapper?
  cases hs : s.instance? id <;> cases ht : t.instance? id <;> simp_all [Instance.wrapper?]

theorem find?_map_timing (method method' : String) (g : TimingWrapper → TimingWrapper)
    (l : List (String × TimingWrapper)) :
    ((l.map fun (m, w) => if m == method then (m, g w) else (m, w)).find? fun t =>
      t.1 == method').map (·.2) =
    if method' = method then ((l.find? fun t => t.1 == method').map (·.2)).map g
    else (l.find? fun t => t.1 == method').map (·.2) := by
  induction l with
  | nil => simp
  | cons x l ih =>
    obtain ⟨m, w⟩ := x
    by_cases hm : m = method'
    · by_cases he : m = method
      · subst hm
        subst he
        simp
      · subst hm
        simp [he]
    · rw [map_cons, find?_cons_of_neg, find?_cons_of_neg, ih]
      · simpa using hm
      · by_cases he : m = method <;> simpa [he] using hm

theorem wrapper?_updateTiming (s : Page σ) (id id' : InstanceId) (method method' : String)
    (g : TimingWrapper → TimingWrapper) : (s.updateTiming id method g).wrapper? id' method' =
      if id' = id ∧ method' = method then (s.wrapper? id' method').map g
      else s.wrapper? id' method' := by
  unfold wrapper? updateTiming
  rw [instance?_updateInstance]
  by_cases hid : id' = id
  · rw [if_pos hid]
    cases s.instance? id' with
    | none => simp
    | some i =>
      simp only [Option.map_some, Option.bind_some, Instance.wrapper?]
      rw [find?_map_timing]
      simp [hid]
  · simp [hid]

/-! ### Nothing that bears on timers -/

/-- Timers and the clock are left alone, only wiring may be queued, and methods that are held back stay
as they are, while others may come to be held back. -/
structure Calm (s t : Page σ) : Prop where
  now : t.scheduler.now = s.scheduler.now
  lastTimer : t.scheduler.lastTimer = s.scheduler.lastTimer
  timers : t.scheduler.timers = s.scheduler.timers
  dueById : t.scheduler.dueById = s.scheduler.dueById
  small : ∀ task ∈ t.scheduler.microtasks, task ∈ s.scheduler.microtasks ∨ ∃ id, task = .wire id
  numbered : (∀ x ∈ s.instances, x.1 ≤ s.lastId) → ∀ x ∈ t.instances, x.1 ≤ t.lastId
  /-- Methods that are held back stay as they are. -/
  kept : ∀ id method w, s.wrapper? id method = some w → t.wrapper? id method = some w
  /-- Others that come to be held back were not asked for. -/
  gained : ∀ id method w, t.wrapper? id method = some w → s.wrapper? id method = some w ∨
    s.wrapper? id method = none ∧ w.pending = none ∧ w.lastRun = none

namespace Calm

theorem of_keeps (hk : KeepsInstances Instance.timing s t) (hs : t.scheduler = s.scheduler)
    (hl : t.lastId = s.lastId) : Calm s t := by
  have hw : ∀ id method, t.wrapper? id method = s.wrapper? id method := fun id =>
    wrapper?_congr (hk.same id)
  refine ⟨by rw [hs], by rw [hs], by rw [hs], by rw [hs], ?_, ?_, ?_, ?_⟩
  · rw [hs]
    exact fun _ ht => .inl ht
  · exact numbered_of_keys hk.keys hl
  · exact fun id method w h => (hw id method).trans h
  · exact fun id method w h => .inl ((hw id method).symm.trans h)

theorem refl (s : Page σ) : Calm s s := of_keeps (.refl s) rfl rfl

theorem trans (hst : Calm s t) (htu : Calm t u) : Calm s u := by
  refine ⟨htu.now.trans hst.now, htu.lastTimer.trans hst.lastTimer, htu.timers.trans hst.timers,
    htu.dueById.trans hst.dueById, ?_, fun hn => htu.numbered (hst.numbered hn), ?_, ?_⟩
  · intro task ht
    rcases htu.small task ht with ht | ht
    · exact hst.small task ht
    · exact .inr ht
  · exact fun id method w h => htu.kept id method w (hst.kept id method w h)
  · intro id method w hw
    rcases htu.gained id method w hw with hw | ⟨hnone, hfresh⟩
    · exact hst.gained id method w hw
    · refine .inr ⟨?_, hfresh⟩
      cases hs : s.wrapper? id method with
      | none => rfl
      | some w' =>
        rw [hst.kept id method w' hs] at hnone
        cases hnone

theorem update (s : Page σ) (id : InstanceId) {g : Instance σ → Instance σ}
    (hg : ∀ i, s.instance? id = some i → (g i).timing = i.timing) : Calm s (s.updateInstance id g) :=
  of_keeps (.update s id hg) rfl rfl

theorem forest_only (s : Page σ) (forest : Forest) : Calm s { s with forest } :=
  of_keeps (.of_eq rfl) rfl rfl

theorem run (s : Page σ) (callback : Authored σ α) : Calm s (s.run callback).1 :=
  of_keeps (.of_eq rfl) rfl rfl

theorem decorated (h : Decorated s t) : Calm s t :=
  of_keeps (h.instances.map Instance.timing) h.scheduler h.lastId

theorem queue (s : Page σ) (id : InstanceId) :
    Calm s { s with scheduler := s.scheduler.queueMicrotask (.wire id) } := by
  refine ⟨rfl, rfl, rfl, rfl, fun task ht => ?_, fun hn => hn, fun _ _ _ h => h, fun _ _ _ h => .inl h⟩
  rcases mem_append.mp ht with ht | ht
  · exact .inl ht
  · exact .inr ⟨id, mem_singleton.mp ht⟩

theorem pop {task : Task} {scheduler : Scheduler Task}
    (h : s.scheduler.popMicrotask = some (task, scheduler)) : Calm s { s with scheduler } := by
  unfold Scheduler.popMicrotask at h
  split at h
  · cases h
  next rest hq =>
    cases h
    refine ⟨rfl, rfl, rfl, rfl, fun task ht => ?_, id, fun _ _ _ h => h, fun _ _ _ h => .inl h⟩
    exact .inl (hq ▸ .tail _ ht)

theorem callNow (s : Page σ) (id : InstanceId) (method : String) (event : Option Event) :
    Calm s (s.callNow id method event).1 := by
  unfold Page.callNow
  split
  · exact refl s
  · exact run ..

/-! ### Operations -/

theorem mark (s : Page σ) (id : InstanceId) (state : Lifecycle) :
    Calm s (s.updateInstance id fun i => { i with state }) := update s id fun _ _ => rfl

theorem unwire (s : Page σ) (id : InstanceId) : Calm s (s.unwire id) := by
  unfold Page.unwire
  split
  · exact refl s
  · exact (forest_only s _).trans (.update _ id fun _ _ => rfl)

section

variable (hn : ∀ x ∈ s.instances, x.1 ≤ s.lastId)

include hn

theorem withInstance (n : NodeId) (cls : ClassId) (c : Component σ) :
    Calm s (s.withInstance n cls c) := by
  -- The new instance holds no method back, and there was none under its number.
  have hw : ∀ id method, (s.withInstance n cls c).wrapper? id method = s.wrapper? id method := by
    intro id method
    unfold wrapper?
    rw [instance?_withInstance hn]
    split
    next hid =>
      rw [hid, instance?_next hn]
      rfl
    next => rfl
  exact ⟨rfl, rfl, rfl, rfl, fun _ ht => .inl ht, fun hn => numbered_withInstance hn n cls c,
    fun id method w h => (hw id method).trans h, fun id method w h => .inl ((hw id method).symm.trans h)⟩

omit hn in
theorem register (s : Page σ) (c : Component σ) : Calm s (s.register c) := by
  have hnext : Calm s ({ s with lastId := s.lastId + 1 } : Page σ) :=
    ⟨rfl, rfl, rfl, rfl, fun _ h => .inl h, fun hn x hx => Nat.le_succ_of_le (hn x hx), fun _ _ _ h => h,
      fun _ _ _ h => .inl h⟩
  have hshared := hnext.trans
    (.decorated (.shareStyles { s with lastId := s.lastId + 1 } c.description.globalStyles))
  exact hshared.trans (.of_keeps (.of_eq rfl) rfl rfl)

theorem durable : Durable (fun _ => True) (Calm s) where
  forest h _ := h.trans (forest_only ..)
  told h _ _ := h.trans (run ..)
  location _ h := h.trans (of_keeps (.of_eq rfl) rfl rfl)
  made h _ _ _ := h.trans (withInstance (h.numbered hn) ..)
  opening h hi _ := h.trans (of_keeps (.update_of hi rfl) rfl rfl)
  reopening h hi := (h.trans (unwire ..)).trans (of_keeps (.update_of hi rfl) rfl rfl)
  unwired h _ _ := h.trans (unwire ..)
  mounted h hi _ := h.trans (of_keeps (SameCast.mount hi _ rfl).instances rfl rfl)
  decorated h ht := h.trans (decorated ht)
  settled h _ _ := (h.trans (mark _ _ .connected)).trans (queue ..)
  left _ h _ := ((h.trans (mark _ _ .disconnected)).trans (unwire ..)).trans (run ..)
  registered h _ := h.trans (register ..)
  recast _ _ _ _ h := h.trans (of_keeps (.of_eq rfl) rfl rfl)

theorem perform {op : Operation σ} (hop : op.isPlain) : Calm s (s.perform op) :=
  (durable hn).perform (refl s) (fun hparts => absurd (hop.symm.trans hparts) nofun) fun _ _ => trivial

end

/-! ### Wiring -/

theorem hold (hi : s.instance? id = some i) (hnew : Instance.wrapper? i method = none)
    (kind : TimingKind) (delay : Nat) :
    Calm s (s.updateInstance id fun i => { i with timing := i.timing ++ [(method, { kind, delay })] }) := by
  have hadded : ∀ m, (((i.timing ++ [(method, ({ kind, delay } : TimingWrapper))]).find? fun t =>
      t.1 == m).map (·.2)) = if m = method then some { kind, delay } else Instance.wrapper? i m := by
    intro m
    unfold Instance.wrapper? at hnew ⊢
    rw [find?_append]
    by_cases hm : m = method
    · subst hm
      rw [Option.map_eq_none_iff.mp hnew]
      simp
    · cases i.timing.find? (fun t => t.1 == m) with
      | none => simp [hm, Ne.symm hm]
      | some x => simp [hm]
  have hw : ∀ id' m, (s.updateInstance id fun i =>
      { i with timing := i.timing ++ [(method, { kind, delay })] }).wrapper? id' m =
      if id' = id ∧ m = method then some { kind, delay } else s.wrapper? id' m := by
    intro id' m
    unfold wrapper?
    rw [instance?_updateInstance]
    by_cases hid : id' = id
    · subst hid
      rw [if_pos rfl, hi]
      exact (hadded m).trans (by simp)
    · rw [if_neg hid, if_neg fun h => hid h.1]
  have hnone : s.wrapper? id method = none := by
    rw [wrapper?, hi]
    exact hnew
  refine ⟨rfl, rfl, rfl, rfl, fun _ h => .inl h, ?_, ?_, ?_⟩
  · exact numbered_of_keys (keys_updateInstance s id _) rfl
  · intro id' m w h
    rw [hw, if_neg]
    · exact h
    · rintro ⟨rfl, rfl⟩
      rw [hnone] at h
      cases h
  · intro id' m w h
    rw [hw] at h
    split at h
    next he =>
      cases h
      exact .inr ⟨by rw [he.1, he.2]; exact hnone, rfl, rfl⟩
    next => exact .inl h

theorem wire (s : Page σ) (id : InstanceId) : Calm s (s.wire id) := by
  refine wire_keeps (refl s) (fun _ => .of_keeps (.of_eq rfl) rfl rfl) (fun t method event target h => ?_)
    (fun _ _ _ kind delay hi hnew h => h.trans (hold hi hnew kind delay))
    fun t h => h.trans (.update t id fun _ _ => rfl)
  let added := t.forest.addListener target event ⟨id, method⟩
  let record : Instance σ → Instance σ := fun i =>
    { i with listeners := i.listeners ++ [(target, added.2)] }
  exact h.trans ((forest_only t added.1).trans (.update (g := record) _ id fun _ _ => rfl))

end Calm

end Page

end Componentry.Live
