import Componentry.Proofs.Live.Holding
import Componentry.Proofs.Live.Listening

/-!
# Timers of held-back methods

Three things go together: the timers that wait, the clock, and what held-back methods know of their
timers. Every timer belongs to a debounced method that waits for just this timer. Each part of a run
does one of five things to them, and what is heard of a method is told by which: nothing, the clock
moves, a throttled or a debounced method is asked for, or a timer falls due and its method runs. Time
passes only after every timer that falls due by then ran.
-/

namespace Componentry.Live

open Document List

variable {σ : Type}

namespace Page

variable {s t u : Page σ} {id id' : InstanceId} {method method' : String} {w w' : TimingWrapper}
  {event : Option Event} {timer : Timer Task}

/-! ### Timers and held-back methods -/

/-- Every timer belongs to a debounced method that waits for it, and every method that waits for a timer
has it. -/
structure Timed (s : Page σ) : Prop where
  ordered : s.scheduler.Ordered
  numbered : ∀ x ∈ s.instances, x.1 ≤ s.lastId
  small : ∀ task ∈ s.scheduler.microtasks, ∃ id, task = .wire id
  /-- Every timer belongs to a debounced method that waits for it. -/
  held : ∀ timer ∈ s.scheduler.timers, ∃ id method event w, timer.task = .fire id method event ∧
    s.wrapper? id method = some w ∧ w.kind = .debounce ∧ w.pending = some timer.id
  waits : ∀ id method w k, s.wrapper? id method = some w → w.pending = some k →
    ∃ timer ∈ s.scheduler.timers, timer.id = k ∧ ∃ event, timer.task = .fire id method event

theorem Timed.wrapper (h : s.Timed) (ht : timer ∈ s.scheduler.timers)
    (htask : timer.task = .fire id method event) :
    ∃ w, s.wrapper? id method = some w ∧ w.kind = .debounce ∧ w.pending = some timer.id := by
  obtain ⟨id', method', event', w, htask', hw⟩ := h.held timer ht
  cases htask.symm.trans htask'
  exact ⟨w, hw⟩

theorem Timed.pending (h : s.Timed) (ht : timer ∈ s.scheduler.timers)
    (htask : timer.task = .fire id method event) (hw : s.wrapper? id method = some w) :
    w.kind = .debounce ∧ w.pending = some timer.id := by
  obtain ⟨w', hw', hpending⟩ := h.wrapper ht htask
  cases hw.symm.trans hw'
  exact hpending

theorem Timed.timer_unique (h : s.Timed) {a b : Timer Task} (ha : a ∈ s.scheduler.timers)
    (hb : b ∈ s.scheduler.timers) {event' : Option Event} (hta : a.task = .fire id method event)
    (htb : b.task = .fire id method event') : a = b := by
  obtain ⟨w, hw, -, hp⟩ := h.wrapper ha hta
  have hid := hp.symm.trans (h.pending hb htb hw).2
  exact h.ordered.keyed.eq_of_mem ha hb (Option.some.inj hid)

theorem Timed.calm (h : s.Timed) (hc : Calm s t) : t.Timed where
  ordered := h.ordered.congr hc.timers hc.dueById hc.now hc.lastTimer
  numbered := hc.numbered h.numbered
  small task ht := by
    rcases hc.small task ht with ht | ht
    · exact h.small task ht
    · exact ht
  held timer ht := by
    obtain ⟨id, method, event, w, htask, hw, hk, hp⟩ := h.held timer (hc.timers ▸ ht)
    exact ⟨id, method, event, w, htask, hc.kept id method w hw, hk, hp⟩
  waits id method w k hw hp := by
    rcases hc.gained id method w hw with hw | ⟨-, hnone, -⟩
    · rw [hc.timers]
      exact h.waits id method w k hw hp
    · rw [hnone] at hp
      cases hp

/-! ### What a part does -/

/-- The state of one method is changed and its timer may be another; all else stays. -/
structure Adjusts (s t : Page σ) (id : InstanceId) (method : String) (w : TimingWrapper) : Prop where
  ordered : t.scheduler.Ordered
  /-- Instances keep their numbers. -/
  keys : t.instances.map (·.1) = s.instances.map (·.1)
  lastId : t.lastId = s.lastId
  /-- The same small tasks wait. -/
  small : t.scheduler.microtasks = s.scheduler.microtasks
  now : s.scheduler.now ≤ t.scheduler.now
  /-- The state of the one method is changed. -/
  wrapper : ∀ id' method', t.wrapper? id' method' =
    if id' = id ∧ method' = method then some w else s.wrapper? id' method'
  others : ∀ timer : Timer Task, (∀ event, timer.task ≠ .fire id method event) →
    (timer ∈ t.scheduler.timers ↔ timer ∈ s.scheduler.timers)

theorem Adjusts.wrapper_self (h : Adjusts s t id method w) : t.wrapper? id method = some w := by
  rw [h.wrapper, if_pos ⟨rfl, rfl⟩]

theorem Timed.adjust (h : s.Timed) (ha : Adjusts s t id method w)
    (hmine : ∀ timer ∈ t.scheduler.timers, ∀ event, timer.task = .fire id method event →
      w.kind = .debounce ∧ w.pending = some timer.id)
    (hwaits : ∀ k, w.pending = some k → ∃ timer ∈ t.scheduler.timers, timer.id = k ∧
      ∃ event, timer.task = .fire id method event) : t.Timed where
  ordered := ha.ordered
  numbered := numbered_of_keys ha.keys ha.lastId h.numbered
  small := ha.small ▸ h.small
  held timer ht := by
    by_cases htask : ∃ event, timer.task = .fire id method event
    · obtain ⟨event, htask⟩ := htask
      obtain ⟨hk, hp⟩ := hmine timer ht event htask
      exact ⟨id, method, event, w, htask, ha.wrapper_self, hk, hp⟩
    · have hother := fun event he => htask ⟨event, he⟩
      obtain ⟨id', method', event, w', he, hw, hk, hp⟩ := h.held timer ((ha.others timer hother).mp ht)
      refine ⟨id', method', event, w', he, ?_, hk, hp⟩
      rw [ha.wrapper, if_neg]
      · exact hw
      · rintro ⟨rfl, rfl⟩
        exact hother event he
  waits id' method' w' k hw hp := by
    rw [ha.wrapper] at hw
    split at hw
    next he =>
      cases hw
      rw [he.1, he.2]
      exact hwaits k hp
    next he =>
      obtain ⟨timer, ht, hid, event, htask⟩ := h.waits id' method' w' k hw hp
      refine ⟨timer, (ha.others timer fun event' htask' => ?_).mpr ht, hid, event, htask⟩
      obtain ⟨hid, hm, -⟩ := Task.fire.inj (htask.symm.trans htask')
      exact he ⟨hid, hm⟩

def only (id : InstanceId) (method : String) (l : List Happening) (id' : InstanceId) (method' : String) :
    List Happening :=
  if id' = id ∧ method' = method then l else []

/-- What is heard of a throttled method that is asked for: it runs at once or not at all. -/
def answer (w : TimingWrapper) (now : Nat) (event : Option Event) : List Happening :=
  .asked now event :: if (w.decide now).2 = .run then [.ran now event] else []

/-- What a part does before it calls a method, and what is heard of every method. -/
inductive Beat (s t : Page σ) : (InstanceId → String → List Happening) → Prop where
  /-- Nothing that bears on timers. -/
  | calm (h : Calm s t) : Beat s t fun _ _ => []
  /-- The clock moves and passes no timer. -/
  | moved (now : Nat) (h : ∀ timer ∈ s.scheduler.timers, now < timer.due)
    (ht : t = { s with scheduler := s.scheduler.setNow now }) : Beat s t fun _ _ => []
  /-- A throttled method is asked for. -/
  | throttled {id : InstanceId} {method : String} {w : TimingWrapper} (event : Option Event)
    (hw : s.wrapper? id method = some w) (hk : w.kind = .throttle)
    (ha : Adjusts s t id method (w.decide s.scheduler.now).1) (hs : t.scheduler = s.scheduler) :
    Beat s t (only id method (answer w s.scheduler.now event))
  /-- A debounced method is asked for, and its timer is set anew. -/
  | asked {id : InstanceId} {method : String} {w : TimingWrapper} (event : Option Event)
    (hw : s.wrapper? id method = some w) (hk : w.kind = .debounce)
    (ha : Adjusts s t id method { w with pending := some (s.scheduler.lastTimer + 1) })
    (hs : t.scheduler =
      ((s.scheduler.withdraw w.pending).setTimeout w.delay (.fire id method event)).1) :
    Beat s t (only id method [.asked s.scheduler.now event])
  /-- The next timer falls due, and its method runs. -/
  | fired {id : InstanceId} {method : String} {w : TimingWrapper} (timer : Timer Task)
    (rest : List (Timer Task)) (ht : s.scheduler.timers = timer :: rest)
    (event : Option Event) (htask : timer.task = .fire id method event)
    (hw : s.wrapper? id method = some w) (ha : Adjusts s t id method (w.fired timer.due))
    (hs : t.scheduler = { s.scheduler with
      timers := rest, dueById := s.scheduler.dueById.filter (·.1 != timer.id), now := timer.due }) :
    Beat s t (only id method [.ran timer.due event])

theorem Timed.not_mem_rest (h : s.Timed) {rest : List (Timer Task)}
    (hs : s.scheduler.timers = timer :: rest) : timer ∉ rest := by
  have hkeyed := h.ordered.keyed
  rw [hs] at hkeyed
  exact fun hm => (Keyed.cons_iff.mp hkeyed).1 timer hm rfl

theorem Timed.no_timer (h : s.Timed) (hw : s.wrapper? id method = some w) (hk : w.kind = .throttle)
    (ht : timer ∈ s.scheduler.timers) : timer.task ≠ .fire id method event := by
  intro htask
  rw [(h.pending ht htask hw).1] at hk
  cases hk

/-- A throttled method is dropped if it ran less than its delay ago, and runs otherwise. -/
theorem decide_throttle (hk : w.kind = .throttle) (now : Nat) :
    (∃ last, w.lastRun = some last ∧ now < last + w.delay) ∧ w.decide now = (w, .skip) ∨
      (∀ last, w.lastRun = some last → last + w.delay ≤ now) ∧
        w.decide now = ({ w with lastRun := some now }, .run) := by
  unfold TimingWrapper.decide
  rw [hk]
  dsimp only
  split
  next last hl =>
    split
    next hlt => exact .inl ⟨⟨last, hl, hlt⟩, rfl⟩
    next hle =>
      refine .inr ⟨fun last' hl' => ?_, rfl⟩
      cases hl.symm.trans hl'
      exact not_lt.mp hle
  next hl =>
    refine .inr ⟨fun last hl' => ?_, rfl⟩
    rw [hl] at hl'
    cases hl'

theorem Timed.beat (h : s.Timed) {news : InstanceId → String → List Happening} (hb : Beat s t news) :
    t.Timed := by
  cases hb with
  | calm hc => exact h.calm hc
  | moved now hn ht =>
    subst ht
    exact ⟨h.ordered.move fun timer ht => (hn timer ht).le, h.numbered, h.small, h.held,
      h.waits⟩
  | @throttled _ _ w event hw hk ha hs =>
    have hp : (w.decide s.scheduler.now).1.pending = w.pending := by
      rcases decide_throttle hk s.scheduler.now with ⟨-, hd⟩ | ⟨-, hd⟩ <;> rw [hd]
    refine h.adjust ha (fun timer ht event htask => ?_) fun k hk' => ?_
    · rw [hs] at ht
      exact absurd htask (h.no_timer hw hk ht)
    · obtain ⟨timer, ht, -, event, htask⟩ := h.waits _ _ _ k hw (hp ▸ hk')
      exact absurd htask (h.no_timer hw hk ht)
  | asked event hw hk ha hs =>
    refine h.adjust ha (fun timer ht event' htask => ?_) fun k hk' => ?_
    · refine ⟨hk, ?_⟩
      rw [hs] at ht
      rcases Scheduler.Ordered.mem_set _ _ |>.mp ht with rfl | ht
      · rw [Scheduler.lastTimer_withdraw]
      · -- Another timer of this method was the one that is taken back.
        obtain ⟨ht, hne⟩ := (h.ordered.mem_withdraw _).mp ht
        exact absurd (h.pending ht htask hw).2 hne
    · rw [hs]
      refine ⟨_, (Scheduler.Ordered.mem_set _ _).mpr (.inl rfl), ?_, event, rfl⟩
      rw [Scheduler.lastTimer_withdraw]
      exact Option.some.inj hk'
  | fired timer rest ht event htask hw ha hs =>
    refine h.adjust ha (fun timer' ht' event' htask' => ?_) fun k hk => nomatch hk
    rw [hs] at ht'
    have hmem := ht ▸ mem_cons_of_mem _ ht'
    obtain rfl := h.timer_unique hmem (ht ▸ (.head _)) htask' htask
    exact absurd ht' (h.not_mem_rest ht)

/-! ### Parts of a run -/

/-- An operation that has no parts; the clock is moved only where it passes no timer. -/
def Timely (s : Page σ) : Operation σ → Prop
  | .setNow now => s.scheduler.now ≤ now ∧ ∀ timer ∈ s.scheduler.timers, now < timer.due
  | .dispatch .. | .callMethod .. | .runMicrotasks | .advance .. => False
  | _ => True

theorem happenings_of_none (hw : s.wrapper? id method = none) (op : Operation σ) :
    happenings id method s op = [] := by
  rw [happenings, hw]
  rfl

variable {op : Operation σ} {ops : List (Operation σ)}

/-- What a part does, with what is heard of every method. -/
def Sounds (s : Page σ) (op : Operation σ) : Prop :=
  ∃ news, Beat s (s.bookkeep op).1 news ∧ ∀ id method, happenings id method s op = news id method

theorem sounds_of_quiet (ha : ∀ id method, asks id method s op = []) (hc : (s.bookkeep op).2 = none)
    (hb : Beat s (s.bookkeep op).1 fun _ _ => []) : s.Sounds op := by
  refine ⟨_, hb, fun id method => ?_⟩
  rw [happenings, runs, ha, hc]
  exact ite_self _

theorem Calm.sounds (h : Calm s t) (ha : ∀ id method, asks id method s op = [])
    (ht : s.bookkeep op = (t, none)) : s.Sounds op :=
  sounds_of_quiet ha (congrArg Prod.snd ht) (.calm (ht ▸ h))

theorem call_invoke {c : Call} (hc : (s.bookkeep (.invoke id method event)).2 = some c) :
    c = ⟨id, method, event⟩ := by
  simp only [bookkeep] at hc
  split at hc
  · cases hc
  · split at hc
    · exact (Option.some.inj hc).symm
    · split at hc
      · exact (Option.some.inj hc).symm
      · cases hc
      · cases hc

theorem happenings_invoke (hne : ¬ (id' = id ∧ method' = method)) :
    happenings id' method' s (.invoke id method event) = [] := by
  have hasks : asks id' method' s (.invoke id method event) = [] :=
    if_neg fun he => hne ⟨he.1.symm, he.2.symm⟩
  have hruns : runs id' method' s (.invoke id method event) = [] := by
    unfold runs
    split
    · rfl
    next c hc =>
      obtain rfl := call_invoke hc
      exact if_neg fun he => hne ⟨he.1.symm, he.2.symm⟩
  rw [happenings, hasks, hruns]
  exact ite_self _

section

variable (h : s.Timed) (hw : s.wrapper? id method = some w)

include h hw

theorem Timed.adjusts (g : TimingWrapper → TimingWrapper) :
    Adjusts s (s.updateTiming id method g) id method (g w) where
  ordered := h.ordered
  keys := keys_updateInstance s id _
  lastId := rfl
  small := rfl
  now := le_rfl
  wrapper id' method' := by
    rw [wrapper?_updateTiming]
    split
    next he =>
      rw [he.1, he.2, hw]
      rfl
    next => rfl
  others _ _ := .rfl

theorem Timed.invoke_throttled
    (hk : w.kind = .throttle) : Beat s (s.bookkeep (.invoke id method event)).1
      (only id method (happenings id method s (.invoke id method event))) := by
  obtain ⟨i, hi, hiw⟩ := Option.bind_eq_some_iff.mp hw
  have ht : (s.bookkeep (.invoke id method event)).1 =
        s.updateTiming id method (fun _ => (w.decide s.scheduler.now).1) ∧
      happenings id method s (.invoke id method event) = answer w s.scheduler.now event := by
    rcases decide_throttle hk s.scheduler.now with ⟨-, hd⟩ | ⟨-, hd⟩ <;>
      simp [bookkeep, happenings, asks, runs, answer, hw, hi, hiw, hd]
    rfl
  rw [ht.1, ht.2]
  exact .throttled event hw hk (h.adjusts hw _) rfl

theorem Timed.invoke_debounced
    (hk : w.kind = .debounce) : Beat s (s.bookkeep (.invoke id method event)).1
      (only id method (happenings id method s (.invoke id method event))) := by
  obtain ⟨i, hi, hiw⟩ := Option.bind_eq_some_iff.mp hw
  have hdecide : w.decide s.scheduler.now =
      ({ w with pending := none }, .schedule w.pending w.delay) := by
    simp [TimingWrapper.decide, hk]
  let scheduler := ((s.scheduler.withdraw w.pending).setTimeout w.delay (.fire id method event)).1
  let ended := s.updateTiming id method fun _ => { w with pending := none }
  have ht : s.bookkeep (.invoke id method event) =
      (ended.holdBack id method event w.pending w.delay, none) := by
    simp [bookkeep, hi, hiw, hdecide, ended]
  have hheard : happenings id method s (.invoke id method event) =
      [.asked s.scheduler.now event] := by
    simp [happenings, hw, asks, runs, ht]
  rw [hheard, ht]
  refine .asked event hw hk ⟨(h.ordered.withdraw _).set .., ?_, rfl, ?_, ?_, ?_, ?_⟩ rfl
  · have hended : ended.instances.map (·.1) = s.instances.map (·.1) := keys_updateInstance s id _
    exact (keys_updateInstance _ id _).trans hended
  · exact Scheduler.microtasks_withdraw ..
  · exact (Scheduler.now_withdraw ..).symm.le
  · intro id' method'
    have hsame : ∀ id' method', ({ ended with scheduler } : Page σ).wrapper? id' method' =
        ended.wrapper? id' method' := fun _ _ => rfl
    refine (wrapper?_updateTiming { ended with scheduler } id id' method method' _).trans ?_
    rw [hsame, wrapper?_updateTiming]
    split
    next he =>
      rw [he.1, he.2, hw]
      refine congrArg (fun k => some { w with pending := some (k + 1) }) ?_
      exact Scheduler.lastTimer_withdraw ..
    next => rfl
  · intro timer hne
    refine (Scheduler.Ordered.mem_set _ _).trans ((or_congr_right (h.ordered.mem_withdraw _)).trans ?_)
    constructor
    · rintro (rfl | ⟨ht, -⟩)
      · exact absurd rfl (hne event)
      · exact ht
    · refine fun ht => .inr ⟨ht, fun hp => ?_⟩
      -- The timer that is taken back is one of this method.
      obtain ⟨timer', ht', hid, event', htask⟩ := h.waits _ _ _ _ hw hp
      obtain rfl := h.ordered.keyed.eq_of_mem ht ht' hid.symm
      exact hne event' htask

end

theorem Timed.fires (h : s.Timed) (deadline : Nat) : s.Sounds (.runTimer deadline) := by
  cases hpop : s.scheduler.popDue deadline with
  | none => exact (Calm.refl s).sounds (fun _ _ => rfl) (by simp only [bookkeep, hpop])
  | some r =>
    obtain ⟨task, scheduler⟩ := r
    obtain ⟨timer, rest, hs, -, rfl, rfl, hordered⟩ := h.ordered.pop hpop
    have hmem := hs ▸ mem_cons_self
    obtain ⟨id, method, event, w, hfire, hw, -, -⟩ := h.held timer hmem
    let popped : Page σ :=
      { s with scheduler := { s.scheduler with
          timers := rest, dueById := s.scheduler.dueById.filter (·.1 != timer.id), now := timer.due } }
    have ht : s.bookkeep (.runTimer deadline) =
        (popped.updateTiming id method fun w => w.fired timer.due, some ⟨id, method, event⟩) := by
      simp [bookkeep, hpop, hfire, prepare, popped]
    have hheard : ∀ id' method', happenings id' method' s (.runTimer deadline) =
        only id method [.ran timer.due event] id' method' := by
      intro id' method'
      rw [only]
      split
      next he =>
        obtain ⟨rfl, rfl⟩ := he
        simp only [happenings, hw, runs, ht]
        rfl
      next he =>
        have hne : ¬ (id = id' ∧ method = method') := fun h => he ⟨h.1.symm, h.2.symm⟩
        simp [happenings, asks, runs, ht, hne]
    refine ⟨_, ?_, hheard⟩
    rw [ht]
    refine .fired timer rest hs event hfire hw ⟨hordered, ?_, rfl, rfl, ?_, ?_, ?_⟩ rfl
    · exact keys_updateInstance ..
    · exact h.ordered.ahead timer hmem
    · intro id' method'
      rw [wrapper?_updateTiming]
      split
      next he =>
        rw [he.1, he.2]
        exact congrArg (Option.map _) hw
      next => rfl
    · intro timer' hne
      rw [hs]
      refine ⟨mem_cons_of_mem _, fun ht => ?_⟩
      rcases mem_cons.mp ht with rfl | ht
      · exact absurd hfire (hne event)
      · exact ht

theorem bookkeep_invoke_of_none (hw : s.wrapper? id method = none) :
    (s.bookkeep (.invoke id method event)).1 = s := by
  unfold wrapper? at hw
  simp only [bookkeep]
  cases hi : s.instance? id with
  | none => rfl
  | some i =>
    rw [hi] at hw
    simp only [Option.bind_some] at hw
    simp [hw]

theorem Timed.invokes (h : s.Timed) (id : InstanceId) (method : String) (event : Option Event) :
    s.Sounds (.invoke id method event) := by
  cases hw : s.wrapper? id method with
  | none =>
    refine ⟨_, .calm ?_, fun id' method' => ?_⟩
    · rw [bookkeep_invoke_of_none hw]
      exact .refl s
    · by_cases he : id' = id ∧ method' = method
      · rw [he.1, he.2]
        exact happenings_of_none hw _
      · exact happenings_invoke he
  | some w =>
    refine ⟨only id method (happenings id method s (.invoke id method event)), ?_, fun id' method' => ?_⟩
    · cases hk : w.kind with
      | throttle => exact h.invoke_throttled hw hk
      | debounce => exact h.invoke_debounced hw hk
    · unfold only
      split
      next he => rw [he.1, he.2]
      next he => exact happenings_invoke he

theorem Timed.pops (h : s.Timed) : s.Sounds .runMicrotask := by
  cases hpop : s.scheduler.popMicrotask with
  | none => exact (Calm.refl s).sounds (fun _ _ => rfl) (by simp only [bookkeep, hpop])
  | some r =>
    obtain ⟨task, scheduler⟩ := r
    obtain ⟨id, rfl⟩ := h.small task (Scheduler.microtasks_of_pop hpop ▸ (.head _))
    exact ((Calm.pop hpop).trans (.wire _ id)).sounds (fun _ _ => rfl)
      (by simp only [bookkeep, hpop, prepare])

theorem calm_perform (hop : Operation.Part op) : Calm (s.bookkeep op).1 (s.perform op) := by
  rw [← complete_bookkeep s hop]
  unfold complete
  split
  · exact .refl _
  · exact .callNow ..

theorem Timed.beats (h : s.Timed) (hop : s.Timely op) :
    s.Sounds op ∧ Calm (s.bookkeep op).1 (s.perform op) := by
  have hplain : ∀ {op : Operation σ}, op.isPlain → s.Sounds op ∧
      Calm (s.bookkeep op).1 (s.perform op) := by
    intro op hop
    have ht := s.bookkeep_of_isPlain hop
    refine ⟨(Calm.perform h.numbered hop).sounds (fun _ _ => asks_of_isPlain hop s) ht, ?_⟩
    rw [ht]
    exact .refl _
  cases op with
  | invoke id method event => exact ⟨h.invokes id method event, calm_perform (.invoke ..)⟩
  | runMicrotask => exact ⟨h.pops, calm_perform .runMicrotask⟩
  | runTimer deadline => exact ⟨h.fires deadline, calm_perform (.runTimer deadline)⟩
  | setNow now =>
    exact ⟨sounds_of_quiet (fun _ _ => rfl) rfl (.moved now hop.2 rfl), calm_perform (.setNow now)⟩
  | dispatch | callMethod | runMicrotasks | advance => cases hop
  | _ => exact hplain rfl

theorem Timed.step (h : s.Timed) (hop : s.Timely op) : (s.perform op).Timed := by
  obtain ⟨⟨news, hb, -⟩, hc⟩ := h.beats hop
  exact (h.beat hb).calm hc

/-- Operations without parts, one after the other. -/
def TimelyAll (s : Page σ) : List (Operation σ) → Prop
  | [] => True
  | op :: ops => s.Timely op ∧ (s.perform op).TimelyAll ops

theorem timelyAll_append {ops' : List (Operation σ)} :
    s.TimelyAll (ops ++ ops') ↔ s.TimelyAll ops ∧ (s.performAll ops).TimelyAll ops' := by
  induction ops generalizing s with
  | nil => exact (true_and _).symm ▸ .rfl
  | cons op ops ih => exact (and_congr_right fun _ => ih).trans and_assoc.symm

theorem timelyAll_of_forall (h : ∀ op ∈ ops, ∀ t : Page σ, t.Timely op) : s.TimelyAll ops := by
  induction ops generalizing s with
  | nil => trivial
  | cons op ops ih =>
    obtain ⟨hop, hops⟩ := forall_mem_cons.mp h
    exact ⟨hop s, ih hops⟩

theorem timelyAll_smallTasks (s t : Page σ) : s.TimelyAll t.smallTasks := by
  refine timelyAll_of_forall fun op hop _ => ?_
  obtain rfl := eq_of_mem_replicate hop
  trivial

theorem Timed.performAll (h : s.Timed) (hops : s.TimelyAll ops) : (s.performAll ops).Timed := by
  induction ops generalizing s with
  | nil => exact h
  | cons op ops ih => exact ih (h.step hops.1) hops.2

/-! ### Time passes -/

theorem scheduler_runMicrotask (s : Page σ) :
    (s.perform .runMicrotask).scheduler.timers = s.scheduler.timers ∧
      (s.perform .runMicrotask).scheduler.now = s.scheduler.now := by
  simp only [perform]
  cases hp : s.scheduler.popMicrotask with
  | none => exact ⟨rfl, rfl⟩
  | some r =>
    rw [scheduler_runTask]
    have hcalm := Calm.pop hp
    exact ⟨hcalm.timers, hcalm.now⟩

theorem scheduler_smallTasks (s t : Page σ) :
    (s.performAll t.smallTasks).scheduler.timers = s.scheduler.timers ∧
      (s.performAll t.smallTasks).scheduler.now = s.scheduler.now := by
  unfold smallTasks
  induction t.scheduler.microtasks.length generalizing s with
  | zero => exact ⟨rfl, rfl⟩
  | succ limit ih =>
    obtain ⟨htimers, hnow⟩ := scheduler_runMicrotask s
    obtain ⟨htimers', hnow'⟩ := ih (s.perform .runMicrotask)
    exact ⟨htimers'.trans htimers, hnow'.trans hnow⟩

theorem timelyAll_timerParts (deadline limit : Nat) (s : Page σ) :
    s.TimelyAll (timerParts deadline limit s) := by
  induction limit generalizing s with
  | zero => trivial
  | succ limit ih =>
    rw [timerParts]
    split
    · trivial
    · exact ⟨trivial, timelyAll_append.mpr ⟨timelyAll_smallTasks .., ih _⟩⟩

theorem Timed.late (h : s.Timed) {deadline limit : Nat} (hn : s.scheduler.now ≤ deadline)
    (hl : s.scheduler.timers.length ≤ limit) :
    (s.performAll (timerParts deadline limit s)).Timely (.setNow deadline) := by
  induction limit generalizing s with
  | zero =>
    have hnil := eq_nil_of_length_eq_zero (Nat.le_zero.mp hl)
    refine ⟨hn, fun timer ht => ?_⟩
    exact absurd (hnil ▸ ht) not_mem_nil
  | succ limit ih =>
    rw [timerParts]
    cases hpop : s.scheduler.popDue deadline with
    | none => exact ⟨hn, h.ordered.late_of_pop hpop⟩
    | some r =>
      obtain ⟨task, scheduler⟩ := r
      obtain ⟨timer, rest, hs, hdue, rfl, rfl, -⟩ := h.ordered.pop hpop
      let t := s.perform (.runTimer deadline)
      have ht : t.scheduler = { s.scheduler with
          timers := rest, dueById := s.scheduler.dueById.filter (·.1 != timer.id)
          now := timer.due } := by
        simp only [t, perform, hpop]
        exact scheduler_runTask ..
      obtain ⟨htimers, hnow⟩ := scheduler_smallTasks t t
      have htimer : s.Timely (.runTimer deadline) := trivial
      have htimed : (t.performAll t.smallTasks).Timed :=
        (h.step htimer).performAll (timelyAll_smallTasks ..)
      change ((t.performAll (t.smallTasks ++ _)).Timely _)
      rw [performAll_append]
      refine ih htimed ?_ ?_
      · rw [hnow, ht]
        exact hdue
      · rw [htimers, ht]
        rw [hs] at hl
        exact Nat.le_of_succ_le_succ hl

theorem Timed.timelyAll_parts (h : s.Timed) (hop : ¬ Operation.Part op) :
    s.TimelyAll (s.parts op) := by
  cases op with
  | dispatch target type =>
    refine timelyAll_append.mpr ⟨timelyAll_of_forall fun op hop t => ?_, timelyAll_smallTasks ..⟩
    obtain ⟨x, -, rfl⟩ := mem_map.mp hop
    trivial
  | callMethod element method =>
    simp only [parts]
    split
    · trivial
    · exact ⟨trivial, trivial⟩
  | runMicrotasks => exact timelyAll_smallTasks ..
  | advance ms =>
    obtain ⟨htimers, hnow⟩ := scheduler_smallTasks s s
    have htimed := h.performAll (timelyAll_smallTasks s s)
    refine timelyAll_append.mpr ⟨timelyAll_append.mpr ⟨timelyAll_smallTasks .., timelyAll_timerParts ..⟩,
      ?_, trivial⟩
    rw [performAll_append]
    refine htimed.late ?_ le_rfl
    rw [hnow]
    exact Nat.le_add_right ..
  | invoke id method event => exact absurd (.invoke ..) hop
  | runMicrotask => exact absurd .runMicrotask hop
  | runTimer deadline => exact absurd (.runTimer deadline) hop
  | setNow now => exact absurd (.setNow now) hop
  | _ => exact ⟨trivial, trivial⟩

theorem Timed.timelyAll_steps (h : s.Timed) (hops : ∀ op ∈ ops, ¬ Operation.Part op) :
    s.TimelyAll (s.steps ops) := by
  induction ops generalizing s with
  | nil => trivial
  | cons op ops ih =>
    obtain ⟨hop, hops⟩ := forall_mem_cons.mp hops
    have hparts := h.timelyAll_parts hop
    have ht := h.performAll hparts
    rw [performAll_parts] at ht
    refine timelyAll_append.mpr ⟨hparts, ?_⟩
    rw [performAll_parts]
    exact ih ht hops

theorem Timed.start (world : σ) : (Page.start world).Timed where
  ordered := ⟨Scheduler.kept_empty, nofun⟩
  numbered := nofun
  small := nofun
  held := nofun
  waits _ _ _ _ hw := nomatch hw

end Page

end Componentry.Live
