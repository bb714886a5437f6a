import Componentry.Proofs.Live.Timers

/-!
# No timer is lost

Whatever is asked of a scheduler, and in whatever order: a timer is found by its number as long as it
waits, and every timer that was set still waits, has come out once or was taken back once. Those that
fall due by a deadline come out by due time and, among equals, in the order in which they were set, and
small tasks come out in the order in which they were queued.
-/

namespace Componentry.Live.Scheduler

open List

variable {τ : Type} {s s' : Scheduler τ} {deadline : Nat} {task : τ} {tasks : List τ}

/-! ### Histories -/

/-- What can be asked of a scheduler. -/
inductive Op (τ : Type) where
  | setTimeout (delay : Nat) (task : τ)
  | clearTimeout (id : TimerId)
  | queueMicrotask (task : τ)
  | popMicrotask
  | popDue (deadline : Nat)
  | setNow (now : Nat)

/-- A scheduler and what it was asked for and answered so far, the latest last. -/
structure History (τ : Type) where
  scheduler : Scheduler τ := {}
  /-- The timers that were set, with the numbers they were given. -/
  set : List (Timer τ) := []
  popped : List (Timer τ) := []
  /-- The tasks that came out for timers. -/
  ran : List τ := []
  /-- The timers that were taken back. -/
  cleared : List (Timer τ) := []
  /-- The numbers for which the answer was that the timer had been waiting. -/
  withdrawn : List TimerId := []
  queued : List τ := []
  /-- The small tasks that came out. -/
  taken : List τ := []

namespace History

/-- Asks for one thing more. -/
def ask (h : History τ) : Op τ → History τ
  | .setTimeout delay task =>
    let (scheduler, id) := h.scheduler.setTimeout delay task
    { h with scheduler, set := h.set ++ [⟨h.scheduler.now + delay, id, task⟩] }
  | .clearTimeout id =>
    let (scheduler, waited) := h.scheduler.clearTimeout id
    { h with
      scheduler
      cleared := h.cleared ++ h.scheduler.timers.filter (·.id == id)
      withdrawn := h.withdrawn ++ if waited then [id] else [] }
  | .queueMicrotask task =>
    { h with scheduler := h.scheduler.queueMicrotask task, queued := h.queued ++ [task] }
  | .popMicrotask =>
    match h.scheduler.popMicrotask with
    | none => h
    | some (task, scheduler) => { h with scheduler, taken := h.taken ++ [task] }
  | .popDue deadline =>
    match h.scheduler.popDue deadline with
    | none => h
    | some (task, scheduler) =>
      { h with
        scheduler, popped := h.popped ++ h.scheduler.timers.take 1, ran := h.ran ++ [task] }
  | .setNow now => { h with scheduler := h.scheduler.setNow now }

/-- All that was ever asked of a scheduler is accounted for. -/
structure Balanced (h : History τ) : Prop where
  kept : h.scheduler.Kept
  numbers : h.set.map (·.id) = range' 1 h.scheduler.lastTimer
  /-- They wait, came out or were taken back. -/
  settled : h.set.Perm (h.scheduler.timers ++ (h.popped ++ h.cleared))
  ran : h.ran = h.popped.map (·.task)
  withdrawn : h.withdrawn = h.cleared.map (·.id)
  taken : h.queued = h.taken ++ h.scheduler.microtasks

variable {h : History τ}

section

variable (hb : h.Balanced)

include hb

theorem Balanced.setTimeout (delay : Nat) (task : τ) :
    (h.ask (.setTimeout delay task)).Balanced where
  kept := hb.kept.set delay task
  numbers := by
    simp [ask, Scheduler.setTimeout, map_append, hb.numbers, range'_1_concat, Nat.add_comm, map_cons, map_nil]
  settled := by
    refine perm_append_singleton .. |>.trans ((hb.settled.cons _).trans ?_)
    exact (insertTimer_perm _ h.scheduler.timers).symm.append_right _
  ran := hb.ran
  withdrawn := hb.withdrawn
  taken := hb.taken

theorem Balanced.clearTimeout (id : TimerId) : (h.ask (.clearTimeout id)).Balanced := by
  have hkept := hb.kept.clear id
  simp only [ask]
  rw [hb.kept.clearTimeout_eq] at hkept ⊢
  refine ⟨hkept, hb.numbers, ?_, hb.ran, ?_, hb.taken⟩
  · -- The timers are those that stay and those that go.
    have hsplit := filter_append_perm (fun t : Timer τ => t.id != id) h.scheduler.timers
    simp only [bne, Bool.not_not] at hsplit
    refine hb.settled.trans ((hsplit.symm.append_right _).trans ?_)
    rw [append_assoc, ← append_assoc h.popped]
    exact perm_append_comm.append_left _
  · rw [map_append, hb.withdrawn, Keyed.map_filter_eq hb.kept.keyed]

theorem Balanced.popMicrotask : (h.ask .popMicrotask).Balanced := by
  simp only [ask]
  cases hm : h.scheduler.microtasks with
  | nil =>
    rw [popMicrotask_eq_none.mpr hm]
    exact hb
  | cons task rest =>
    rw [popMicrotask_of_cons hm]
    refine ⟨hb.kept.congr rfl rfl rfl, hb.numbers, hb.settled, hb.ran, hb.withdrawn, ?_⟩
    rw [hb.taken, hm, append_assoc]
    rfl

theorem Balanced.popDue (deadline : Nat) : (h.ask (.popDue deadline)).Balanced := by
  simp only [ask]
  cases hp : h.scheduler.popDue deadline with
  | none => exact hb
  | some r =>
    obtain ⟨task, s'⟩ := r
    obtain ⟨t, rest, hs, -, rfl, rfl, hkept⟩ := hb.kept.pop hp
    refine ⟨hkept, hb.numbers, ?_, ?_, hb.withdrawn, hb.taken⟩
    · refine hb.settled.trans ?_
      rw [hs, append_assoc]
      exact perm_middle.symm.trans (perm_middle.symm.append_left rest)
    · rw [hs, map_append, ← hb.ran]
      rfl

theorem Balanced.ask (op : Op τ) : (h.ask op).Balanced := by
  cases op with
  | setTimeout delay task => exact hb.setTimeout delay task
  | clearTimeout id => exact hb.clearTimeout id
  | queueMicrotask task =>
    refine ⟨hb.kept.congr rfl rfl rfl, hb.numbers, hb.settled, hb.ran, hb.withdrawn, ?_⟩
    exact (congrArg (· ++ [task]) hb.taken).trans (append_assoc ..)
  | popMicrotask => exact hb.popMicrotask
  | popDue deadline => exact hb.popDue deadline
  | setNow now =>
    exact ⟨hb.kept.congr rfl rfl rfl, hb.numbers, hb.settled, hb.ran, hb.withdrawn, hb.taken⟩

end

/-- Asks for one thing after another. -/
def run (ops : List (Op τ)) : History τ := ops.foldl ask {}

theorem balanced_run (ops : List (Op τ)) : (run ops).Balanced :=
  foldlRecOn ops History.ask ⟨kept_empty, rfl, .nil, rfl, rfl, rfl⟩ fun _ hb op _ => hb.ask op

theorem now_ask (h : History τ) (op : Op τ) : h.scheduler.now ≤ (h.ask op).scheduler.now := by
  cases op with
  | setTimeout delay task => exact le_rfl
  | clearTimeout id => exact (now_withdraw h.scheduler (some id)).symm.le
  | queueMicrotask task => exact le_rfl
  | popMicrotask =>
    simp only [ask, popMicrotask]
    cases h.scheduler.microtasks <;> exact le_rfl
  | popDue deadline =>
    simp only [ask, popDue]
    cases h.scheduler.timers with
    | nil => exact le_rfl
    | cons t rest =>
      by_cases hdue : t.due > deadline
      · simp [hdue]
      · simp only [hdue]
        exact Nat.le_max_left ..
  | setNow now => exact Nat.le_max_left ..

end History

/-! ### Until none falls due -/

/-- Timers are taken by one deadline until none falls due, and these tasks come out. -/
inductive Drains (deadline : Nat) : Scheduler τ → List τ → Scheduler τ → Prop where
  | stop {s : Scheduler τ} (h : s.popDue deadline = none) : Drains deadline s [] s
  | next {s s' t : Scheduler τ} {task : τ} {tasks : List τ}
    (h : s.popDue deadline = some (task, s')) (hd : Drains deadline s' tasks t) :
    Drains deadline s (task :: tasks) t

theorem drains_of_none (hp : s.popDue deadline = none) :
    Drains deadline s tasks s' ↔ tasks = [] ∧ s' = s := by
  constructor
  · intro hd
    cases hd with
    | stop => exact ⟨rfl, rfl⟩
    | next h => exact absurd (h.symm.trans hp) (Option.some_ne_none _)
  · rintro ⟨rfl, rfl⟩
    exact .stop hp

theorem drains_of_some {t : Scheduler τ} (hp : s.popDue deadline = some (task, t)) :
    Drains deadline s tasks s' ↔ ∃ rest, tasks = task :: rest ∧ Drains deadline t rest s' := by
  constructor
  · intro hd
    cases hd with
    | stop h => exact absurd (hp.symm.trans h) (Option.some_ne_none _)
    | next h hd =>
      cases h.symm.trans hp
      exact ⟨_, rfl, hd⟩
  · rintro ⟨rest, rfl, hd⟩
    exact .next hp hd

theorem Kept.drains (h : s.Kept) (deadline : Nat) :
    ∃ s' : Scheduler τ, s'.timers = s.timers.filter (deadline < ·.due) ∧
      ∀ tasks t, Drains deadline s tasks t ↔
        tasks = (s.timers.filter (·.due ≤ deadline)).map (·.task) ∧ t = s' := by
  -- By induction on how many timers wait, as one of them goes each time.
  induction hn : s.timers.length using Nat.strongRecOn generalizing s with
  | ind n ih =>
    cases hp : s.popDue deadline with
    | none =>
      have hlate := h.late_of_pop hp
      have hall := filter_eq_self.mpr fun t ht => decide_eq_true (hlate t ht)
      have hnone := filter_eq_nil_iff.mpr fun t ht hle => Nat.not_le_of_lt (hlate t ht)
        (of_decide_eq_true hle)
      refine ⟨s, hall.symm, fun tasks t => ?_⟩
      rw [drains_of_none hp, hnone]
      rfl
    | some r =>
      obtain ⟨task, u⟩ := r
      obtain ⟨t, rest, hs, hdue, rfl, rfl, hkept⟩ := h.pop hp
      rw [hs] at hn ⊢
      obtain ⟨s', htimers, hdrains⟩ := ih _ (hn ▸ Nat.lt_add_one _) hkept rfl
      refine ⟨s', ?_, fun tasks v => ?_⟩
      · rw [htimers, filter_cons_of_neg (by simpa using hdue)]
      · rw [drains_of_some hp, filter_cons_of_pos (by simpa using hdue)]
        constructor
        · rintro ⟨rest', rfl, hd⟩
          obtain ⟨rfl, rfl⟩ := (hdrains ..).mp hd
          exact ⟨rfl, rfl⟩
        · rintro ⟨rfl, rfl⟩
          exact ⟨_, rfl, (hdrains ..).mpr ⟨rfl, rfl⟩⟩

/-- After everything that is asked of a scheduler, each timer that waits is held once in both tables;
each that was set waits, came out or was taken back, and this once; taking one back tells whether it
waited; the clock does not go back; the timer that comes out is the one that comes first, if it is due
by the deadline; taking timers until none is due gives all that are, in order, and leaves the later
ones; and small tasks come out in the order in which they were queued, the first of those that wait
each time, and none only if none waits. -/
theorem timers_accounted (ops : List (Op τ)) : let h := History.run ops
    let s := h.scheduler
    ((s.timers.map Timer.entry).Perm s.dueById ∧ (s.timers.map (·.id)).Nodup ∧
      ∀ id key, s.dueOf? id = some key ↔ ∃ t ∈ s.timers, t.id = id ∧ Timer.key t = key) ∧
    (h.set.Perm (s.timers ++ (h.popped ++ h.cleared)) ∧
      h.set.map (·.id) = range' 1 s.lastTimer ∧
      h.ran = h.popped.map (·.task) ∧ h.withdrawn = h.cleared.map (·.id)) ∧
    (∀ id, (s.clearTimeout id).2 = true ↔ ∃ t ∈ s.timers, t.id = id) ∧
    (∀ op, s.now ≤ (h.ask op).scheduler.now) ∧
    (∀ deadline, match s.popDue deadline with
      | none => ∀ t ∈ s.timers, deadline < t.due
      | some (task, s') => ∃ t, s.timers = t :: s'.timers ∧ t.due ≤ deadline ∧ task = t.task ∧
        (∀ u ∈ s'.timers, t.due < u.due ∨ t.due = u.due ∧ t.id < u.id) ∧
        s' = { s with timers := s'.timers, dueById := s'.dueById, now := max s.now t.due }) ∧
    (∀ deadline, ∃ s' : Scheduler τ, s'.timers = s.timers.filter (deadline < ·.due) ∧
      ∀ tasks t, Drains deadline s tasks t ↔
        tasks = (s.timers.filter (·.due ≤ deadline)).map (·.task) ∧ t = s') ∧
    h.queued = h.taken ++ s.microtasks ∧ (s.popMicrotask = none ↔ s.microtasks = []) ∧
      ∀ task rest, s.microtasks = task :: rest →
        s.popMicrotask = some (task, { s with microtasks := rest }) := by
  intro h s
  have hb : h.Balanced := History.balanced_run ops
  refine ⟨⟨hb.kept.paired, hb.kept.keyed, fun id key => hb.kept.dueOf?_eq_some⟩,
    ⟨hb.settled, hb.numbers, hb.ran, hb.withdrawn⟩, fun id => ?_, h.now_ask, fun deadline => ?_,
    hb.kept.drains, hb.taken, popMicrotask_eq_none, fun _ _ => popMicrotask_of_cons⟩
  · rw [hb.kept.clearTimeout_eq, any_eq_true]
    simp only [beq_iff_eq]
    rfl
  · split
    next hp => exact hb.kept.late_of_pop hp
    next task s' hp =>
      obtain ⟨t, rest, hs, hdue, rfl, rfl, -⟩ := hb.kept.pop hp
      exact ⟨t, hs, hdue, rfl, fun u hu => before_iff.mp (hb.kept.before_rest hs u hu), rfl⟩

end Componentry.Live.Scheduler
