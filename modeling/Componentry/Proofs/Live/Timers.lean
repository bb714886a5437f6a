import Componentry.Live.Behaviour
import Componentry.Proofs.Keyed

/-!
# Timers in order

The timers of a scheduler stand by due time and number, no two have the same number, and each is found
by its number. Setting a timer, taking one back, taking the next one that falls due and moving the clock
keep this. As long as the clock is not moved past a timer, it has passed none.
-/

namespace Componentry.Live.Scheduler

open List

variable {τ : Type} {s s' : Scheduler τ} {t u v : Timer τ} {l : List (Timer τ)} {task : τ}
  {deadline : Nat}

theorem before_iff : Timer.before t u = true ↔ t.due < u.due ∨ t.due = u.due ∧ t.id < u.id := by
  simp [Timer.before]

theorem before_trans (htu : Timer.before t u = true) (huv : Timer.before u v = true) :
    Timer.before t v = true := by
  rw [before_iff] at htu huv ⊢
  rcases htu with htu | ⟨htu, hid⟩ <;> rcases huv with huv | ⟨huv, hid'⟩
  · exact .inl (htu.trans huv)
  · exact .inl (huv ▸ htu)
  · exact .inl (htu ▸ huv)
  · exact .inr ⟨htu.trans huv, hid.trans hid'⟩

theorem before_of_not (hid : u.id < t.id) (h : ¬ Timer.before t u = true) :
    Timer.before u t = true := by
  rw [before_iff] at h ⊢
  rcases Nat.lt_trichotomy t.due u.due with hlt | heq | hgt
  · exact absurd (.inl hlt) h
  · exact .inr ⟨heq.symm, hid⟩
  · exact .inl hgt

theorem insertTimer_perm (t : Timer τ) (l : List (Timer τ)) : (insertTimer t l).Perm (t :: l) := by
  induction l with
  | nil => exact .refl _
  | cons u l ih =>
    rw [insertTimer]
    split
    · exact .refl _
    · exact (ih.cons u).trans (.swap t u l)

theorem insertTimer_sorted (h : l.Pairwise fun a b => Timer.before a b = true)
    (hid : ∀ u ∈ l, u.id < t.id) :
    (insertTimer t l).Pairwise fun a b => Timer.before a b = true := by
  induction l with
  | nil => exact pairwise_singleton ..
  | cons u l ih =>
    obtain ⟨hu, hl⟩ := pairwise_cons.mp h
    obtain ⟨hut, hlt⟩ := forall_mem_cons.mp hid
    rw [insertTimer]
    split
    next hb =>
      refine pairwise_cons.mpr ⟨fun v hv => ?_, h⟩
      rcases mem_cons.mp hv with rfl | hv
      · exact hb
      · exact before_trans hb (hu v hv)
    next hb =>
      refine pairwise_cons.mpr ⟨fun v hv => ?_, ih hl hlt⟩
      rcases mem_cons.mp ((insertTimer_perm t l).mem_iff.mp hv) with rfl | hv
      · exact before_of_not hut hb
      · exact hu v hv

variable (s)

/-- Takes a timer back if there is one to take back. -/
def withdraw : Option TimerId → Scheduler τ
  | some timer => (s.clearTimeout timer).1
  | none => s

variable (cancel : Option TimerId)

theorem withdraw_eq : ∃ timers dueById, s.withdraw cancel = { s with timers, dueById } := by
  cases cancel with
  | none => exact ⟨_, _, rfl⟩
  | some id =>
    simp only [withdraw, clearTimeout]
    split
    · exact ⟨_, _, rfl⟩
    · exact ⟨_, _, rfl⟩

theorem lastTimer_withdraw : (s.withdraw cancel).lastTimer = s.lastTimer := by
  obtain ⟨timers, dueById, h⟩ := s.withdraw_eq cancel
  rw [h]

theorem now_withdraw : (s.withdraw cancel).now = s.now := by
  obtain ⟨timers, dueById, h⟩ := s.withdraw_eq cancel
  rw [h]

theorem microtasks_withdraw : (s.withdraw cancel).microtasks = s.microtasks := by
  obtain ⟨timers, dueById, h⟩ := s.withdraw_eq cancel
  rw [h]

variable {s}

theorem popMicrotask_eq_none : s.popMicrotask = none ↔ s.microtasks = [] := by
  unfold popMicrotask
  cases s.microtasks with
  | nil | cons => simp

theorem popMicrotask_of_cons {rest : List τ} (h : s.microtasks = task :: rest) :
    s.popMicrotask = some (task, { s with microtasks := rest }) := by
  rw [popMicrotask, h]

theorem microtasks_of_pop (h : s.popMicrotask = some (task, s')) :
    s.microtasks = task :: s'.microtasks := by
  unfold popMicrotask at h
  split at h
  · cases h
  next rest hs =>
    cases h
    exact hs

/-- What is held of a timer to find it by its number. -/
def Timer.entry (t : Timer τ) : TimerId × Nat × TimerId := (t.id, Timer.key t)

/-- The timers are in order, each with a number of its own by which it is found. -/
structure Kept (s : Scheduler τ) : Prop where
  /-- They stand by due time and number. -/
  sorted : s.timers.Pairwise fun a b => Timer.before a b = true
  /-- No two have the same number. -/
  keyed : Keyed (·.id) s.timers
  /-- Their numbers were given out before. -/
  numbered : ∀ t ∈ s.timers, t.id ≤ s.lastTimer
  /-- They and no others are found by their numbers. -/
  paired : (s.timers.map Timer.entry).Perm s.dueById

theorem kept_empty : ({} : Scheduler τ).Kept := ⟨.nil, .nil, nofun, .nil⟩

theorem Ordered.mem_set (delay : Nat) (task : τ) : t ∈ (s.setTimeout delay task).1.timers ↔
      t = ⟨s.now + delay, s.lastTimer + 1, task⟩ ∨ t ∈ s.timers := by
  exact (insertTimer_perm _ s.timers).mem_iff.trans mem_cons

namespace Kept

variable (h : s.Kept)

include h

theorem entries_keyed : Keyed (·.1) s.dueById := by
  have hids : Keyed (·.1) (s.timers.map Timer.entry) := by
    rw [Keyed, map_map]
    exact h.keyed
  exact hids.perm h.paired

/-- A number is found if and only if a timer that waits has it, and it tells where this one stands. -/
theorem dueOf?_eq_some {id : TimerId} {key : Nat × TimerId} :
    s.dueOf? id = some key ↔ ∃ t ∈ s.timers, t.id = id ∧ Timer.key t = key := by
  rw [dueOf?, Option.map_eq_some_iff]
  constructor
  · rintro ⟨e, he, rfl⟩
    obtain ⟨hmem, rfl⟩ := Keyed.mem_of_find? he
    obtain ⟨t, ht, rfl⟩ := mem_map.mp (h.paired.mem_iff.mpr hmem)
    exact ⟨t, ht, rfl, rfl⟩
  · rintro ⟨t, ht, rfl, rfl⟩
    have hmem := h.paired.mem_iff.mp (mem_map_of_mem ht)
    exact ⟨_, h.entries_keyed.find?_eq_some_iff.mpr ⟨hmem, rfl⟩, rfl⟩

theorem paired_filter (id : TimerId) :
    ((s.timers.filter (·.id != id)).map Timer.entry).Perm (s.dueById.filter (·.1 != id)) := by
  have hf := h.paired.filter (·.1 != id)
  rwa [filter_map] at hf

theorem clearTimeout_eq (id : TimerId) : s.clearTimeout id =
      ({ s with
          timers := s.timers.filter (·.id != id), dueById := s.dueById.filter (·.1 != id) },
        s.timers.any (·.id == id)) := by
  unfold clearTimeout
  cases hd : s.dueOf? id with
  | none =>
    have hno : ∀ t ∈ s.timers, t.id ≠ id := fun t ht hid => by
      rw [h.dueOf?_eq_some.mpr ⟨t, ht, hid, rfl⟩] at hd
      cases hd
    have hno' : ∀ e ∈ s.dueById, e.1 ≠ id := fun e he => by
      obtain ⟨t, ht, rfl⟩ := mem_map.mp (h.paired.mem_iff.mpr he)
      exact hno t ht
    have hany : s.timers.any (·.id == id) = false := by simpa using hno
    rw [Keyed.filter_eq_self hno, Keyed.filter_eq_self hno', hany]
  | some key =>
    obtain ⟨t, ht, rfl, rfl⟩ := h.dueOf?_eq_some.mp hd
    -- Of the timers that wait only this one stands where it stands, and only it has its number.
    have hsame : ∀ u ∈ s.timers, (Timer.key u == Timer.key t) = (u.id == t.id) := by
      intro u hu
      rw [Bool.eq_iff_iff, beq_iff_eq, beq_iff_eq]
      exact ⟨congrArg Prod.snd, fun hid => h.keyed.eq_of_mem hu ht hid ▸ rfl⟩
    have hfilter := filter_congr fun u hu => congrArg not (hsame u hu)
    have hany : s.timers.any (Timer.key · == Timer.key t) = s.timers.any (·.id == t.id) := by
      rw [Bool.eq_iff_iff, any_eq_true, any_eq_true]
      exact ⟨fun _ => ⟨t, ht, beq_self_eq_true t.id⟩, fun _ => ⟨t, ht, beq_self_eq_true (Timer.key t)⟩⟩
    refine Prod.ext ?_ hany
    exact congrArg (fun timers => { s with timers, dueById := s.dueById.filter (·.1 != t.id) }) hfilter

theorem mem_withdraw (cancel : Option TimerId) :
    t ∈ (s.withdraw cancel).timers ↔ t ∈ s.timers ∧ cancel ≠ some t.id := by
  cases cancel with
  | none => simp [withdraw]
  | some timer =>
    simp only [withdraw, h.clearTimeout_eq, mem_filter, bne_iff_ne, ne_eq,
      Option.some.injEq]
    rw [eq_comm]

theorem congr (ht : s'.timers = s.timers) (hd : s'.dueById = s.dueById)
    (hl : s'.lastTimer = s.lastTimer) : s'.Kept := by
  refine ⟨ht ▸ h.sorted, ht ▸ h.keyed, ?_, ?_⟩
  · rw [ht, hl]
    exact h.numbered
  · rw [ht, hd]
    exact h.paired

theorem clear (id : TimerId) : (s.clearTimeout id).1.Kept := by
  rw [h.clearTimeout_eq]
  exact ⟨h.sorted.filter _, h.keyed.sublist filter_sublist,
    fun t ht => h.numbered t (mem_of_mem_filter ht), h.paired_filter id⟩

theorem set (delay : Nat) (task : τ) : (s.setTimeout delay task).1.Kept := by
  have hnew : ∀ t ∈ s.timers, t.id < s.lastTimer + 1 := fun t ht => Nat.lt_succ_of_le (h.numbered t ht)
  have hperm := insertTimer_perm ⟨s.now + delay, s.lastTimer + 1, task⟩ s.timers
  refine ⟨insertTimer_sorted h.sorted hnew, ?_, ?_, (hperm.map _).trans (h.paired.cons _)⟩
  · have hcons : Keyed (·.id) ((⟨s.now + delay, s.lastTimer + 1, task⟩ : Timer τ) :: s.timers) :=
      Keyed.cons_iff.mpr ⟨fun t ht => (hnew t ht).ne, h.keyed⟩
    exact hcons.perm hperm.symm
  · intro t ht
    rcases mem_cons.mp (hperm.mem_iff.mp ht) with rfl | ht
    · exact le_rfl
    · exact Nat.le_succ_of_le (h.numbered t ht)

theorem before_rest (hs : s.timers = t :: l) : ∀ u ∈ l, Timer.before t u = true := by
  have hsorted := h.sorted
  rw [hs] at hsorted
  exact (pairwise_cons.mp hsorted).1

theorem due_le (hs : s.timers = t :: l) : ∀ u ∈ l, t.due ≤ u.due := by
  intro u hu
  rcases before_iff.mp (h.before_rest hs u hu) with hlt | ⟨heq, -⟩
  · exact hlt.le
  · exact heq.le

theorem pop (hp : s.popDue deadline = some (task, s')) :
    ∃ t rest, s.timers = t :: rest ∧ t.due ≤ deadline ∧ task = t.task ∧
      s' = { s with
        timers := rest, dueById := s.dueById.filter (·.1 != t.id), now := max s.now t.due } ∧
      s'.Kept := by
  unfold popDue at hp
  split at hp
  · cases hp
  next t rest hs =>
    split at hp
    · cases hp
    next hdue =>
      cases hp
      have hsub : rest.Sublist s.timers := hs ▸ sublist_cons_self t rest
      refine ⟨t, rest, hs, not_lt.mp hdue, rfl, rfl, h.sorted.sublist hsub, h.keyed.sublist hsub,
        fun u hu => h.numbered u (hsub.subset hu), ?_⟩
      have hrest : s.timers.filter (·.id != t.id) = rest := by
        have hk := h.keyed
        rw [hs, Keyed.cons_iff] at hk
        rw [hs, filter_cons_of_neg (by simp), Keyed.filter_eq_self hk.1]
      have hpaired := h.paired_filter t.id
      rwa [hrest] at hpaired

theorem late_of_pop (hp : s.popDue deadline = none) : ∀ t ∈ s.timers, deadline < t.due := by
  unfold popDue at hp
  split at hp
  next hs =>
    rw [hs]
    exact fun t ht => absurd ht not_mem_nil
  next t rest hs =>
    split at hp
    next hdue =>
      rw [hs]
      exact forall_mem_cons.mpr ⟨hdue, fun u hu => hdue.trans_le (h.due_le hs u hu)⟩
    · cases hp

end Kept

/-- The timers are in order and the clock has passed none. -/
structure Ordered (s : Scheduler τ) : Prop extends Kept s where
  /-- The clock has passed none. -/
  ahead : ∀ t ∈ s.timers, s.now ≤ t.due

namespace Ordered

variable (h : s.Ordered)

include h

theorem congr (ht : s'.timers = s.timers) (hd : s'.dueById = s.dueById)
    (hn : s'.now = s.now) (hl : s'.lastTimer = s.lastTimer) : s'.Ordered := by
  refine ⟨h.toKept.congr ht hd hl, ?_⟩
  rw [ht, hn]
  exact h.ahead

theorem withdraw (cancel : Option TimerId) : (s.withdraw cancel).Ordered := by
  refine ⟨?_, fun t ht => ?_⟩
  · cases cancel with
    | none => exact h.toKept
    | some id => exact h.toKept.clear id
  · rw [now_withdraw]
    exact h.ahead t ((h.mem_withdraw cancel).mp ht).1

theorem set (delay : Nat) (task : τ) : (s.setTimeout delay task).1.Ordered := by
  refine ⟨h.toKept.set delay task, fun t ht => ?_⟩
  rcases (mem_set delay task).mp ht with rfl | ht
  · exact Nat.le_add_right ..
  · exact h.ahead t ht

theorem move {now : Nat} (hn : ∀ t ∈ s.timers, now ≤ t.due) : (s.setNow now).Ordered :=
  ⟨h.toKept.congr rfl rfl rfl, fun t ht => Nat.max_le.mpr ⟨h.ahead t ht, hn t ht⟩⟩

theorem pop (hp : s.popDue deadline = some (task, s')) :
    ∃ t rest, s.timers = t :: rest ∧ t.due ≤ deadline ∧ task = t.task ∧
      s' = { s with
        timers := rest, dueById := s.dueById.filter (·.1 != t.id), now := t.due } ∧
      s'.Ordered := by
  obtain ⟨t, rest, hs, hdue, htask, rfl, hkept⟩ := h.toKept.pop hp
  have hnow := Nat.max_eq_right (h.ahead t (hs ▸ (.head _)))
  refine ⟨t, rest, hs, hdue, htask, by rw [hnow], hkept, fun u hu => ?_⟩
  exact (Nat.le_of_eq hnow).trans (h.due_le hs u hu)

end Ordered

end Componentry.Live.Scheduler
