import Componentry.Proofs.Live.Beats

/-!
# What is known of held-back methods

What is known of a held-back method depends on its state and on what was heard of it since it is held
back. If it is kept while other methods are busy, and goes on when the method is asked for and when it
runs, then it is known over every run.
-/

namespace Componentry.Live

open Document List

variable {σ : Type}

namespace Page

variable {s t : Page σ} {id id' : InstanceId} {method method' : String} {w : TimingWrapper}
  {event : Option Event} {heard : List Happening} {timer : Timer Task}
  {known : Page σ → TimingWrapper → List Happening → Prop}

/-- What is known of a method goes on with the method. -/
structure Lasting (id : InstanceId) (method : String)
    (known : Page σ → TimingWrapper → List Happening → Prop) : Prop where
  /-- Nothing was heard of a method that was not asked for. -/
  new : ∀ {t w}, w.pending = none → w.lastRun = none → known t w []
  /-- The clock may move, and timers of other methods may go. -/
  keep : ∀ {s t w heard}, known s w heard → s.scheduler.now ≤ t.scheduler.now →
    (∀ timer ∈ s.scheduler.timers, ∀ event, timer.task = .fire id method event →
      timer ∈ t.scheduler.timers) → known t w heard
  /-- A throttled method is asked for. -/
  throttled : ∀ {s t w heard event}, w.kind = .throttle → known s w heard →
    t.scheduler = s.scheduler →
    known t (w.decide s.scheduler.now).1 (heard ++ answer w s.scheduler.now event)
  /-- A debounced method is asked for. -/
  asked : ∀ {s t w heard event}, s.Timed → w.kind = .debounce → known s w heard →
    t.scheduler = ((s.scheduler.withdraw w.pending).setTimeout w.delay (.fire id method event)).1 →
    known t { w with pending := some (s.scheduler.lastTimer + 1) }
      (heard ++ [.asked s.scheduler.now event])
  /-- A debounced method runs. -/
  fired : ∀ {s t w heard timer event}, s.Timed → s.wrapper? id method = some w → known s w heard →
    timer ∈ s.scheduler.timers → timer.task = .fire id method event → t.scheduler.now = timer.due →
    known t (w.fired timer.due) (heard ++ [.ran timer.due event])

/-- The history of a method is kept while it is held back, and what is to be known of it is so. -/
structure Tracks (known : Page σ → TimingWrapper → List Happening → Prop) (s : Page σ)
    (id : InstanceId) (method : String) (heard : List Happening) : Prop where
  /-- Nothing is heard of a method that is not held back. -/
  fresh : s.wrapper? id method = none → heard = []
  held : ∀ w, s.wrapper? id method = some w → known s w heard

namespace Tracks

theorem start (known : Page σ → TimingWrapper → List Happening → Prop) (world : σ) (id : InstanceId)
    (method : String) : Tracks known (Page.start world) id method [] :=
  ⟨fun _ => rfl, fun _ hw => nomatch hw⟩

variable (hf : Lasting id method known)

include hf

variable (h : Tracks known s id method heard)

include h

theorem keep
    (hw : t.wrapper? id method = s.wrapper? id method) (hn : s.scheduler.now ≤ t.scheduler.now)
    (ht : ∀ timer ∈ s.scheduler.timers, ∀ event, timer.task = .fire id method event →
      timer ∈ t.scheduler.timers) : Tracks known t id method heard :=
  ⟨fun hnone => h.fresh (hw ▸ hnone), fun w hw' => hf.keep (h.held w (hw ▸ hw')) hn ht⟩

theorem calm (hc : Calm s t) : Tracks known t id method heard := by
  cases hs : s.wrapper? id method with
  | some w =>
    refine h.keep hf ((hc.kept id method w hs).trans hs.symm) hc.now.symm.le
      fun timer ht _ _ => ?_
    rw [hc.timers]
    exact ht
  | none =>
    have hnil := h.fresh hs
    subst hnil
    refine ⟨fun _ => rfl, fun w hw => ?_⟩
    rcases hc.gained id method w hw with hw | ⟨-, hp, hl⟩
    · rw [hs] at hw
      cases hw
    · exact hf.new hp hl

theorem adjust (ha : Adjusts s t id' method' w)
    (hne : ¬ (id = id' ∧ method = method')) : Tracks known t id method heard := by
  refine h.keep hf (by rw [ha.wrapper, if_neg hne]) ha.now fun timer ht event htask => ?_
  refine (ha.others timer fun event' htask' => ?_).mpr ht
  obtain ⟨hid, hm, -⟩ := Task.fire.inj (htask.symm.trans htask')
  exact hne ⟨hid, hm⟩

omit h

theorem beat (ho : s.Timed) (h : Tracks known s id method heard)
    {news : InstanceId → String → List Happening} (hb : Beat s t news) :
    Tracks known t id method (heard ++ news id method) := by
  -- Of a method that the part is not about nothing new is heard, and its new state tells of the other.
  have hone : ∀ {id' method' w} {l : List Happening}, Adjusts s t id' method' w →
      (id = id' ∧ method = method' → known t w (heard ++ l)) →
      Tracks known t id method (heard ++ only id' method' l id method) := by
    intro id' method' w l ha hknown
    by_cases hid : id = id' ∧ method = method'
    · rw [only, if_pos hid]
      have hself := ha.wrapper_self
      rw [← hid.1, ← hid.2] at hself
      refine ⟨fun hnone => ?_, fun w' hw' => ?_⟩
      · rw [hself] at hnone
        cases hnone
      · cases hself.symm.trans hw'
        exact hknown hid
    · rw [only, if_neg hid, append_nil]
      exact h.adjust hf ha hid
  cases hb with
  | calm hc =>
    rw [append_nil]
    exact h.calm hf hc
  | moved now hn ht =>
    subst ht
    rw [append_nil]
    exact h.keep hf rfl (Nat.le_max_left ..) fun timer ht _ _ => ht
  | throttled event hw hk ha hs =>
    refine hone ha ?_
    rintro ⟨rfl, rfl⟩
    exact hf.throttled hk (h.held _ hw) hs
  | asked event hw hk ha hs =>
    refine hone ha ?_
    rintro ⟨rfl, rfl⟩
    exact hf.asked ho hk (h.held _ hw) hs
  | fired timer rest ht event htask hw ha hs =>
    refine hone ha ?_
    rintro ⟨rfl, rfl⟩
    refine hf.fired ho hw (h.held _ hw) (ht ▸ (.head _)) htask ?_
    rw [hs]

theorem step (ho : s.Timed) (h : Tracks known s id method heard) {op : Operation σ} (hop : s.Timely op) :
    Tracks known (s.perform op) id method (heard ++ happenings id method s op) := by
  obtain ⟨⟨news, hb, hnews⟩, hc⟩ := ho.beats hop
  rw [hnews]
  exact (h.beat hf ho hb).calm hf hc

theorem performAll (ho : s.Timed) (h : Tracks known s id method heard) {ops : List (Operation σ)}
    (hops : s.TimelyAll ops) :
    Tracks known (s.performAll ops) id method (heard ++ history id method s ops) := by
  induction ops generalizing s heard with
  | nil =>
    rw [history, append_nil]
    exact h
  | cons op ops ih =>
    rw [history, ← append_assoc]
    exact ih (ho.step hops.1) (h.step hf ho hops.1) hops.2

end Tracks

/-- A component that counts how often a method of it is called, which is held back. -/
def counter (tag template method timing event : String) : Component Nat where
  description :=
    { tag, template, sourceId := some method
      annotations :=
        [{ method, name := timing, kind := .timing timing 100 },
          { method, name := event, kind := .event event none }] }
  construct := pure { call := fun _ _ _ => do modify fun (f, n) => (f, n + 1); return .ok () }

end Page

end Componentry.Live
