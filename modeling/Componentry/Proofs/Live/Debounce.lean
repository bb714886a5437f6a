import Componentry.Proofs.Live.Tracking

/-!
# Debounced methods

A debounced method runs once calls for it have ceased for its delay. Its state names the only timer
that waits for it, and the history of the method since it is held back says everything about that
timer: it waits exactly if the last thing that happened is that the method was asked for, it is due
the delay later, and it carries the event of that call. So every call is followed by the run of the
method, exactly the delay later and with its event, unless another call comes before the clock is done
with that time; and the method runs at no other time.
-/

namespace Componentry.Live

open Document List

variable {σ : Type}

namespace Page

variable {s t : Page σ} {id id' : InstanceId} {method method' : String} {w w' : TimingWrapper}
  {event : Option Event} {heard : List Happening} {timer : Timer Task}

/-! ### Histories of debounced methods -/

/-- What may follow what: a call is answered the delay later with its event, or another call comes
first. -/
def Next (delay : Nat) : Happening → Happening → Prop
  | .asked time event, .ran time' event' => time' = time + delay ∧ event' = event
  | .asked time _, .asked time' _ => time ≤ time' ∧ time' ≤ time + delay
  | .ran time _, .asked time' _ => time ≤ time'
  | .ran _ _, .ran _ _ => False

/-- The timer that waits is the one for the last call, if that was not answered. -/
def Awaits (s : Page σ) (id : InstanceId) (method : String) (w : TimingWrapper) :
    Option Happening → Prop
  | some (.asked time event) => time ≤ s.scheduler.now ∧ ∃ k, w.pending = some k ∧
    ⟨time + w.delay, k, .fire id method event⟩ ∈ s.scheduler.timers
  | some (.ran time _) => time ≤ s.scheduler.now ∧ w.pending = none
  | none => w.pending = none

/-- The history of a debounced method is made of calls and answers, and the last call that was not
answered waits. -/
structure Debounced (s : Page σ) (id : InstanceId) (method : String) (w : TimingWrapper)
    (heard : List Happening) : Prop where
  /-- Each happening follows from the one before. -/
  chain : heard.IsChain (Next w.delay)
  head : ∀ time event, heard.head? ≠ some (.ran time event)
  /-- The last call that was not answered waits. -/
  awaits : s.Awaits id method w heard.getLast?

/-! ### A history goes on -/

theorem Debounced.snoc {y : Happening} (h : s.Debounced id method w heard)
    (hnext : ∀ x ∈ heard.getLast?, Next w.delay x y)
    (hfirst : heard = [] → ∀ time event, y ≠ .ran time event) (hd : w'.delay = w.delay)
    (ha : t.Awaits id method w' (some y)) : t.Debounced id method w' (heard ++ [y]) := by
  refine ⟨?_, ?_, ?_⟩
  · rw [hd]
    refine isChain_append.mpr ⟨h.chain, .singleton y, fun x hx z hz => ?_⟩
    obtain rfl : y = z := by simpa using hz
    exact hnext x hx
  · intro time event he
    cases heard with
    | nil => exact hfirst rfl time event (Option.some.inj he)
    | cons x l => exact h.head time event he
  · rw [getLast?_concat]
    exact ha

theorem Debounced.ask (ho : s.scheduler.Ordered) (h : s.Debounced id method w heard)
    (hs : t.scheduler =
      ((s.scheduler.withdraw w.pending).setTimeout w.delay (.fire id method event)).1) :
    t.Debounced id method { w with pending := some (s.scheduler.lastTimer + 1) }
      (heard ++ [.asked s.scheduler.now event]) := by
  refine h.snoc (fun x hx => ?_) (fun _ _ _ => nofun) rfl ?_
  · have hlast := h.awaits
    rw [Option.mem_def.mp hx] at hlast
    cases x with
    | asked time event' =>
      obtain ⟨hle, k, -, hm⟩ := hlast
      exact ⟨hle, ho.ahead _ hm⟩
    | ran time event' => exact hlast.1
  · refine ⟨?_, _, rfl, ?_⟩
    · rw [hs]
      exact (Scheduler.now_withdraw ..).symm.le
    · rw [hs]
      refine (Scheduler.Ordered.mem_set _ _).mpr (.inl ?_)
      rw [Scheduler.lastTimer_withdraw, Scheduler.now_withdraw]

theorem Timed.fire (ho : s.Timed) (hw : s.wrapper? id method = some w)
    (h : s.Debounced id method w heard) (ht : timer ∈ s.scheduler.timers)
    (htask : timer.task = .fire id method event) (hn : t.scheduler.now = timer.due) :
    t.Debounced id method (w.fired timer.due) (heard ++ [.ran timer.due event]) := by
  -- The timer waits, so the last that was heard is the call it was set for.
  have hp := (ho.pending ht htask hw).2
  have hlast := h.awaits
  have hcall : ∃ time, heard.getLast? = some (.asked time event) ∧ timer.due = time + w.delay := by
    unfold Awaits at hlast
    split at hlast
    next time event' hl =>
      obtain ⟨-, k, -, hm⟩ := hlast
      obtain rfl := ho.timer_unique ht hm htask rfl
      cases htask
      exact ⟨time, hl, rfl⟩
    next =>
      rw [hlast.2] at hp
      cases hp
    next =>
      rw [hlast] at hp
      cases hp
  obtain ⟨time, hl, hdue⟩ := hcall
  refine h.snoc (fun x hx => ?_) (fun hnil => ?_) rfl ⟨hn.symm.le, rfl⟩
  · cases hl.symm.trans hx
    exact ⟨hdue, rfl⟩
  · rw [hnil] at hl
    cases hl

theorem debounced_lasting (id : InstanceId) (method : String) : Lasting id method
    fun (s : Page σ) w heard => w.kind = .debounce → s.Debounced id method w heard where
  new hp _ _ := ⟨.nil, nofun, hp⟩
  keep {s t w heard} h hn ht hk := by
    obtain ⟨hchain, hhead, hlast⟩ := h hk
    refine ⟨hchain, hhead, ?_⟩
    revert hlast
    unfold Awaits
    split
    · rintro ⟨hle, k, hp, hm⟩
      exact ⟨hle.trans hn, k, hp, ht _ hm _ rfl⟩
    · exact fun ⟨hle, hp⟩ => ⟨hle.trans hn, hp⟩
    · exact fun hp => hp
  throttled {s t w heard event} hk h hs hk' := by
    rcases decide_throttle hk s.scheduler.now with ⟨-, hd⟩ | ⟨-, hd⟩ <;>
    · rw [hd] at hk'
      cases hk.symm.trans hk'
  asked ho hk h hs _ := (h hk).ask ho.ordered hs
  fired ho hw h ht htask hn hk := ho.fire hw (h hk) ht htask hn

/-! ### Runs -/

def timersOf (s : Page σ) (id : InstanceId) (method : String) : List (Timer Task) :=
  s.scheduler.timers.filter fun timer =>
    match timer.task with
    | .fire id' method' _ => id' = id ∧ method' = method
    | .wire _ => false

theorem mem_timersOf : timer ∈ s.timersOf id method ↔
      timer ∈ s.scheduler.timers ∧ ∃ event, timer.task = .fire id method event := by
  unfold timersOf
  rw [mem_filter]
  cases timer.task with
  | wire id' | fire id' method' event => simp

theorem Timed.timersOf_eq (h : s.Timed) (ht : timer ∈ s.scheduler.timers)
    (htask : timer.task = .fire id method event) : s.timersOf id method = [timer] := by
  refine perm_singleton.mp ((perm_ext_iff_of_nodup ?_ (nodup_singleton _)).mpr ?_)
  · exact (Nodup.of_map _ h.ordered.keyed).filter _
  · intro timer'
    rw [mem_timersOf, mem_singleton]
    constructor
    · rintro ⟨ht', event', htask'⟩
      exact h.timer_unique ht' ht htask' htask
    · rintro rfl
      exact ⟨ht, event, htask⟩

/-- What a debounced method waits for, by what was heard of it last: after a call that was not
answered, for the only timer there is, due its delay after the call and with the event of the call. -/
def Expects (s : Page σ) (id : InstanceId) (method : String) (w : TimingWrapper) :
    Option Happening → Prop
  | some (.asked time event) => ∃ k, w.pending = some k ∧
    s.timersOf id method = [⟨time + w.delay, k, .fire id method event⟩] ∧
    time ≤ s.scheduler.now ∧ s.scheduler.now ≤ time + w.delay
  | _ => w.pending = none ∧ s.timersOf id method = []

theorem Timed.expects (h : s.Timed) (hw : s.wrapper? id method = some w) {last : Option Happening}
    (ha : s.Awaits id method w last) : s.Expects id method w last := by
  have hnone : w.pending = none → w.pending = none ∧ s.timersOf id method = [] := by
    refine fun hp => ⟨hp, eq_nil_iff_forall_not_mem.mpr fun timer ht => ?_⟩
    obtain ⟨ht, event, htask⟩ := mem_timersOf.mp ht
    rw [(h.pending ht htask hw).2] at hp
    cases hp
  match last with
  | some (.asked time event) =>
    obtain ⟨hle, k, hp, hm⟩ := ha
    exact ⟨k, hp, h.timersOf_eq hm rfl, hle, h.ordered.ahead _ hm⟩
  | some (.ran time event) => exact hnone ha.2
  | none => exact hnone ha

/-- A debounced method of an instance is on time. -/
structure Punctual (s : Page σ) (id : InstanceId) (method : String) (w : TimingWrapper)
    (heard : List Happening) : Prop where
  /-- A call is followed by the run of the method, the delay later and with its event, or by another
  call before that; a run is followed by a call. -/
  chain : heard.IsChain (Next w.delay)
  /-- The first that is heard is a call. -/
  head : ∀ time event, heard.head? ≠ some (.ran time event)
  /-- At most one timer waits, for the last call. -/
  expects : s.Expects id method w heard.getLast?
  small : ∀ event, .fire id method event ∉ s.scheduler.microtasks

/-- Debounced methods are on time over every run, between any two parts of its operations. A part does
its bookkeeping, which leaves alone what authors carry along, and then makes the call that is heard of.
When the time that was to pass has passed, every timer that fell due by then ran. -/
theorem debounced_punctual (world : σ) (ops : List (Operation σ))
    (hops : ∀ op ∈ ops, ¬ Operation.Part op) : let parts := (Page.start world).steps ops
    (Page.start world).performAll parts = (Page.start world).performAll ops ∧
    ∀ k, let s := (Page.start world).performAll (parts.take k)
      (∀ id method w, s.wrapper? id method = some w → w.kind = .debounce →
        s.Punctual id method w (history id method (Page.start world) (parts.take k))) ∧
      (∀ op, parts[k]? = some op → Operation.Part op →
        complete (s.bookkeep op) = s.perform op ∧ (s.bookkeep op).1.world = s.world) ∧
      (∀ now, parts[k]? = some (.setNow now) →
        s.scheduler.now ≤ now ∧ ∀ timer ∈ s.scheduler.timers, now < timer.due) := by
  intro parts
  refine ⟨performAll_steps _ ops, fun k => ?_⟩
  have hparts := (Timed.start world).timelyAll_steps hops
  rw [← take_append_drop k ((Page.start world).steps ops), timelyAll_append] at hparts
  have htimed := (Timed.start world).performAll hparts.1
  refine ⟨fun id method w hw hk => ?_, fun op _ hop => ?_, fun now hnow => ?_⟩
  · have htracks := (Tracks.start _ world id method).performAll (debounced_lasting id method)
      (Timed.start world) hparts.1
    obtain ⟨hchain, hhead, hlast⟩ := htracks.held w hw hk
    refine ⟨hchain, hhead, htimed.expects hw hlast, fun event hm => ?_⟩
    obtain ⟨id', htask⟩ := htimed.small _ hm
    cases htask
  · exact ⟨complete_bookkeep _ hop, world_bookkeep _ hop⟩
  · have hrest := hparts.2
    have hdrop : ((Page.start world).steps ops).drop k =
        .setNow now :: ((Page.start world).steps ops).drop (k + 1) := by
      obtain ⟨hk, he⟩ := List.getElem?_eq_some_iff.mp hnow
      rw [drop_eq_getElem_cons hk]
      exact congrArg (· :: _) he
    rw [hdrop] at hrest
    exact hrest.1

/-- A search box that counts its searches and waits for a pause in typing. -/
def searchBox : Component Nat := counter "x-search" "<input>" "search" "debounce" "input"

/-- Two keys are hit one shortly after the other; in between the box is taken away and put back, and
its template is replaced. A third key is hit at the very moment of the search. -/
def typing : List (Operation Nat) :=
  [.define searchBox, .createElement "x-search", .append 0 1, .runMicrotasks, .dispatch 1 "input",
    .advance 60, .remove 1, .append 0 1, .hotUpdate "search" "<p></p>" none none,
    .callMethod 1 "search", .advance 100, .callMethod 1 "search"]

/-- The box searches once, the delay after the second key, and waits again after the third. -/
theorem debounced_punctual_typing : (∀ op ∈ typing, ¬ Operation.Part op) ∧
    let parts := (Page.start 0).steps typing
    let s := (Page.start 0).performAll (parts.take 15)
    s.world = 1 ∧
    s.wrapper? 2 "search" = some { kind := .debounce, delay := 100, pending := some 3, lastRun := some 160 } ∧
    history 2 "search" (Page.start 0) (parts.take 15) =
      [.asked 0 (some ⟨"input", 1, 1⟩), .asked 60 none, .ran 160 none, .asked 160 none] ∧
    s.Punctual 2 "search" { kind := .debounce, delay := 100, pending := some 3, lastRun := some 160 }
      (history 2 "search" (Page.start 0) (parts.take 15)) := by
  have hops : ∀ op ∈ typing, ¬ Operation.Part op := by
    intro op hop hpart
    cases hpart <;> simp [typing] at hop
  refine ⟨hops, by decide +kernel, by decide +kernel, by decide +kernel, ?_⟩
  exact ((debounced_punctual 0 typing hops).2 15).1 2 "search" _ (by decide +kernel) rfl

end Page

end Componentry.Live
