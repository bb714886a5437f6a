import Componentry.Proofs.Live.Tracking

/-!
# Throttled methods

A throttled method runs at once when it is asked for, unless it ran less than its delay ago; then the
call is dropped. The time of its last run is all it remembers, and its history since it is held back
tells the same: wiring it again, taking its element out and putting it back and hot updates in between
make no difference.
-/

namespace Componentry.Live

open Document List

variable {σ : Type}

namespace Page

open Happening (asked ran)

variable {delay : Nat} {heard : List Happening}

/-- The history of a throttled method: it grows by calls, and what becomes of a call depends on whether
the method ran less than the delay before. -/
inductive Throttled (delay : Nat) : List Happening → Prop where
  | nil : Throttled delay []
  /-- The method ran less than the delay before: the call is dropped. -/
  | drop {heard : List Happening} (h : Throttled delay heard) {last time : Nat}
    {event event' : Option Event} (hran : ran last event' ∈ heard) (hle : last ≤ time)
    (hlt : time < last + delay) : Throttled delay (heard ++ [asked time event])
  /-- It did not: the method runs at once, with the event of the call. -/
  | run {heard : List Happening} (h : Throttled delay heard) {time : Nat} {event : Option Event}
    (hfree : ∀ last event, ran last event ∈ heard → last + delay ≤ time) :
    Throttled delay (heard ++ [asked time event, ran time event])

/-- Any two runs are at least the delay apart. -/
def Spaced (delay : Nat) : Happening → Happening → Prop
  | .ran last _, .ran time _ => last + delay ≤ time
  | _, _ => True

theorem Throttled.spaced (h : Throttled delay heard) : heard.Pairwise (Spaced delay) := by
  induction h with
  | nil => exact .nil
  | drop _ _ _ _ ih =>
    refine pairwise_append.mpr ⟨ih, pairwise_singleton .., fun x _ y hy => ?_⟩
    cases mem_singleton.mp hy
    cases x <;> trivial
  | run _ hfree ih =>
    refine pairwise_append.mpr ⟨ih, by simp [Spaced], fun x hx y hy => ?_⟩
    cases x with
    | asked => trivial
    | ran last e =>
      rcases mem_pair.mp hy with rfl | rfl
      · trivial
      · exact hfree last e hx

/-- The time of its last run is all that a throttled method remembers of its history. -/
structure Remembers (s : Page σ) (w : TimingWrapper) (heard : List Happening) : Prop where
  throttled : Throttled w.delay heard
  /-- The time of the last run is remembered, and no run is later. -/
  last : ∀ last, w.lastRun = some last → last ≤ s.scheduler.now ∧ (∃ event, ran last event ∈ heard) ∧
    ∀ time event, ran time event ∈ heard → time ≤ last
  silent : w.lastRun = none → ∀ time event, ran time event ∉ heard

theorem throttled_lasting (id : InstanceId) (method : String) : Lasting id method
    fun (s : Page σ) w heard => w.kind = .throttle → s.Remembers w heard where
  new _ hl _ := ⟨.nil, fun _ h => (Option.some_ne_none _ (h.symm.trans hl)).elim,
    fun _ _ _ => not_mem_nil⟩
  keep {s t w heard} h hn _ hk := by
    obtain ⟨hthrottled, hlast, hsilent⟩ := h hk
    exact ⟨hthrottled, fun last hl => ⟨(hlast last hl).1.trans hn, (hlast last hl).2⟩, hsilent⟩
  throttled {s t w heard event} hk h hs _ := by
    obtain ⟨hthrottled, hlast, hsilent⟩ := h hk
    rcases decide_throttle hk s.scheduler.now with ⟨⟨last, hl, hlt⟩, hd⟩ | ⟨hfree, hd⟩
    · obtain ⟨hle, ⟨event', hmem⟩, hmax⟩ := hlast last hl
      simp only [hd, answer]
      refine ⟨hthrottled.drop hmem hle hlt, fun last' hl' => ?_, fun hl' => ?_⟩
      · cases hl.symm.trans hl'
        rw [hs]
        exact ⟨hle, ⟨event', mem_append_left _ hmem⟩, fun time e hm => hmax time e (by simpa using hm)⟩
      · cases hl.symm.trans hl'
    · have hbefore : ∀ time e, ran time e ∈ heard → time + w.delay ≤ s.scheduler.now := by
        intro time e hm
        cases hl : w.lastRun with
        | none => exact absurd hm (hsilent hl time e)
        | some last =>
          have := (hlast last hl).2.2 time e hm
          have := hfree last hl
          omega
      simp only [hd, answer]
      refine ⟨hthrottled.run hbefore, fun last' hl' => ?_, fun hl' => ?_⟩
      · cases hl'
        refine ⟨hs ▸ le_refl _, ⟨event, by simp⟩, fun time e hm => ?_⟩
        rcases mem_append.mp hm with hm | hm
        · have := hbefore time e hm
          omega
        · obtain ⟨rfl, -⟩ : time = s.scheduler.now ∧ e = event := by simpa using hm
          exact le_refl _
      · cases hl'
  asked _ hk _ _ hk' := by cases hk.symm.trans hk'
  fired ho hw _ ht htask _ hk := absurd htask (ho.no_timer hw hk ht)

/-- Throttled methods keep their distance over every run, between any two parts of its operations: a
call is dropped exactly if the method ran less than the delay before, so the first is answered. A part
does its bookkeeping, which leaves alone what authors carry along, and then makes the call that is heard
of. -/
theorem throttled_apart (world : σ) (ops : List (Operation σ))
    (hops : ∀ op ∈ ops, ¬ Operation.Part op) : let parts := (Page.start world).steps ops
    (Page.start world).performAll parts = (Page.start world).performAll ops ∧
    ∀ k, let s := (Page.start world).performAll (parts.take k)
      (∀ id method w, s.wrapper? id method = some w → w.kind = .throttle →
        let heard := history id method (Page.start world) (parts.take k)
        Throttled w.delay heard ∧ heard.Pairwise (Spaced w.delay)) ∧
      (∀ op, parts[k]? = some op → Operation.Part op →
        complete (s.bookkeep op) = s.perform op ∧ (s.bookkeep op).1.world = s.world) := by
  intro parts
  refine ⟨performAll_steps _ ops, fun k => ⟨fun id method w hw hk => ?_, fun op _ hop => ?_⟩⟩
  · have hparts := (Timed.start world).timelyAll_steps hops
    rw [← take_append_drop k ((Page.start world).steps ops), timelyAll_append] at hparts
    have htracks := (Tracks.start _ world id method).performAll (throttled_lasting id method)
      (Timed.start world) hparts.1
    have hthrottled := (htracks.held w hw hk).throttled
    exact ⟨hthrottled, hthrottled.spaced⟩
  · exact ⟨complete_bookkeep _ hop, world_bookkeep _ hop⟩

/-- A button that counts how often it saved, and saves at most once in a while. -/
def saveButton : Component Nat := counter "x-save" "<button></button>" "save" "throttle" "click"

/-- The button is clicked twice within the delay; in between it is taken away and put back, and its
template is replaced. It is clicked once more just when the delay is over. -/
def clicking : List (Operation Nat) :=
  [.define saveButton, .createElement "x-save", .append 0 1, .runMicrotasks, .dispatch 1 "click",
    .advance 60, .remove 1, .append 0 1, .hotUpdate "save" "<p></p>" none none,
    .callMethod 1 "save", .advance 40, .callMethod 1 "save"]

theorem throttled_apart_clicking : (∀ op ∈ clicking, ¬ Operation.Part op) ∧
    let parts := (Page.start 0).steps clicking
    let s := (Page.start 0).performAll (parts.take 14)
    s.world = 2 ∧ (s.wrapper? 2 "save").map (·.kind) = some .throttle ∧
    history 2 "save" (Page.start 0) (parts.take 14) =
      [asked 0 (some ⟨"click", 1, 1⟩), ran 0 (some ⟨"click", 1, 1⟩), asked 60 none, asked 100 none,
        ran 100 none] ∧
    Throttled 100 (history 2 "save" (Page.start 0) (parts.take 14)) := by
  have hops : ∀ op ∈ clicking, ¬ Operation.Part op := by
    intro op hop hpart
    cases hpart <;> simp [clicking] at hop
  refine ⟨hops, by decide +kernel, by decide +kernel, by decide +kernel, ?_⟩
  exact (((throttled_apart 0 clicking hops).2 14).1 2 "save"
    { kind := .throttle, delay := 100, pending := none, lastRun := some 100 } (by decide +kernel) rfl).1

end Page

end Componentry.Live
