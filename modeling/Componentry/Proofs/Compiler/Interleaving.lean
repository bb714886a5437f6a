import Componentry.Project.Compiler
import Componentry.Proofs.Cache.Recency
import Componentry.Proofs.FileTree
import Componentry.Proofs.Module.Imports

/-!
# Interleaved compilation

Calls that compile files share one cache and one file tree. A call reads the time of its file, looks
into the cache, and if it is not served reads the time again, reads the text, compiles it and stores
the result with the time it read. Between any two of these steps other calls may take theirs, keys
may be removed, and files may be edited. A stored time and a stored module can therefore belong to
different texts.

A module is never served for a text that the file had only before the call: a time is never used
twice, so the text behind a stored time lies between the moments at which the time was read by the
call that stored it and by the call that is served.
-/

namespace Componentry

open List

/-- What the text of a file compiles to. -/
def Compiler.ofText (o : Options) (styles : Style.Compiler) (index : Option Index) (t : FileTree)
    (path : String) : Except Failure Module :=
  match t.textAt path with
  | .error e => .error e
  | .ok source => Module.compile o index styles path source

/-- What compiling a file gives where nothing is stored. -/
def Compiler.uncached (o : Options) (styles : Style.Compiler) (index : Option Index) (t : FileTree)
    (path : String) : Except Failure Module :=
  match t.time? path with
  | none => .error (.file path .untimed)
  | some _ => ofText o styles index t path

theorem Compiler.ofText_eq_ok {o : Options} {styles : Style.Compiler} {index : Option Index}
    {t : FileTree} {path : String} {m : Module} (h : ofText o styles index t path = .ok m) :
    ∃ source, t.textAt path = .ok source ∧ Module.compile o index styles path source = .ok m := by
  unfold ofText at h
  split at h
  · cases h
  next source hsource => exact ⟨source, hsource, h⟩

namespace Interleaving

/-- How far a call has come. -/
inductive Phase where
  | called
  /-- It has read the time to look up with. -/
  | looking (present : Option Nat)
  /-- The cache did not serve it. -/
  | missed
  /-- It has read the time to store with. -/
  | timed (time : Nat)
  | read (time : Nat) (source : String)
  | compiled (time : Nat) (module : Module)
  | finished (result : Except Failure Module)

/-- A call that compiles a file. -/
structure Call where
  path : String
  phase : Phase := .called
  /-- The moment of its first step. -/
  first : Nat := 0
  /-- The moment of its last step. -/
  last : Nat := 0

def Call.result? (call : Call) : Option (Except Failure Module) :=
  match call.phase with
  | .finished result => some result
  | _ => none

/-- The next step of a call at a moment, with the files of that moment and the shared cache. -/
def Call.turn (o : Options) (styles : Style.Compiler) (now : Nat) (t : FileTree) (c : ModuleCache)
    (call : Call) : Call × ModuleCache :=
  match call.phase with
  | .called => ({ call with first := now, phase := .looking (t.time? call.path) }, c)
  | .looking present =>
    match c.get call.path present with
    | (some m, c) => ({ call with last := now, phase := .finished (.ok m) }, c)
    | (none, c) => ({ call with phase := .missed }, c)
  | .missed =>
    match t.time? call.path with
    | none =>
      ({ call with last := now, phase := .finished (.error (.file call.path .untimed)) }, c)
    | some time => ({ call with phase := .timed time }, c)
  | .timed time =>
    match t.textAt call.path with
    | .error e => ({ call with last := now, phase := .finished (.error e) }, c)
    | .ok source => ({ call with phase := .read time source }, c)
  | .read time source =>
    match Module.compile o none styles call.path source with
    | .error e => ({ call with last := now, phase := .finished (.error e) }, c)
    | .ok m => ({ call with phase := .compiled time m }, c)
  | .compiled time m =>
    ({ call with last := now, phase := .finished (.ok m) }, c.set call.path call.path time m)
  | .finished _ => (call, c)

/-- Files, cache and calls. A moment is a state of the files; moments are counted from zero. -/
structure Site where
  /-- The files as they were, earliest first. -/
  past : List FileTree := []
  files : FileTree
  cache : ModuleCache
  /-- The calls, in the order they were made. -/
  calls : List Call := []

/-- The files at every moment so far. -/
def Site.history (s : Site) : List FileTree := s.past ++ [s.files]

/-- What can happen next. -/
inductive Event where
  | call (path : String)
  /-- A call takes its next step. -/
  | turn (i : Nat)
  /-- A key is removed from the cache. -/
  | invalidate (path : String)
  | clear
  | edit (files : FileTree)

def Event.leavesFiles : Event → Bool
  | .edit _ => false
  | _ => true

/-- The site after something happened. -/
def Site.step (o : Options) (styles : Style.Compiler) (s : Site) : Event → Site
  | .call path => { s with calls := s.calls ++ [{ path }] }
  | .turn i =>
    match s.calls[i]? with
    | none => s
    | some call =>
      let (call, cache) := call.turn o styles s.past.length s.files s.cache
      { s with cache, calls := s.calls.set i call }
  | .invalidate path => { s with cache := (s.cache.invalidate path).2 }
  | .clear => { s with cache := s.cache.clear }
  | .edit files => { s with past := s.past ++ [s.files], files }

variable (history : List FileTree)

/-- A change of the files leaves a path alone or gives it a time that it never had before. -/
def FreshTimes (old new : FileTree) : Prop :=
  ∀ path, (new.time? path = old.time? path ∧ new.textAt path = old.textAt path) ∨
    ∀ t ∈ history, ∀ n, new.time? path = some n → t.time? path ≠ some n

/-- Only changes of the files are restricted. -/
def Site.Allows (s : Site) : Event → Prop
  | .edit files => FreshTimes s.history s.files files
  | _ => True

/-- The sites that come about from any files and an empty cache, whatever happens in any order. -/
inductive Reachable (o : Options) (styles : Style.Compiler) : Site → Prop where
  | start (files : FileTree) (ceiling : Nat) : Reachable o styles { files, cache := { ceiling } }
  | step {s : Site} {e : Event} :
      Reachable o styles s → s.Allows e → Reachable o styles (s.step o styles e)

/-! ### Moments -/

/-- The files were such at some moment from one on. -/
def Since (first : Nat) (p : FileTree → Prop) : Prop :=
  ∃ k t, first ≤ k ∧ history[k]? = some t ∧ p t

/-- The files were such at some moment from one to another. -/
def Within (first last : Nat) (p : FileTree → Prop) : Prop :=
  ∃ k t, first ≤ k ∧ k ≤ last ∧ history[k]? = some t ∧ p t

variable {t : FileTree} {s : Site}

section Moments

variable {history : List FileTree} {first last : Nat} {p : FileTree → Prop} {k : Nat}

theorem getElem?_snoc {u : FileTree} (h : history[k]? = some t) :
    (history ++ [u])[k]? = some t := by
  obtain ⟨hk, -⟩ := List.getElem?_eq_some_iff.mp h
  rw [getElem?_append_left hk, h]

theorem getElem?_snoc_cases {u : FileTree} (h : (history ++ [u])[k]? = some t) :
    history[k]? = some t ∨ k = history.length ∧ t = u := by
  by_cases hk : k < history.length
  · exact .inl (getElem?_append_left hk ▸ h)
  · rw [getElem?_append_right (not_lt.mp hk), getElem?_singleton] at h
    split at h
    next h0 => exact .inr ⟨by omega, (Option.some.inj h).symm⟩
    next => cases h

theorem Since.snoc (h : Since history first p) (u : FileTree) : Since (history ++ [u]) first p := by
  obtain ⟨k, t, hk, ht, hp⟩ := h
  exact ⟨k, t, hk, getElem?_snoc ht, hp⟩

theorem Within.snoc (h : Within history first last p) (u : FileTree) :
    Within (history ++ [u]) first last p := by
  obtain ⟨k, t, hk, hl, ht, hp⟩ := h
  exact ⟨k, t, hk, hl, getElem?_snoc ht, hp⟩

theorem Site.history_now (s : Site) : s.history[s.past.length]? = some s.files :=
  getElem?_concat_length

theorem Site.history_length (s : Site) : s.history.length = s.past.length + 1 := by
  rw [history, length_append, length_singleton]

theorem le_now {u : FileTree} (h : (history ++ [u])[k]? = some t) : k ≤ history.length := by
  simpa [Nat.lt_add_one_iff] using (List.getElem?_eq_some_iff.mp h).1

theorem Site.within_now (hf : first ≤ k) (ht : s.history[k]? = some t) (hp : p t) :
    Within s.history first s.past.length p := ⟨k, t, hf, le_now ht, ht, hp⟩

theorem Site.since_now (hf : first ≤ s.past.length) (hp : p s.files) :
    Since s.history first p := ⟨s.past.length, s.files, hf, s.history_now, hp⟩

end Moments

/-! ### Times tell texts apart -/

/-- Between two moments at which a path has the same time, its text never changed. -/
def Honest (history : List FileTree) : Prop :=
  ∀ (path : String) (n i j k : Nat) (t u v : FileTree), i ≤ j → j ≤ k →
    history[i]? = some t → history[j]? = some u → history[k]? = some v →
    t.time? path = some n → v.time? path = some n → u.textAt path = v.textAt path

theorem honest_singleton (t : FileTree) : Honest [t] := by
  intro path n i j k t' u v _ _ _ hu hv _ _
  rw [mem_singleton.mp (mem_of_getElem? hu), mem_singleton.mp (mem_of_getElem? hv)]

theorem Honest.snoc {past : List FileTree} {old new : FileTree} (h : Honest (past ++ [old]))
    (hf : FreshTimes (past ++ [old]) old new) : Honest ((past ++ [old]) ++ [new]) := by
  intro path n i j k t u v hij hjk ht hu hv hn hn'
  have hlen : (past ++ [old]).length = past.length + 1 := by simp
  rcases getElem?_snoc_cases hv with hv | ⟨-, rfl⟩
  · obtain ⟨hk, -⟩ := List.getElem?_eq_some_iff.mp hv
    rw [getElem?_append_left (by omega)] at ht hu
    exact h path n i j k t u v hij hjk ht hu hv hn hn'
  · rcases getElem?_snoc_cases hu with hu | ⟨-, rfl⟩
    · obtain ⟨hj, -⟩ := List.getElem?_eq_some_iff.mp hu
      rw [getElem?_append_left (by omega)] at ht
      -- An earlier moment with the new time rules out that the time is fresh.
      rcases hf path with ⟨htime, htext⟩ | hfresh
      · rw [htext]
        exact h path n i j past.length t u old hij (by omega) ht hu getElem?_concat_length hn
          (htime ▸ hn')
      · exact absurd hn (hfresh t (mem_of_getElem? ht) n hn')
    · rfl

/-! ### What every call can rely on -/

variable (o : Options) (styles : Style.Compiler)

def Yields (path : String) (result : Except Failure Module) (t : FileTree) : Prop :=
  Compiler.ofText o styles none t path = result

/-- A stored module comes from a text that the file had when or after it had the stored time. -/
def Held (history : List FileTree) (h : Holding) : Prop :=
  ∃ i t, history[i]? = some t ∧ t.time? h.key = some h.time ∧
    Since history i (Yields o styles h.key (.ok h.payload))

/-- What a call knows came from moments since its first step. -/
def Call.Sound (history : List FileTree) (call : Call) : Prop :=
  match call.phase with
  | .called => True
  | .looking present => ∃ t, history[call.first]? = some t ∧ t.time? call.path = present
  | .missed => call.first < history.length
  | .timed time => Since history call.first fun t => t.time? call.path = some time
  | .read time source => ∃ i t, call.first ≤ i ∧ history[i]? = some t ∧
      t.time? call.path = some time ∧ Since history i fun u => u.textAt call.path = .ok source
  | .compiled time m => ∃ i t, call.first ≤ i ∧ history[i]? = some t ∧
      t.time? call.path = some time ∧ Since history i (Yields o styles call.path (.ok m))
  | .finished result =>
    Within history call.first call.last (fun t =>
      t.time? call.path = none ∧ result = .error (.file call.path .untimed)) ∨
    Within history call.first call.last (fun t => ∃ n, t.time? call.path = some n) ∧
      Within history call.first call.last (Yields o styles call.path result)

/-- Files, cache and calls are as they should be. -/
structure Site.Sound (s : Site) : Prop where
  honest : Honest s.history
  /-- Stored modules are not older than their times. -/
  held : ∀ h ∈ s.cache.holdings, Held o styles s.history h
  /-- Calls know nothing from before their first step. -/
  calls : ∀ call ∈ s.calls, call.Sound o styles s.history

variable {o styles} {h : Holding} {call : Call} {now n : Nat} {path : String} {events : List Event}
  {names : List String} {history : List FileTree}

theorem Held.snoc (hh : Held o styles history h) (u : FileTree) :
    Held o styles (history ++ [u]) h := by
  obtain ⟨i, t, ht, hn, hs⟩ := hh
  exact ⟨i, t, getElem?_snoc ht, hn, hs.snoc u⟩

theorem Call.Sound.snoc (h : call.Sound o styles history) (u : FileTree) :
    call.Sound o styles (history ++ [u]) := by
  unfold Call.Sound at *
  split at h
  · trivial
  · obtain ⟨t, ht, hp⟩ := h
    exact ⟨t, getElem?_snoc ht, hp⟩
  · rw [length_append]
    omega
  · exact Since.snoc h u
  · obtain ⟨i, t, hi, ht, hn, hs⟩ := h
    exact ⟨i, t, hi, getElem?_snoc ht, hn, hs.snoc u⟩
  · obtain ⟨i, t, hi, ht, hn, hs⟩ := h
    exact ⟨i, t, hi, getElem?_snoc ht, hn, hs.snoc u⟩
  · exact h.imp (Within.snoc · u) fun h => ⟨h.1.snoc u, h.2.snoc u⟩

/-- A module that is served for the time a call has read comes from a text that the file had since
the first step of that call. Either the text was read after it, or the time was the same before and
after the text was read, and so the text is still there at that step. -/
theorem Held.since (hh : Honest history) (hheld : Held o styles history h)
    {first : Nat} (ht : history[first]? = some t) (hn : t.time? h.key = some h.time) :
    Since history first (Yields o styles h.key (.ok h.payload)) := by
  obtain ⟨i, u, hu, hun, k, v, hik, hv, hm⟩ := hheld
  by_cases hk : first ≤ k
  · exact ⟨k, v, hk, hv, hm⟩
  · have htext := hh h.key h.time i k first u v t hik (by omega) hu hv ht hun hn
    rw [Yields, Compiler.ofText, htext] at hm
    exact ⟨first, t, le_rfl, ht, hm⟩

namespace Site

theorem Sound.turn (h : s.Sound o styles) (hc : call.Sound o styles s.history) :
    (call.turn o styles s.past.length s.files s.cache).1.Sound o styles s.history ∧
      ∀ x ∈ (call.turn o styles s.past.length s.files s.cache).2.holdings,
        Held o styles s.history x := by
  obtain ⟨path, phase, first, last⟩ := call
  cases phase with
  | called => exact ⟨⟨s.files, s.history_now, rfl⟩, h.held⟩
  | looking present =>
    obtain ⟨t, ht, hp⟩ := hc
    obtain ⟨hserved, hsub⟩ := s.cache.holdings_get path present
    have hheld : ∀ x ∈ (s.cache.get path present).2.holdings, Held o styles s.history x :=
      fun x hx => h.held x (hsub hx)
    simp only [Call.turn]
    cases hg : (s.cache.get path present).1 with
    | none =>
      have he : s.cache.get path present = (none, (s.cache.get path present).2) := by rw [← hg]
      rw [he]
      exact ⟨(List.getElem?_eq_some_iff.mp ht).1, hheld⟩
    | some m =>
      have he : s.cache.get path present = (some m, (s.cache.get path present).2) := by rw [← hg]
      obtain ⟨x, hx, rfl, hpx, rfl⟩ := hserved m hg
      have htime := hp.trans hpx
      obtain ⟨k, u, hk, hu, hy⟩ := (h.held x hx).since h.honest ht htime
      rw [he]
      exact ⟨.inr ⟨within_now le_rfl ht ⟨_, htime⟩, within_now hk hu hy⟩, hheld⟩
  | missed =>
    have hfirst : first ≤ s.past.length := Nat.le_of_lt_add_one (s.history_length ▸ hc)
    simp only [Call.turn]
    cases htime : s.files.time? path with
    | none => exact ⟨.inl (within_now hfirst s.history_now ⟨htime, rfl⟩), h.held⟩
    | some time => exact ⟨s.since_now hfirst htime, h.held⟩
  | timed time =>
    obtain ⟨k, t, hk, ht, hn⟩ := hc
    have hkp := le_now ht
    simp only [Call.turn]
    cases htext : s.files.textAt path with
    | error e =>
      have herror : Yields o styles path (.error e) s.files := by simp [Yields, Compiler.ofText, htext]
      exact ⟨.inr ⟨within_now hk ht ⟨_, hn⟩, within_now (hk.trans hkp) s.history_now herror⟩,
        h.held⟩
    | ok source => exact ⟨⟨k, t, hk, ht, hn, s.since_now hkp htext⟩, h.held⟩
  | read time source =>
    obtain ⟨i, t, hi, ht, hn, k, u, hk, hu, hsource⟩ := hc
    have hy : Yields o styles path (Module.compile o none styles path source) u := by
      simp [Yields, Compiler.ofText, hsource]
    simp only [Call.turn]
    cases hm : Module.compile o none styles path source with
    | error e =>
      rw [hm] at hy
      exact ⟨.inr ⟨within_now hi ht ⟨_, hn⟩, within_now (hi.trans hk) hu hy⟩, h.held⟩
    | ok m =>
      rw [hm] at hy
      exact ⟨⟨i, t, hi, ht, hn, k, u, hk, hu, hy⟩, h.held⟩
  | compiled time m =>
    obtain ⟨i, t, hi, ht, hn, k, u, hk, hu, hy⟩ := hc
    refine ⟨.inr ⟨within_now hi ht ⟨_, hn⟩, within_now (hi.trans hk) hu hy⟩, fun x hx => ?_⟩
    rcases mem_cons.mp (s.cache.holdings_store_subset ⟨path, path, time, m⟩ hx) with rfl | hx
    · exact ⟨i, t, ht, hn, k, u, hk, hu, hy⟩
    · exact h.held x hx
  | finished result => exact ⟨hc, h.held⟩

theorem Sound.step (h : s.Sound o styles) {e : Event} (he : s.Allows e) :
    (s.step o styles e).Sound o styles := by
  cases e with
  | call path =>
    refine ⟨h.honest, h.held, fun call hc => ?_⟩
    rcases mem_append.mp hc with hc | hc
    · exact h.calls call hc
    · rw [mem_singleton.mp hc]
      trivial
  | turn i =>
    rw [Site.step]
    cases hc : s.calls[i]? with
    | none => exact h
    | some call =>
      obtain ⟨hcall, hheld⟩ := h.turn (h.calls call (mem_of_getElem? hc))
      refine ⟨h.honest, hheld, fun call' hc' => ?_⟩
      rcases mem_or_eq_of_mem_set hc' with hc' | rfl
      · exact h.calls call' hc'
      · exact hcall
  | invalidate path =>
    exact ⟨h.honest, fun x hx => h.held x (s.cache.holdings_invalidate_subset path hx), h.calls⟩
  | clear => exact ⟨h.honest, fun x hx => absurd hx not_mem_nil, h.calls⟩
  | edit files =>
    exact ⟨h.honest.snoc he, fun x hx => (h.held x hx).snoc files,
      fun call hc => (h.calls call hc).snoc files⟩

end Site

theorem Reachable.sound (h : Reachable o styles s) : s.Sound o styles := by
  induction h with
  | start files ceiling =>
    exact ⟨honest_singleton files, fun x hx => absurd hx not_mem_nil,
      fun call hc => absurd hc not_mem_nil⟩
  | step _ he ih => exact ih.step he

/-! ### Calls on their own -/

/-- Steps of a call that nothing comes between. -/
def Call.turns (o : Options) (styles : Style.Compiler) (now : Nat) (t : FileTree) :
    Nat → Call → ModuleCache → Call × ModuleCache
  | 0, call, c => (call, c)
  | n + 1, call, c =>
    let (call, c) := call.turn o styles now t c
    Call.turns o styles now t n call c

theorem turns_of_turn {call' : Call} {c c' : ModuleCache}
    (h : call.turn o styles now t c = (call', c')) :
    Call.turns o styles now t (n + 1) call c = Call.turns o styles now t n call' c' := by
  rw [Call.turns, h]

theorem withIndex_of_no_root {c : Compiler} (h : c.options.projectRoot = none) (t : FileTree) :
    c.withIndex t = (none, c) := by
  rw [Compiler.withIndex, h]

/-- Six steps that nothing comes between are a compilation by the compiler of a project without a
root: they return the same and leave the same cache. -/
theorem turns_eq_compile (c : Compiler) (hroot : c.options.projectRoot = none) (now : Nat)
    (t : FileTree) (path : String) :
    (Call.turns c.options c.styles now t 6 { path } c.cache).1.result? =
        some (c.compile t path).1 ∧
      (Call.turns c.options c.styles now t 6 { path } c.cache).2 = (c.compile t path).2.cache := by
  rw [turns_of_turn rfl, Compiler.compile]
  rcases hg : c.cache.get path (t.time? path) with ⟨served, cache⟩
  cases served with
  | some m =>
    rw [turns_of_turn (by simp only [Call.turn, hg]; rfl)]
    exact ⟨rfl, rfl⟩
  | none =>
    rw [turns_of_turn (by simp only [Call.turn, hg]; rfl)]
    simp only [Compiler.compileFresh]
    cases htime : t.time? path with
    | none =>
      rw [turns_of_turn (by simp only [Call.turn, htime]; rfl)]
      exact ⟨rfl, rfl⟩
    | some time =>
      rw [turns_of_turn (by simp only [Call.turn, htime]; rfl)]
      cases htext : t.textAt path with
      | error e =>
        rw [turns_of_turn (by simp only [Call.turn, htext]; rfl)]
        exact ⟨rfl, rfl⟩
      | ok source =>
        rw [turns_of_turn (by simp only [Call.turn, htext]; rfl)]
        simp only [withIndex_of_no_root (c := { c with cache }) hroot]
        cases hm : Module.compile c.options none c.styles path source <;>
          rw [turns_of_turn (by simp only [Call.turn, hm]; rfl)] <;> exact ⟨rfl, rfl⟩

theorem compileAll_of_ceiling_zero (c : Compiler) (hroot : c.options.projectRoot = none)
    (hc : c.cache.ceiling = 0) (he : c.cache.entries = []) (t : FileTree) (paths : List String) :
    (c.compileAll t paths).1 = paths.map (Compiler.uncached c.options c.styles none t) := by
  induction paths generalizing c with
  | nil => rfl
  | cons path paths ih =>
    have hfind : c.cache.find? path = none := by rw [ModuleCache.find?, he, find?_nil]
    have hset : ∀ time m, c.cache.miss.set path path time m = c.cache.miss := by
      intro time m
      rw [ModuleCache.set, if_pos]
      rw [beq_iff_eq]
      exact hc
    have hcompile : c.compile t path =
        (Compiler.uncached c.options c.styles none t path, { c with cache := c.cache.miss }) := by
      simp only [Compiler.compile, ModuleCache.get, hfind, Compiler.compileFresh, Compiler.uncached,
        Compiler.ofText]
      cases t.time? path with
      | none => rfl
      | some time =>
        cases t.textAt path with
        | error e => rfl
        | ok source =>
          simp only [withIndex_of_no_root (c := { c with cache := c.cache.miss }) hroot, hset]
          cases Module.compile c.options none c.styles path source <;> rfl
    rw [Compiler.compileAll, hcompile]
    exact congrArg (Compiler.uncached c.options c.styles none t path :: ·)
      (ih { c with cache := c.cache.miss } hroot hc he)

/-! ### Calls among others while the files stay -/

def Site.run (o : Options) (styles : Style.Compiler) (s : Site) (events : List Event) : Site :=
  events.foldl (Site.step o styles) s

def Event.isTurn (i : Nat) : Event → Bool
  | .turn j => j == i
  | _ => false

/-- How many steps a call has left at most. -/
def Phase.left : Phase → Nat
  | .called => 6
  | .looking _ => 5
  | .missed => 4
  | .timed _ => 3
  | .read _ _ => 2
  | .compiled _ _ => 1
  | .finished _ => 0

/-- A call for a file that took no step before a moment and has at most so many steps left. -/
structure Call.Waits (path : String) (now n : Nat) (call : Call) : Prop where
  path_eq : call.path = path
  started : call.phase = .called ∨ call.first = now
  left_le : call.phase.left ≤ n

theorem Call.Waits.turn (h : call.Waits path now n) (t : FileTree) (c : ModuleCache) :
    (call.turn o styles now t c).1.Waits path now (n - 1) := by
  obtain ⟨path, phase, first, last⟩ := call
  obtain ⟨rfl, hs, hl⟩ := h
  have hn : phase.left - 1 ≤ n - 1 := Nat.sub_le_sub_right hl 1
  rw [Call.turn]
  cases phase with
  | called => exact ⟨rfl, .inr rfl, hn⟩
  | looking present | missed | timed time | read time source =>
    dsimp only
    split
    · exact ⟨rfl, .inr (hs.resolve_left nofun), Nat.zero_le _⟩
    · exact ⟨rfl, .inr (hs.resolve_left nofun), hn⟩
  | _ => exact ⟨rfl, .inr (hs.resolve_left nofun), hn⟩

theorem Call.Waits.step {e : Event} (he : e.leavesFiles = true) {i : Nat}
    (h : ∃ call, s.calls[i]? = some call ∧ call.Waits path s.past.length n) :
    ∃ call, (s.step o styles e).calls[i]? = some call ∧
      call.Waits path (s.step o styles e).past.length (n - (e.isTurn i).toNat) := by
  obtain ⟨call, hc, hw⟩ := h
  cases e with
  | call path' =>
    obtain ⟨hi, -⟩ := List.getElem?_eq_some_iff.mp hc
    exact ⟨call, by rw [Site.step, getElem?_append_left hi, hc], hw⟩
  | turn j =>
    by_cases hj : j = i
    · subst hj
      obtain ⟨hi, -⟩ := List.getElem?_eq_some_iff.mp hc
      simp only [Site.step, hc, Event.isTurn, beq_self_eq_true]
      exact ⟨_, getElem?_set_self hi, hw.turn s.files s.cache⟩
    · have hn : (Event.turn j).isTurn i = false := beq_false_of_ne hj
      rw [hn, Site.step]
      cases s.calls[j]? with
      | none => exact ⟨call, hc, hw⟩
      | some other => exact ⟨call, by rw [getElem?_set_ne hj, hc], hw⟩
  | invalidate path' | clear => exact ⟨call, hc, hw⟩
  | edit files => cases he

theorem Reachable.run (h : Reachable o styles s) (hq : ∀ e ∈ events, e.leavesFiles = true) :
    Reachable o styles (s.run o styles events) ∧ (s.run o styles events).files = s.files := by
  refine foldlRecOn (motive := fun u => Reachable o styles u ∧ u.files = s.files) events _ ⟨h, rfl⟩
    fun u hu e he => ?_
  cases e with
  | turn i =>
    refine ⟨hu.1.step trivial, ?_⟩
    rw [Site.step]
    split <;> exact hu.2
  | edit files => cases hq _ he
  | _ => exact ⟨hu.1.step trivial, hu.2⟩

theorem Call.Waits.run (o : Options) (styles : Style.Compiler)
    (hq : ∀ e ∈ events, e.leavesFiles = true) {i : Nat}
    (h : ∃ call, s.calls[i]? = some call ∧ call.Waits path s.past.length n) :
    ∃ call, (s.run o styles events).calls[i]? = some call ∧
      call.Waits path (s.run o styles events).past.length (n - events.countP (·.isTurn i)) := by
  induction events generalizing s n with
  | nil => exact h
  | cons e events ih =>
    obtain ⟨he, hq⟩ := forall_mem_cons.mp hq
    obtain ⟨call, hc, hw⟩ := ih hq (Call.Waits.step he h)
    refine ⟨call, hc, hw.path_eq, hw.started, hw.left_le.trans ?_⟩
    rw [countP_cons]
    cases e.isTurn i with
    | false => exact le_rfl
    | true =>
      rw [Bool.toNat_true, if_pos rfl]
      omega

theorem Site.run_calls (s : Site) (paths : List String) :
    s.run o styles (paths.map .call) = { s with calls := s.calls ++ paths.map fun path => { path } } := by
  induction paths generalizing s with
  | nil => simp [run]
  | cons path paths ih =>
    have hstep : s.run o styles ((path :: paths).map .call) =
        (s.step o styles (.call path)).run o styles (paths.map .call) := rfl
    rw [hstep, ih]
    simp [step]

/-- A call that took no step before the present moment and has returned gives what compiling the
file gives now. -/
theorem Site.Sound.uncached (h : s.Sound o styles) (hc : call ∈ s.calls)
    (hw : call.Waits path s.past.length 0) :
    call.result? = some (Compiler.uncached o styles none s.files path) := by
  have hnow : ∀ p, Within s.history call.first call.last p → call.first = s.past.length →
      p s.files := by
    rintro p ⟨k, t, hf, -, ht, hp⟩ hfirst
    rw [(le_now ht).antisymm (hfirst ▸ hf), s.history_now] at ht
    exact Option.some.inj ht ▸ hp
  have hsound := h.calls call hc
  obtain ⟨path', phase, first, last⟩ := call
  obtain ⟨rfl, hs, hl⟩ := hw
  cases phase with
  | finished result =>
    have hf : first = s.past.length := hs.resolve_left (by simp)
    rcases hsound with hn | ⟨hn, hy⟩
    · obtain ⟨hn, he⟩ := hnow _ hn hf
      have he : result = .error (.file path' .untimed) := he
      simp [Call.result?, Compiler.uncached, hn, he]
    · obtain ⟨n, hn⟩ := hnow _ hn hf
      have hy : Compiler.ofText o styles none s.files path' = result := hnow _ hy hf
      simp [Call.result?, Compiler.uncached, hn, hy]
  | _ => simp [Phase.left] at hl

/-- Calls made together, over any events that leave the files alone and give each of them six
turns, all return what compiling the files gives. -/
theorem Reachable.batch (h : Reachable o styles s) (paths : List String)
    (hq : ∀ e ∈ events, e.leavesFiles = true)
    (ht : ∀ k < paths.length, 6 ≤ events.countP (·.isTurn (s.calls.length + k))) :
    (((s.run o styles (paths.map .call ++ events)).calls.drop s.calls.length).take
        paths.length).map Call.result? =
      paths.map fun path => some (Compiler.uncached o styles none s.files path) := by
  have hall : ∀ e ∈ paths.map Event.call ++ events, e.leavesFiles = true :=
    forall_mem_append.mpr ⟨forall_mem_map.mpr fun _ _ => rfl, hq⟩
  obtain ⟨hreach, hfiles⟩ := h.run hall
  have hrun : s.run o styles (paths.map .call ++ events) =
      (s.run o styles (paths.map .call)).run o styles events := foldl_append ..
  -- Each of the calls stands at its place with six steps to go before the events begin.
  have hcall : ∀ k (hk : k < paths.length),
      ∃ call, (s.run o styles (paths.map .call ++ events)).calls[s.calls.length + k]? = some call ∧
        call.result? = some (Compiler.uncached o styles none s.files paths[k]) := by
    intro k hk
    have hplace : (s.run o styles (paths.map .call)).calls[s.calls.length + k]? =
        some { path := paths[k] } := by
      rw [Site.run_calls, getElem?_append_right (Nat.le_add_right ..), Nat.add_sub_cancel_left,
        getElem?_map, getElem?_eq_getElem hk]
      rfl
    have hw : ({ path := paths[k] } : Call).Waits paths[k]
        (s.run o styles (paths.map .call)).past.length 6 := ⟨rfl, .inl rfl, le_rfl⟩
    have hend := Call.Waits.run o styles hq ⟨_, hplace, hw⟩
    rw [← hrun, Nat.sub_eq_zero_of_le (ht k hk)] at hend
    obtain ⟨call, hc, hw⟩ := hend
    exact ⟨call, hc, hfiles ▸ hreach.sound.uncached (mem_of_getElem? hc) hw⟩
  apply ext_getElem?
  intro k
  rw [getElem?_map, getElem?_map]
  by_cases hk : k < paths.length
  · obtain ⟨call, hc, hr⟩ := hcall k hk
    rw [getElem?_take_of_lt hk, getElem?_drop, hc, getElem?_eq_getElem hk]
    exact congrArg some hr
  · rw [getElem?_eq_none (by rw [length_take]; omega), getElem?_eq_none (by omega)]
    rfl

/-! ### Edits of a single file -/

/-- Writing a file where no directory stands, with a time that no path ever had, is an edit of the
kind that may happen. -/
theorem freshTimes_put {bytes : List UInt8} {time : Int}
    (h : t.node? names ≠ some .directory) (hpos : 0 ≤ time)
    (hfresh : ∀ u ∈ history, ∀ path, u.time? path ≠ some time.toNat) :
    FreshTimes history t (t.put names (.file bytes time)) := by
  intro path
  have hfind := FileTree.find_put h bytes time path
  split at hfind
  · right
    intro u hu n hn
    simp only [FileTree.time?, FileTree.eq_ok_of_toOption hfind, if_pos hpos] at hn
    exact hn ▸ hfresh u hu path
  · cases hold : t.find path with
    | ok node =>
      have hnew := FileTree.eq_ok_of_toOption (hfind.trans (congrArg Except.toOption hold))
      left
      constructor
      · simp only [FileTree.time?, hold, hnew]
        rfl
      · simp [FileTree.textAt, FileTree.readText, FileTree.read, hold, hnew]
    | error e =>
      -- a path that leads nowhere has no time
      right
      intro u _ n hn
      rw [hold] at hfind
      cases hnew : (t.put names (.file bytes time)).find path with
      | ok node => rw [hnew] at hfind; cases hfind
      | error e => simp only [FileTree.time?, hnew] at hn; cases hn

theorem freshTimes_single {path : List String} {old new : List UInt8}
    (h : ({ nodes := [(path, .file old 1)] } : FileTree).node? names ≠ some .directory) :
    FreshTimes [{ nodes := [(path, .file old 1)] }] { nodes := [(path, .file old 1)] }
      (FileTree.put { nodes := [(path, .file old 1)] } names (.file new 2)) := by
  have hpos : (0 : Int) ≤ 2 := by decide
  refine freshTimes_put h hpos ?_
  intro u hu path htime
  rw [mem_singleton.mp hu] at htime
  rcases FileTree.time?_eq_some htime with hclock | ⟨names, bytes, time, hfile, hn⟩
  · cases hclock
  · obtain ⟨-, hfile⟩ := Prod.mk.inj (mem_singleton.mp hfile)
    rw [(FileNode.file.inj hfile).2] at hn
    exact absurd hn (by decide)

/-! ### No stale module -/

/-- Compilation among any other calls, removals and edits. Six uninterrupted steps of a call are a
compilation by the compiler. Whatever happens in between, a call that succeeds returns what a text
compiles to that its file had at some moment from its first to its last step. Calls made together
while the files stay return, each within six turns, the list that compiling the files one after the
other without a cache returns. -/
theorem concurrent_compilation_fresh (o : Options) (styles : Style.Compiler)
    (hroot : o.projectRoot = none) :
    (∀ (cache : ModuleCache) (now : Nat) (t : FileTree) (path : String),
      let call := Call.turns o styles now t 6 { path } cache
      let done := Compiler.compile { options := o, styles, cache } t path
      call.1.result? = some done.1 ∧ call.2 = done.2.cache) ∧
    (∀ s, Reachable o styles s → ∀ call ∈ s.calls, ∀ m, call.result? = some (.ok m) →
      ∃ k t source, call.first ≤ k ∧ k ≤ call.last ∧ s.history[k]? = some t ∧
        t.textAt call.path = .ok source ∧ Module.compile o none styles call.path source = .ok m) ∧
    (∀ s, Reachable o styles s → ∀ (paths : List String) (events : List Event),
      (∀ e ∈ events, e.leavesFiles = true) →
      (∀ k < paths.length, 6 ≤ events.countP (·.isTurn (s.calls.length + k))) →
      (((s.run o styles (paths.map .call ++ events)).calls.drop s.calls.length).take
          paths.length).map Call.result? =
        (Compiler.compileAll { options := o, styles, cache := { ceiling := 0 } } s.files
          paths).1.map some) := by
  refine ⟨?_, ?_, ?_⟩
  · intro cache now t path
    exact turns_eq_compile { options := o, styles, cache } hroot now t path
  · intro s h call hc m hm
    have hsound := h.sound.calls call hc
    rw [Call.Sound] at hsound
    rw [Call.result?] at hm
    split at hm
    next result hp =>
      rw [hp, Option.some.inj hm] at hsound
      rcases hsound with ⟨k, t, -, -, -, -, he⟩ | ⟨-, k, t, hf, hl, ht, hy⟩
      · cases he
      · obtain ⟨source, hsource, hm⟩ := Compiler.ofText_eq_ok hy
        exact ⟨k, t, source, hf, hl, ht, hsource, hm⟩
    next => cases hm
  · intro s h paths events hq ht
    rw [h.batch paths hq ht, compileAll_of_ceiling_zero _ hroot rfl rfl, map_map]
    rfl

/-- A tree with one empty component. -/
def draft : FileTree := { nodes := [(["a.sfc"], .file [] 1)] }

/-- The tree after the component was written over. -/
def revision : FileTree := draft.put ["a.sfc"] (.file [60] 2)

/-- The component is written over right after a call looked at its time. -/
def overtaken : Site :=
  Site.run {} Style.nestedCompiler { files := draft, cache := { ceiling := 1 } }
    [.call "a.sfc", .turn 0, .edit revision, .turn 0, .turn 0, .turn 0, .turn 0, .turn 0]

/-- The overtaken call succeeds, with what a text compiles to that the file had while it ran. -/
theorem concurrent_compilation_fresh_overtaken : Reachable {} Style.nestedCompiler overtaken ∧
    (∃ call ∈ overtaken.calls, ∃ m, call.result? = some (.ok m) ∧
      ∃ k t source, call.first ≤ k ∧ k ≤ call.last ∧ overtaken.history[k]? = some t ∧
        t.textAt call.path = .ok source ∧
        Module.compile {} none Style.nestedCompiler call.path source = .ok m) := by
  have hlooked : Reachable {} Style.nestedCompiler
      (Site.run {} Style.nestedCompiler { files := draft, cache := { ceiling := 1 } }
        [.call "a.sfc", .turn 0]) := ((Reachable.start draft 1).run (by decide)).1
  have hedited := hlooked.step (e := .edit revision) (freshTimes_single (by decide))
  have hturns : ∀ e ∈ replicate 5 (Event.turn 0), e.leavesFiles = true := by decide
  have hreach : Reachable {} Style.nestedCompiler overtaken := by
    have hrun := (hedited.run hturns).1
    simp only [Site.run, foldl_cons, foldl_nil, replicate] at hrun
    simpa only [overtaken, Site.run, foldl_cons, foldl_nil] using hrun
  have hbefore : draft.time? "a.sfc" = some 1 := by rfl
  have hafter : revision.time? "a.sfc" = some 2 := by rfl
  have htext : revision.textAt "a.sfc" = .ok "<" := by rfl
  obtain ⟨m, hm⟩ := Module.exists_of_isOk (show
    (Module.compile {} none Style.nestedCompiler "a.sfc" "<").isOk by decide +kernel)
  have hcalls : overtaken.calls =
      [{ path := "a.sfc", phase := .finished (.ok m), first := 0, last := 1 }] := by
    simp [overtaken, Site.run, Site.step, Call.turn, hbefore, hafter, htext, ModuleCache.get,
      ModuleCache.find?, hm]
  obtain ⟨call, hcall, hresult⟩ : ∃ call ∈ overtaken.calls, call.result? = some (.ok m) := by
    rw [hcalls]
    exact ⟨_, mem_singleton_self _, rfl⟩
  refine ⟨hreach, call, hcall, m, hresult, ?_⟩
  exact (concurrent_compilation_fresh {} Style.nestedCompiler rfl).2.1 overtaken hreach call hcall m
    hresult

end Interleaving

end Componentry
