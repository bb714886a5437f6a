import Componentry.Proofs.Cache.Recency
import Componentry.Proofs.FileTree
import Componentry.Proofs.Json.ReadBack

/-!
# Snapshots restore the cache

A module, with its route, its annotations and its findings, is read back from its JSON value, and its
value from its text. Only the arguments of annotations can be too deep or hold numbers that a text
does not keep.

A snapshot lists the entries of a cache from the least to the most recently used one, without their
stamps. Loading stores them in that order, so a fresh cache ends up with the most recently used ones,
as many as it has room for, in the order they had. Nothing that a cache does depends on its stamps
beyond that order: a restored cache with the same ceiling goes on as the original would have.
-/

namespace Componentry

open List

/-! ### Records in values -/

variable {α : Type} {depth : Nat} {s : Snapshot} {t : FileTree} {path : String}

theorem Json.strings?_strings (xs : List String) : Json.strings? (.strings xs) = some xs := by
  have hread : (xs.map Json.string).mapM Json.string? = some (xs.map id) :=
    mapM_map_eq_some fun _ _ => rfl
  rwa [map_id] at hread

theorem Script.Shape.ofWord?_word (s : Script.Shape) : Script.Shape.ofWord? s.word = some s := by
  cases s <;> rfl

theorem Diagnostic.ofJson?_toJson (d : Diagnostic) : Diagnostic.ofJson? d.toJson = some d := rfl

theorem Annotations.Metadata.ofJson?_toJson (m : Annotations.Metadata) :
    Annotations.Metadata.ofJson? m.toJson = some m := by
  obtain ⟨method, name, kind⟩ := m
  cases kind with
  | event type selector => cases selector <;> rfl
  | timing type delay | unknown args => rfl

theorem Route.ofJson?_toJson (r : Route) : Route.ofJson? r.toJson = some r := by
  obtain ⟨path, methods, paramNames, tag, handlerOnly, redirect, redirectMethod, file⟩ := r
  have hmethods := Json.strings?_strings methods
  have hparams := Json.strings?_strings paramNames
  -- the members of a route without a value are left out
  cases tag <;> cases redirect <;> cases redirectMethod <;> cases file <;>
    simp [ofJson?, toJson, member, Json.fields?, Json.lookup, Json.fieldOr?, hmethods, hparams,
      Json.string?, Json.bool?, Json.maybeString?]

namespace Module

theorem listOf?_array {read : Json → Option α} {write : α → Json} (h : ∀ x, read (write x) = some x)
    (xs : List α) : listOf? read (.array (xs.map write)) = some xs := by
  have hread : (xs.map write).mapM read = some (xs.map id) := mapM_map_eq_some fun x _ => h x
  rwa [map_id] at hread

theorem ofJson?_toJson (m : Module) : ofJson? m.toJson = some m := by
  obtain ⟨code, sourceMap, scopedCss, globalCss, template, tag, shape, annotations, table, route,
    diagnostics⟩ := m
  have hmaybe : ∀ s : Option String, Json.maybeString? (.ofOption .string s) = some s := by
    intro s
    cases s <;> rfl
  have hshape := Script.Shape.ofWord?_word shape
  have hannotations := listOf?_array Annotations.Metadata.ofJson?_toJson annotations
  have htable := listOf?_array Annotations.Metadata.ofJson?_toJson table
  have hroute : maybe? Route.ofJson? (.ofOption Route.toJson route) = some route := by
    cases route with
    | none => rfl
    | some r => exact congrArg (Option.map some) (Route.ofJson?_toJson r)
  have hdiagnostics := listOf?_array Diagnostic.ofJson?_toJson diagnostics
  -- looking up a member finds the value it was written with
  change ((Json.maybeString? (.ofOption .string sourceMap)).bind fun sourceMap =>
    (Json.maybeString? (.ofOption .string scopedCss)).bind fun scopedCss =>
    (Json.maybeString? (.ofOption .string globalCss)).bind fun globalCss =>
    (Json.maybeString? (.ofOption .string tag)).bind fun tag =>
    (Script.Shape.ofWord? shape.word).bind fun shape =>
    (listOf? Annotations.Metadata.ofJson?
      (.array (annotations.map Annotations.Metadata.toJson))).bind fun annotations =>
    (listOf? Annotations.Metadata.ofJson?
      (.array (table.map Annotations.Metadata.toJson))).bind fun table =>
    (maybe? Route.ofJson? (.ofOption Route.toJson route)).bind fun route =>
    (listOf? Diagnostic.ofJson? (.array (diagnostics.map Diagnostic.toJson))).bind fun diagnostics =>
    some (⟨code, sourceMap, scopedCss, globalCss, template, tag, shape, annotations, table, route,
      diagnostics⟩ : Module)) = _
  rw [hmaybe, hmaybe, hmaybe, hmaybe, hshape, hannotations, htable, hroute, hdiagnostics]
  rfl

end Module

/-! ### Values in texts -/

namespace Json

theorem readsBack_ofOption {write : α → Json} {x : Option α}
    (h : ∀ a, x = some a → ReadsBack depth (write a)) : ReadsBack depth (.ofOption write x) := by
  cases x with
  | none => exact .null
  | some a => exact h a rfl

theorem readsBack_array_map {write : α → Json} {xs : List α} (hdepth : 0 < depth)
    (h : ∀ x ∈ xs, ReadsBack depth (write x)) : ReadsBack (depth + 1) (.array (xs.map write)) := by
  refine .array hdepth fun j hj => ?_
  obtain ⟨x, hx, rfl⟩ := mem_map.mp hj
  exact h x hx

end Json

theorem Diagnostic.readsBack_toJson (hdepth : 0 < depth) (d : Diagnostic) :
    Json.ReadsBack (depth + 1) d.toJson := by
  refine .object hdepth ?_
  simp only [forall_mem_cons]
  exact ⟨.string _, .string _, by simp⟩

theorem Route.readsBack_toJson (hdepth : 0 < depth) (r : Route) :
    Json.ReadsBack (depth + 2) r.toJson := by
  have hmember : ∀ name value, ∀ m ∈ member name value, Json.ReadsBack (depth + 1) m.2 := by
    intro name value m hm
    obtain ⟨s, -, rfl⟩ := Option.map_eq_some_iff.mp (Option.mem_toList.mp hm)
    exact .string s
  have hstrings : ∀ xs, Json.ReadsBack (depth + 1) (.strings xs) := fun xs =>
    Json.readsBack_array_map hdepth fun s _ => .string s
  refine .object (Nat.succ_pos depth) ?_
  simp only [forall_mem_append, forall_mem_cons]
  refine ⟨⟨⟨⟨⟨⟨.string _, hstrings _, hstrings _, by simp⟩, hmember _ _⟩, .bool _, by simp⟩, hmember _ _⟩,
    hmember _ _⟩, hmember _ _⟩

namespace Module

theorem readsBack_toJson {m : Module} (hdepth : 0 < depth)
    (h : ∀ a ∈ m.annotations ++ m.table, Json.ReadsBack (depth + 1) a.toJson) :
    Json.ReadsBack (depth + 3) m.toJson := by
  obtain ⟨hannotations, htable⟩ := forall_mem_append.mp h
  refine .object (Nat.succ_pos _) ?_
  simp only [forall_mem_cons]
  exact ⟨.string _, Json.readsBack_ofOption fun s _ => .string s,
    Json.readsBack_ofOption fun s _ => .string s, Json.readsBack_ofOption fun s _ => .string s,
    .string _, Json.readsBack_ofOption fun s _ => .string s, .string _,
    Json.readsBack_array_map (Nat.succ_pos _) hannotations,
    Json.readsBack_array_map (Nat.succ_pos _) htable,
    Json.readsBack_ofOption fun r _ => Route.readsBack_toJson hdepth r,
    Json.readsBack_array_map (Nat.succ_pos _) fun d _ => Diagnostic.readsBack_toJson hdepth d, by simp⟩

end Module

/-! ### The text of a snapshot -/

/-- An entry without the stamp of its last use. -/
def CacheEntry.unstamped (e : CacheEntry) : CacheEntry := { e with lastUse := 0 }

namespace Snapshot

/-- The entry comes back from a text: its time is one of 64 bits, and the annotations of its module
are read back where they stand in a snapshot, below five brackets. -/
def Portable (e : CacheEntry) : Prop :=
  e.time < UInt64.size ∧
    ∀ a ∈ e.payload.annotations ++ e.payload.table, Json.ReadsBack (Json.nestingLimit - 5) a.toJson

theorem entry?_entryJson (e : CacheEntry) : entry? (entryJson e) = some e.unstamped := by
  change ((Module.ofJson? e.payload.toJson).bind fun payload => some _) = _
  rw [Module.ofJson?_toJson]
  rfl

theorem ofJson?_toJson (s : Snapshot) :
    ofJson? s.toJson = some ⟨s.version, s.entries.map CacheEntry.unstamped⟩ := by
  have hentries : (s.entries.map entryJson).mapM entry? = some (s.entries.map CacheEntry.unstamped) :=
    mapM_map_eq_some fun e _ => entry?_entryJson e
  change (((s.entries.map entryJson).mapM entry?).bind fun entries => some _) = _
  rw [hentries]
  rfl

theorem readsBack_entryJson {e : CacheEntry} (h : Portable e) :
    Json.ReadsBack (Json.nestingLimit - 2) (entryJson e) := by
  refine .object (by decide) ?_
  simp only [forall_mem_cons]
  have hpayload := Module.readsBack_toJson (by decide) h.2
  exact ⟨.string _, .string _, .string _, .number (Json.readsBack_whole h.1), hpayload, by simp⟩

theorem readsBack_toJson (hversion : s.version < UInt64.size)
    (hentries : ∀ e ∈ s.entries, Portable e) : Json.ReadsBack Json.nestingLimit s.toJson := by
  refine .object (by decide) ?_
  simp only [forall_mem_cons]
  refine ⟨.number (Json.readsBack_whole hversion), .array (by decide) ?_, by simp⟩
  intro j hj
  obtain ⟨e, he, rfl⟩ := mem_map.mp hj
  exact readsBack_entryJson (hentries e he)

theorem ofText?_text {entries : List CacheEntry} (h : ∀ e ∈ entries, Portable e) :
    ofText? (text ⟨currentVersion, entries⟩) =
      some ⟨currentVersion, entries.map CacheEntry.unstamped⟩ := by
  have hversion : currentVersion < UInt64.size := by decide
  have hread := Json.read?_compact (readsBack_toJson (s := ⟨currentVersion, entries⟩) hversion h)
  rw [ofText?, text, hread, Option.bind_some, ofJson?_toJson]
  rfl

end Snapshot

namespace ModuleCache

theorem readText_save {c : ModuleCache} (h : (c.save t path).1 = .ok ()) :
    (c.save t path).2.readText path = .ok (Snapshot.ofCache c).text := by
  rw [save] at h ⊢
  cases hd : directoryFor t path with
  | error e => simp only [hd] at h; cases h
  | ok t =>
    simp only [hd] at h ⊢
    cases hw : t.write path (Text.utf8 (Snapshot.ofCache c).text.toList) with
    | error e => simp only [hw] at h; cases h
    | ok t' =>
      rw [FileTree.readText_write hw, String.ofList_toList]

end ModuleCache

/-! ### Storing distinct keys -/

namespace RecencyList

variable {ceiling : Nat} {l : RecencyList} (hroom : l.length ≤ ceiling)

include hroom

theorem put_new {h : Holding} (hnew : l.find? h.key = none) :
    l.put ceiling h = (l ++ [h]).drop (l.length + 1 - ceiling) := by
  rw [put, hnew]
  rcases hroom.lt_or_eq with hlt | rfl
  · rw [Nat.sub_eq_zero_of_le hlt]
    simp [Nat.ne_zero_of_lt hlt, hlt]
  · -- the front makes room
    cases l <;> simp

theorem putAll_distinct {hs : RecencyList} (hkeys : Keyed Holding.key (l ++ hs)) :
    l.putAll ceiling hs = (l ++ hs).drop ((l ++ hs).length - ceiling) := by
  induction hs generalizing l with
  | nil =>
    rw [append_nil, Nat.sub_eq_zero_of_le hroom]
    rfl
  | cons h hs ih =>
    have hnew : l.find? h.key = none := Keyed.find?_eq_none_iff.mpr fun b hb =>
      (Keyed.cons_iff.mp (hkeys.perm perm_middle)).1 b (mem_append_left hs hb)
    have hlen : l.length + 1 - ceiling ≤ (l ++ [h]).length := by simp
    change (l.put ceiling h).putAll ceiling hs = _
    rw [append_cons] at hkeys ⊢
    rw [put_new hroom hnew, ih (by simp; omega) (hkeys.sublist ((drop_sublist ..).append_right hs)),
      ← drop_append_of_le_length hlen, drop_drop]
    congr 1
    simp
    omega

end RecencyList

namespace ModuleCache

variable {c d : ModuleCache} {r : RecencyList}

/-! ### Caches that show the same list -/

theorem Shows.byUse_unstamped (h : Shows c r) :
    c.byUse.map CacheEntry.unstamped = r.map (entryAt 0) := by
  obtain ⟨l, hl, rfl⟩ := h
  rw [hl.byUse_eq, map_map]
  refine map_congr_left fun e he => ?_
  rw [CacheEntry.unstamped, Function.comp_apply, entryAt, Holding.ofEntry, ← hl.hashed e he]

/-- The keys, least recently used first. -/
def keys (c : ModuleCache) : List String := c.byUse.map CacheEntry.key

theorem Shows.keys_eq (h : Shows c r) : c.keys = r.map Holding.key := by
  obtain ⟨l, hl, rfl⟩ := h
  rw [keys, hl.byUse_eq, map_map]
  rfl

theorem Shows.size_eq (h : Shows c r) : c.size = r.length := by
  obtain ⟨l, hl, rfl⟩ := h
  rw [hl.size_eq, length_map]

def departures : ModuleCache → List (FileTree × CacheRequest) → List (List String)
  | _, [] => []
  | c, (t, q) :: rest =>
    (c.keys.filter fun key => !(c.answer t q).2.contains key) :: departures (c.answer t q).2 rest

theorem Shows.departures_eq (hc : Shows c r) (hd : Shows d r) (hceiling : c.ceiling = d.ceiling)
    (qs : List (FileTree × CacheRequest)) : c.departures qs = d.departures qs := by
  induction qs generalizing c d r with
  | nil => rfl
  | cons q qs ih =>
    obtain ⟨t, q⟩ := q
    obtain ⟨-, hc'⟩ := hc.answer t q
    obtain ⟨-, hd'⟩ := hd.answer t q
    rw [← hceiling] at hd'
    have hkeys : c.keys = d.keys := by rw [hc.keys_eq, hd.keys_eq]
    have hcontains : ∀ key, (c.answer t q).2.contains key = (d.answer t q).2.contains key := by
      intro key
      rw [hc'.shows.contains_eq, hd'.shows.contains_eq]
    have hrest := ih hc'.shows hd'.shows (by rw [hc'.ceiling, hd'.ceiling, hceiling])
    simp [departures, hkeys, hcontains, hrest]

/-! ### Saving and loading -/

theorem shows_byUse (h : ∃ qs, (answerAll { ceiling := c.ceiling } qs).2 = c) :
    Ranked c c.byUse := by
  obtain ⟨qs, hqs⟩ := h
  obtain ⟨l, hl, -⟩ := ((Shows.empty c.ceiling).answerAll qs).2.shows
  rw [hqs] at hl
  exact hl.byUse_eq.symm ▸ hl

theorem inFile?_save (hportable : ∀ e ∈ c.byUse, Snapshot.Portable e)
    (hsave : (c.save t path).1 = .ok ()) : Snapshot.inFile? (c.save t path).2 path =
      some ⟨Snapshot.currentVersion, c.byUse.map CacheEntry.unstamped⟩ := by
  have htext : ((c.save t path).2.readText path).toOption = some (Snapshot.ofCache c).text :=
    congrArg Except.toOption (readText_save hsave)
  rw [Snapshot.inFile?, htext, Option.bind_some, Snapshot.ofCache, Snapshot.ofText?_text hportable]

/-- Loading a saved snapshot into an empty cache: the entries that there is room for come back in
their order. -/
theorem load_save (hc : Ranked c c.byUse) (hportable : ∀ e ∈ c.byUse, Snapshot.Portable e)
    (hsave : (c.save t path).1 = .ok ()) (M : Nat) :
    (load { ceiling := M } (c.save t path).2 path).1 = c.size ∧
      Shows (load { ceiling := M } (c.save t path).2 path).2
        ((c.byUse.drop (c.size - M)).map Holding.ofEntry) := by
  have hholdings : (c.byUse.map CacheEntry.unstamped).map Holding.ofEntry =
      c.byUse.map Holding.ofEntry := by
    rw [map_map]
    rfl
  have hkeys : Keyed Holding.key (c.byUse.map Holding.ofEntry) := by
    rw [Keyed, map_map]
    exact hc.keyed
  have hstored := ((Shows.empty M).storeAll (c.byUse.map Holding.ofEntry)).shows
  rw [RecencyList.putAll_distinct (Nat.zero_le M) hkeys, nil_append, length_map,
    ← map_drop, ← hc.size_eq] at hstored
  rw [load_eq, inFile?_save hportable hsave]
  simp only [hholdings]
  refine ⟨?_, hstored⟩
  rw [length_map, ← hc.size_eq]

end ModuleCache

def Snapshot.StandsIn (s : Snapshot) (t : FileTree) (path : String) : Prop :=
  ∃ text j, t.readText path = .ok text ∧ Json.read? text = some j ∧ ofJson? j = some s ∧ s.version = 1

theorem Snapshot.inFile?_eq_some_iff : inFile? t path = some s ↔ s.StandsIn t path := by
  constructor
  · intro h
    obtain ⟨text, htext, hs⟩ := Option.bind_eq_some_iff.mp h
    obtain ⟨s', hs', hversion⟩ := Option.bind_eq_some_iff.mp hs
    obtain ⟨j, hj, hread⟩ := Option.bind_eq_some_iff.mp hs'
    split at hversion
    · next hone =>
      cases hversion
      exact ⟨text, j, FileTree.eq_ok_of_toOption htext, hj, hread, eq_of_beq hone⟩
    · cases hversion
  · rintro ⟨text, j, htext, hj, hread, hone⟩
    have hversion : (s.version == currentVersion) = true := beq_of_eq hone
    rw [inFile?, htext]
    change ((Json.read? text).bind ofJson?).bind _ = _
    rw [hj, Option.bind_some, hread, Option.bind_some, if_pos hversion]

namespace ModuleCache

variable {c : ModuleCache}

/-- Snapshots restore the cache. For every cache that requests lead to, with entries that come back
from a text, and every ceiling of a fresh cache: loading the saved snapshot tells how many entries
there were and brings back the most recently used ones, as many as there is room for, unchanged and
in their order. With the ceiling of the original, all later requests get the same answers, drive out
the same keys and leave the same entries in the same order. And whatever the cache and the file,
loading tells the number of entries of a snapshot of version 1, and leaves the cache alone where
there is none. -/
theorem snapshot_restores (hreach : ∃ qs, (answerAll { ceiling := c.ceiling } qs).2 = c)
    (hportable : ∀ e ∈ c.entries, Snapshot.Portable e) {t : FileTree} {path : String}
    (hsave : (c.save t path).1 = .ok ()) (M : Nat) :
    let loaded := load { ceiling := M } (c.save t path).2 path
    (loaded.1 = c.size ∧
      loaded.2.size = min c.size M ∧
      loaded.2.byUse.map CacheEntry.unstamped =
        (c.byUse.drop (c.size - M)).map CacheEntry.unstamped ∧
      (M = c.ceiling → ∀ qs, (loaded.2.answerAll qs).1 = (c.answerAll qs).1 ∧
        loaded.2.departures qs = c.departures qs ∧
        (loaded.2.answerAll qs).2.byUse.map CacheEntry.unstamped =
          (c.answerAll qs).2.byUse.map CacheEntry.unstamped)) ∧
    ∀ (d : ModuleCache) (u : FileTree) (file : String),
      (∀ s : Snapshot, s.StandsIn u file → (d.load u file).1 = s.entries.length) ∧
      ((∀ s : Snapshot, ¬ s.StandsIn u file) → d.load u file = (0, d)) := by
  have hc := shows_byUse hreach
  have hportable : ∀ e ∈ c.byUse, Snapshot.Portable e := fun e he =>
    hportable e (hc.perm.mem_iff.mp he)
  obtain ⟨hcount, hshows⟩ := load_save hc hportable hsave M
  have hsize := hc.size_eq
  refine ⟨⟨hcount, ?_, ?_, ?_⟩, ?_⟩
  · rw [hshows.size_eq, length_map, length_drop, ← hsize]
    omega
  · rw [hshows.byUse_unstamped, map_map]
    refine map_congr_left fun e he => ?_
    rw [Function.comp_apply, entryAt, Holding.ofEntry, CacheEntry.unstamped,
      ← hc.hashed e (mem_of_mem_drop he)]
  · intro hM qs
    have hall : c.size - M = 0 := by
      have hroom := hc.room
      omega
    rw [hall, drop_zero] at hshows
    have horiginal : Shows c (c.byUse.map Holding.ofEntry) := ⟨c.byUse, hc, rfl⟩
    have hceiling : (load { ceiling := M } (c.save t path).2 path).2.ceiling = c.ceiling := by
      rw [← hM]
      exact ((Shows.empty M).answer (c.save t path).2 (.load path)).2.ceiling
    obtain ⟨hanswers, ⟨hafter, -⟩⟩ := hshows.answerAll qs
    obtain ⟨hanswers', ⟨hafter', -⟩⟩ := horiginal.answerAll qs
    rw [hceiling] at hanswers hafter
    refine ⟨hanswers.trans hanswers'.symm, hshows.departures_eq horiginal hceiling qs, ?_⟩
    rw [hafter.byUse_unstamped, hafter'.byUse_unstamped]
  · intro d u file
    constructor
    · intro s hs
      rw [load_eq, Snapshot.inFile?_eq_some_iff.mpr hs]
    · intro hnone
      have hfile : Snapshot.inFile? u file = none := by
        cases hs : Snapshot.inFile? u file with
        | none => rfl
        | some s => exact absurd (Snapshot.inFile?_eq_some_iff.mp hs) (hnone s)
      rw [load_eq, hfile]

def delaying : Module :=
  { code := "c", table := [⟨"save", "debounce", .timing "debounce" 200⟩] }

/-- A cache with room for two, after three modules were stored. -/
def crowded : ModuleCache :=
  (answerAll { ceiling := 2 }
    [({}, .setAt "a" "a.sfc" 1 { code := "a" }), ({}, .setAt "b" "b.sfc" 2 { code := "b" }),
      ({}, .setAt "c" "c.sfc" 3 delaying)]).2

/-- Of the two modules that are left, the one used last comes back into a cache with room for one. -/
theorem snapshot_restores_crowded :
    (∃ qs, (answerAll { ceiling := crowded.ceiling } qs).2 = crowded) ∧
    (∀ e ∈ crowded.entries, Snapshot.Portable e) ∧
    (crowded.save {} "cache.json").1 = .ok () ∧
    (load { ceiling := 1 } (crowded.save {} "cache.json").2 "cache.json").1 = 2 ∧
    (load { ceiling := 1 } (crowded.save {} "cache.json").2 "cache.json").2.byUse.map
        CacheEntry.unstamped = (crowded.byUse.drop 1).map CacheEntry.unstamped := by
  have hreach : ∃ qs, (answerAll { ceiling := crowded.ceiling } qs).2 = crowded := ⟨_, rfl⟩
  have hentries : crowded.entries = [entryAt 3 ⟨"c", "c.sfc", 3, delaying⟩,
      entryAt 2 ⟨"b", "b.sfc", 2, { code := "b" }⟩] := rfl
  have hportable : ∀ e ∈ crowded.entries, Snapshot.Portable e := by
    rw [hentries]
    simp only [forall_mem_cons]
    refine ⟨⟨by decide, ?_⟩, ⟨by decide, fun a ha => absurd ha not_mem_nil⟩, by simp⟩
    intro a ha
    obtain rfl : a = ⟨"save", "debounce", .timing "debounce" 200⟩ := mem_singleton.mp ha
    refine .object (by decide) ?_
    simp only [Annotations.Kind.members, cons_append, nil_append, forall_mem_cons]
    have hdelay : Json.ReadsBack (Json.nestingLimit - 6) (.nat 200) :=
      .number (Json.readsBack_whole (by decide))
    exact ⟨.string _, .string _, .string _, .string _, hdelay, by simp⟩
  have hsave : ∀ c : ModuleCache, (c.save {} "cache.json").1 = .ok () := by
    intro c
    have hdir : directoryFor {} "cache.json" = .ok {} := rfl
    have hend : "cache.json".endsWith "/" = false := by decide +kernel
    simp only [save, hdir, FileTree.write, FileTree.writeAt, hend]
    rfl
  obtain ⟨⟨hcount, -, hrestored, -⟩, -⟩ := snapshot_restores hreach hportable (hsave crowded) 1
  exact ⟨hreach, hportable, hsave crowded, hcount, hrestored⟩

end ModuleCache

end Componentry
