import Componentry.Project.Cache
import Componentry.Proofs.Keyed

/-!
# The module cache as a recency list

A recency list holds stored modules from the least to the most recently used one and knows no
stamps. Serving or storing a module moves it to the end, an outdated one is taken out, and a new key
in a full list costs the module at the front. The cache keeps its entries in no particular order and
finds the least stamp when it needs room; ordered by stamp, its entries are the recency list after
every sequence of requests, and its answers are those of the list. Its counters account for every
request and for every key that was ever stored.
-/

namespace Componentry

open List

/-- A stored module as a recency list keeps it: all of its entry but stamp and digest. -/
structure Holding where
  /-- The key it is stored under. -/
  key : String
  filePath : String
  /-- The modification time of the file. -/
  time : Nat
  payload : Module

/-- What a recency list keeps of an entry. -/
def Holding.ofEntry (e : CacheEntry) : Holding := ⟨e.key, e.filePath, e.time, e.payload⟩

/-- Stored modules, least recently used first. -/
abbrev RecencyList := List Holding

namespace RecencyList

/-- The module stored under a key. -/
def find? (l : RecencyList) (key : String) : Option Holding := List.find? (fun h => h.key == key) l

def without (l : RecencyList) (key : String) : RecencyList := l.filter fun h => h.key != key

/-- Asks for a module: one whose file still has its time moves to the end, any other is removed. -/
def get (l : RecencyList) (key : String) (present : Option Nat) : Option Module × RecencyList :=
  match l.find? key with
  | none => (none, l)
  | some h =>
    if present = some h.time then (some h.payload, l.without key ++ [h]) else (none, l.without key)

/-- Stores a module at the end; a new key in a full list drops the module at the front. -/
def put (ceiling : Nat) (l : RecencyList) (h : Holding) : RecencyList :=
  if ceiling = 0 then l
  else if (l.find? h.key).isSome then l.without h.key ++ [h]
  else if l.length < ceiling then l ++ [h]
  else l.tail ++ [h]

/-- Stores modules one after the other. -/
def putAll (ceiling : Nat) (l : RecencyList) (hs : List Holding) : RecencyList :=
  hs.foldl (put ceiling) l

end RecencyList

/-- What a cache is asked to do. -/
inductive CacheRequest where
  /-- Serve the module of a key if its file has not changed. -/
  | get (key path : String)
  /-- Store a module with the time its file has now, or zero if it has none. -/
  | set (key path : String) (payload : Module)
  /-- Store a module with a time. -/
  | setAt (key path : String) (time : Nat) (payload : Module)
  | invalidate (key : String)
  | clear
  | load (path : String)

def CacheRequest.isGet : CacheRequest → Bool
  | .get _ _ => true
  | _ => false

/-- What comes back from a request. -/
inductive CacheAnswer where
  /-- The module, if it was served. -/
  | served (m : Option Module)
  /-- Whether there was something to remove. -/
  | removed (found : Bool)
  /-- How many entries a snapshot held. -/
  | loaded (n : Nat)
  | done

/-- The snapshot in a file, if it holds one of the known version. -/
def Snapshot.inFile? (t : FileTree) (path : String) : Option Snapshot :=
  (t.readText path).toOption.bind Snapshot.ofText?

/-- The recency list after a request, among the files as they are at that moment. -/
def RecencyList.answer (ceiling : Nat) (l : RecencyList) (t : FileTree) :
    CacheRequest → CacheAnswer × RecencyList
  | .get key path => ((.served (l.get key (t.time? path)).1), (l.get key (t.time? path)).2)
  | .set key path payload => (.done, l.put ceiling ⟨key, path, (t.time? path).getD 0, payload⟩)
  | .setAt key path time payload => (.done, l.put ceiling ⟨key, path, time, payload⟩)
  | .invalidate key => (.removed (l.find? key).isSome, l.without key)
  | .clear => (.done, [])
  | .load path =>
    match Snapshot.inFile? t path with
    | some s => (.loaded s.entries.length, l.putAll ceiling (s.entries.map Holding.ofEntry))
    | none => (.loaded 0, l)

/-- The recency list after requests, each among the files of its own moment. -/
def RecencyList.answerAll (ceiling : Nat) :
    RecencyList → List (FileTree × CacheRequest) → List CacheAnswer × RecencyList
  | l, [] => ([], l)
  | l, (t, r) :: rest =>
    let (a, l) := l.answer ceiling t r
    let (as, l) := RecencyList.answerAll ceiling l rest
    (a :: as, l)

namespace ModuleCache

/-- The cache after a request, among the files as they are at that moment. -/
def answer (c : ModuleCache) (t : FileTree) : CacheRequest → CacheAnswer × ModuleCache
  | .get key path => (.served (c.get key (t.time? path)).1, (c.get key (t.time? path)).2)
  | .set key path payload => (.done, c.setNow key t path payload)
  | .setAt key path time payload => (.done, c.set key path time payload)
  | .invalidate key => (.removed (c.invalidate key).1, (c.invalidate key).2)
  | .clear => (.done, c.clear)
  | .load path => (.loaded (c.load t path).1, (c.load t path).2)

/-- The cache after requests, each among the files of its own moment. -/
def answerAll : ModuleCache → List (FileTree × CacheRequest) → List CacheAnswer × ModuleCache
  | c, [] => ([], c)
  | c, (t, r) :: rest =>
    let (a, c) := c.answer t r
    let (as, c) := answerAll c rest
    (a :: as, c)

/-- Stores what a recency list would keep. -/
def store (c : ModuleCache) (h : Holding) : ModuleCache := c.set h.key h.filePath h.time h.payload

/-- One if storing a module brings in a key that was not there. -/
def introduces (c : ModuleCache) (h : Holding) : Nat :=
  if !c.contains h.key && (c.store h).contains h.key then 1 else 0

/-- How many keys come in when modules are stored one after the other. -/
def introducesAll : ModuleCache → List Holding → Nat
  | _, [] => 0
  | c, h :: rest => c.introduces h + introducesAll (c.store h) rest

/-- How many keys a request brings in. -/
def introducedBy (c : ModuleCache) (t : FileTree) : CacheRequest → Nat
  | .set key path payload => c.introduces ⟨key, path, (t.time? path).getD 0, payload⟩
  | .setAt key path time payload => c.introduces ⟨key, path, time, payload⟩
  | .load path =>
    match Snapshot.inFile? t path with
    | some s => c.introducesAll (s.entries.map Holding.ofEntry)
    | none => 0
  | _ => 0

/-- How many keys requests bring in. -/
def introducedByAll : ModuleCache → List (FileTree × CacheRequest) → Nat
  | _, [] => 0
  | c, (t, r) :: rest => c.introducedBy t r + introducedByAll (c.answer t r).2 rest

/-! ### Entries in the order of their stamps -/

/-- A list of the entries of a cache in the order of their stamps, with what every cache keeps: keys
differ, no stamp is ahead of the last one, digests are those of the code, and the ceiling holds. -/
structure Ranked (c : ModuleCache) (l : List CacheEntry) : Prop where
  /-- The list holds the entries. -/
  perm : l.Perm c.entries
  ordered : l.Pairwise fun a b => a.lastUse < b.lastUse
  keyed : Keyed CacheEntry.key l
  stamped : ∀ e ∈ l, e.lastUse ≤ c.stamp
  hashed : ∀ e ∈ l, e.contentHash = Digest.ofText e.payload.code
  room : l.length ≤ c.ceiling

namespace Ranked

variable {c : ModuleCache} {l : List CacheEntry} {e : CacheEntry} {key : String}

theorem empty (ceiling : Nat) : Ranked { ceiling } [] :=
  ⟨.nil, .nil, .nil, by simp, by simp, Nat.zero_le _⟩

variable (h : Ranked c l)

include h

theorem stamps_keyed : Keyed CacheEntry.lastUse l :=
  pairwise_map.mpr (h.ordered.imp Nat.ne_of_lt)

/-- Strict order leaves only one such list: the entries as the cache sorts them. -/
theorem byUse_eq : c.byUse = l := by
  have hp : c.byUse.Perm l := (mergeSort_perm ..).trans h.perm.symm
  have hs : c.byUse.Pairwise fun a b => a.lastUse ≤ b.lastUse := by
    have hm : c.byUse.Pairwise fun a b => decide (a.lastUse ≤ b.lastUse) = true := by
      apply pairwise_mergeSort
      · simp only [decide_eq_true_eq]
        omega
      · simp only [Bool.or_eq_true, decide_eq_true_eq]
        omega
    exact hm.imp of_decide_eq_true
  refine hp.eq_of_pairwise ?_ hs (h.ordered.imp Nat.le_of_lt)
  intro a b ha hb hab hba
  exact h.stamps_keyed.eq_of_mem (hp.mem_iff.mp ha) hb (hab.antisymm hba)

theorem size_eq : c.size = l.length := h.perm.length_eq.symm

theorem find?_eq (key : String) :
    c.find? key = l.find? fun e => e.key == key := (h.keyed.find?_perm h.perm).symm

theorem contains_iff (key : String) : c.contains key = true ↔ ∃ e ∈ l, e.key = key := by
  rw [contains, h.find?_eq]
  simp

theorem contains_eq_false (hk : c.contains key = false) : ∀ e ∈ l, e.key ≠ key := by
  intro e he hek
  rw [(h.contains_iff key).mpr ⟨e, he, hek⟩] at hk
  cases hk

theorem size_without (hk : c.contains key = true) :
    (ModuleCache.without key c.entries).length + 1 = c.size := by
  obtain ⟨e, he, hek⟩ := (h.contains_iff key).mp hk
  exact (h.keyed.perm h.perm).length_filter (h.perm.mem_iff.mp he) hek

/-- Without a key the rest keeps its order; counters do not matter. -/
theorem without (key : String) (counts : CacheCounts) :
    Ranked { c with entries := without key c.entries, counts } (l.filter fun e => e.key != key) where
  perm := h.perm.filter _
  ordered := h.ordered.filter _
  keyed := h.keyed.sublist filter_sublist
  stamped e he := h.stamped e (mem_of_mem_filter he)
  hashed e he := h.hashed e (mem_of_mem_filter he)
  room := (length_filter_le ..).trans h.room

theorem push (e : CacheEntry) (he : ∀ a ∈ l, a.key ≠ e.key) (hr : l.length < c.ceiling)
    (hd : e.contentHash = Digest.ofText e.payload.code) (hs : e.lastUse = c.stamp + 1)
    (counts : CacheCounts) :
    Ranked { c with stamp := c.stamp + 1, entries := e :: c.entries, counts } (l ++ [e]) where
  perm := (perm_append_singleton e l).trans (h.perm.cons e)
  ordered := by
    refine pairwise_append.mpr ⟨h.ordered, pairwise_singleton .., ?_⟩
    intro a ha b hb
    rw [mem_singleton.mp hb, hs]
    exact Nat.lt_succ_of_le (h.stamped a ha)
  keyed := h.keyed.snoc he
  stamped a ha := by
    rcases mem_append.mp ha with ha | ha
    · exact Nat.le_succ_of_le (h.stamped a ha)
    · rw [mem_singleton.mp ha]
      exact hs.le
  hashed a ha := by
    rcases mem_append.mp ha with ha | ha
    · exact h.hashed a ha
    · rw [mem_singleton.mp ha, hd]
  room := by
    rw [length_append]
    exact hr

theorem renew (e : CacheEntry) (hk : c.contains e.key = true)
    (hd : e.contentHash = Digest.ofText e.payload.code) (hs : e.lastUse = c.stamp + 1)
    (counts : CacheCounts) :
    Ranked { c with
      stamp := c.stamp + 1, entries := e :: ModuleCache.without e.key c.entries, counts }
      ((l.filter fun a => a.key != e.key) ++ [e]) := by
  have hw := h.without e.key counts
  have hlt : (l.filter fun a => a.key != e.key).length < c.ceiling := by
    rw [← hw.size_eq]
    exact (Nat.lt_of_succ_le (Nat.le_of_eq (h.size_without hk))).trans_le
      (h.size_eq ▸ h.room)
  exact hw.push e (by simp) hlt hd hs counts

end Ranked

/-! ### Making room -/

theorem oldest?_spec (e : CacheEntry) (es : List CacheEntry) :
    ∃ f ∈ e :: es, oldest? (e :: es) = some f ∧ ∀ x ∈ e :: es, f.lastUse ≤ x.lastUse := by
  induction es generalizing e with
  | nil => exact ⟨e, (.head _), rfl, by simp⟩
  | cons a es ih =>
    obtain ⟨f, hm, hf, hle⟩ := ih a
    rw [oldest?, hf]
    by_cases hef : e.lastUse ≤ f.lastUse
    · refine ⟨e, (.head _), if_pos hef, forall_mem_cons.mpr ⟨le_rfl, fun x hx => ?_⟩⟩
      exact hef.trans (hle x hx)
    · refine ⟨f, .tail _ hm, if_neg hef, forall_mem_cons.mpr ⟨?_, hle⟩⟩
      exact Nat.le_of_not_le hef

variable {c : ModuleCache} {e : CacheEntry} {l : List CacheEntry} {r : RecencyList}

namespace Ranked

theorem evict_eq (h : Ranked c (e :: l)) : c.evict = { c with
      entries := ModuleCache.without e.key c.entries
      counts := { c.counts with evictions := c.counts.evictions + 1 } } := by
  have hne : c.entries ≠ [] := fun hn => by simpa [hn] using h.perm.length_eq
  obtain ⟨a, es, hes⟩ := exists_cons_of_ne_nil hne
  obtain ⟨f, hm, hf, hle⟩ := oldest?_spec a es
  rw [← hes] at hm hf hle
  rcases mem_cons.mp (h.perm.mem_iff.mpr hm) with rfl | hfl
  · rw [evict, hf]
  · have hlt := rel_of_pairwise_cons h.ordered hfl
    exact absurd (hle e (h.perm.mem_iff.mp (.head _))) hlt.not_ge

theorem evict (h : Ranked c (e :: l)) : Ranked c.evict l := by
  have hl : (e :: l).filter (fun x => x.key != e.key) = l := by
    rw [filter_cons_of_neg (by simp)]
    exact Keyed.filter_eq_self (Keyed.cons_iff.mp h.keyed).1
  rw [h.evict_eq]
  simpa only [hl] using h.without e.key { c.counts with evictions := c.counts.evictions + 1 }

end Ranked

theorem makeRoom_of_lt (h : c.size < c.ceiling) (n : Nat) : makeRoom n c = c := by
  cases n with
  | zero => rfl
  | succ n => rw [makeRoom, if_neg h.not_ge]

theorem makeRoom_of_full {l : List CacheEntry} (h : Ranked c (e :: l)) (hf : c.ceiling ≤ c.size) :
    makeRoom c.size c = c.evict := by
  have hs := h.size_eq
  have hv := h.evict.size_eq
  have hr := h.room
  have hc : c.evict.ceiling = c.ceiling := by rw [h.evict_eq]
  rw [length_cons] at hs hr
  rw [hs, makeRoom, if_pos hf]
  exact makeRoom_of_lt (by omega) _

/-! ### Storing -/

def entryAt (stamp : Nat) (h : Holding) : CacheEntry :=
  { key := h.key, filePath := h.filePath, contentHash := Digest.ofText h.payload.code,
    time := h.time, payload := h.payload, lastUse := stamp }

theorem store_of_ceiling_zero (hc : c.ceiling = 0) (h : Holding) : c.store h = c := by
  simp [store, set, hc]

theorem store_of_contains {h : Holding} (hc : c.ceiling ≠ 0) (hk : c.contains h.key = true) :
    c.store h = { c with
      stamp := c.stamp + 1
      entries := entryAt (c.stamp + 1) h :: without h.key c.entries } := by
  simp [store, set, hc, hk, entryAt]

theorem store_of_new {h : Holding} (hc : c.ceiling ≠ 0) (hk : c.contains h.key = false)
    {d : ModuleCache} (hd : makeRoom c.size c = d) (hn : ∀ e ∈ d.entries, e.key ≠ h.key) :
    c.store h = { d with
      stamp := d.stamp + 1, entries := entryAt (d.stamp + 1) h :: d.entries } := by
  have hw : without h.key d.entries = d.entries := Keyed.filter_eq_self hn
  simp [store, set, hc, hk, hd, hw, entryAt]

/-- How many keys the entries and the counters know of. -/
def accounted (c : ModuleCache) : Nat :=
  c.size + c.counts.evictions + c.counts.invalidations

/-- The rank of a cache after storing a module: a key that is there moves to the end, a new one
comes to the end, at the cost of the first entry if the cache is full. Only a new key adds to the
account. -/
theorem Ranked.store (h : Ranked c l) (hc : c.ceiling ≠ 0) (x : Holding) : Ranked (c.store x)
      ((if c.contains x.key then l.filter fun e => e.key != x.key
        else if l.length < c.ceiling then l else l.tail) ++ [entryAt (c.stamp + 1) x]) ∧
    (c.store x).accounted = c.accounted + if c.contains x.key then 0 else 1 := by
  cases hk : c.contains x.key with
  | true =>
    have hw := h.size_without hk
    rw [store_of_contains hc hk]
    refine ⟨h.renew (entryAt (c.stamp + 1) x) hk rfl rfl c.counts, ?_⟩
    exact congrArg (· + _ + _) hw
  | false =>
    have hn := h.contains_eq_false hk
    simp only [Bool.false_eq_true, if_false]
    by_cases hr : l.length < c.ceiling
    · have hm := makeRoom_of_lt (h.size_eq ▸ hr) c.size
      rw [store_of_new hc hk hm fun e he => hn e (h.perm.mem_iff.mpr he), if_pos hr]
      refine ⟨h.push (entryAt (c.stamp + 1) x) hn hr rfl rfl c.counts, ?_⟩
      simp only [accounted, size, length_cons]
      omega
    · cases l with
      | nil => exact absurd (Nat.pos_of_ne_zero hc) hr
      | cons e l =>
        have hm := makeRoom_of_full h (h.size_eq ▸ not_lt.mp hr)
        have hw := h.size_without ((h.contains_iff e.key).mpr ⟨e, (.head _), rfl⟩)
        have hv := h.evict
        have hnl := (forall_mem_cons.mp hn).2
        rw [h.evict_eq] at hm hv
        rw [store_of_new hc hk hm fun a ha => hnl a (hv.perm.mem_iff.mpr ha), if_neg hr]
        refine ⟨hv.push (entryAt (c.stamp + 1) x) hnl h.room rfl rfl _, ?_⟩
        simp only [accounted, size, length_cons] at hw ⊢
        omega

theorem store_keeps {α : Type} {p : ModuleCache → α} (hp : ∀ (c : ModuleCache) (stamp : Nat)
      (entries : List CacheEntry) (evictions : Nat),
      p { c with stamp, entries, counts := { c.counts with evictions } } = p c) (c : ModuleCache)
    (h : Holding) : p (c.store h) = p c := by
  have hevict (c : ModuleCache) : p c.evict = p c := by
    rw [evict]
    split
    · rfl
    · exact hp c ..
  have hroom (n : Nat) (c : ModuleCache) : p (makeRoom n c) = p c := by
    induction n generalizing c with
    | zero => rfl
    | succ n ih =>
      rw [makeRoom]
      split
      · rw [ih, hevict]
      · rfl
  rw [store, set]
  split
  · rfl
  · split
    · exact hp c ..
    · exact (hp (makeRoom c.size c) ..).trans (hroom _ c)

/-! ### Counting -/

/-- How many requests for modules the counters know of. -/
def asked (c : ModuleCache) : Nat := c.counts.hits + c.counts.misses

theorem Ranked.contains_store (h : Ranked c l) (hc : c.ceiling ≠ 0) (x : Holding) :
    (c.store x).contains x.key = true :=
  ((h.store hc x).1.contains_iff x.key).mpr ⟨_, mem_append_right _ (.head _), rfl⟩

theorem Ranked.accounted_store (h : Ranked c l) (x : Holding) :
    (c.store x).accounted = c.accounted + c.introduces x := by
  by_cases hc : c.ceiling = 0
  · have hi : c.introduces x = 0 := by simp [introduces, store_of_ceiling_zero hc]
    rw [hi, store_of_ceiling_zero hc, Nat.add_zero]
  · rw [(h.store hc x).2]
    cases hk : c.contains x.key with
    | true => simp [introduces, hk]
    | false => simp [introduces, hk, h.contains_store hc x]

/-! ### Every operation in step with the list -/

/-- A cache shows a recency list: that list holds the entries in the order of their stamps. -/
def Shows (c : ModuleCache) (r : RecencyList) : Prop :=
  ∃ l, Ranked c l ∧ l.map Holding.ofEntry = r

/-- A cache comes to show a recency list, with the ceiling it had, and its counters know of so many keys
and requests more. -/
structure Turns (c d : ModuleCache) (r : RecencyList) (keys requests : Nat) : Prop where
  shows : Shows d r
  ceiling : d.ceiling = c.ceiling
  accounted : d.accounted = c.accounted + keys
  asked : d.asked = c.asked + requests

theorem Turns.trans {d e : ModuleCache} {r' : RecencyList} {i j n m : Nat} (h : Turns c d r i n)
    (h' : Turns d e r' j m) : Turns c e r' (i + j) (n + m) where
  shows := h'.shows
  ceiling := h'.ceiling.trans h.ceiling
  accounted := by rw [h'.accounted, h.accounted, Nat.add_assoc]
  asked := by rw [h'.asked, h.asked, Nat.add_assoc]

theorem find?_map_ofEntry (l : List CacheEntry) (key : String) :
    RecencyList.find? (l.map Holding.ofEntry) key =
      (l.find? fun e => e.key == key).map Holding.ofEntry := find?_map

theorem without_map_ofEntry (l : List CacheEntry) (key : String) :
    RecencyList.without (l.map Holding.ofEntry) key =
      (l.filter fun e => e.key != key).map Holding.ofEntry := filter_map

theorem restore_eq (c : ModuleCache) (s : Snapshot) :
    c.restore s = (s.entries.map Holding.ofEntry).foldl store c := by
  rw [foldl_map]
  rfl

theorem load_eq (c : ModuleCache) (t : FileTree) (path : String) :
    c.load t path = match Snapshot.inFile? t path with
      | some s => (s.entries.length, (s.entries.map Holding.ofEntry).foldl store c)
      | none => (0, c) := by
  rw [load, Snapshot.inFile?]
  cases (t.readText path).toOption.bind Snapshot.ofText? with
  | none => rfl
  | some s => simp [restore_eq]

namespace Shows

theorem empty (ceiling : Nat) : Shows { ceiling } [] := ⟨[], .empty ceiling, rfl⟩

theorem clear (c : ModuleCache) : Turns c c.clear [] 0 0 := by
  refine ⟨⟨[], ⟨.nil, .nil, .nil, ?_, ?_, Nat.zero_le _⟩, rfl⟩, rfl, ?_, rfl⟩
  · simp
  · simp
  · simp only [ModuleCache.clear, accounted, size, length_nil]
    omega

theorem serve (hl : Ranked c l) (he : e ∈ l) : Shows (c.serve e)
      (RecencyList.without (l.map Holding.ofEntry) e.key ++ [Holding.ofEntry e]) := by
  refine ⟨_, hl.renew { e with lastUse := c.stamp + 1 } ((hl.contains_iff e.key).mpr ⟨e, he, rfl⟩)
    (hl.hashed e he) rfl _, ?_⟩
  rw [map_append, without_map_ofEntry]
  rfl

variable {r : RecencyList} (h : Shows c r)

include h

theorem contains_eq (key : String) : c.contains key = (r.find? key).isSome := by
  obtain ⟨l, hl, rfl⟩ := h
  rw [find?_map_ofEntry, contains, hl.find?_eq, Option.isSome_map]

theorem store (x : Holding) :
    Turns c (c.store x) (r.put c.ceiling x) (c.introduces x) 0 := by
  have hk := h.contains_eq x.key
  obtain ⟨l, hl, rfl⟩ := h
  refine ⟨?_, store_keeps (fun _ _ _ _ => rfl) c x, hl.accounted_store x,
    store_keeps (fun _ _ _ _ => rfl) c x⟩
  by_cases hc : c.ceiling = 0
  · rw [store_of_ceiling_zero hc, RecencyList.put, if_pos hc]
    exact ⟨l, hl, rfl⟩
  · refine ⟨_, (hl.store hc x).1, ?_⟩
    rw [RecencyList.put, ← hk, length_map, without_map_ofEntry, map_append]
    split
    · rfl
    · split
      · rfl
      · rw [map_tail]
        rfl

theorem storeAll (xs : List Holding) :
    Turns c (xs.foldl ModuleCache.store c) (r.putAll c.ceiling xs) (c.introducesAll xs) 0 := by
  induction xs generalizing c r with
  | nil => exact ⟨h, rfl, rfl, rfl⟩
  | cons x xs ih =>
    have hx := h.store x
    have hxs := ih hx.shows
    rw [hx.ceiling] at hxs
    exact hx.trans hxs

theorem without (key : String) (counts : CacheCounts) :
    Shows { c with entries := ModuleCache.without key c.entries, counts } (r.without key) := by
  obtain ⟨l, hl, rfl⟩ := h
  exact ⟨_, hl.without key counts, (without_map_ofEntry l key).symm⟩

theorem get (key : String) (present : Option Nat) :
    (c.get key present).1 = (r.get key present).1 ∧
      Turns c (c.get key present).2 (r.get key present).2 0 1 := by
  have hw := h.without key
  obtain ⟨l, hl, rfl⟩ := h
  cases hf : l.find? fun e => e.key == key with
  | none =>
    rw [get, hl.find?_eq, RecencyList.get, find?_map_ofEntry, hf]
    exact ⟨rfl, ⟨l, ⟨hl.perm, hl.ordered, hl.keyed, hl.stamped, hl.hashed, hl.room⟩, rfl⟩, rfl, rfl,
      (Nat.add_assoc ..).symm⟩
  | some e =>
    obtain ⟨he, rfl⟩ := hl.keyed.find?_eq_some_iff.mp hf
    have hs := hl.size_without ((hl.contains_iff e.key).mpr ⟨e, he, rfl⟩)
    rw [get, hl.find?_eq, RecencyList.get, find?_map_ofEntry, hf]
    simp only [beq_iff_eq, Option.map_some]
    by_cases hp : present = some e.time
    · rw [if_pos hp, if_pos (show present = some (Holding.ofEntry e).time from hp)]
      refine ⟨rfl, serve hl he, rfl, ?_, ?_⟩ <;>
        simp only [ModuleCache.serve, accounted, asked, size, length_cons] at hs ⊢ <;> omega
    · rw [if_neg hp, if_neg (show ¬present = some (Holding.ofEntry e).time from hp)]
      refine ⟨rfl, hw _, rfl, ?_, ?_⟩ <;>
        simp only [discard, accounted, asked, size] at hs ⊢ <;> omega

theorem invalidate (key : String) : (c.invalidate key).1 = (r.find? key).isSome ∧
    Turns c (c.invalidate key).2 (r.without key) 0 0 := by
  have hk := h.contains_eq key
  rw [ModuleCache.invalidate, ← hk]
  cases hc : c.contains key with
  | true =>
    refine ⟨rfl, h.without key _, rfl, ?_, rfl⟩
    obtain ⟨l, hl, -⟩ := h
    have hs := hl.size_without hc
    simp only [if_true, accounted, size] at hs ⊢
    omega
  | false =>
    refine ⟨rfl, ?_, rfl, rfl, rfl⟩
    obtain ⟨l, hl, rfl⟩ := h
    have hn := hl.contains_eq_false hc
    refine ⟨l, hl, ?_⟩
    rw [without_map_ofEntry, Keyed.filter_eq_self hn]

theorem answer (t : FileTree) (q : CacheRequest) : (c.answer t q).1 = (r.answer c.ceiling t q).1 ∧
    Turns c (c.answer t q).2 (r.answer c.ceiling t q).2 (c.introducedBy t q) q.isGet.toNat := by
  cases q with
  | get key path =>
    obtain ⟨ha, hs⟩ := h.get key (t.time? path)
    exact ⟨congrArg CacheAnswer.served ha, hs⟩
  | set | setAt => exact ⟨rfl, h.store ⟨_, _, _, _⟩⟩
  | invalidate key =>
    obtain ⟨ha, hs⟩ := h.invalidate key
    exact ⟨congrArg CacheAnswer.removed ha, hs⟩
  | clear => exact ⟨rfl, clear c⟩
  | load path =>
    simp only [ModuleCache.answer, RecencyList.answer, introducedBy, load_eq]
    cases Snapshot.inFile? t path with
    | none => exact ⟨rfl, h, rfl, rfl, rfl⟩
    | some s => exact ⟨rfl, h.storeAll _⟩

theorem answerAll (qs : List (FileTree × CacheRequest)) :
    (c.answerAll qs).1 = (r.answerAll c.ceiling qs).1 ∧
      Turns c (c.answerAll qs).2 (r.answerAll c.ceiling qs).2 (c.introducedByAll qs)
        (qs.countP fun q => q.2.isGet) := by
  induction qs generalizing c r with
  | nil => exact ⟨rfl, h, rfl, rfl, rfl⟩
  | cons q qs ih =>
    obtain ⟨t, q⟩ := q
    obtain ⟨ha, hq⟩ := h.answer t q
    obtain ⟨iha, hqs⟩ := ih hq.shows
    rw [hq.ceiling] at iha hqs
    refine ⟨congrArg₂ cons ha iha, ?_⟩
    have hall := hq.trans hqs
    rw [countP_cons, Nat.add_comm]
    cases hg : q.isGet <;> rw [hg] at hall <;> exact hall

end Shows

/-! ### What a cache holds -/

variable (c)

def holdings : List Holding := c.entries.map Holding.ofEntry

theorem holdings_without_subset (key : String) (c : ModuleCache) :
    (without key c.entries).map Holding.ofEntry ⊆ c.holdings :=
  map_subset _ filter_sublist.subset

theorem holdings_makeRoom_subset (n : Nat) (c : ModuleCache) :
    (makeRoom n c).holdings ⊆ c.holdings := by
  induction n generalizing c with
  | zero => exact Subset.refl _
  | succ n ih =>
    rw [makeRoom]
    split
    · refine Subset.trans (ih c.evict) ?_
      rw [evict]
      split
      · exact Subset.refl _
      · exact holdings_without_subset _ c
    · exact Subset.refl _

theorem holdings_get (key : String) (present : Option Nat) :
    (∀ m, (c.get key present).1 = some m →
      ∃ h ∈ c.holdings, h.key = key ∧ present = some h.time ∧ m = h.payload) ∧
    (c.get key present).2.holdings ⊆ c.holdings := by
  rw [get]
  cases hf : c.find? key with
  | none => exact ⟨fun m hm => by simp at hm, Subset.refl _⟩
  | some e =>
    have he : e ∈ c.entries := mem_of_find?_eq_some hf
    have hek : e.key = key := (Keyed.mem_of_find? hf).2
    have hh : Holding.ofEntry e ∈ c.holdings := mem_map_of_mem he
    simp only [beq_iff_eq]
    by_cases hp : present = some e.time
    · rw [if_pos hp]
      refine ⟨fun m hm => ⟨_, hh, hek, hp, (Option.some.inj hm).symm⟩, ?_⟩
      exact cons_subset.mpr ⟨hh, holdings_without_subset e.key c⟩
    · rw [if_neg hp]
      exact ⟨fun m hm => by simp at hm, holdings_without_subset key c⟩

theorem holdings_store_subset (x : Holding) : (c.store x).holdings ⊆ x :: c.holdings := by
  rw [store, set]
  split
  · exact subset_cons_self ..
  · refine cons_subset.mpr ⟨(.head _), ?_⟩
    split
    · exact Subset.trans (holdings_without_subset _ c) (subset_cons_self ..)
    · exact Subset.trans (holdings_without_subset _ _)
        (Subset.trans (holdings_makeRoom_subset _ c) (subset_cons_self ..))

theorem holdings_invalidate_subset (key : String) : (c.invalidate key).2.holdings ⊆ c.holdings := by
  rw [invalidate]
  split
  · exact holdings_without_subset key c
  · exact Subset.refl _

variable {c}

/-- The cache is a recency list with counters. From an empty cache with any ceiling, any requests
with any files at the moment of each are answered as the list of the same ceiling answers them. The
entries in the order of their stamps are that list, stamps differ, the ceiling holds, every entry is
the one its own key finds, and its digest is that of its code. Hits and misses are the requests for
modules; the keys ever brought in are those still there and those counted out. -/
theorem answerAll_refines (ceiling : Nat) (qs : List (FileTree × CacheRequest)) :
    let (answers, c) := ModuleCache.answerAll { ceiling } qs
    let (answers', r) := RecencyList.answerAll ceiling [] qs
    answers = answers' ∧
      c.byUse.map Holding.ofEntry = r ∧
      (c.entries.map CacheEntry.lastUse).Nodup ∧
      c.size ≤ ceiling ∧
      (∀ e ∈ c.entries, c.find? e.key = some e ∧ e.contentHash = Digest.ofText e.payload.code) ∧
      c.counts.hits + c.counts.misses = (qs.countP fun q => q.2.isGet) ∧
      introducedByAll { ceiling } qs =
        c.size + c.counts.evictions + c.counts.invalidations := by
  obtain ⟨ha, ⟨l, hl, hr⟩, hceil, hacc, hask⟩ := (Shows.empty ceiling).answerAll qs
  have hroom := hl.room
  rw [← hl.size_eq, hceil] at hroom
  refine ⟨ha, by rw [hl.byUse_eq]; exact hr, hl.stamps_keyed.perm hl.perm, hroom, ?_, ?_, ?_⟩
  · intro e he
    have hm := hl.perm.mem_iff.mpr he
    rw [hl.find?_eq, hl.keyed.find?_eq_some_iff]
    exact ⟨⟨hm, rfl⟩, hl.hashed e hm⟩
  · rw [← Nat.zero_add (qs.countP _)]
    exact hask
  · rw [← Nat.zero_add (introducedByAll _ qs)]
    exact hacc.symm

end ModuleCache

end Componentry
