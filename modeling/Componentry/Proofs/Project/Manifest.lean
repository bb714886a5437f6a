import Componentry.Proofs.Compiler.Refresh

/-!
# Manifests

The routes of a project come from two sources: from the modules that its units are compiled to, and
from a scan of the directory that holds the units. Both describe each unit in the same way and sort
what they find by path and unit. Units have different paths, so the order in which they come does not
matter, and the two manifests are equal.
-/

namespace Componentry

open List

/-! ### The order of routes -/

namespace Route

/-- Strictly before: by path, and by unit among routes with the same path. -/
def Before (a b : Route) : Prop :=
  a.path < b.path ∨ a.path = b.path ∧ ∃ f g, a.file = some f ∧ b.file = some g ∧ f < g

variable {f g : Option String} {a b : Route}

theorem fileLE_trans {h : Option String} (hfg : fileLE f g = true) (hgh : fileLE g h = true) :
    fileLE f h = true := by
  cases f with
  | none => rfl
  | some f =>
    cases g with
    | none => cases hfg
    | some g =>
      cases h with
      | none => cases hgh
      | some h =>
        exact decide_eq_true (String.le_trans (of_decide_eq_true hfg) (of_decide_eq_true hgh))

theorem fileLE_total (f g : Option String) : fileLE f g = true ∨ fileLE g f = true := by
  cases f with
  | none => exact .inl rfl
  | some f =>
    cases g with
    | none => exact .inr rfl
    | some g => exact (String.le_total f g).imp decide_eq_true decide_eq_true

theorem fileLE_antisymm (hfg : fileLE f g = true) (hgf : fileLE g f = true) : f = g := by
  cases f with
  | none =>
    cases g with
    | none => rfl
    | some g => cases hgf
  | some f =>
    cases g with
    | none => cases hfg
    | some g =>
      exact congrArg some (String.le_antisymm (of_decide_eq_true hfg) (of_decide_eq_true hgf))

theorem le_iff :
    a.le b = true ↔ a.path < b.path ∨ a.path = b.path ∧ fileLE a.file b.file = true := by
  simp [le]

theorem le_trans {c : Route} (hab : a.le b = true) (hbc : b.le c = true) : a.le c = true := by
  rw [le_iff] at *
  rcases hab with hab | ⟨hab, hf⟩
  · rcases hbc with hbc | ⟨hbc, -⟩
    · exact .inl (String.lt_trans hab hbc)
    · exact .inl (hbc ▸ hab)
  · rw [hab]
    exact hbc.imp id fun hbc => ⟨hbc.1, fileLE_trans hf hbc.2⟩

theorem le_total (a b : Route) : (a.le b || b.le a) = true := by
  rw [Bool.or_eq_true, le_iff, le_iff]
  by_cases hlt : a.path < b.path
  · exact .inl (.inl hlt)
  by_cases hgt : b.path < a.path
  · exact .inr (.inl hgt)
  have heq : a.path = b.path := String.le_antisymm (String.not_lt.mp hgt) (String.not_lt.mp hlt)
  exact (fileLE_total a.file b.file).imp (fun h => .inr ⟨heq, h⟩) fun h => .inr ⟨heq.symm, h⟩

/-- Routes that come no later than each other are of the same unit. -/
theorem file_eq_of_le (hab : a.le b = true) (hba : b.le a = true) : a.file = b.file := by
  rw [le_iff] at hab hba
  rcases hab with hab | ⟨hab, hf⟩
  · rcases hba with hba | ⟨hba, -⟩
    · exact absurd hba (String.lt_asymm hab)
    · exact absurd hab (hba ▸ String.lt_irrefl _)
  · rcases hba with hba | ⟨-, hg⟩
    · exact absurd hba (hab ▸ String.lt_irrefl _)
    · exact fileLE_antisymm hf hg

theorem sorted_perm (routes : List Route) : (sorted routes).Perm routes := mergeSort_perm ..

theorem pairwise_sorted (routes : List Route) :
    (sorted routes).Pairwise fun a b => a.le b = true := by
  have hm : (routes.mergeSort le).Pairwise fun a b => le a b = true := by
    apply pairwise_mergeSort
    · intro a b c hab hbc
      exact le_trans hab hbc
    · exact le_total
  exact hm

theorem sorted_congr {a b : List Route} (h : a.Perm b) (hfiles : Keyed Route.file a) :
    sorted a = sorted b := by
  refine Perm.eq_of_pairwise ?_ (pairwise_sorted a) (pairwise_sorted b)
    ((sorted_perm a).trans (h.trans (sorted_perm b).symm))
  intro r s hr hs hrs hsr
  have hs' : s ∈ a := h.mem_iff.mpr ((sorted_perm b).mem_iff.mp hs)
  exact hfiles.eq_of_mem ((sorted_perm a).mem_iff.mp hr) hs' (file_eq_of_le hrs hsr)

theorem pairwise_before_sorted {routes : List Route} (hfiles : Keyed Route.file routes)
    (hsome : ∀ r ∈ routes, ∃ f, r.file = some f) : (sorted routes).Pairwise Before := by
  have hkeyed := hfiles.perm (sorted_perm routes).symm
  have hne := pairwise_map.mp hkeyed
  refine (hne.and (pairwise_sorted routes)).imp_of_mem fun {a b} ha hb hab => ?_
  obtain ⟨hne, hle⟩ := hab
  refine (le_iff.mp hle).imp id fun ⟨hpath, hfile⟩ => ⟨hpath, ?_⟩
  obtain ⟨f, hf⟩ := hsome a ((sorted_perm routes).mem_iff.mp ha)
  obtain ⟨g, hg⟩ := hsome b ((sorted_perm routes).mem_iff.mp hb)
  rw [hf, hg] at hfile hne
  refine ⟨f, g, hf, hg, ?_⟩
  by_contra hlt
  have hle : f ≤ g := of_decide_eq_true hfile
  exact hne (congrArg some (String.le_antisymm hle (String.not_lt.mp hlt)))

end Route

/-! ### Units and their routes -/

/-- A unit: its path and its text. -/
structure TextUnit where
  path : String
  source : String

namespace Project

variable (o : Options)

/-- The path that the route region of a text gives, if it is not blank. -/
def routePath? (source : String) : Option String :=
  ((Source.blocks o source).route.bind fun attributes => attributes.find? "path").filter
    fun path => !Text.isBlankText path

theorem trimmed_isEmpty (s : String) : (Text.trimmed s).isEmpty = Text.isBlankText s := by
  have htrim : Text.trim s.toList = [] ↔ ∀ c ∈ s.toList, Text.isBlank c = true := by
    constructor
    · intro hnil
      obtain ⟨a, b, ha, hb, hs⟩ := Text.exists_trim s.toList
      rw [hnil] at hs
      rw [hs]
      exact fun c hc => (mem_append.mp hc).elim (ha c) (hb c)
    · exact fun h => Text.trim_append_blanks h []
  rw [Bool.eq_iff_iff, Text.isBlankText, Text.allBlank, all_eq_true, ← htrim, Text.trimmed]
  simp

theorem compile_route {index : Option Index} {styles : Style.Compiler} {path source : String}
    {m : Module} (h : Module.compile o index styles path source = .ok m) :
    m.route = routeOf? o path source := by
  obtain ⟨extracted, -, rfl⟩ := Module.compile_eq_ok_iff.mp h
  change (Module.routeOf path (Source.blocks o source)).1 = routeOf? o path source
  simp only [Module.routeOf, routeOf?]
  cases (Source.blocks o source).route with
  | none => rfl
  | some attributes =>
    simp only
    cases Route.describe attributes (Source.blocks o source).scriptText with
    | ok r | error d => rfl

/-- A unit has a route exactly if its route region gives a path that is not blank; this is the path of
the route, and the unit is its file. -/
theorem routeOf?_place (path source : String) :
    (routeOf? o path source).map (fun r => (r.path, r.file)) =
      (routePath? o source).map fun p => (Text.trimmed p, some path) := by
  simp only [routeOf?, routePath?]
  cases (Source.blocks o source).route with
  | none => rfl
  | some attributes =>
    simp only [Option.bind_some, Route.describe]
    cases attributes.find? "path" with
    | none => rfl
    | some p =>
      simp only [Option.map_some, Option.getD_some, trimmed_isEmpty]
      cases hblank : Text.isBlankText p with
      | true | false => simp [Option.filter, hblank]

/-- The routes of units as a scan finds them, before they are sorted. -/
def routesOf (units : List TextUnit) : List Route :=
  units.filterMap fun u => routeOf? o u.path u.source

variable {o : Options} {units : List TextUnit} {path source : String} {t : FileTree} {c : Compiler}

theorem routesOf_places (o : Options) (units : List TextUnit) :
    (routesOf o units).map (fun r => (r.path, r.file)) =
      units.filterMap fun u => (routePath? o u.source).map fun p => (Text.trimmed p, some u.path) := by
  rw [routesOf, map_filterMap]
  exact filterMap_congr fun u _ => routeOf?_place o u.path u.source

theorem file_of_routeOf? {r : Route} (h : routeOf? o path source = some r) :
    r.file = some path := by
  have hplace := routeOf?_place o path source
  rw [h] at hplace
  obtain ⟨p, -, hp⟩ := Option.map_eq_some_iff.mp hplace.symm
  exact (Prod.mk.inj hp).2.symm

theorem keyed_routesOf (h : Keyed TextUnit.path units) : Keyed Route.file (routesOf o units) := by
  have hsub : ((routesOf o units).map Route.file).Sublist (units.map fun u => some u.path) := by
    induction units with
    | nil => exact .slnil
    | cons u units ih =>
      have ih := ih (Keyed.cons_iff.mp h).2
      rw [routesOf, filterMap_cons]
      cases hr : routeOf? o u.path u.source with
      | none => exact ih.cons _
      | some r =>
        rw [map_cons, file_of_routeOf? hr]
        exact ih.cons_cons _
  refine Nodup.sublist hsub ?_
  have hsome : (units.map fun u => some u.path) = (units.map TextUnit.path).map some := by simp
  rw [hsome]
  exact Nodup.map (fun _ _ => Option.some.inj) h

theorem manifest_compile {styles : Style.Compiler} {index : String → Option Index}
    {ms : List Module} (h : units.map (fun u =>
      Module.compile o (index u.path) styles u.path u.source) = ms.map .ok) :
    Module.manifest ms = Route.sorted (routesOf o units) := by
  refine congrArg Route.sorted ?_
  induction units generalizing ms with
  | nil =>
    rw [map_eq_nil_iff.mp h.symm]
    rfl
  | cons u units ih =>
    obtain ⟨m, ms, rfl, hm, hms⟩ := map_eq_cons_iff.mp h.symm
    rw [routesOf, filterMap_cons, filterMap_cons, compile_route o hm.symm, ih hms.symm]
    rfl

theorem mapM_textAt {α : Type} (f : String → String → α) {text : String → String}
    {paths : List String} (h : ∀ path ∈ paths, t.textAt path = .ok (text path)) :
    (paths.mapM fun path => do return f path (← t.textAt path) : Except Failure (List α)) =
      .ok (paths.map fun path => f path (text path)) := by
  induction paths with
  | nil => rfl
  | cons path paths ih =>
    obtain ⟨hpath, hpaths⟩ := forall_mem_cons.mp h
    rw [mapM_cons, hpath, ih hpaths]
    rfl

theorem manifest_scan {dir : String} (hdistinct : Keyed TextUnit.path units)
    (hscan : (unitsAt t dir o.extension).Perm (units.map TextUnit.path))
    (hread : ∀ u ∈ units, t.textAt u.path = .ok u.source) :
    manifest t o dir = .ok (Route.sorted (routesOf o units)) := by
  have htext : ∀ path ∈ unitsAt t dir o.extension,
      t.textAt path = .ok ((t.textAt path).toOption.getD "") := by
    intro path hpath
    obtain ⟨u, hu, rfl⟩ := mem_map.mp (hscan.mem_iff.mp hpath)
    rw [hread u hu]
    rfl
  have hroutes : (units.map TextUnit.path).filterMap
      (fun path => routeOf? o path ((t.textAt path).toOption.getD "")) = routesOf o units := by
    rw [filterMap_map]
    refine filterMap_congr fun u hu => ?_
    rw [Function.comp_apply, hread u hu]
    rfl
  have hperm := hscan.filterMap fun path => routeOf? o path ((t.textAt path).toOption.getD "")
  rw [hroutes] at hperm
  rw [manifest, mapM_textAt (routeOf? o) htext]
  change Except.ok (Route.sorted _) = _
  rw [filterMap_map]
  exact congrArg Except.ok (Route.sorted_congr hperm.symm (keyed_routesOf hdistinct)).symm

/-! ### Modules from a cache -/

def HoldsRoutes (o : Options) (t : FileTree) (cache : ModuleCache) : Prop :=
  ∀ h ∈ cache.holdings, ∃ source, t.textAt h.key = .ok source ∧
    h.payload.route = routeOf? o h.key source

theorem compile_routes (hcache : HoldsRoutes c.options t c.cache)
    (htime : (t.time? path).isSome = true) (htext : t.textAt path = .ok source)
    (hcompiles : ∀ index, ∃ m, Module.compile c.options index c.styles path source = .ok m) :
    (∃ m, (c.compile t path).1 = .ok m ∧ m.route = routeOf? c.options path source) ∧
      HoldsRoutes c.options t (c.compile t path).2.cache := by
  constructor
  · rcases (c.compile_spec t path).1 with ⟨h, hh, hkey, -, -, hresult⟩ | ⟨-, hresult⟩
    · obtain ⟨source', htext', hroute⟩ := hcache h hh
      rw [hkey] at htext' hroute
      rw [Except.ok.inj (htext.symm.trans htext')]
      exact ⟨h.payload, hresult, hroute⟩
    · obtain ⟨time, htime⟩ := Option.isSome_iff_exists.mp htime
      obtain ⟨m, hm⟩ := hcompiles (c.withIndex t).1
      simp only [Compiler.uncached, Compiler.ofText, htime, htext, hm] at hresult
      exact ⟨m, hresult, compile_route _ hm⟩
  · intro h hh
    obtain ⟨-, -, -, -, hholdings⟩ := c.compile_spec t path
    rcases hholdings h hh with hh | ⟨source, hkey, -, htext, hpayload⟩
    · exact hcache h hh
    · rw [hkey]
      exact ⟨source, htext, compile_route _ hpayload⟩

theorem compileAll_routes (hcache : HoldsRoutes c.options t c.cache)
    (htimed : ∀ u ∈ units, (t.time? u.path).isSome = true)
    (hread : ∀ u ∈ units, t.textAt u.path = .ok u.source)
    (hcompile : ∀ u ∈ units, ∀ index, ∃ m,
      Module.compile c.options index c.styles u.path u.source = .ok m) :
    ∃ modules : List Module, (c.compileAll t (units.map TextUnit.path)).1 = modules.map .ok ∧
      modules.filterMap (·.route) = routesOf c.options units := by
  induction units generalizing c with
  | nil => exact ⟨[], rfl, rfl⟩
  | cons u units ih =>
    obtain ⟨htime, htimed⟩ := forall_mem_cons.mp htimed
    obtain ⟨htext, hread⟩ := forall_mem_cons.mp hread
    obtain ⟨hfirst, hcompile⟩ := forall_mem_cons.mp hcompile
    obtain ⟨⟨m, hm, hroute⟩, hcache'⟩ := compile_routes hcache htime htext hfirst
    obtain ⟨-, hoptions, hstyles, -⟩ := c.compile_spec t u.path
    rw [← hoptions] at hcache'
    rw [← hoptions, ← hstyles] at hcompile
    obtain ⟨modules, hmodules, hroutes⟩ := ih hcache' htimed hread hcompile
    refine ⟨m :: modules, ?_, ?_⟩
    · exact congrArg₂ cons hm hmodules
    · rw [hoptions] at hroutes
      rw [filterMap_cons, hroute, hroutes, routesOf, routesOf, filterMap_cons]

/-! ### Two sources of one manifest -/

/-- The manifests agree. For units with different paths that compile and can be read where a scan of a
directory finds them, whatever the options and the indexes: the manifest of their modules is the
manifest of the directory. It is in strict order by path and unit, has exactly one route for each
unit whose route region gives a path that is not blank, and does not depend on the order of the
units. The modules may come from a compiler with an empty cache, which returns them all. -/
theorem manifests_agree (o : Options) (styles : Style.Compiler) (index : String → Option Index)
    {t : FileTree} {dir : String} {units : List TextUnit} (hdistinct : Keyed TextUnit.path units)
    (hscan : (unitsAt t dir o.extension).Perm (units.map TextUnit.path))
    (hread : ∀ u ∈ units, t.textAt u.path = .ok u.source) :
    let results (units : List TextUnit) : List (Except Failure Module) :=
      units.map fun u => Module.compile o (index u.path) styles u.path u.source
    ∀ ms : List Module, results units = ms.map .ok →
      manifest t o dir = .ok (Module.manifest ms) ∧
      (Module.manifest ms).Pairwise Route.Before ∧
      ((Module.manifest ms).map fun r => (r.path, r.file)).Perm (units.filterMap fun u =>
        (routePath? o u.source).map fun p => (Text.trimmed p, some u.path)) ∧
      (∀ (units' : List TextUnit) (ms' : List Module), units'.Perm units →
        results units' = ms'.map .ok → Module.manifest ms' = Module.manifest ms) ∧
      ∀ c : Compiler, c.options = o → c.cache.entries = [] →
        (∀ u ∈ units, (t.time? u.path).isSome = true) →
        ∃ ms' : List Module, (c.compileAll t (units.map TextUnit.path)).1 = ms'.map .ok ∧
          Module.manifest ms' = Module.manifest ms := by
  intro results ms hms
  have hfiles : Keyed Route.file (routesOf o units) := keyed_routesOf hdistinct
  rw [manifest_compile hms]
  refine ⟨manifest_scan hdistinct hscan hread, ?_, ?_, ?_, ?_⟩
  · refine Route.pairwise_before_sorted hfiles fun r hr => ?_
    obtain ⟨u, -, hu⟩ := mem_filterMap.mp hr
    exact ⟨u.path, file_of_routeOf? hu⟩
  · rw [← routesOf_places]
    exact (Route.sorted_perm _).map _
  · intro units' ms' hperm hms'
    rw [manifest_compile hms']
    exact (Route.sorted_congr (hperm.symm.filterMap _) hfiles).symm
  · intro c hoptions hempty htimed
    have hcache : HoldsRoutes c.options t c.cache := by
      intro h hh
      rw [ModuleCache.holdings, hempty] at hh
      cases hh
    have hcompile : ∀ u ∈ units, ∀ index, ∃ m,
        Module.compile c.options index c.styles u.path u.source = .ok m := by
      intro u hu index'
      have hresult : Module.compile o (index u.path) styles u.path u.source ∈ results units :=
        mem_map_of_mem hu
      rw [hms] at hresult
      obtain ⟨m, -, hm⟩ := mem_map.mp hresult
      exact hoptions ▸ Module.exists_compile hm.symm index' c.styles
    obtain ⟨ms', hms', hroutes⟩ := compileAll_routes hcache htimed hread hcompile
    rw [hoptions] at hroutes
    exact ⟨ms', hms', congrArg Route.sorted hroutes⟩

/-- Two units whose routes come in the other order. -/
def crossing : List TextUnit :=
  [⟨"./a.sfc", "<route path=\"/z\"></route>"⟩, ⟨"./b.sfc", "<route path=\"/y\"></route>"⟩]

def crossingFiles : FileTree :=
  { nodes := [(["a.sfc"], .file (Text.utf8 "<route path=\"/z\"></route>".toList) 1),
      (["b.sfc"], .file (Text.utf8 "<route path=\"/y\"></route>".toList) 2)] }

/-- The manifest of the two modules is that of the directory. -/
theorem manifests_agree_crossing : Keyed TextUnit.path crossing ∧
    (unitsAt crossingFiles "." "sfc").Perm (crossing.map TextUnit.path) ∧
    (∀ u ∈ crossing, crossingFiles.textAt u.path = .ok u.source) ∧
    ∃ ms : List Module, crossing.map (fun u =>
        Module.compile {} none Style.nestedCompiler u.path u.source) = ms.map .ok ∧
      manifest crossingFiles {} "." = .ok (Module.manifest ms) := by
  have hdistinct : Keyed TextUnit.path crossing := by
    rw [Keyed]
    decide
  have hbelow : crossingFiles.filesBelow [] = [["a.sfc"], ["b.sfc"]] :=
    mergeSort_of_pairwise (by decide)
  have hlocate : crossingFiles.locate "." = .ok [] := by decide +kernel
  have hnode : crossingFiles.node? [] = some .directory := by decide
  have hunits : unitsAt crossingFiles "." "sfc" = crossing.map TextUnit.path := by
    rw [unitsAt, FileTree.filesAt_directory hlocate hnode hbelow]
    decide +kernel
  have hscan : (unitsAt crossingFiles "." "sfc").Perm (crossing.map TextUnit.path) := by rw [hunits]
  have hread : ∀ u ∈ crossing, crossingFiles.textAt u.path = .ok u.source := by
    simp only [crossing, forall_mem_cons]
    exact ⟨by rfl, by rfl, by simp⟩
  obtain ⟨a, ha⟩ := Module.exists_of_isOk (show (Module.compile {} none Style.nestedCompiler
    "./a.sfc" "<route path=\"/z\"></route>").isOk by decide +kernel)
  obtain ⟨b, hb⟩ := Module.exists_of_isOk (show (Module.compile {} none Style.nestedCompiler
    "./b.sfc" "<route path=\"/y\"></route>").isOk by decide +kernel)
  have hms : crossing.map (fun u => Module.compile {} none Style.nestedCompiler u.path u.source) =
      [a, b].map .ok := by
    simp [crossing, ha, hb]
  exact ⟨hdistinct, hscan, hread, _, hms,
    (manifests_agree {} Style.nestedCompiler (fun _ => none) hdistinct hscan hread _ hms).1⟩

end Project

end Componentry
