import Componentry.Proofs.Compiler.Interleaving

/-!
# Refreshing the index

A compiler that resolves children keeps the index of its project until it is asked to look again.
Its cache serves a module while the file of the unit has not changed, whatever happened to the units
that the template uses. So a compilation right after a refresh is made with an index of that moment
only if it is not served: a served module was made with the index of some earlier moment, and it is
the current one exactly if both indexes give the unit the same imports.
-/

namespace Componentry

open List

theorem ModuleCache.get_set {c : ModuleCache} (hc : c.ceiling ≠ 0) (key filePath : String)
    (time : Nat) (m : Module) : ((c.set key filePath time m).get key (some time)).1 = some m := by
  simp [set, hc, get, find?]

namespace Compiler

variable {c : Compiler}

theorem withIndex_of_resolving {root : String} (hroot : c.options.projectRoot = some root)
    (hresolve : c.options.resolveChildren = true) (t : FileTree) :
    c.withIndex t = (some (c.index.getD (Project.scan t c.options root)),
      { c with index := some (c.index.getD (Project.scan t c.options root)) }) := by
  obtain ⟨options, styles, cache, index⟩ := c
  rw [withIndex, hroot, hresolve]
  cases index with
  | none | some index => rfl

variable (c)

theorem withIndex_with_cache (cache : ModuleCache) (t : FileTree) :
    withIndex { c with cache } t =
      ((c.withIndex t).1, { c with cache, index := (c.withIndex t).2.index }) := by
  obtain ⟨options, styles, cache', index⟩ := c
  simp only [withIndex]
  cases options.projectRoot with
  | none => rfl
  | some root =>
    cases options.resolveChildren with
    | false => rfl
    | true =>
      cases index with
      | none | some index => rfl

/-- A compilation is served from the cache or made anew. It leaves the compiler with the index it used,
and the cache with nothing new but what was made. -/
theorem compile_spec (t : FileTree) (path : String) : let r := c.compile t path
    ((∃ h ∈ c.cache.holdings, h.key = path ∧ t.time? path = some h.time ∧
        (c.cache.get path (t.time? path)).1 = some h.payload ∧ r.1 = .ok h.payload) ∨
      (c.cache.get path (t.time? path)).1 = none ∧
        r.1 = uncached c.options c.styles (c.withIndex t).1 t path) ∧
    r.2.options = c.options ∧ r.2.styles = c.styles ∧
    (r.2.index = c.index ∨ r.2.index = (c.withIndex t).2.index) ∧
    ∀ h ∈ r.2.cache.holdings, h ∈ c.cache.holdings ∨
      ∃ source, h.key = path ∧ t.time? path = some h.time ∧ t.textAt path = .ok source ∧
        Module.compile c.options (c.withIndex t).1 c.styles path source = .ok h.payload := by
  obtain ⟨hserved, hold⟩ := c.cache.holdings_get path (t.time? path)
  rw [compile]
  cases hget : c.cache.get path (t.time? path) with
  | mk served cache =>
    rw [hget] at hserved hold
    cases served with
    | some m =>
      obtain ⟨h, hh, hkey, htime, rfl⟩ := hserved m rfl
      exact ⟨.inl ⟨h, hh, hkey, htime, rfl, rfl⟩, rfl, rfl, .inl rfl, fun h hh => .inl (hold hh)⟩
    | none =>
      simp only [compileFresh, uncached, ofText]
      cases htime : t.time? path with
      | none => exact ⟨.inr ⟨trivial, rfl⟩, rfl, rfl, .inl rfl, fun h hh => .inl (hold hh)⟩
      | some time =>
        cases htext : t.textAt path with
        | error e => exact ⟨.inr ⟨trivial, rfl⟩, rfl, rfl, .inl rfl, fun h hh => .inl (hold hh)⟩
        | ok source =>
          simp only [withIndex_with_cache]
          generalize hm : Module.compile c.options (c.withIndex t).1 c.styles path source = made
          cases made with
          | error e => exact ⟨.inr ⟨trivial, rfl⟩, rfl, rfl, .inr rfl, fun h hh => .inl (hold hh)⟩
          | ok m =>
            refine ⟨.inr ⟨trivial, rfl⟩, rfl, rfl, .inr rfl, fun h hh => ?_⟩
            rcases mem_cons.mp (cache.holdings_store_subset ⟨path, path, time, m⟩ hh) with rfl | hh
            · exact .inr ⟨source, rfl, rfl, rfl, hm⟩
            · exact .inl (hold hh)

end Compiler

/-! ### Compiling, refreshing and editing -/

/-- A compiler at work, among files that change. -/
structure Workshop where
  /-- What the files were before, oldest first. -/
  past : List FileTree := []
  files : FileTree
  compiler : Compiler

namespace Workshop

open Interleaving (FreshTimes Honest)

/-- The files of all moments so far. -/
def history (w : Workshop) : List FileTree := w.past ++ [w.files]

/-- What may happen. -/
inductive Action where
  | compile (path : String)
  | refresh
  /-- Files are added, removed or edited. -/
  | edit (files : FileTree)

def step (w : Workshop) : Action → Workshop
  | .compile path => { w with compiler := (w.compiler.compile w.files path).2 }
  | .refresh => { w with compiler := w.compiler.refresh }
  | .edit files => { w with past := w.past ++ [w.files], files }

def Allows (w : Workshop) : Action → Prop
  | .edit files => FreshTimes w.history w.files files
  | _ => True

/-- The workshops that come about from any files and a new compiler, whatever happens in any
order. -/
inductive Reachable (o : Options) (styles : Style.Compiler) : Workshop → Prop where
  | start (files : FileTree) (ceiling : Nat) :
    Reachable o styles { files, compiler := { options := o, styles, cache := { ceiling } } }
  | step {w : Workshop} {a : Action} (h : Reachable o styles w) (ha : w.Allows a) :
    Reachable o styles (w.step a)

variable {o : Options} {styles : Style.Compiler} {root : String} {w : Workshop}

/-- A module was made from the text that its file had with its time, with an index of some moment. -/
def Made (o : Options) (styles : Style.Compiler) (root : String) (history : List FileTree)
    (h : Holding) : Prop :=
  ∃ t ∈ history, ∃ source, t.time? h.key = some h.time ∧ t.textAt h.key = .ok source ∧
    ∃ u ∈ history,
      Module.compile o (some (Project.scan u o root)) styles h.key source = .ok h.payload

/-- What holds in every workshop: times tell texts apart, the index is one of some moment, and so is
that of every stored module. -/
structure Sound (o : Options) (styles : Style.Compiler) (root : String) (w : Workshop) : Prop where
  options_eq : w.compiler.options = o
  styles_eq : w.compiler.styles = styles
  honest : Honest w.history
  /-- The index is a scan of some moment. -/
  indexed : ∀ index, w.compiler.index = some index →
    ∃ u ∈ w.history, index = Project.scan u o root
  /-- Stored modules were made from what there was. -/
  made : ∀ h ∈ w.compiler.cache.holdings, Made o styles root w.history h

theorem Made.snoc {history : List FileTree} {h : Holding} (hm : Made o styles root history h)
    (new : FileTree) : Made o styles root (history ++ [new]) h := by
  obtain ⟨t, ht, source, htime, htext, u, hu, hpayload⟩ := hm
  exact ⟨t, mem_append_left _ ht, source, htime, htext, u, mem_append_left _ hu, hpayload⟩

theorem mem_history (w : Workshop) : w.files ∈ w.history :=
  mem_append_right _ (mem_singleton_self _)

variable (h : w.Sound o styles root)

include h

theorem Sound.exists_scan :
    ∃ u ∈ w.history, w.compiler.index.getD (Project.scan w.files o root) = Project.scan u o root := by
  cases hindex : w.compiler.index with
  | none => exact ⟨w.files, w.mem_history, rfl⟩
  | some index => exact h.indexed index hindex

theorem Sound.compile (hroot : o.projectRoot = some root)
    (hresolve : o.resolveChildren = true) (path : String) :
    (w.step (.compile path)).Sound o styles root := by
  obtain ⟨-, hoptions, hstyles, hindex, hholdings⟩ := w.compiler.compile_spec w.files path
  obtain ⟨u, hu, hscan⟩ := h.exists_scan
  have hwith := Compiler.withIndex_of_resolving (by rw [h.options_eq, hroot])
    (by rw [h.options_eq, hresolve]) w.files
  rw [h.options_eq, hscan] at hwith
  refine ⟨hoptions.trans h.options_eq, hstyles.trans h.styles_eq, h.honest, ?_, ?_⟩
  · intro index hi
    rcases hindex with hsame | hused
    · exact h.indexed index (hsame.symm.trans hi)
    · rw [hwith] at hused
      exact ⟨u, hu, (Option.some.inj (hused.symm.trans hi)).symm⟩
  · intro x hx
    rcases hholdings x hx with hx | ⟨source, hkey, htime, htext, hpayload⟩
    · exact h.made x hx
    · rw [hwith, h.options_eq, h.styles_eq] at hpayload
      exact ⟨w.files, w.mem_history, source, hkey ▸ htime, hkey ▸ htext, u, hu, hkey ▸ hpayload⟩

theorem Sound.step (hroot : o.projectRoot = some root)
    (hresolve : o.resolveChildren = true) {a : Action} (ha : w.Allows a) :
    (w.step a).Sound o styles root := by
  cases a with
  | compile path => exact h.compile hroot hresolve path
  | refresh =>
    refine ⟨h.options_eq, h.styles_eq, h.honest, ?_, h.made⟩
    intro index hi
    cases hi
  | edit files =>
    refine ⟨h.options_eq, h.styles_eq, h.honest.snoc ha, ?_, fun x hx => (h.made x hx).snoc files⟩
    intro index hi
    obtain ⟨u, hu, hscan⟩ := h.indexed index hi
    exact ⟨u, mem_append_left _ hu, hscan⟩

omit h

theorem Reachable.sound (hw : Reachable o styles w) (hroot : o.projectRoot = some root)
    (hresolve : o.resolveChildren = true) : w.Sound o styles root := by
  induction hw with
  | start files ceiling =>
    refine ⟨rfl, rfl, Interleaving.honest_singleton files, ?_, ?_⟩
    · intro index hi
      cases hi
    · intro x hx
      cases hx
  | step _ ha ih => exact ih.step hroot hresolve ha

/-! ### Right after a refresh -/

/-- What a file is compiled to with an index of another moment is what it is compiled to with an index
of now exactly if, where it compiles, it imports the same units. -/
theorem uncached_eq_iff (o : Options) (styles : Style.Compiler) (i j : Index) (t : FileTree)
    (path : String) :
    Compiler.uncached o styles (some i) t path = Compiler.uncached o styles (some j) t path ↔
      ∀ time source m, t.time? path = some time → t.textAt path = .ok source →
        Module.compile o (some i) styles path source = .ok m →
          Module.imports o i path source = Module.imports o j path source := by
  simp only [Compiler.uncached, Compiler.ofText]
  cases t.time? path with
  | none => simp
  | some time =>
    cases t.textAt path with
    | error e => simp
    | ok source =>
      refine (Module.compile_eq_iff_imports o i j styles path source).trans ?_
      constructor
      · intro h _ _ m _ htext hm
        cases htext
        exact h m hm
      · exact fun h m => h time source m rfl rfl

theorem Sound.textAt_now (h : w.Sound o styles root) {path source : String} {n : Nat} {t : FileTree}
    (ht : t ∈ w.history) (htime : t.time? path = some n) (htext : t.textAt path = .ok source)
    (hnow : w.files.time? path = some n) : w.files.textAt path = .ok source := by
  obtain ⟨i, hi⟩ := mem_iff_getElem?.mp ht
  rw [← h.honest path n i i w.past.length t t w.files (Nat.le_refl i) (Interleaving.le_now hi) hi hi
    getElem?_concat_length htime hnow]
  exact htext

/-- What a compilation right after a refresh returns. It is what the file is compiled to now with an
index of some moment, and of this moment unless it is served from the cache. It is what an index of
this moment gives exactly if the unit, where it compiles, has the same imports under both. -/
theorem refreshed_compile_current_iff {o : Options} {styles : Style.Compiler} {root : String}
    (hroot : o.projectRoot = some root) (hresolve : o.resolveChildren = true) {w : Workshop}
    (hw : Reachable o styles w) (path : String) :
    let result := (w.compiler.refresh.compile w.files path).1
    let made (t : FileTree) :=
      Compiler.uncached o styles (some (Project.scan t o root)) w.files path
    ∃ t ∈ w.history, result = made t ∧
      ((w.compiler.cache.get path (w.files.time? path)).1 = none → t = w.files) ∧
      (result = made w.files ↔ ∀ time source m,
        w.files.time? path = some time → w.files.textAt path = .ok source →
        Module.compile o (some (Project.scan t o root)) styles path source = .ok m →
          Module.imports o (Project.scan t o root) path source =
            Module.imports o (Project.scan w.files o root) path source) := by
  have hs := hw.sound hroot hresolve
  have hoptions : w.compiler.refresh.options = o := hs.options_eq
  have hstyles : w.compiler.refresh.styles = styles := hs.styles_eq
  have hmade : ∃ t ∈ w.history, (w.compiler.refresh.compile w.files path).1 =
      Compiler.uncached o styles (some (Project.scan t o root)) w.files path ∧
      ((w.compiler.cache.get path (w.files.time? path)).1 = none → t = w.files) := by
    rcases (w.compiler.refresh.compile_spec w.files path).1 with
      ⟨h, hh, hkey, htime, hserved, hresult⟩ | ⟨hmiss, hresult⟩
    · obtain ⟨t, ht, source, hthen, htext, u, hu, hpayload⟩ := hs.made h hh
      rw [hkey] at hthen htext hpayload
      have hnow := hs.textAt_now ht hthen htext htime
      refine ⟨u, hu, ?_, fun hnone => ?_⟩
      · simp [hresult, Compiler.uncached, Compiler.ofText, htime, hnow, hpayload]
      · exact absurd (hnone.symm.trans hserved) (by simp)
    · have hwith := Compiler.withIndex_of_resolving (c := w.compiler.refresh) (by rw [hoptions, hroot])
        (by rw [hoptions, hresolve]) w.files
      rw [hwith, hoptions, hstyles] at hresult
      exact ⟨w.files, w.mem_history, hresult, fun _ => rfl⟩
  obtain ⟨t, ht, hresult, hmiss⟩ := hmade
  refine ⟨t, ht, hresult, hmiss, ?_⟩
  simp only [hresult]
  exact uncached_eq_iff o styles _ _ w.files path

/-- Options of a project in the working directory. -/
def here : Options := { projectRoot := some "." }

/-- A page that uses a note. -/
def pageText : String := "<template><a-note></a-note></template>"

/-- The page without the note. -/
def page : FileTree := { nodes := [(["page.sfc"], .file (Text.utf8 pageText.toList) 1)] }

def pageAndNote : FileTree := page.put ["a-note.sfc"] (.file [] 2)

/-- The page is compiled before the note is written. -/
def early : Workshop :=
  step (step { files := page, compiler := { options := here, cache := { ceiling := 1 } } }
    (.compile "page.sfc")) (.edit pageAndNote)

theorem reachable_early : Reachable here Style.nestedCompiler early := by
  have hstart : Reachable here Style.nestedCompiler
      { files := page, compiler := { options := here, cache := { ceiling := 1 } } } := .start page 1
  have hcompiled := hstart.step (a := .compile "page.sfc") trivial
  exact hcompiled.step (Interleaving.freshTimes_single (by decide))

theorem imports_page :
    Module.imports here (Project.scan page here ".") "page.sfc" pageText = [] := by
  decide +kernel

theorem imports_pageAndNote :
    Module.imports here (Project.scan pageAndNote here ".") "page.sfc" pageText =
      ["./a-note.sfc"] := by
  have hbelow : pageAndNote.filesBelow [] = [["a-note.sfc"], ["page.sfc"]] :=
    mergeSort_of_pairwise (by decide)
  have hlocate : pageAndNote.locate "." = .ok [] := by decide +kernel
  have hnode : pageAndNote.node? [] = some .directory := by decide
  have hunits : Project.unitsAt pageAndNote "." "sfc" = ["./a-note.sfc", "./page.sfc"] := by
    rw [Project.unitsAt, FileTree.filesAt_directory hlocate hnode hbelow]
    decide +kernel
  have hpage : pageAndNote.readText "./page.sfc" = .ok pageText := by rfl
  have hnote : pageAndNote.readText "./a-note.sfc" = .ok "" := by rfl
  have htag : Tag.declared? (Source.blocks here pageText).scriptText = none := by decide +kernel
  have htag' : Tag.declared? (Source.blocks here "").scriptText = none := by decide +kernel
  have hscan : Project.scan pageAndNote here "." =
      Index.insert (Index.insert {} "./a-note.sfc" none) "./page.sfc" none := by
    rw [Project.scan, show here.extension = "sfc" from rfl, hunits]
    simp [hpage, hnote, htag, htag']
  rw [hscan]
  decide +kernel

/-- The page as it was compiled first is served again. -/
theorem early_served : ∃ m,
    Module.compile here (some (Project.scan page here ".")) Style.nestedCompiler "page.sfc"
      pageText = .ok m ∧
    (early.compiler.refresh.compile pageAndNote "page.sfc").1 = .ok m := by
  have htime : page.time? "page.sfc" = some 1 := by rfl
  have hnow : pageAndNote.time? "page.sfc" = some 1 := by rfl
  have htext : page.textAt "page.sfc" = .ok pageText := by rfl
  obtain ⟨m, hm⟩ := Module.exists_of_isOk (show (Module.compile here
    (some (Project.scan page here ".")) Style.nestedCompiler "page.sfc" pageText).isOk by
      decide +kernel)
  have hroot : here.projectRoot = some "." := rfl
  have hindex := Compiler.withIndex_of_resolving
    (c := { options := here, cache := ModuleCache.miss { ceiling := 1 } }) hroot rfl page
  have hstored : early.compiler.cache =
      ModuleCache.set (.miss { ceiling := 1 }) "page.sfc" "page.sfc" 1 m := by
    simp [early, step, Compiler.compile, ModuleCache.get, ModuleCache.find?, Compiler.compileFresh, htime, htext, hindex, hm]
  have hget : (early.compiler.refresh.cache.get "page.sfc"
      (pageAndNote.time? "page.sfc")).1 = some m := by
    rw [hnow, Compiler.refresh, hstored]
    exact ModuleCache.get_set (by decide) ..
  refine ⟨m, hm, ?_⟩
  rcases (early.compiler.refresh.compile_spec pageAndNote "page.sfc").1 with
    ⟨h, -, -, -, hserved, hresult⟩ | ⟨hmiss, -⟩
  · rw [hresult, Option.some.inj (hserved.symm.trans hget)]
  · cases hmiss.symm.trans hget

theorem early_outdated : (early.compiler.refresh.compile early.files "page.sfc").1 ≠
      Compiler.uncached here Style.nestedCompiler (some (Project.scan early.files here "."))
        early.files "page.sfc" := by
  have hfiles : early.files = pageAndNote := rfl
  have hnow : pageAndNote.time? "page.sfc" = some 1 := by rfl
  have htext : pageAndNote.textAt "page.sfc" = .ok pageText := by rfl
  obtain ⟨m, hm, hserved⟩ := early_served
  have hmade : Compiler.uncached here Style.nestedCompiler (some (Project.scan page here "."))
      pageAndNote "page.sfc" = .ok m := by
    simp [Compiler.uncached, Compiler.ofText, hnow, htext, hm]
  rw [hfiles, hserved, ← hmade]
  intro heq
  have himports := (uncached_eq_iff here Style.nestedCompiler _ _ pageAndNote "page.sfc").mp heq 1
    pageText m hnow htext hm
  rw [imports_page, imports_pageAndNote] at himports
  cases himports

/-- The note is there and the index is refreshed, but the page does not import the note. -/
theorem refreshed_page_outdated : Reachable here Style.nestedCompiler early ∧
    (early.compiler.refresh.compile early.files "page.sfc").1 ≠
      Compiler.uncached here Style.nestedCompiler (some (Project.scan early.files here "."))
        early.files "page.sfc" :=
  ⟨reachable_early, early_outdated⟩

/-- The page was made with an index of some moment, which does not give it the imports it has now. -/
theorem refreshed_compile_current_iff_early :
    here.projectRoot = some "." ∧ here.resolveChildren = true ∧
    Reachable here Style.nestedCompiler early ∧ ∃ t ∈ early.history,
      (early.compiler.refresh.compile early.files "page.sfc").1 =
        Compiler.uncached here Style.nestedCompiler (some (Project.scan t here ".")) early.files
          "page.sfc" ∧
      ¬ ∀ time source m, early.files.time? "page.sfc" = some time →
        early.files.textAt "page.sfc" = .ok source →
        Module.compile here (some (Project.scan t here ".")) Style.nestedCompiler "page.sfc"
          source = .ok m →
          Module.imports here (Project.scan t here ".") "page.sfc" source =
            Module.imports here (Project.scan early.files here ".") "page.sfc" source := by
  have hroot : here.projectRoot = some "." := rfl
  have hresolve : here.resolveChildren = true := rfl
  obtain ⟨t, ht, hmade, -, hiff⟩ :=
    refreshed_compile_current_iff hroot hresolve reachable_early "page.sfc"
  exact ⟨hroot, hresolve, reachable_early, t, ht, hmade, fun h => early_outdated (hiff.mpr h)⟩

end Workshop

end Componentry
