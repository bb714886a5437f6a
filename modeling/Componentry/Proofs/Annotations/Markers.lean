import Componentry.Proofs.Annotations.Preservation

/-!
# Markers read back

An annotation is found by looking at characters alone, and its arguments end at the parenthesis that
closes the one they start with. Whether that parenthesis stands in quotes is decided by the search
for it; whether the arguments can be read is decided by their reader, which follows quotes anew. Both
agree: no quote is open where the parenthesis stands, so the arguments can be read, and the marker
that stands for the annotation gives back its name and its arguments. Extraction from markers
therefore drops nothing, and a default export that became a constant is exported again at the end.
-/

namespace Componentry.Annotations

open Text Script List

/-! ### Open quotes -/

theorem pieces_ok_iff (open_ : Option Char) (depth : Nat) (acc s : List Char) :
    (∃ ps, pieces open_ depth acc s = .ok ps) ↔ openQuote open_ s = none := by
  fun_induction pieces open_ depth acc s with
  | case1 depth acc q | case2 depth acc => simp [openQuote]
  | case3 depth acc q c cs ih => rw [ih, openQuote]
  | case4 depth acc q c cs h ih => rw [ih, openQuote.eq_3 _ _ _ h]
  | case5 depth acc c cs h ih =>
    have hc : isQuote c = false := by
      obtain ⟨rfl, -⟩ : c = ',' ∧ depth = 0 := by simpa using h
      decide
    have hmap : (∃ ps, (pieces none 0 [] cs).map (acc.reverse :: ·) = .ok ps) ↔
        ∃ ps, pieces none 0 [] cs = .ok ps := by
      cases pieces none 0 [] cs with
      | error e | ok ps => simp [Except.map]
    rw [hmap, ih, openQuote, hc]
    rfl
  | case6 depth acc c cs h hq ih => rw [ih, openQuote, if_pos hq]
  | case7 depth acc c cs h hq _ ih | case8 depth acc c cs h hq _ _ ih
  | case9 depth acc c cs h hq _ _ ih => rw [ih, openQuote, if_neg hq]

theorem arguments_ok_iff (text : String) :
    (∃ args, arguments text = .ok args) ↔ openQuote none text.toList = none := by
  rw [← pieces_ok_iff none 0 [] text.toList, arguments]
  cases pieces none 0 [] text.toList with
  | error e | ok ps => simp [Except.map]

variable {q : Char} {name s script : List Char} {fuel n : Nat} {before : Option Char} {o : Owner}
  {α : Type} {p : Placed} {outline : Outline} {m : Method} {owners : Owners}

/-! ### Annotations as they are found -/

theorem scan_spec {pos : Nat} {o : Occurrence} (h : o ∈ scan fuel before pos s) :
    IsName o.name.toList ∧ openQuote none o.args.toList = none := by
  fun_induction scan fuel before pos s with
  | case1 | case2 | case6 => cases h
  | case7 fuel before pos c cs h1 h2 hq hat name args n hn ih =>
    rcases mem_cons.mp h with rfl | h
    · rw [String.toList_ofList, String.toList_ofList]
      exact (annotationAt_spec hn).2
    · exact ih h
  | _ =>
    rename_i ih
    exact ih h

/-! ### The marker of an annotation -/

/-- The text of a marker: a comment with a name and a code of letters and digits. -/
structure IsMarker (text name code : List Char) : Prop where
  text_eq : text = "/*@sfc:".toList ++ (name ++ ':' :: (code ++ "*/".toList))
  named : IsName name
  coded : ∀ c ∈ code, c.isAlphanum = true

theorem markerAt_of_isMarker {text code : List Char} (h : IsMarker text name code) :
    markerAt text = some (String.ofList name, code) := by
  obtain ⟨rfl, ⟨hchars, c, hc, hstart⟩, hcode⟩ := h
  have hname : (name ++ ':' :: (code ++ "*/".toList)).takeWhile isNameChar = name := by
    refine takeWhile_append_stop hchars fun d hd => ?_
    cases hd
    decide
  have hdigits : (code ++ "*/".toList).takeWhile Char.isAlphanum = code := by
    refine takeWhile_append_stop hcode fun d hd => ?_
    cases hd
    decide
  have hcolon : dropLead? [':'] (':' :: (code ++ "*/".toList)) = some (code ++ "*/".toList) :=
    dropLead?_append [':'] _
  simp only [markerAt, dropLead?_append, Option.bind_eq_bind, Option.bind_some, hname,
    Option.mem_def.mp hc, hstart, drop_left, hcolon, hdigits]
  rfl

theorem firstMatch_of_some {f : Option Char → List Char → Option α} {a : α}
    (h : f before s = some a) : firstMatch f before s = some a := by
  cases s with
  | nil => exact h
  | cons c cs => rw [firstMatch, h]

theorem isMarker_encodeMarker {name : String} (h : IsName name.toList) (args : String) :
    IsMarker (encodeMarker name args).toList name.toList (hexEncode (utf8 args.toList)) where
  text_eq := by simp [encodeMarker]
  named := h
  coded _ := isAlphanum_of_mem_hexEncode

theorem decodeMarker_encodeMarker {name : String} (h : IsName name.toList) (args : String) :
    decodeMarker (encodeMarker name args) =
      some (name, (arguments args).mapError .arguments) := by
  have hmatch : firstMatch (fun _ s => markerAt s) none (encodeMarker name args).toList =
      some (name, hexEncode (utf8 args.toList)) := by
    refine firstMatch_of_some ?_
    rw [markerAt_of_isMarker (isMarker_encodeMarker h args), String.ofList_toList]
  have hargs : (hexDecode? (hexEncode (utf8 args.toList))).bind ofUtf8? = some args := by
    rw [hexDecode?_hexEncode, Option.bind_some, ofUtf8?_utf8, String.ofList_toList]
  simp only [decodeMarker, hmatch, Option.bind_eq_bind, Option.bind_some, hargs]
  rfl

theorem occurrence_decodes {o : Occurrence} (h : o ∈ occurrences script) :
    ∃ args, arguments o.args = .ok args ∧
      IsMarker (encodeMarker o.name o.args).toList o.name.toList (hexEncode (utf8 o.args.toList)) ∧
      decodeMarker (encodeMarker o.name o.args) = some (o.name, .ok args) := by
  obtain ⟨hname, hopen⟩ := scan_spec h
  obtain ⟨args, hargs⟩ := (arguments_ok_iff o.args).mpr hopen
  refine ⟨args, hargs, isMarker_encodeMarker hname o.args, ?_⟩
  rw [decodeMarker_encodeMarker hname, hargs]
  rfl

/-! ### Extraction drops nothing -/

theorem markersOf_occurrence (script : List Char) :
    (markersOf script).map (·.occurrence) = occurrences script := by
  rw [markersOf_eq, placedIn_occurrence]
  exact notesOf_segmentsFrom ..

theorem slice_placedIn {gs : List Segment} (pre : List Char) (h : p ∈ placedIn pre.length gs) :
    slice (pre ++ markedOf gs) p.at_ =
      (encodeMarker p.occurrence.name p.occurrence.args).toList := by
  induction gs generalizing pre with
  | nil => cases h
  | cons g gs ih =>
    cases g with
    | plain c =>
      have hrest := ih (pre ++ [c]) (by simpa [placedIn] using h)
      simpa [Segment.marked] using hrest
    | note o text =>
      rcases mem_cons.mp h with rfl | h
      · simp [slice, Segment.marked]
      · have hrest := ih (pre ++ (Segment.note o text).marked) (by simpa using h)
        simpa using hrest

theorem slice_markedText (h : p ∈ markersOf script) :
    slice (markedText script) p.at_ =
      (encodeMarker p.occurrence.name p.occurrence.args).toList := by
  rw [markersOf_eq] at h
  rw [markedText_eq]
  exact slice_placedIn [] h

/-- The annotation that an occurrence stands for. -/
def Occurrence.found (o : Occurrence) : Found :=
  ⟨o.name, (arguments o.args).mapError ArgumentError.message, o.at_⟩

theorem foundMarker_eq (h : p ∈ markersOf script) :
    foundMarker p = some p.occurrence.found ∧ ∃ args, p.occurrence.found.args = .ok args := by
  have ho := markersOf_occurrence script ▸ mem_map_of_mem h
  obtain ⟨args, hargs, -, hdecode⟩ := occurrence_decodes ho
  rw [foundMarker, hdecode, Occurrence.found, hargs]
  exact ⟨rfl, args, rfl⟩

variable (ho : o ∈ (markedOwners script outline).all)

include ho

theorem exists_body :
    ∃ b ∈ outline.flatMap bodies, o.methods.map (·.annotations) = b.found (markersOf script) := by
  rw [markedOwners, ownersOf_all] at ho
  obtain ⟨t, ht, ho⟩ := mem_flatMap.mp ho
  have hfound := mem_map_of_mem (f := fun o : Owner => o.methods.map (·.annotations)) ho
  rw [ownersIn_found] at hfound
  obtain ⟨b, hb, heq⟩ := mem_map.mp hfound
  exact ⟨b, mem_flatMap.mpr ⟨t, ht, hb⟩, heq.symm⟩

theorem annotations_markedOwners (hm : m ∈ o.methods) :
    ∃ gap, m.annotations = markersIn (markersOf script) gap := by
  obtain ⟨b, -, hb⟩ := exists_body ho
  have hmem := hb ▸ mem_map_of_mem hm
  obtain ⟨x, -, hx⟩ := mem_filterMap.mp hmem
  split at hx
  · exact ⟨x.1, (Option.some.inj hx).symm⟩
  · cases hx

theorem found_markedOwners (hm : m ∈ o.methods)
    {f : Found} (hf : f ∈ m.annotations) :
    (∃ note ∈ occurrences script, f = note.found) ∧ ∃ args, f.args = .ok args := by
  obtain ⟨gap, hgap⟩ := annotations_markedOwners ho hm
  rw [hgap] at hf
  obtain ⟨p, hp, hfp⟩ := mem_filterMap.mp hf
  have hp := mem_of_mem_filter hp
  obtain ⟨heq, hargs⟩ := foundMarker_eq hp
  cases heq.symm.trans hfp
  exact ⟨⟨_, markersOf_occurrence script ▸ mem_map_of_mem hp, rfl⟩, hargs⟩

omit ho

/-! ### Methods and what is said about them -/

theorem Method.entries_length (h : ∀ f ∈ m.annotations, ∃ args, f.args = .ok args) :
    m.entries.length = m.annotations.length ∧ m.diagnostics = [] := by
  constructor
  · refine filterMap_length_eq_length.mpr fun f hf => ?_
    obtain ⟨args, hargs⟩ := h f hf
    simp [hargs]
  · refine filterMap_eq_nil_iff.mpr fun f hf => ?_
    obtain ⟨args, hargs⟩ := h f hf
    simp [hargs]

def Owners.methods (owners : Owners) : List (Owner × Method) :=
  owners.all.flatMap fun o => o.methods.map fun m => (o, m)

theorem mem_methods {x : Owner × Method} :
    x ∈ owners.methods ↔ x.1 ∈ owners.all ∧ x.2 ∈ x.1.methods := by
  obtain ⟨o, m⟩ := x
  simp [Owners.methods]

theorem annotated_methods (owners : Owners) :
    ((owners.all.filter Owner.isAnnotated).flatMap fun o =>
      (o.methods.filter fun m => !m.annotations.isEmpty).map fun m => (o, m)) =
      owners.methods.filter fun x => !x.2.annotations.isEmpty := by
  rw [Owners.methods, filter_flatMap]
  induction owners.all with
  | nil => rfl
  | cons o all ih =>
    have hself : (o.methods.map fun m => (o, m)).filter (fun x => !x.2.annotations.isEmpty) =
        (o.methods.filter fun m => !m.annotations.isEmpty).map fun m => (o, m) := filter_map
    rw [flatMap_cons, ← ih, hself, filter_cons]
    split
    · rfl
    next h =>
      have hnone : (o.methods.filter fun m => !m.annotations.isEmpty) = [] := by
        simpa [Owner.isAnnotated, filter_eq_nil_iff] using h
      rw [hnone]
      rfl

theorem flatMap_filter {β : Type} {l : List α} {p : α → Bool} {f : α → List β}
    (h : ∀ x, p x = false → f x = []) : (l.filter p).flatMap f = l.flatMap f := by
  induction l with
  | nil => rfl
  | cons x l ih =>
    rw [filter_cons, flatMap_cons, ← ih]
    split
    · rfl
    next hx => rw [h x (Bool.eq_false_iff.mpr hx), nil_append]

/-- The entries for the table: those of the owner that is exported by default, or all. -/
def Owners.table (owners : Owners) : List Metadata :=
  (owners.methods.filter fun x => owners.default.all (· == x.1.name)).flatMap (·.2.entries)

theorem annotated_entries (methods : List (Owner × Method)) :
    (methods.filter fun x => !x.2.annotations.isEmpty).flatMap (·.2.entries) =
      methods.flatMap (·.2.entries) := by
  refine flatMap_filter fun x hx => ?_
  rw [Method.entries, show x.2.annotations = [] by simpa using hx, filterMap_nil]

theorem annotated_table (owners : Owners) :
    ((owners.methods.filter fun x => !x.2.annotations.isEmpty).filter
      fun x => owners.default.all (· == x.1.name)).flatMap (·.2.entries) = owners.table := by
  rw [filter_comm]
  exact annotated_entries _

theorem rendered_entries (owners : Owners) (edited : List Char) :
    (owners.rendered edited).metadata = owners.methods.flatMap (·.2.entries) ∧
    (owners.rendered edited).diagnostics = owners.methods.flatMap (·.2.diagnostics) ∧
    (owners.rendered edited).table = owners.table := by
  have hfindings (m : Method) (h : (!m.annotations.isEmpty) = false) : m.diagnostics = [] := by
    rw [Method.diagnostics, show m.annotations = [] by simpa using h, filterMap_nil]
  rw [← annotated_entries, ← flatMap_filter fun x : Owner × Method => hfindings x.2,
    ← annotated_table, ← annotated_methods]
  simp only [Owners.rendered]
  split <;> exact ⟨rfl, rfl, rfl⟩

/-- Where extraction from markers succeeds, it renders the owners of the outline that was read. -/
theorem extractMarker_eq_some {read : String → Option Outline} {script : String} {e : Extraction}
    (he : extractMarker read script = some (some e)) :
    ∃ outline edited, read (String.ofList (markedText script.toList)) = some outline ∧
      e = ((markedOwners script.toList outline).rendered edited).extraction .marker := by
  obtain ⟨outline, hread, hmap⟩ := Option.map_eq_some_iff.mp he
  obtain ⟨r, hrender, rfl⟩ := Option.map_eq_some_iff.mp hmap
  obtain ⟨names, -, hedited⟩ := Option.bind_eq_some_iff.mp hrender
  obtain ⟨edited, -, rfl⟩ := Option.map_eq_some_iff.mp hedited
  exact ⟨outline, edited, hread, rfl⟩

theorem rendered_diagnostics
    (hargs : ∀ o ∈ owners.all, ∀ m ∈ o.methods, ∀ f ∈ m.annotations, ∃ args, f.args = .ok args)
    (edited : List Char) : (owners.rendered edited).diagnostics = [] := by
  rw [(rendered_entries owners edited).2.1]
  refine flatMap_eq_nil_iff.mpr fun x hx => ?_
  obtain ⟨ho, hm⟩ := mem_methods.mp hx
  exact (Method.entries_length (hargs _ ho _ hm)).2

/-! ### Statements after the script -/

/-- A method that a statement attaches entries to: a field of each instance is none. -/
def Method.attached (m : Method) : Bool := !m.instanceField && !m.entries.isEmpty

/-- The statement that attaches the entries of a method to it. -/
def assignment (x : Owner × Method) : String :=
  (x.1.target x.2).getD "" ++ ".__metadata = " ++ metadataText x.2.entries ++ ";"

theorem assignment?_eq (o : Owner) (m : Method) :
    o.assignment? m = if m.attached then some (assignment (o, m)) else none := by
  unfold Owner.assignment? Method.attached assignment Owner.target
  cases m.instanceField <;> cases m.entries.isEmpty <;> simp
  split <;> rfl

/-- The statement that exports the constant of a default export again. -/
def reexport : String := "export default " ++ defaultOwner ++ ";\n"

/-- The words `export default` in front of an object without a name become a constant. -/
def Owner.isRebound (o : Owner) : Bool :=
  o.isAnnotated && match o.anonymous with
    | some (.object _) => true
    | _ => false

/-- The statements of some owners: one for each method to which entries are attached, the table, and
the export of the constant. -/
theorem statements_eq (owners : Owners) : owners.statements =
    if (owners.methods.flatMap (·.2.entries)).isEmpty then []
    else (epilogue ((owners.methods.filter (·.2.attached)).map assignment) owners.table
      (owners.all.any Owner.isRebound)).toList := by
  have hassign : (owners.methods.filter fun x => !x.2.annotations.isEmpty).filterMap
      (fun x => x.1.assignment? x.2) = (owners.methods.filter (·.2.attached)).map assignment := by
    rw [← filterMap_eq_map, filterMap_filter, filterMap_filter]
    refine filterMap_congr fun x _ => ?_
    rw [assignment?_eq]
    cases hnil : x.2.annotations with
    | nil => simp [Method.attached, Method.entries, hnil]
    | cons f l => simp
  rw [← annotated_table, ← annotated_entries, ← hassign, ← annotated_methods, Owners.statements,
    any_filter]
  rfl

theorem reexport_suffix_statements
    (hargs : ∀ o ∈ owners.all, ∀ m ∈ o.methods, ∀ f ∈ m.annotations, ∃ args, f.args = .ok args)
    (h : owners.all.any Owner.isRebound = true) : reexport.toList <:+ owners.statements := by
  obtain ⟨o, ho, hrebound⟩ := any_eq_true.mp h
  obtain ⟨m, hm, hsome⟩ := any_eq_true.mp (Bool.and_eq_true_iff.mp hrebound).1
  have hentries : m.entries ≠ [] := by
    have hlength := (Method.entries_length (hargs o ho m hm)).1
    intro hnil
    rw [hnil] at hlength
    simp [eq_nil_of_length_eq_zero hlength.symm] at hsome
  rw [statements_eq, if_neg, epilogue, if_pos h, String.toList_append]
  · exact suffix_append ..
  · intro hempty
    exact hentries (flatMap_eq_nil_iff.mp (isEmpty_iff.mp hempty) (o, m)
      (mem_methods.mpr ⟨ho, hm⟩))

theorem suffix_followedBy {statements tail : List Char} (h : tail <:+ statements)
    (hne : tail ≠ []) : tail <:+ followedBy script statements := by
  have hstatements : statements ≠ [] := by
    rintro rfl
    exact hne (suffix_nil.mp h)
  rw [followedBy, if_neg (by simpa using hstatements)]
  exact (h.trans (suffix_cons ..)).trans (suffix_append ..)

/-- Nothing is lost between finding annotations and reading their markers. The arguments of every
annotation of a script can be read; its marker has the form of one, stands at its place of the marked
text, and gives back the name and these arguments. Extraction from markers then finds nothing wrong
and keeps every annotation of every method, and wherever it makes a constant of a default export, its
last statement exports that constant. -/
theorem markers_lose_nothing (script : String) : (∀ o ∈ occurrences script.toList, ∃ args,
      arguments o.args = .ok args ∧
      IsMarker (encodeMarker o.name o.args).toList o.name.toList (hexEncode (utf8 o.args.toList)) ∧
      decodeMarker (encodeMarker o.name o.args) = some (o.name, .ok args)) ∧
    (markersOf script.toList).map (·.occurrence) = occurrences script.toList ∧
    (∀ p ∈ markersOf script.toList, slice (markedText script.toList) p.at_ =
      (encodeMarker p.occurrence.name p.occurrence.args).toList) ∧
    ∀ read e, extractMarker read script = some (some e) →
      e.diagnostics = [] ∧
      ∃ outline, read (String.ofList (markedText script.toList)) = some outline ∧
        (∀ o ∈ (markedOwners script.toList outline).all, ∀ m ∈ o.methods,
          m.entries.length = m.annotations.length) ∧
        ((markedOwners script.toList outline).all.any Owner.isRebound = true →
          reexport.toList <:+ e.script.toList) := by
  refine ⟨fun o => occurrence_decodes, markersOf_occurrence _, fun p => slice_markedText, ?_⟩
  intro read e he
  obtain ⟨outline, edited, hread, rfl⟩ := extractMarker_eq_some he
  have hargs : ∀ o ∈ (markedOwners script.toList outline).all, ∀ m ∈ o.methods,
      ∀ f ∈ m.annotations, ∃ args, f.args = .ok args :=
    fun o ho m hm f hf => (found_markedOwners ho hm hf).2
  refine ⟨rendered_diagnostics hargs edited, outline, hread, ?_, fun hrebound => ?_⟩
  · exact fun o ho m hm => (Method.entries_length (hargs o ho m hm)).1
  · change reexport.toList <:+ ((markedOwners script.toList outline).rendered edited).script.toList
    rw [rendered_script]
    exact suffix_followedBy (reexport_suffix_statements hargs hrebound) (by simp [reexport])

/-- The arguments hold a parenthesis and a quote in quotes, and a character of two bytes. -/
def quotedCall : String :=
  "export default \x7b @on(\"a)é\\\"\", 'b') m() \x7b\x7d \x7d;"

def quotedCallOutline : Outline :=
  [.exportDefault ⟨0, 65⟩ (.value (.object
    ⟨⟨15, 64⟩, [⟨⟨56, 62⟩, some "m", false, .method, []⟩]⟩))]

theorem markers_lose_nothing_quotedCall :
    ∃ e, extractMarker (fun _ => some quotedCallOutline) quotedCall = some (some e) ∧
      (occurrences quotedCall.toList).map (fun o => (o.name, o.args)) =
        [("on", "\"a)é\\\"\", 'b'")] ∧
      decodeMarker (encodeMarker "on" "\"a)é\\\"\", 'b'") =
        some ("on", .ok [.string "a)é\"", .string "b"]) ∧
      e.diagnostics = [] ∧ reexport.toList <:+ e.script.toList := by
  have hfound : (occurrences quotedCall.toList).map (fun o => (o.name, o.args)) =
      [("on", "\"a)é\\\"\", 'b'")] := by decide +kernel
  have hargs : arguments "\"a)é\\\"\", 'b'" = .ok [.string "a)é\"", .string "b"] := by
    rfl
  have hrebound : (markedOwners quotedCall.toList quotedCallOutline).all.any Owner.isRebound =
      true := by decide +kernel
  obtain ⟨hdecodes, -, -, hextract⟩ := markers_lose_nothing quotedCall
  have hfaithful : Faithful (fun _ => 0) (marking quotedCall.toList) quotedCallOutline :=
    ⟨by decide +kernel, by decide +kernel, by decide +kernel⟩
  obtain ⟨e, he⟩ := extractMarker_succeeds (fun _ => some quotedCallOutline) rfl hfaithful
    (by simp [KeywordUnmarked, quotedCallOutline]) (by decide +kernel)
  obtain ⟨hclean, outline, hread, -, hlast⟩ := hextract (fun _ => some quotedCallOutline) e he
  cases hread
  refine ⟨e, he, hfound, ?_, hclean, hlast hrebound⟩
  obtain ⟨o, ho, heq⟩ : ∃ o ∈ occurrences quotedCall.toList,
      (o.name, o.args) = ("on", "\"a)é\\\"\", 'b'") :=
    mem_map.mp (hfound ▸ mem_singleton_self _)
  obtain ⟨args, harguments, -, hmarker⟩ := hdecodes o ho
  obtain ⟨hname, ho⟩ := Prod.mk.inj heq
  rw [hname, ho] at hmarker
  rw [ho, hargs] at harguments
  rw [hmarker, Except.ok.inj harguments]

/-! ### Places of the marked text

A marker is longer or shorter than the annotation it stands for, so a place of the marked text drifts
away from its place in the script, by more with every annotation. Counting from the last marker in
front of it gives it back. -/

/-- Segments start with characters up to the first annotation. -/
theorem exists_leading (gs : List Segment) : ∃ (s : List Char) (rest : List Segment),
    gs = s.map .plain ++ rest ∧ ∀ g ∈ rest.head?, ∃ o text, g = .note o text := by
  induction gs with
  | nil => exact ⟨[], [], rfl, by simp⟩
  | cons g gs ih =>
    cases g with
    | plain c =>
      obtain ⟨s, rest, rfl, hrest⟩ := ih
      exact ⟨c :: s, rest, rfl, hrest⟩
    | note o text => exact ⟨[], .note o text :: gs, rfl, fun g hg => ⟨o, text, (Option.some.inj hg).symm⟩⟩

/-- Markers stand one behind the other, each where its annotation is encoded. A place of the marked
text that is not inside a marker is a place of the script: the same characters and annotations come
before both, and the same characters follow up to the next annotation. -/
theorem unmarkedPlace_same (script : List Char) :
    let marked := markedText script
    let placed := markersOf script
    placed.Pairwise (fun m m' => m.at_.stop ≤ m'.at_.start) ∧
    placed.map (·.occurrence) = occurrences script ∧
    (∀ m ∈ placed, m.at_.start < m.at_.stop ∧ m.at_.stop ≤ marked.length ∧
      slice marked m.at_ = (encodeMarker m.occurrence.name m.occurrence.args).toList) ∧
    ∀ p ≤ marked.length, (∀ m ∈ placed, p ≤ m.at_.start ∨ m.at_.stop ≤ p) →
      ∃ a s b, segments script = a ++ (s.map .plain ++ b) ∧
        (∀ g ∈ b.head?, ∃ o text, g = .note o text) ∧
        marked = markedOf a ++ (s ++ markedOf b) ∧ p = (markedOf a).length ∧
        script = sourceOf a ++ (s ++ sourceOf b) ∧
        unmarkedPlace script marked placed p = byteLength (sourceOf a) := by
  have hslice (m : Placed) (hm : m ∈ markersOf script) := slice_markedText hm
  have hnotes := markersOf_occurrence script
  have hstanding := standing_segments script
  have hsource := sourceOf_segments script
  simp only [markersOf_eq, markedText_eq] at hslice hnotes ⊢
  refine ⟨pairwise_placedIn 0 _, hnotes, fun m hm => ?_, fun p hp hout => ?_⟩
  · have := mem_placedIn hm
    exact ⟨this.2.1, by omega, hslice m hm⟩
  · obtain ⟨a, b, hab, hcut⟩ := exists_cut (Nat.zero_le p) (by omega) hout
    obtain ⟨s, b, rfl, hb⟩ := exists_leading b
    have hplace := unmarkedPlace_cut (hab ▸ hstanding)
    rw [← hab, hsource, ← Nat.zero_add (markedOf a).length, hcut] at hplace
    refine ⟨a, s, b, hab, hb, ?_, by omega, ?_, hplace⟩
    · rw [hab, markedOf_append, markedOf_append, markedOf_plain]
    · rw [← hsource, hab, sourceOf_append, sourceOf_append, sourceOf_plain]

/-- The place behind the second marker. -/
theorem unmarkedPlace_same_accent : let script := "@a x @b(1) é y".toList
    28 ≤ (markedText script).length ∧
    (∀ m ∈ markersOf script, 28 ≤ m.at_.start ∨ m.at_.stop ≤ 28) ∧
    ∃ a s b, markedText script = markedOf a ++ (s ++ markedOf b) ∧ 28 = (markedOf a).length ∧
      script = sourceOf a ++ (s ++ sourceOf b) ∧
      unmarkedPlace script (markedText script) (markersOf script) 28 = byteLength (sourceOf a) := by
  intro script
  have hp : 28 ≤ (markedText script).length := by decide +kernel
  have hout : ∀ m ∈ markersOf script, 28 ≤ m.at_.start ∨ m.at_.stop ≤ 28 := by decide +kernel
  obtain ⟨a, s, b, -, -, hsame⟩ := (unmarkedPlace_same script).2.2.2 28 hp hout
  exact ⟨hp, hout, a, s, b, hsame⟩

end Componentry.Annotations
