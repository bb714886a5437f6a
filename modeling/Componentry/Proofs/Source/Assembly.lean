import Componentry.Proofs.Source.Nesting

/-!
# Units put together from blocks

A unit is written as a route tag, a template, a script and any number of style regions, with blanks
between them. Each block may hold whatever looks like another one. Splitting the unit gives every block
back: what belongs to one is blanked out before the next is looked for, and no block ends earlier or
later than it was written.
-/

namespace Componentry.Source

open Text List

/-- A style region. -/
structure StyleBlock where
  attributes : List Attribute
  trail : Blanks
  content : List Char
  /-- Its closing tag does not stand in its text. -/
  unclosed : Unclosed "style".toList content
  after : Blanks

def StyleBlock.text (b : StyleBlock) : List Char :=
  regionText "style".toList (attributesText b.attributes b.trail) b.content ++ b.after.1

/-- A unit put together from blocks. -/
structure Assembly where
  before : Blanks
  /-- The attributes of the route tag. -/
  route : List RouteAttribute
  routeTrail : Blanks
  afterRoute : Blanks
  template : List Char
  /-- Template tags in it open and close in pairs. -/
  balanced : Balanced template
  /-- It does not end in a template tag. -/
  finished : Finished template
  afterTemplate : Blanks
  /-- The attributes of the script tag. -/
  attributes : List Attribute
  trail : Blanks
  script : List Char
  /-- The closing tag of scripts does not stand in it. -/
  unclosed : Unclosed "script".toList script
  afterScript : Blanks
  styles : List StyleBlock

namespace Assembly

variable (a : Assembly)

/-- What stands before the template. -/
def opening : List Char := a.before.1 ++ (routeTag a.route a.routeTrail ++ a.afterRoute.1)

def templateBlock : List Char := regionText "template".toList [] a.template

def scriptBlock : List Char :=
  regionText "script".toList (attributesText a.attributes a.trail) a.script

/-- What stands after the script. -/
def closing : List Char := a.afterScript.1 ++ a.styles.flatMap StyleBlock.text

/-- The text of the unit. -/
def chars : List Char :=
  a.opening ++ (a.templateBlock ++ (a.afterTemplate.1 ++ (a.scriptBlock ++ a.closing)))

def text : String := String.ofList a.chars

/-! ### What stands before the template -/

theorem opening_eq : ∃ w, '<' ∉ 'r' :: w ∧ a.opening = a.before.1 ++ '<' :: 'r' :: w ∧
    a.opening.length = 0 + a.before.1.length + 1 + ('r' :: w).length := by
  refine ⟨'o' :: 'u' :: 't' :: 'e' :: (routeText a.route a.routeTrail ++ ['/', '>'] ++ a.afterRoute.1),
    ?_, ?_, ?_⟩
  · have hroute := (Bracketless.routeText a.route a.routeTrail).not_mem
    have hafter := (Bracketless.blanks a.afterRoute).not_mem
    simp [hroute, hafter]
  · simp [opening, routeTag]
  · simp [opening, routeTag]
    omega

variable {a} {s name : List Char} {p : List Region → Prop}

theorem findsTags_opening {l : List TemplateTag} (h : FindsTags a.opening.length s l) :
    FindsTags 0 (a.opening ++ s) l := by
  obtain ⟨w, hw, hopening, hlength⟩ := a.opening_eq
  rw [hlength] at h
  rw [hopening, append_assoc]
  exact .skip (Bracketless.blanks a.before).not_mem (.cons rfl (h.skip hw))

theorem findsRegions_opening {d : Char} (hd : d ≠ 'r')
    (h : FindsRegions (d :: name) a.opening.length s p) :
    FindsRegions (d :: name) 0 (a.opening ++ s) p := by
  obtain ⟨w, hw, hopening, hlength⟩ := a.opening_eq
  have hnone : ∀ place, regionAt (d :: name) place ('<' :: ('r' :: w ++ s)) = none := by
    intro place
    have hlead : dropLeadFold? ('<' :: d :: name) ('<' :: ('r' :: w ++ s)) = none :=
      dropLeadFold?_cons_ne hd name (w ++ s)
    rw [regionAt, hlead]
    rfl
  rw [hlength] at h
  rw [hopening, append_assoc]
  exact .skip (Bracketless.blanks a.before).not_mem (.cons (hnone _) (h.skip hw))

variable (a)

/-! ### Template and script -/

theorem templateRegion?_chars : templateRegion? a.chars =
      some (⟨a.opening.length, a.opening.length + a.templateBlock.length⟩,
        (regionSpans "template".toList [] a.template a.opening.length).inner) := by
  obtain ⟨inner, l, hdepth, hfinds⟩ := FindsTags.template a.balanced a.finished a.opening.length
    (a.afterTemplate.1 ++ (a.scriptBlock ++ a.closing))
  have hname : "template".toList.length = 8 := by simp
  rw [chars, templateBlock, templateRegion?_of_finds (findsTags_opening hfinds) hdepth]
  simp only [regionText, closingTag, regionSpans, length_append, length_cons,
    length_nil, Option.some.injEq, Prod.mk.injEq, Span.mk.injEq, true_and]
  omega

/-- What stands before the script, once the template is blanked out. -/
def leading : List Char := a.opening ++ (blanked a.templateBlock ++ a.afterTemplate.1)

theorem mask_template : mask ⟨a.opening.length, a.opening.length + a.templateBlock.length⟩ a.chars =
      a.leading ++ (a.scriptBlock ++ a.closing) := by
  rw [chars, mask_append, leading, append_assoc, append_assoc]

theorem length_leading :
    (a.opening ++ (a.templateBlock ++ a.afterTemplate.1)).length = a.leading.length := by
  simp [leading, length_blanked]

theorem findsRegions_leading {d : Char} (hd : d ≠ 'r')
    (h : FindsRegions (d :: name) a.leading.length s p) :
    FindsRegions (d :: name) 0 (a.leading ++ s) p := by
  have hblank : '<' ∉ blanked a.templateBlock ++ a.afterTemplate.1 :=
    ((Bracketless.blanked _).append (.blanks _)).not_mem
  rw [leading, length_append] at h
  rw [leading, append_assoc]
  exact findsRegions_opening hd (h.skip hblank)

/-- Where the script stands. -/
def scriptSpans : Region :=
  regionSpans "script".toList (attributesText a.attributes a.trail) a.script a.leading.length

theorem regions_script :
    (regions "script" (a.leading ++ (a.scriptBlock ++ a.closing))).head? = some a.scriptSpans := by
  have hscript : FindsRegions "script".toList a.leading.length (a.scriptBlock ++ a.closing)
      fun l => l.head? = some a.scriptSpans :=
    .region (by decide) (.attributesText _ _) (head_attributesText _ _) a.unclosed fun _ _ => rfl
  have hall := a.findsRegions_leading (by decide) hscript
  exact hall _ le_rfl

/-- What stands before the style regions, once template and script are blanked out. -/
def blankedLeading : List Char := a.leading ++ (blanked a.scriptBlock ++ a.afterScript.1)

theorem mask_script : mask a.scriptSpans.whole (a.leading ++ (a.scriptBlock ++ a.closing)) =
      a.blankedLeading ++ a.styles.flatMap StyleBlock.text := by
  have hmask := mask_append a.leading a.scriptBlock a.closing
  rw [blankedLeading, append_assoc, append_assoc]
  exact hmask

/-! ### Styles and route -/

theorem findsRegions_styles (source masked : List Char) (styles : List StyleBlock)
    (lead lead' : List Char) (hs : source = lead ++ styles.flatMap StyleBlock.text)
    (hm : masked = lead' ++ styles.flatMap StyleBlock.text) (hl : lead.length = lead'.length) :
    FindsRegions "style".toList lead.length (styles.flatMap StyleBlock.text) fun l =>
      l.map (fun r => ((Source.content source r.inner).1,
        Source.attributes (r.attributes.cutMasked source masked))) =
      styles.map fun b =>
        (String.ofList (trim b.content), .ofList (b.attributes.map Attribute.entry)) := by
  induction styles generalizing lead lead' with
  | nil => exact .nil rfl
  | cons b styles ih =>
    simp only [flatMap_cons, StyleBlock.text, append_assoc] at hs hm ⊢
    have hcontent := content_region hs
    have hattributes := cutMasked_region hs hm hl
    let block := regionText "style".toList (attributesText b.attributes b.trail) b.content ++ b.after.1
    have hrest := ih (lead ++ block) (lead' ++ block)
      (by rw [hs, append_assoc, append_assoc]) (by rw [hm, append_assoc, append_assoc])
      (by simp only [length_append, hl])
    refine .region (by decide) (.attributesText _ _) (head_attributesText _ _) b.unclosed
      (.skip (Bracketless.blanks b.after).not_mem ?_)
    rw [length_append, length_append, ← Nat.add_assoc] at hrest
    refine hrest.imp fun l hl => ?_
    rw [map_cons, map_cons, hl, hcontent, hattributes, attributes_attributesText]

theorem routeFrom_blankedLeading (s : List Char) : routeFrom 0 (a.blankedLeading ++ s) =
      some ⟨a.before.1.length + 6, a.before.1.length + 6 + (routeText a.route a.routeTrail).length⟩ := by
  have hsplit : a.blankedLeading ++ s = a.before.1 ++ (routeTag a.route a.routeTrail ++
      (a.afterRoute.1 ++ (blanked a.templateBlock ++ (a.afterTemplate.1 ++
        (blanked a.scriptBlock ++ (a.afterScript.1 ++ s)))))) := by
    simp [blankedLeading, leading, opening]
  rw [hsplit]
  exact routeFrom_append (Bracketless.blanks a.before).not_mem ..

theorem routeAttributes_blankedLeading (s : List Char) : routeAttributes ((⟨a.before.1.length + 6,
      a.before.1.length + 6 + (routeText a.route a.routeTrail).length⟩ : Span).cutMasked a.chars
        (a.blankedLeading ++ s)) = .ofList (a.route.map RouteAttribute.entry) := by
  have hparts : ∀ x : List Char, a.opening ++ x = (a.before.1 ++ ['<', 'r', 'o', 'u', 't', 'e']) ++
      (routeText a.route a.routeTrail ++ (['/', '>'] ++ (a.afterRoute.1 ++ x))) := by
    intro x
    simp [opening, routeTag]
  have hmasked : a.blankedLeading ++ s = a.opening ++ (blanked a.templateBlock ++
      (a.afterTemplate.1 ++ (blanked a.scriptBlock ++ (a.afterScript.1 ++ s)))) := by
    simp [blankedLeading, leading]
  have hlength : (a.before.1 ++ ['<', 'r', 'o', 'u', 't', 'e']).length = a.before.1.length + 6 :=
    length_append
  rw [chars, hmasked, hparts, hparts, ← hlength, Span.cutMasked_append rfl, routeAttributes_routeText]

theorem chars_eq : a.chars =
    (a.opening ++ (a.templateBlock ++ a.afterTemplate.1)) ++ (a.scriptBlock ++ a.closing) := by
  simp [chars]

theorem content_script : (Source.content a.chars a.scriptSpans.inner).1 =
    String.ofList (trim a.script) := by
  rw [scriptSpans, ← length_leading]
  exact content_region a.chars_eq

theorem cutMasked_script :
    a.scriptSpans.attributes.cutMasked a.chars (a.leading ++ (a.scriptBlock ++ a.closing)) =
      attributesText a.attributes a.trail := by
  rw [scriptSpans, ← length_leading]
  exact cutMasked_region a.chars_eq rfl a.length_leading

theorem regions_style :
    (regions "style" (a.blankedLeading ++ a.styles.flatMap StyleBlock.text)).map (fun r =>
      ((Source.content a.chars r.inner).1, Source.attributes (r.attributes.cutMasked a.chars
        (a.blankedLeading ++ a.styles.flatMap StyleBlock.text)))) =
      a.styles.map fun b =>
        (String.ofList (trim b.content), .ofList (b.attributes.map Attribute.entry)) := by
  let lead := a.opening ++ (a.templateBlock ++ (a.afterTemplate.1 ++ (a.scriptBlock ++ a.afterScript.1)))
  have hs : a.chars = lead ++ a.styles.flatMap StyleBlock.text := by
    simp [chars, closing, lead, append_assoc]
  have hlength : lead.length = a.blankedLeading.length := by
    simp only [lead, blankedLeading, leading, length_append, length_blanked]
    omega
  have hblank : '<' ∉ blanked a.scriptBlock ++ a.afterScript.1 :=
    ((Bracketless.blanked _).append (.blanks _)).not_mem
  have hstyles := findsRegions_styles a.chars _ a.styles lead a.blankedLeading hs rfl hlength
  rw [hlength, blankedLeading, length_append] at hstyles
  have hall := a.findsRegions_leading (by decide) (hstyles.skip hblank)
  rw [← append_assoc] at hall
  exact hall _ le_rfl

end Assembly

/-- Splitting a unit into its blocks undoes putting it together: the template, the script with its
attributes, the style regions in order with theirs, and the attributes of the route tag. -/
theorem blocks_assembly (options : Options) (a : Assembly) : let b := blocks options a.text
    b.template = String.ofList (trim a.template) ∧
    b.script.map (fun s => (s.content, s.attributes)) =
      some (String.ofList (trim a.script), .ofList (a.attributes.map Attribute.entry)) ∧
    b.styles.map (fun r => (r.content, r.attributes)) =
      a.styles.map (fun s =>
        (String.ofList (trim s.content), .ofList (s.attributes.map Attribute.entry))) ∧
    b.route = some (.ofList (a.route.map RouteAttribute.entry)) := by
  intro b
  refine ⟨?_, ?_, ?_, ?_⟩
  · simp only [b, blocks, Assembly.text, String.toList_ofList, a.templateRegion?_chars]
    exact content_region rfl
  · simp [b, blocks, Assembly.text, String.toList_ofList, a.templateRegion?_chars, a.mask_template, a.regions_script, Option.map_some, a.content_script, a.cutMasked_script, attributes_attributesText]
  · simp only [b, blocks, Assembly.text, String.toList_ofList, a.templateRegion?_chars, a.mask_template,
      a.regions_script, a.mask_script, map_map]
    exact a.regions_style
  · simp [b, blocks, Assembly.text, String.toList_ofList, a.templateRegion?_chars, a.mask_template, a.regions_script, a.mask_script, a.routeFrom_blankedLeading, Option.map_some, a.routeAttributes_blankedLeading]

/-- A unit whose blocks hold the tags of others, and whose route ends with a slash. -/
def catalogue : Assembly where
  before := ⟨[], nofun⟩
  route :=
    [{ gap := ⟨[' '], all_eq_true.mp rfl⟩
       gap_ne := nofun
       first := 'p'
       first_start := by decide
       others := ['a', 't', 'h']
       others_chars := all_eq_true.mp rfl
       before := ⟨[], nofun⟩
       after := ⟨[' '], all_eq_true.mp rfl⟩
       value := ⟨['/', 'a', '/'], by simp⟩ }]
  routeTrail := ⟨[], nofun⟩
  afterRoute := ⟨['\n'], all_eq_true.mp rfl⟩
  template := " <p><TEMPLATE a><script>1</script></template></p><route/>".toList
  balanced := by decide +kernel
  finished := by decide +kernel
  afterTemplate := ⟨['\n'], all_eq_true.mp rfl⟩
  attributes :=
    [{ gap := ⟨[' '], all_eq_true.mp rfl⟩
       gap_ne := nofun
       name := ['L', 'a', 'n', 'g']
       name_ne := nofun
       name_chars := all_eq_true.mp rfl
       spelling := .bare ⟨[], nofun⟩ ⟨[], nofun⟩ ⟨['t', 's'], by simp⟩ nofun (all_eq_true.mp rfl) },
     { gap := ⟨['\t'], all_eq_true.mp rfl⟩
       gap_ne := nofun
       name := ['d', 'e', 'f', 'e', 'r']
       name_ne := nofun
       name_chars := all_eq_true.mp rfl
       spelling := .alone }]
  trail := ⟨[' '], all_eq_true.mp rfl⟩
  script := "let s = \"<style></style></template><route x=1>\"\n".toList
  unclosed := by decide +kernel
  afterScript := ⟨[], nofun⟩
  styles :=
    [{ attributes :=
        [{ gap := ⟨[' '], all_eq_true.mp rfl⟩
           gap_ne := nofun
           name := ['i', 'd']
           name_ne := nofun
           name_chars := all_eq_true.mp rfl
           spelling := .single ⟨[' '], all_eq_true.mp rfl⟩ ⟨[], nofun⟩ ⟨['=', ' '], by simp⟩ (by simp) }]
       trail := ⟨[], nofun⟩
       content := "<style>a</script>".toList
       unclosed := by decide +kernel
       after := ⟨['\n'], all_eq_true.mp rfl⟩ },
     { attributes := []
       trail := ⟨[], nofun⟩
       content := []
       unclosed := by decide +kernel
       after := ⟨[], nofun⟩ }]

/-- Its blocks are the ones it was put together from. -/
theorem blocks_assembly_catalogue :
    catalogue.text = "<route path= \"/a/\"/>\n<template> <p><TEMPLATE a><script>1</script></template>" ++
      "</p><route/></template>\n<script Lang=ts\tdefer >let s = \"<style></style></template>" ++
      "<route x=1>\"\n</script><style id ='= '><style>a</script></style>\n<style></style>" ∧
    let b := blocks {} catalogue.text
    b.template = "<p><TEMPLATE a><script>1</script></template></p><route/>" ∧
    b.script.map (fun s => (s.content, s.attributes)) =
      some ("let s = \"<style></style></template><route x=1>\"", ⟨[("defer", "true"), ("lang", "ts")]⟩) ∧
    b.styles.map (fun r => (r.content, r.attributes)) =
      [("<style>a</script>", ⟨[("id", "= ")]⟩), ("", ⟨[]⟩)] ∧
    b.route = some ⟨[("path", "/a/")]⟩ := by
  obtain ⟨htemplate, hscript, hstyles, hroute⟩ := blocks_assembly {} catalogue
  exact ⟨by decide +kernel, htemplate.trans (by decide +kernel), hscript.trans (by decide +kernel),
    hstyles.trans (by decide +kernel), hroute.trans (by decide +kernel)⟩

end Componentry.Source
