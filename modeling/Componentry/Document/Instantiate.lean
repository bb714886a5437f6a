import Componentry.Document.Forest
import Componentry.Markup.Rules

/-!
# Copies of fragments and shared sheets

A fragment is copied into a forest as often as it is needed; the markup it comes from is read once
for each text. Sheets are made once for each text and applied at most once to a node.
-/

namespace Componentry.Document

open Markup (FragmentNode Fragment)

mutual

def Forest.build (f : Forest) : FragmentNode → Forest × NodeId
  | .text s => f.createText s
  | .comment s => f.createComment s
  | .element tag attributes children =>
    let (f, id) := f.createElement tag
    let f := attributes.foldl (fun f a => (f.setAttribute id a.1 a.2).1) f
    ((Forest.buildAll f id children).1, id)

/-- Makes the nodes of trees and appends them to a node; the new children in order. -/
def Forest.buildAll (f : Forest) (parent : NodeId) : List FragmentNode → Forest × List NodeId
  | [] => (f, [])
  | n :: rest =>
    let (f, id) := Forest.build f n
    let (f, ids) := Forest.buildAll (f.append parent id) parent rest
    (f, id :: ids)

end

/-- Fragments by the text they were read from. -/
structure TemplateCache where
  fragments : List (String × Fragment) := []
  parses : Nat := 0

def TemplateCache.fragment (c : TemplateCache) (text : String) : TemplateCache × Fragment :=
  match c.fragments.find? fun e => e.1 == text with
  | some e => (c, e.2)
  | none =>
    let new := Markup.parse text
    ({ fragments := (text, new) :: c.fragments, parses := c.parses + 1 }, new)

/-- Sheets by their digest. -/
structure SheetCache where
  sheets : List Sheet := []
  constructions : Nat := 0
deriving DecidableEq, Repr

namespace SheetCache

def sheet (c : SheetCache) (css : String) : SheetCache × Sheet :=
  let new := Sheet.ofCss css
  match c.sheets.find? fun s => s.digest == new.digest with
  | some s => (c, s)
  | none => ({ sheets := new :: c.sheets, constructions := c.constructions + 1 }, new)

/-- Applies the sheet of a text to a node; blank text is passed over. The digest tells which sheet
is applied now. -/
def attach (c : SheetCache) (f : Forest) (root : NodeId) (css : String) :
    SheetCache × Forest × Option String :=
  if Text.isBlankText css then (c, f, none)
  else
    let (c, s) := c.sheet css
    (c, f.adoptSheet root s, some s.digest)

end SheetCache

end Componentry.Document
