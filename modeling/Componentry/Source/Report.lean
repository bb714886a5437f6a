import Componentry.Source.Blocks

/-!
# Blocks as JSON values
-/

namespace Componentry

def Style.Region.toJson (r : Style.Region) : Json :=
  .object [("rawContent", .string r.content), ("attributes", .ofDictionary r.attributes),
    ("isGlobal", .bool r.isGlobal), ("dialect", .string r.dialect.word), ("line", .nat r.line)]

def Source.Script.toJson (s : Source.Script) : Json :=
  .object [("content", .string s.content), ("attributes", .ofDictionary s.attributes),
    ("line", .nat s.line)]

def Source.Blocks.toJson (b : Source.Blocks) : Json :=
  .object [("template", .string b.template), ("templateLine", .nat b.templateLine),
    ("script", .ofOption Source.Script.toJson b.script),
    ("styleRegions", .array (b.styles.map Style.Region.toJson)),
    ("routeAttrs", .ofOption .ofDictionary b.route)]

end Componentry
