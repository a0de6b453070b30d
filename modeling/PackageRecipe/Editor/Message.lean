import PackageRecipe.Editor.Diagnostic
import PackageRecipe.Editor.Hover
import PackageRecipe.Editor.Outline
import PackageRecipe.Json

/-!
# Editor messages

The forms in which positions, diagnostics, hovers and outlines are sent to an
editor. Members that are absent are left out.
-/

namespace PackageRecipe

open PackageRecipe.Text

/-- A position in a message, counted from zero. -/
def Text.Position.toJson (p : Position) : Json :=
  .object [("line", .nat p.line), ("character", .nat p.column)]

/-- The largest number of a line or a column in a message. -/
def Text.Position.maxNumber : Nat := 0xFFFFFFFF

/-- Reads a position from a message. -/
def Text.Position.ofJson? (j : Json) : Option Position := do
  let line ← (← j.get? "line").int?
  let column ← (← j.get? "character").int?
  if 0 ≤ line ∧ line ≤ maxNumber ∧ 0 ≤ column ∧ column ≤ maxNumber then
    some ⟨line.toNat, column.toNat⟩
  else none

/-- A region in a message. -/
def Text.Region.toJson (r : Region) : Json :=
  .object [("start", r.start.toJson), ("end", r.stop.toJson)]

/-- The number of a severity in messages. -/
def Sdl.Severity.code : Sdl.Severity → Nat
  | .error => 1
  | .warning => 2

namespace Editor

/-- A diagnostic in a message. -/
def Diagnostic.toJson (d : Diagnostic) : Json :=
  .object [("range", d.region.toJson), ("severity", .nat d.severity.code),
    ("source", .string Diagnostic.source), ("message", .string d.message)]

/-- A hover in a message. -/
def Hover.toJson (h : Hover) : Json :=
  .object [
    ("contents", .object [("kind", .string "markdown"), ("value", .string h.markdown)]),
    ("range", h.region.toJson)]

mutual

/-- A symbol in a message. -/
def Symbol.toJson : Symbol → Json
  | ⟨name, detail, kind, region, selection, children⟩ =>
    let below := Symbol.toJsons children
    .object ([("name", .string name)] ++
      (detail.map fun text => ("detail", .string text)).toList ++
      [("kind", .nat kind.code), ("range", region.toJson),
        ("selectionRange", selection.toJson)] ++
      if below.isEmpty then [] else [("children", .array below)])

/-- Symbols in a message. -/
def Symbol.toJsons : List Symbol → List Json
  | [] => []
  | s :: ss => Symbol.toJson s :: Symbol.toJsons ss

end

end Editor

end PackageRecipe
