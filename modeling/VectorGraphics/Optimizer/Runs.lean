import VectorGraphics.Optimizer.Stroke
import VectorGraphics.Optimizer.Traversal
import VectorGraphics.Path.Bounds

/-!
# Merging paths

`mergeSiblings` joins neighbouring painted paths into one. Paths join only if they have no
identifier and equal attributes, and if their boxes have no point in common: shapes that overlap
would be painted differently as one path. Every other element ends a run.
-/

namespace VectorGraphics.Optimizer

/-- One or more neighbouring paths that are drawn as one. -/
structure Run where
  /-- The attributes of all of them. -/
  foreign : Attributes
  /-- Their commands, one path after another. -/
  commands : List Path.Command
  /-- A box around what they paint. -/
  box : Path.Bounds

namespace Run

/-- The path that a run becomes. -/
def element (r : Run) : Element := .shape .painted { foreign := r.foreign } r.commands

/-- The commands of a path as they are appended to another one. A relative move at the front
counts from the origin, so that it has to become absolute. -/
def appendable : List Path.Command → List Path.Command
  | [] => []
  | c :: cs => c.inMode .absolute .origin :: cs

/-- The run continued by another one, unless they are painted differently together. -/
def join? (r s : Run) : Option Run :=
  if r.foreign = s.foreign ∧ !r.box.overlaps s.box then
    some
      { foreign := r.foreign
        commands := r.commands ++ appendable s.commands
        box := r.box.union s.box }
  else none

/-- The run of one path. A path with an identifier, or without any point, has none. -/
def ofElement? (format : Format) (scope : Scope) : Element → Option Run
  | .shape .painted ⟨none, foreign⟩ commands =>
    (Path.Bounds.ofPath? commands).map fun box =>
      { foreign, commands, box := box.expand (strokeMargin format scope foreign) }
  | _ => none

end Run

/-- Merges siblings after the run that ends just before them, if one does. -/
def mergeFrom (format : Format) (scope : Scope) : Option Run → List Element → List Element
  | none, [] => []
  | some r, [] => [r.element]
  | current, e :: es =>
    match current, Run.ofElement? format scope e with
    | none, none => e :: mergeFrom format scope none es
    | none, some s => mergeFrom format scope (some s) es
    | some r, none => r.element :: e :: mergeFrom format scope none es
    | some r, some s =>
      match r.join? s with
      | some joined => mergeFrom format scope (some joined) es
      | none => r.element :: mergeFrom format scope (some s) es

/-- Merges siblings. -/
def mergeSiblings (format : Format) (scope : Scope) (elements : List Element) :
    Logged (List Element) := do
  let merged := mergeFrom format scope none elements
  if merged.length ≠ elements.length then
    Logged.note (.merged elements.length merged.length)
  return merged

/-- Merges the siblings everywhere in a graphic. -/
def mergeGraphic (g : Graphic) : Logged Graphic :=
  mapGraphicSiblings (fun _ => true) (mergeSiblings g.format) g

end VectorGraphics.Optimizer
