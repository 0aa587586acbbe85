import VectorGraphics.Conversion.ToVectorDrawable
import VectorGraphics.Graphic.Document
import VectorGraphics.Optimizer.Attributes
import VectorGraphics.Optimizer.Groups
import VectorGraphics.Optimizer.Runs
import VectorGraphics.Optimizer.Transforms
import VectorGraphics.Path.Arcs
import VectorGraphics.Path.Spelling

/-!
# Passes

A `Pass` is one way of making a graphic shorter. `Pass.run` runs one, `pipeline` lists those that
the `Options` ask for in the order in which they help each other, and `optimize` runs these.
`optimizeText` reads a graphic, optimizes it, converts it if another format is asked for, and writes
it.
-/

namespace VectorGraphics.Optimizer

/-! ## Options -/

/-- What an optimization may do. -/
structure Options where
  /-- The decimal places of coordinates. -/
  places : UInt8 := 2
  /-- The largest distance by which a simplification may move an outline. -/
  tolerance : Single := 0.01
  /-- The format to write; the format that was read if there is none. -/
  output : Option Format := none
  /-- Whether the transforms of groups are applied to the paths inside. -/
  bakeTransforms : Bool := true
  /-- Whether curves become lines and smooth curves. -/
  simplifyCurves : Bool := true
  /-- Whether curves become circular arcs. -/
  convertToArcs : Bool := true
  /-- Whether neighbouring paths with equal attributes are joined. -/
  mergePaths : Bool := true
  /-- Whether groups without attributes are dissolved. -/
  collapseGroups : Bool := true
  /-- Whether attributes with their default value are removed. -/
  removeDefaults : Bool := true
  /-- Whether colors are written in their shortest form. -/
  minifyColors : Bool := true

/-! ## The passes -/

/-- The passes, in the order in which they run. -/
inductive Pass
  | bakeTransforms
  | splitGroups
  | simplifyCurves
  | convertToArcs
  | alignLines
  | chooseModes
  | dropRepeated
  | removeDefaults
  | minifyColors
  | mergePaths
  | removeEmptyGroups
  | collapseGroups
  deriving DecidableEq, Repr

/-- How a pass goes through a tree. -/
inductive Traversal
  /-- Element by element, parents first. -/
  | topDown
  /-- Sibling list by sibling list, innermost lists first. -/
  | bottomUp
  /-- The graphic as a whole. -/
  | wholeGraphic
  deriving DecidableEq, Repr

/-- The name of a traversal. -/
def Traversal.name : Traversal → String
  | topDown => "TopDown"
  | bottomUp => "BottomUp"
  | wholeGraphic => "WholeGraphic"

namespace Pass

/-- All passes, in the order in which they run. -/
def all : List Pass :=
  [bakeTransforms, splitGroups, simplifyCurves, convertToArcs, alignLines, chooseModes,
    dropRepeated, removeDefaults, minifyColors, mergePaths, removeEmptyGroups, collapseGroups]

/-- The name of a pass. -/
def name : Pass → String
  | bakeTransforms => "BakeTransformations"
  | splitGroups => "BreakoutImplicitCommands"
  | simplifyCurves => "SimplifyBezierCurveCommands"
  | convertToArcs => "ConvertCurvesToArcs"
  | alignLines => "SimplifyLineCommands"
  | chooseModes => "CommandVariant"
  | dropRepeated => "RemoveRedundantCommands"
  | removeDefaults => "RemoveRedundantAttributes"
  | minifyColors => "MinifyColors"
  | mergePaths => "MergePaths"
  | removeEmptyGroups => "RemoveEmptyGroups"
  | collapseGroups => "CollapseGroups"

/-- The traversal of a pass. -/
def traversal : Pass → Traversal
  | mergePaths => .wholeGraphic
  | removeEmptyGroups | collapseGroups => .bottomUp
  | _ => .topDown

/-- Whether the options ask for a pass. -/
def isEnabled (o : Options) : Pass → Bool
  | bakeTransforms => o.bakeTransforms
  | simplifyCurves => o.simplifyCurves
  | convertToArcs => o.convertToArcs
  | removeDefaults => o.removeDefaults
  | minifyColors => o.minifyColors
  | mergePaths => o.mergePaths
  | removeEmptyGroups | collapseGroups => o.collapseGroups
  | splitGroups | alignLines | chooseModes | dropRepeated => true

/-- What a pass makes of a graphic. -/
def apply (o : Options) (g : Graphic) : Pass → Logged Graphic
  | bakeTransforms => bakeGraphic o.places g
  | splitGroups => pure (mapGraphicShapes Path.splitGroups g)
  | simplifyCurves => pure (mapGraphicShapes (Path.simplifyCurves o.tolerance o.places) g)
  | convertToArcs => pure (mapGraphicShapes (Path.convertToArcs o.tolerance o.places) g)
  | alignLines => pure (mapGraphicShapes (Path.alignLines o.tolerance) g)
  | chooseModes => pure (mapGraphicShapes (Path.chooseModes o.places) g)
  | dropRepeated => pure (mapGraphicShapes Path.dropRepeated g)
  | removeDefaults => pure (mapGraphicAttributes (Optimizer.removeDefaults g.format) g)
  | minifyColors => pure (mapGraphicAttributes (fun _ => Optimizer.minifyColors g.format) g)
  | mergePaths => mergeGraphic g
  | removeEmptyGroups => removeEmptyGraphic g
  | collapseGroups => collapseGraphic g

/-- Runs a pass, whether or not the options ask for it. -/
def run (o : Options) (g : Graphic) (p : Pass) : Logged Graphic := do
  Logged.note (.running p.name)
  p.apply o g

end Pass

/-! ## Optimizing -/

/-- The passes that the options ask for. -/
def pipeline (o : Options) : List Pass := Pass.all.filter (Pass.isEnabled o)

/-- Optimizes a graphic in its own format. -/
def optimize (o : Options) (g : Graphic) : Logged Graphic := (pipeline o).foldlM (Pass.run o) g

/-- A graphic optimized and brought into the format that the options ask for. -/
def produce (o : Options) (g : Graphic) : Logged Graphic := do
  let g ← optimize o g
  Conversion.convert (o.output.getD g.format) g

/-- The text of a graphic optimized and brought into the format that the options ask for. -/
def optimizeText (o : Options) (s : String) : Reading String := do
  let g ← read s
  let g ← ExceptT.lift (produce o g)
  return write g o.places

end VectorGraphics.Optimizer
