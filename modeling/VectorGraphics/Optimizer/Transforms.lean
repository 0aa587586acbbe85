import VectorGraphics.Graphic.Notice
import VectorGraphics.Number.Places
import VectorGraphics.Optimizer.Stroke
import VectorGraphics.Path.Mapping

/-!
# Baking transforms

`bakeGraphic` applies the transforms of groups to the paths inside. A group hands its transform
down to all its children or to none of them: a path is mapped, a group puts the transform in front
of its own, and a group that cannot do so is wrapped in a new group with the transform.

A transform is handed down once on the way from the root to the leaves, so that a group decides
about its own transform when all that comes from above is already in it.

* `obstacle?` tells why a group keeps its transform, and `absorbs` which children would lose it.
* `bake` goes through the tree with the transform `handed` down from the parent.
-/

namespace VectorGraphics.Optimizer

/-! ## Obstacles -/

/-- Why a group keeps its transform. -/
inductive Obstacle
  | unresolvedTransform
  | groupReference
  | opaqueChild
  | pathTransform
  | pathReference
  | unevenStroke
  | styledStroke
  | dashedStroke
  | inheritedWidth
  | unreadableWidth
  deriving DecidableEq, Repr

/-- The obstacle in words. -/
def Obstacle.reason : Obstacle → String
  | unresolvedTransform => "transform is not literal"
  | groupReference => "it references a url()"
  | opaqueChild => "it has opaque children"
  | pathTransform => "a path has its own transform"
  | pathReference => "a path references a url()"
  | unevenStroke => "a stroked path would be scaled unevenly"
  | styledStroke => "a path styles its stroke inline"
  | dashedStroke => "a path has a dashed stroke"
  | inheritedWidth => "a path inherits its stroke width"
  | unreadableWidth => "a stroke width is not a number"

/-- Whether a transform that could not be read is left among the attributes. -/
def hasUnresolvedTransform (format : Format) (foreign : Attributes) : Bool :=
  format.transformKeys.any foreign.contains

/-- Whether an attribute refers to a clip path, a mask, a filter or a gradient, which lies in the
coordinates of the element that refers to it. -/
def hasReference (foreign : Attributes) : Bool :=
  foreign.toList.any fun entry => Text.contains "url(" entry.2

/-- What keeps the stroke of an SVG path from being scaled. -/
def svgStrokeObstacle? (scope : Scope) (foreign : Attributes) : Option Obstacle :=
  if ((foreign.get? "style").map declarations).any
      (·.any fun (property, _) => Text.startsWith "stroke" property) then
    some .styledStroke
  else if (scope.resolve foreign "stroke-dasharray").any (fun dashes => Text.trim dashes != "none")
      || (scope.resolve foreign "stroke-dashoffset").isSome then
    some .dashedStroke
  else if !foreign.contains "stroke-width" && (scope.get? "stroke-width").isSome then
    some .inheritedWidth
  else none

/-- What keeps a stroke from being scaled. -/
def strokeObstacle? (format : Format) (scope : Scope) (foreign : Attributes) : Option Obstacle :=
  (match format with
    | .svg => svgStrokeObstacle? scope foreign
    | .vectorDrawable => none).or
  (match foreign.get? format.strokeWidthKey with
    | some width => if (number? width).isNone then some .unreadableWidth else none
    | none => none)

/-- What keeps a path with the given attributes from being mapped. -/
def pathObstacle? (format : Format) (m : Matrix) (scope : Scope) (foreign : Attributes) :
    Option Obstacle :=
  if format = .svg ∧ foreign.contains "transform" then some .pathTransform
  else if hasReference foreign then some .pathReference
  else if m.isShift || !isStroked format scope foreign then none
  else if m.uniformScale?.isNone then some .unevenStroke
  else strokeObstacle? format scope foreign

/-- What keeps a child from taking the transform of its group. -/
def childObstacle? (format : Format) (m : Matrix) (scope : Scope) : Element → Option Obstacle
  | .shape _ label _ => pathObstacle? format m scope label.foreign
  | .container (.group _) _ _ => none
  | _ => some .opaqueChild

/-- What keeps a group from handing its transform down, the first obstacle there is. -/
def obstacle? (format : Format) (scope : Scope) (m : Matrix) (foreign : Attributes)
    (children : List Element) : Option Obstacle :=
  if hasUnresolvedTransform format foreign then some .unresolvedTransform
  else if hasReference foreign then some .groupReference
  else children.findSome? (childObstacle? format m (scope.enter foreign))

/-! ## Taking a transform -/

/-- Whether a child group with the transform `t` has to be wrapped: its transform is not known, or
the product has no form in a vector drawable. -/
def needsWrapper (format : Format) (m t : Matrix) (foreign : Attributes) : Bool :=
  hasUnresolvedTransform format foreign
    || (format = .vectorDrawable && (m * t).decompose.isNone)

/-- Whether a child takes the transform of its group without a wrapper. -/
def absorbs (format : Format) (m : Matrix) : Element → Bool
  | .shape .. => true
  | .container (.group t) label _ => !needsWrapper format m t label.foreign
  | _ => false

/-- Whether a group hands its transform down: the transform moves something, no child stands in
the way, and some child would lose the transform for good. -/
def handsDown (format : Format) (scope : Scope) (m : Matrix) (label : Label)
    (children : List Element) : Logged Bool :=
  if m.isIdentity || children.isEmpty then pure false
  else
    match obstacle? format scope m label.foreign children with
    | some o => do
      Logged.note (.notBaked label.id o.reason)
      return false
    | none => pure (children.any (absorbs format m))

/-- The width of a stroke before it is scaled, if it has to be written after that. -/
def scaledWidth? (format : Format) (foreign : Attributes) : Option Single :=
  match foreign.get? format.strokeWidthKey with
  | some width => number? width
  | none =>
    match format with
    | .svg => some 1
    | .vectorDrawable => none

/-- The attributes of a path mapped by `m`: its stroke is as much wider as the map is larger. -/
def scaleStroke (format : Format) (places : UInt8) (m : Matrix) (scope : Scope)
    (foreign : Attributes) : Attributes :=
  if m.isShift || !isStroked format scope foreign then foreign
  else
    match m.uniformScale? with
    | none => foreign
    | some scale =>
      if (scale - 1).abs ≤ 1e-6 then foreign
      else
        foreign.insertSome format.strokeWidthKey
          ((scaledWidth? format foreign).map fun width => Single.text (width * scale) places)

/-- Whether a group that hands its transform down keeps the identity. -/
def keptTransform (m : Matrix) (handsDown : Bool) : Matrix :=
  if handsDown then .identity else m

mutual

/-- Bakes the transforms of an element that is handed a transform from above. -/
def bake (format : Format) (places : UInt8) (scope : Scope) (handed : Option Matrix) :
    Element → Logged Element
  | .shape use label commands =>
    match handed with
    | some m =>
      pure (.shape use
        { label with foreign := scaleStroke format places m scope label.foreign }
        (Path.mapPath m commands))
    | none => pure (.shape use label commands)
  | .container (.group t) label children => do
    let wrapper? := handed.filter fun m => needsWrapper format m t label.foreign
    let t := if wrapper?.isSome then t else
      match handed with
      | some m => m * t
      | none => t
    let down ← handsDown format scope t label children
    let inner := scope.enter label.foreign
    let children ← bakeAll format places inner (if down then some t else none) children
    let group := Element.group (keptTransform t down) label children
    match wrapper? with
    | some m => return .wrap m [group]
    | none => return group
  | .container role label children => do
    return .container role label
      (← bakeAll format places (scope.enter label.foreign) none children)
  | .text content => pure (.text content)

/-- Bakes the transforms of siblings that are handed a transform from their parent. -/
def bakeAll (format : Format) (places : UInt8) (scope : Scope) (handed : Option Matrix) :
    List Element → Logged (List Element)
  | [] => pure []
  | e :: es => do
    let e ← bake format places scope handed e
    return e :: (← bakeAll format places scope handed es)

end

/-- Bakes the transforms of a graphic. -/
def bakeGraphic (places : UInt8) (g : Graphic) : Logged Graphic := do
  return { g with
    children := ← bakeAll g.format places (Scope.enter {} g.label.foreign) none g.children }

end VectorGraphics.Optimizer
