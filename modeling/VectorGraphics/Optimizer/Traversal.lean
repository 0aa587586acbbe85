import VectorGraphics.Graphic.Element
import VectorGraphics.Graphic.Notice
import VectorGraphics.Graphic.Scope

/-!
# Ways through a tree

A pass changes a graphic in one of three ways.

* `mapShapes` changes every path by itself.
* `mapAttributes` edits the attributes of every element, parents first, so that the scope an
  element is edited in is that of its edited ancestors.
* `mapSiblings` changes every list of siblings, innermost lists first.
-/

namespace VectorGraphics.Optimizer

/-! ## Shapes -/

/-- Changes a path that has commands. -/
def editCommands (edit : List Path.Command → List Path.Command)
    (commands : List Path.Command) : List Path.Command :=
  if commands.isEmpty then commands else edit commands

mutual

/-- Changes every path of an element. -/
def mapShapes (edit : List Path.Command → List Path.Command) : Element → Element
  | .shape use label commands => .shape use label (editCommands edit commands)
  | .container role label children => .container role label (mapShapesIn edit children)
  | .text content => .text content

/-- Changes every path of some elements. -/
def mapShapesIn (edit : List Path.Command → List Path.Command) : List Element → List Element
  | [] => []
  | e :: es => mapShapes edit e :: mapShapesIn edit es

end

theorem mapShapesIn_eq_map (edit : List Path.Command → List Path.Command) (es : List Element) :
    mapShapesIn edit es = es.map (mapShapes edit) := by
  induction es with
  | nil => rfl
  | cons e es ih => rw [mapShapesIn, ih, List.map_cons]

/-- Changes every path of a graphic. -/
def mapGraphicShapes (edit : List Path.Command → List Path.Command) (g : Graphic) : Graphic :=
  { g with children := mapShapesIn edit g.children }

/-! ## Attributes -/

mutual

/-- Edits the attributes of an element and of all elements inside it. -/
def mapAttributes (edit : Scope → Attributes → Attributes) (scope : Scope) : Element → Element
  | .shape use label commands =>
    .shape use { label with foreign := edit scope label.foreign } commands
  | .container role label children =>
    let foreign := edit scope label.foreign
    .container role { label with foreign } (mapAttributesIn edit (scope.enter foreign) children)
  | .text content => .text content

/-- Edits the attributes of some siblings and of all elements inside them. -/
def mapAttributesIn (edit : Scope → Attributes → Attributes) (scope : Scope) :
    List Element → List Element
  | [] => []
  | e :: es => mapAttributes edit scope e :: mapAttributesIn edit scope es

end

theorem mapAttributesIn_eq_map (edit : Scope → Attributes → Attributes) (scope : Scope)
    (es : List Element) : mapAttributesIn edit scope es = es.map (mapAttributes edit scope) := by
  induction es with
  | nil => rfl
  | cons e es ih => rw [mapAttributesIn, ih, List.map_cons]

/-- Edits the attributes of a graphic and of all its elements. -/
def mapGraphicAttributes (edit : Scope → Attributes → Attributes) (g : Graphic) : Graphic :=
  let foreign := edit {} g.label.foreign
  { g with
    label := { g.label with foreign }
    children := mapAttributesIn edit (Scope.enter {} foreign) g.children }

/-! ## Lists of siblings -/

mutual

/-- Changes the lists of siblings inside an element. The children of a container stay as they
are, with all that is inside them, unless the container is open. -/
def mapSiblings (isOpen : Role → Bool) (edit : Scope → List Element → Logged (List Element))
    (scope : Scope) : Element → Logged Element
  | .shape use label commands => pure (.shape use label commands)
  | .container role label children =>
    if isOpen role then do
      let inner := scope.enter label.foreign
      let children ← mapSiblingsIn isOpen edit inner children
      return .container role label (← edit inner children)
    else pure (.container role label children)
  | .text content => pure (.text content)

/-- Changes the lists of siblings inside some elements. -/
def mapSiblingsIn (isOpen : Role → Bool) (edit : Scope → List Element → Logged (List Element))
    (scope : Scope) : List Element → Logged (List Element)
  | [] => pure []
  | e :: es => do
    let e ← mapSiblings isOpen edit scope e
    return e :: (← mapSiblingsIn isOpen edit scope es)

end

/-- Changes the lists of siblings of a graphic, the outermost one last. -/
def mapGraphicSiblings (isOpen : Role → Bool)
    (edit : Scope → List Element → Logged (List Element)) (g : Graphic) : Logged Graphic := do
  let scope := Scope.enter {} g.label.foreign
  let children ← mapSiblingsIn isOpen edit scope g.children
  return { g with children := ← edit scope children }

end VectorGraphics.Optimizer
