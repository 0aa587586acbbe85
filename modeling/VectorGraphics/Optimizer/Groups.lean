import VectorGraphics.Optimizer.Traversal

/-!
# Dissolving groups

* `removeEmpty` drops the groups that have neither children nor attributes.
* `collapse` replaces every group that has nothing but children by its children. A clip path clips
  what follows it in its group, so that a group with one stays.

The children of a `switch` are alternatives, of which one is drawn; they stay as they are.
-/

namespace VectorGraphics.Optimizer

/-- Whether the children of a container are drawn one after another. -/
def isSequence : Role → Bool
  | .extra name => name != "switch"
  | _ => true

/-- Whether an element is a clip path. -/
def isClipPath : Element → Bool
  | .shape .clipping _ _ => true
  | _ => false

/-- The children of a group that has nothing else, and no clip path among them. -/
def collapsible? (e : Element) : Option (List Element) :=
  if e.hasAttributes? = some false then
    e.children?.filter fun children => !children.isEmpty && !children.any isClipPath
  else none

/-- What an element is replaced by: the children of a group, or itself. -/
def collapseOne (e : Element) : Logged (List Element) :=
  match collapsible? e with
  | some children => do
    Logged.note (.collapsed children.length)
    return children
  | none => pure [e]

/-- Replaces the groups among some siblings by their children. -/
def collapse : List Element → Logged (List Element)
  | [] => pure []
  | e :: es => do
    let front ← collapseOne e
    return front ++ (← collapse es)

/-- Whether an element is a group with neither children nor attributes. -/
def isEmptyGroup (e : Element) : Bool :=
  e.hasAttributes? = some false && e.children?.any List.isEmpty

/-- Drops the empty groups among some siblings. -/
def removeEmpty (elements : List Element) : List Element := elements.filter (!isEmptyGroup ·)

/-- Collapses the groups of a graphic, innermost groups first. -/
def collapseGraphic (g : Graphic) : Logged Graphic :=
  mapGraphicSiblings isSequence (fun _ => collapse) g

/-- Drops the empty groups of a graphic, innermost groups first. -/
def removeEmptyGraphic (g : Graphic) : Logged Graphic :=
  mapGraphicSiblings isSequence (fun _ es => pure (removeEmpty es)) g

end VectorGraphics.Optimizer
