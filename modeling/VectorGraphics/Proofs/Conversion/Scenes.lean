import Mathlib.Data.List.Forall2
import VectorGraphics.Conversion.ClipPaths

/-!
# Scenes

What a graphic shows are its painted paths, those that are reached through groups alone, in the
order in which they are painted. A path is drawn through the transforms of the groups around it, and
it is clipped, which the two formats say in different ways:

* in a vector drawable by the clip paths that stand before it in a list that it is in, its own or
  that of a group around it (`VectorDrawable.scene`);
* in SVG by the clip groups that it and the groups around it refer to (`Svg.scene`).

`Drawn.Agrees` compares what is drawn. Conversion puts groups of its own around paths, which have no
effect other than clipping: `Pads` says that they leave the transforms as they are.
-/

namespace VectorGraphics

/-! ## What is drawn -/

/-- The second list is the first one with identities put in. -/
inductive Pads : List Matrix → List Matrix → Prop
  | nil : Pads [] []
  | identity {ms ns : List Matrix} : Pads ms ns → Pads ms (.identity :: ns)
  | cons (m : Matrix) {ms ns : List Matrix} : Pads ms ns → Pads (m :: ms) (m :: ns)

namespace Pads

variable {ms ms' ns ns' : List Matrix}

theorem refl (ms : List Matrix) : Pads ms ms := by
  induction ms with
  | nil => exact .nil
  | cons m ms ih => exact .cons m ih

theorem append (h : Pads ms ns) (h' : Pads ms' ns') : Pads (ms ++ ms') (ns ++ ns') := by
  induction h with
  | nil => exact h'
  | identity _ ih => exact .identity ih
  | cons m _ ih => exact .cons m ih

/-- Both chains go on in the same way. -/
theorem append_right (h : Pads ms ns) (more : List Matrix) : Pads (ms ++ more) (ns ++ more) :=
  h.append (.refl more)

/-- The second chain goes on with an identity. -/
theorem snoc_identity (h : Pads ms ns) : Pads ms (ns ++ [.identity]) := by
  have happend := h.append (.identity .nil)
  rwa [List.append_nil] at happend

end Pads

/-- Something that clips. -/
structure Clip (α : Type) where
  /-- The transforms through which the region is seen, the outermost first. -/
  above : List Matrix
  /-- What is left visible. -/
  region : α

/-- A painted path. -/
structure Drawn (α : Type) where
  id : Option String
  commands : List Path.Command
  /-- The transforms through which the path is drawn, the outermost first. -/
  above : List Matrix
  /-- What the path is clipped by, the outermost first. -/
  clips : List (Clip α)

section Agrees

variable {α β : Type} (R : α → β → Prop)

/-- Two clips have related regions and are seen alike, but for identities. -/
structure Clip.Agrees (c : Clip α) (d : Clip β) : Prop where
  above : Pads c.above d.above
  region : R c.region d.region

/-- A path is drawn alike in two scenes, but for identities. -/
structure Drawn.Agrees (a : Drawn α) (b : Drawn β) : Prop where
  id : a.id = b.id
  commands : a.commands = b.commands
  above : Pads a.above b.above
  clips : List.Forall₂ (Clip.Agrees R) a.clips b.clips

end Agrees

/-! ## Vector drawables -/

namespace VectorDrawable

/-- How an element clips what follows it in its list. -/
def clipsOf (above : List Matrix) : Element → List (Clip (List Path.Command))
  | .shape .clipping _ commands => [⟨above, commands⟩]
  | _ => []

mutual

/-- What is drawn of an element below some transforms and under some clips. -/
def drawn (above : List Matrix) (clips : List (Clip (List Path.Command))) :
    Element → List (Drawn (List Path.Command))
  | .container (.group m) _ children => drawnIn (above ++ [m]) clips children
  | .shape .painted label commands => [⟨label.id, commands, above, clips⟩]
  | _ => []

/-- What is drawn of some siblings. A clip path clips those after it. -/
def drawnIn (above : List Matrix) (clips : List (Clip (List Path.Command))) :
    List Element → List (Drawn (List Path.Command))
  | [] => []
  | e :: es => drawn above clips e ++ drawnIn above (clips ++ clipsOf above e) es

end

/-- What a vector drawable shows. -/
def scene (g : Graphic) : List (Drawn (List Path.Command)) := drawnIn [] [] g.children

/-- What is no clip path leaves what follows it as it is. -/
theorem drawnIn_cons {above : List Matrix} {e : Element} (h : clipsOf above e = [])
    (clips : List (Clip (List Path.Command))) (es : List Element) :
    drawnIn above clips (e :: es) = drawn above clips e ++ drawnIn above clips es := by
  rw [drawnIn, h, List.append_nil]

theorem drawnIn_singleton (above : List Matrix) (clips : List (Clip (List Path.Command)))
    (e : Element) : drawnIn above clips [e] = drawn above clips e := by
  rw [drawnIn, drawnIn, List.append_nil]

/-- Clip paths at the front of a list clip the rest of it. -/
theorem drawnIn_clipping (above : List Matrix) (clips : List (Clip (List Path.Command)))
    (regions : List (List Path.Command)) (es : List Element) :
    drawnIn above clips (regions.map (.shape .clipping {} ·) ++ es)
      = drawnIn above (clips ++ regions.map (⟨above, ·⟩)) es := by
  induction regions generalizing clips with
  | nil => rw [List.map_nil, List.nil_append, List.map_nil, List.append_nil]
  | cons region regions ih =>
    have hregion : drawn above clips (.shape .clipping {} region) = [] := rfl
    rw [List.map_cons, List.cons_append, drawnIn, hregion, ih, List.map_cons, List.append_assoc]
    rfl

end VectorDrawable

/-! ## SVG -/

namespace Svg

/-- The transform that a path has of its own, if it can be read. -/
def ownTransforms (foreign : Attributes) : List Matrix :=
  ((foreign.get? "transform").bind parseTransform?).toList

/-- The clip that an element with the given attributes refers to, where `resolve` finds the contents
of a clip group by its identifier. -/
def clipsOf (resolve : String → Option (List Element)) (above : List Matrix)
    (foreign : Attributes) : List (Clip (List Element)) :=
  (((foreign.get? "clip-path").bind Conversion.referenceId?).bind resolve).toList.map (⟨above, ·⟩)

mutual

/-- What is drawn of an element below some transforms and under some clips. A clip is seen through
the transforms of the element that refers to it. -/
def drawn (resolve : String → Option (List Element)) (above : List Matrix)
    (clips : List (Clip (List Element))) : Element → List (Drawn (List Element))
  | .container (.group m) label children =>
    drawnIn resolve (above ++ [m]) (clips ++ clipsOf resolve (above ++ [m]) label.foreign) children
  | .shape .painted label commands =>
    let above := above ++ ownTransforms label.foreign
    [⟨label.id, commands, above, clips ++ clipsOf resolve above label.foreign⟩]
  | _ => []

/-- What is drawn of some siblings. -/
def drawnIn (resolve : String → Option (List Element)) (above : List Matrix)
    (clips : List (Clip (List Element))) : List Element → List (Drawn (List Element))
  | [] => []
  | e :: es => drawn resolve above clips e ++ drawnIn resolve above clips es

end

/-- What SVG shows below some transforms. -/
def scene (resolve : String → Option (List Element)) (above : List Matrix) (g : Graphic) :
    List (Drawn (List Element)) :=
  drawnIn resolve above [] g.children

end Svg

end VectorGraphics
