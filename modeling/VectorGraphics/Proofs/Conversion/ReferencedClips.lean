import VectorGraphics.Proofs.Conversion.Scenes
import VectorGraphics.Proofs.Conversion.Soundness
import VectorGraphics.Proofs.Graphic.Documents

/-!
# Clip groups as clip paths

In SVG an element refers to what clips it, in a vector drawable this stands in front of it. Hence
conversion puts the paths of a clip group in front of the children of a group, and a path that has a
clip, or a transform of its own, goes into a group.

* `outlines` are the paths of a clip group as they are seen by what refers to it, and a reference
  becomes these (`value_clipOf`);
* `BecomesVectorDrawable` relates siblings to what they become, and by induction on it they are
  drawn alike (`BecomesVectorDrawable.agrees`);
* `convert_vectorDrawable_keeps_scene` says this of a graphic that was read.
-/

namespace VectorGraphics

open Conversion Reading

/-! ## Outlines -/

/-- A path in a clip group. -/
structure ClipShape where
  /-- The transforms through which the path is seen, the outermost first. -/
  above : List Matrix
  commands : List Path.Command

/-- The commands of a path in a clip group, as they are seen by what refers to the group. -/
def ClipShape.outline (s : ClipShape) : List Path.Command :=
  Path.mapPath (s.above.foldl (· * ·) .identity) s.commands

mutual

/-- The paths in an element that are reached through groups alone, below some transforms. The
transform that a path has of its own is the innermost. -/
def shapes (above : List Matrix) : Element → List ClipShape
  | .shape _ label commands => [⟨above ++ [ownTransform label.foreign], commands⟩]
  | .container (.group m) _ children => shapesIn (above ++ [m]) children
  | _ => []

/-- The paths in some elements that are reached through groups alone, below some transforms. -/
def shapesIn (above : List Matrix) : List Element → List ClipShape
  | [] => []
  | e :: es => shapes above e ++ shapesIn above es

end

/-- What the paths in a clip group enclose, path by path. -/
def outlines (contents : List Element) : List (List Path.Command) :=
  (shapesIn [] contents).map ClipShape.outline

/-- A clip taken apart into one for each of its paths. -/
def Clip.split (c : Clip (List Element)) : List (Clip (List Path.Command)) :=
  (outlines c.region).map (⟨c.above, ·⟩)

/-- What is drawn, with all clips taken apart. -/
def Drawn.split (a : Drawn (List Element)) : Drawn (List Path.Command) :=
  { a with clips := a.clips.flatMap Clip.split }

namespace Conversion

/-- Clip paths with nothing but commands. -/
def clippingPaths (regions : List (List Path.Command)) : List Element :=
  regions.map (.shape .clipping {} ·)

mutual

theorem value_clipShapes (above : List Matrix) : ∀ e : Element,
    (clipShapes (above.foldl (· * ·) .identity) e).value
      = clippingPaths ((shapes above e).map ClipShape.outline)
  | .shape _ label commands => by
    rw [clipShapes, shapes, List.map_singleton, ClipShape.outline, List.foldl_append]
    rfl
  | .container (.group m) label children => by
    have hchildren := value_clipShapesOf (above ++ [m]) children
    rw [List.foldl_append] at hchildren
    exact hchildren
  | .container .clipGroup _ _ => rfl
  | .container (.extra _) _ _ => rfl
  | .text _ => rfl

/-- The clip paths that are made of the elements in a clip group are the outlines of its paths. -/
theorem value_clipShapesOf (above : List Matrix) : ∀ es : List Element,
    (clipShapesOf (above.foldl (· * ·) .identity) es).value
      = clippingPaths ((shapesIn above es).map ClipShape.outline)
  | [] => rfl
  | e :: es => by
    rw [clipShapesOf, Logged.value_bind, Logged.value_bind, value_clipShapes above e,
      value_clipShapesOf above es, shapesIn, List.map_append, clippingPaths, clippingPaths,
      clippingPaths, List.map_append]
    rfl

end

/-- The contents of the clip group that an element refers to. -/
def referencedClip? (definitions : List (String × List Element)) (foreign : Attributes) :
    Option (List Element) :=
  ((foreign.get? "clip-path").bind referenceId?).bind (findClip? definitions)

/-- A reference to a clip group becomes the outlines of its paths. -/
theorem value_clipOf (definitions : List (String × List Element)) (foreign : Attributes) :
    (clipOf definitions foreign).value
      = (referencedClip? definitions foreign).map fun contents =>
          clippingPaths (outlines contents) := by
  rw [clipOf, referencedClip?]
  cases (foreign.get? "clip-path").bind referenceId? with
  | none => rfl
  | some id =>
    rw [Option.bind_some]
    dsimp only
    cases findClip? definitions id with
    | none => rfl
    | some contents => exact congrArg some (value_clipShapesOf [] contents)

/-- What the paths enclose in the clip group that an element refers to, path by path. -/
def referencedRegions (definitions : List (String × List Element)) (foreign : Attributes) :
    List (List Path.Command) :=
  (referencedClip? definitions foreign).elim [] outlines

theorem value_clipOf_getD (definitions : List (String × List Element)) (foreign : Attributes) :
    (clipOf definitions foreign).value.getD []
      = clippingPaths (referencedRegions definitions foreign) := by
  rw [value_clipOf, referencedRegions]
  cases referencedClip? definitions foreign <;> rfl

/-! ## What siblings become -/

/-- What siblings in SVG become in a vector drawable, whatever their paint. -/
inductive BecomesVectorDrawable (definitions : List (String × List Element)) :
    List Element → List Element → Prop
  | nil : BecomesVectorDrawable definitions [] []
  | path {es rest : List Element} (label : Label) (foreign : Attributes)
    (commands : List Path.Command) : BecomesVectorDrawable definitions es rest →
      BecomesVectorDrawable definitions (.shape .painted label commands :: es)
        ((transformed label.foreign (clipped (clipOf definitions label.foreign).value
          (.shape .painted { label with foreign } commands))).value :: rest)
  | group {children inner es rest : List Element} (m : Matrix) (label : Label) :
    BecomesVectorDrawable definitions children inner →
    BecomesVectorDrawable definitions es rest →
      BecomesVectorDrawable definitions (.group m label children :: es)
        (.group m { id := label.id } ((clipOf definitions label.foreign).value.getD [] ++ inner)
          :: rest)
  | clipGroup {es rest : List Element} (label : Label) (children : List Element) :
    BecomesVectorDrawable definitions es rest →
      BecomesVectorDrawable definitions (.container .clipGroup label children :: es) rest
  | extra {es rest : List Element} (name : String) (label : Label) (children : List Element) :
    BecomesVectorDrawable definitions es rest →
      BecomesVectorDrawable definitions (.container (.extra name) label children :: es) rest
  | text {es rest : List Element} (content : String) :
    BecomesVectorDrawable definitions es rest →
      BecomesVectorDrawable definitions (.text content :: es) rest

/-- Conversion makes of the elements of SVG what they are to become. -/
theorem becomes_vectorDrawableElements (definitions : List (String × List Element)) :
    ∀ (scope : Scope) (alpha : Single) {es : List Element}, (native .svg).HoldsAll es →
      BecomesVectorDrawable definitions es (vectorDrawableElements definitions scope alpha es).value
  | _, _, [], _ => .nil
  | scope, alpha, .shape .painted label commands :: es, h => by
    rw [vectorDrawableElements, Logged.value_bind, value_vectorDrawableElement_painted]
    exact .path label _ commands (becomes_vectorDrawableElements definitions scope alpha h.2)
  | _, _, .shape .clipping _ _ :: _, h => absurd (h.1 rfl) (by decide)
  | scope, alpha, .container (.group m) label children :: es, h => by
    rw [vectorDrawableElements, Logged.value_bind, value_vectorDrawableElement_group]
    exact .group m label (becomes_vectorDrawableElements definitions _ _ h.1.2)
      (becomes_vectorDrawableElements definitions scope alpha h.2)
  | scope, alpha, .container .clipGroup label children :: es, h =>
    .clipGroup label children (becomes_vectorDrawableElements definitions scope alpha h.2)
  | scope, alpha, .container (.extra name) label children :: es, h =>
    .extra name label children (becomes_vectorDrawableElements definitions scope alpha h.2)
  | scope, alpha, .text content :: es, h =>
    .text content (becomes_vectorDrawableElements definitions scope alpha h.2)

/-! ## Scenes -/

section Scenes

variable {definitions : List (String × List Element)} {foreign : Attributes}
  {above above' : List Matrix} {clips : List (Clip (List Element))}
  {clips' : List (Clip (List Path.Command))}

/-- The transform of its own stands above a path. -/
theorem drawn_transformed (foreign : Attributes) (e : Element) :
    VectorDrawable.drawn above' clips' (transformed foreign e).value
      = VectorDrawable.drawn (above' ++ Svg.ownTransforms foreign) clips' e := by
  rw [transformed, Svg.ownTransforms]
  cases foreign.get? "transform" with
  | none =>
    rw [Option.bind_none, Option.toList_none, List.append_nil]
    rfl
  | some value =>
    rw [Option.bind_some]
    dsimp only
    cases Svg.parseTransform? value with
    | none =>
      rw [Option.toList_none, List.append_nil]
      rfl
    | some m => exact VectorDrawable.drawnIn_singleton _ _ _

/-- What a path becomes clips nothing after it. -/
theorem clipsOf_transformed_clipped (foreign : Attributes) (clip : Option (List Element))
    (label : Label) (commands : List Path.Command) :
    VectorDrawable.clipsOf above'
      (transformed foreign (clipped clip (.shape .painted label commands))).value = [] := by
  rw [transformed]
  split
  · cases clip <;> rfl
  · split
    · rfl
    · cases clip <;> rfl

/-- A reference is as good as the clip paths that are made for it. -/
theorem agrees_clipsOf (definitions : List (String × List Element)) (foreign : Attributes)
    (h : Pads above above')
    (hclips : List.Forall₂ (Clip.Agrees Eq) (clips.flatMap Clip.split) clips') :
    List.Forall₂ (Clip.Agrees Eq)
      ((clips ++ Svg.clipsOf (findClip? definitions) above foreign).flatMap Clip.split)
      (clips' ++ (referencedRegions definitions foreign).map (⟨above', ·⟩)) := by
  rw [List.flatMap_append, Svg.clipsOf, ← referencedClip?, referencedRegions]
  refine List.rel_append hclips ?_
  cases referencedClip? definitions foreign with
  | none => exact .nil
  | some contents =>
    rw [Option.toList_some, List.map_singleton, List.flatMap_singleton, Clip.split,
      List.forall₂_map_left_iff, Option.elim_some, List.forall₂_map_right_iff]
    exact List.forall₂_same.2 fun _ _ => ⟨h, rfl⟩

/-- A path behind the clip paths it refers to is drawn like the path with the reference. -/
theorem agrees_clipped (label : Label) (commands : List Path.Command) (habove : Pads above above')
    (hclips : List.Forall₂ (Clip.Agrees Eq) (clips.flatMap Clip.split) clips') :
    List.Forall₂ (Drawn.Agrees Eq)
      [Drawn.split ⟨label.id, commands, above,
        clips ++ Svg.clipsOf (findClip? definitions) above foreign⟩]
      (VectorDrawable.drawn above' clips'
        (clipped (clipOf definitions foreign).value (.shape .painted label commands))) := by
  rw [value_clipOf]
  cases hclip : referencedClip? definitions foreign with
  | none =>
    have hagrees := agrees_clipsOf definitions foreign habove hclips
    rw [referencedRegions, hclip, Option.elim_none, List.map_nil, List.append_nil] at hagrees
    exact .cons ⟨rfl, rfl, habove, hagrees⟩ .nil
  | some contents =>
    have hwrapped : Pads above (above' ++ [.identity]) := habove.snoc_identity
    have hagrees := agrees_clipsOf definitions foreign hwrapped hclips
    rw [referencedRegions, hclip, Option.elim_some] at hagrees
    rw [Option.map_some, clipped, Element.wrap, VectorDrawable.drawn, clippingPaths,
      VectorDrawable.drawnIn_clipping, VectorDrawable.drawnIn_singleton]
    exact .cons ⟨rfl, rfl, hwrapped, hagrees⟩ .nil

/-- What siblings become is drawn like them. -/
theorem BecomesVectorDrawable.agrees {es out : List Element}
    (h : BecomesVectorDrawable definitions es out) (habove : Pads above above')
    (hclips : List.Forall₂ (Clip.Agrees Eq) (clips.flatMap Clip.split) clips') :
    List.Forall₂ (Drawn.Agrees Eq)
      ((Svg.drawnIn (findClip? definitions) above clips es).map Drawn.split)
      (VectorDrawable.drawnIn above' clips' out) := by
  induction h generalizing above above' clips clips' with
  | nil => exact .nil
  | path label foreign commands _ ih =>
    -- The clip paths are in the group of the path, so that they do not clip what follows.
    rw [VectorDrawable.drawnIn_cons (clipsOf_transformed_clipped _ _ _ _), drawn_transformed,
      Svg.drawnIn, List.map_append]
    exact List.rel_append
      (agrees_clipped { label with foreign } commands (habove.append_right _) hclips)
      (ih habove hclips)
  | group m label _ _ ih ih' =>
    -- The clip paths stand in front of the children, hence below the transform of the group.
    have hm : Pads (above ++ [m]) (above' ++ [m]) := habove.append_right [m]
    rw [VectorDrawable.drawnIn_cons rfl, VectorDrawable.drawn, Svg.drawnIn, Svg.drawn,
      List.map_append, value_clipOf_getD, clippingPaths, VectorDrawable.drawnIn_clipping]
    exact List.rel_append (ih hm (agrees_clipsOf _ _ hm hclips)) (ih' habove hclips)
  | clipGroup label children _ ih => exact ih habove hclips
  | extra name label children _ ih => exact ih habove hclips
  | text content _ ih => exact ih habove hclips

end Scenes

/-! ## Graphics -/

/-- The shift that brings the origin of the view box to that of the plane, if it is elsewhere. -/
def originShift (foreign : Attributes) : List Matrix :=
  let origin := (viewport foreign).1
  if origin == .origin then [] else [.shift (-origin.x) (-origin.y)]

/-- What SVG shows once the origin of its view box is that of the plane, with all clips taken apart.
A reference is to the last clip group of its identifier. -/
def shiftedScene (g : Graphic) : List (Drawn (List Path.Command)) :=
  (Svg.scene (findClip? (clipDefinitions g.children)) (originShift g.label.foreign) g).map
    Drawn.split

/-- What the root of SVG holds becomes the root of a vector drawable, below the shift. -/
theorem scene_svgToVectorDrawable (g : Graphic) :
    VectorDrawable.scene (svgToVectorDrawable g).value
      = VectorDrawable.drawnIn (originShift g.label.foreign) []
          (vectorDrawableElements (clipDefinitions g.children) (Scope.enter {} g.label.foreign)
            (ownOpacity g.label.foreign) g.children).value := by
  have hchildren : (svgToVectorDrawable g).value.children
      = let children := (vectorDrawableElements (clipDefinitions g.children)
          (Scope.enter {} g.label.foreign) (ownOpacity g.label.foreign) g.children).value
        let origin := (viewport g.label.foreign).1
        if origin == .origin then children
        else [.wrap (.shift (-origin.x) (-origin.y)) children] := rfl
  rw [VectorDrawable.scene, hchildren, originShift]
  dsimp only
  split
  · rfl
  · exact VectorDrawable.drawnIn_singleton _ _ _

/-- **SVG shows the same as a vector drawable.** A graphic that was read from SVG shows the same
paths in the same order after conversion. Above each stand the shift of the view box, the transforms
of the groups around it and its own, and it is clipped by the outlines of the clip groups that the
groups around it and the path itself refer to, the outermost first. -/
theorem convert_vectorDrawable_keeps_scene {s : String} {g : Graphic} (hread : Yields (read s) g)
    (hformat : g.format = .svg) :
    List.Forall₂ (Drawn.Agrees Eq) (shiftedScene g)
      (VectorDrawable.scene (convert .vectorDrawable g).value) := by
  have hnative := native_read hread
  have hconvert : (convert .vectorDrawable g).value = (svgToVectorDrawable g).value := by
    rw [convert.eq_def, hformat]
  have hclips : List.Forall₂ (Clip.Agrees Eq)
      (([] : List (Clip (List Element))).flatMap Clip.split) [] := .nil
  rw [hformat] at hnative
  rw [hconvert, scene_svgToVectorDrawable]
  exact (becomes_vectorDrawableElements _ _ _ hnative).agrees (.refl _) hclips

/-- A clipped path with a transform of its own, in a clipped group and next to another path. -/
theorem clipped_path_keeps_scene :
    ∃ g, Yields (read ("<svg viewBox=\"1 2 8 8\">"
          ++ "<clipPath id=\"a\"><path d=\"M0 0h1v1z\"/><path d=\"M3 3h1v1z\"/></clipPath>"
          ++ "<g clip-path=\"url(#a)\" transform=\"scale(2)\"><path id=\"p\" d=\"M0 0h1\""
          ++ " clip-path=\"url(#a)\" transform=\"scale(3)\"/><path d=\"M0 0h1\"/></g></svg>")) g
      ∧ g.format = .svg
      ∧ (shiftedScene g).map (fun a => (a.id, a.above.length, a.clips.length))
          = [(some "p", 3, 4), (none, 2, 2)]
      ∧ List.Forall₂ (Drawn.Agrees Eq) (shiftedScene g)
          (VectorDrawable.scene (convert .vectorDrawable g).value) := by
  obtain ⟨g, hread, hformat, hshown⟩ :
      ∃ g, Yields (read ("<svg viewBox=\"1 2 8 8\">"
          ++ "<clipPath id=\"a\"><path d=\"M0 0h1v1z\"/><path d=\"M3 3h1v1z\"/></clipPath>"
          ++ "<g clip-path=\"url(#a)\" transform=\"scale(2)\"><path id=\"p\" d=\"M0 0h1\""
          ++ " clip-path=\"url(#a)\" transform=\"scale(3)\"/><path d=\"M0 0h1\"/></g></svg>")) g
        ∧ g.format = .svg
        ∧ (shiftedScene g).map (fun a => (a.id, a.above.length, a.clips.length))
          = [(some "p", 3, 4), (none, 2, 2)] := by
    decide +kernel
  exact ⟨g, hread, hformat, hshown, convert_vectorDrawable_keeps_scene hread hformat⟩

end Conversion

end VectorGraphics
