import VectorGraphics.Proofs.Conversion.GeneratedClips
import VectorGraphics.Proofs.Conversion.Scenes
import VectorGraphics.Proofs.Graphic.Declarations

/-!
# Clip paths as clipped groups

In a vector drawable a clip path clips what follows it, in SVG an element refers to what clips it.
Hence conversion puts all that follows a clip path into a group, which refers to a clip group with a
generated identifier.

* `namedClip?` finds the clip group that an identifier names, if it names one element only;
* by induction on what siblings become they are drawn alike, if the generated identifiers name their
  clip groups (`BecomesSvg.agrees`);
* `convert_svg_keeps_scene` says this of a graphic that was read, if no identifier in it looks like
  a generated one.
-/

namespace VectorGraphics

/-! ## References -/

namespace Text

theorem stripFront?_append (pattern cs : List Char) :
    stripFront? pattern (pattern ++ cs) = some cs := by
  rw [stripFront?, if_pos (List.isPrefixOf_iff_prefix.2 (List.prefix_append _ _)),
    List.drop_left]

theorem stripBack?_append (pattern cs : List Char) :
    stripBack? pattern (cs ++ pattern) = some cs := by
  rw [stripBack?, if_pos (List.isSuffixOf_iff_suffix.2 (List.suffix_append _ _)),
    List.length_append, Nat.add_sub_cancel, List.take_left]

end Text

namespace Conversion

open Reading

theorem referenceId?_reference (id : String) : referenceId? (reference id) = some id := by
  have hchars : (reference id).toList = "url(#".toList ++ (id.toList ++ [')']) := by
    rw [reference, String.toList_append, String.toList_append, List.append_assoc]
    rfl
  have htrim : Text.trimList (reference id).toList = (reference id).toList := by
    rw [hchars]
    exact Text.trimList_of_ends (by decide) (by decide) ("rl(#".toList ++ id.toList)
  rw [referenceId?, htrim, hchars, Text.stripFront?_append, Option.bind_some,
    Text.stripBack?_append, Option.map_some, String.ofList_toList]

/-! ## Clip groups by their identifiers -/

/-- The contents of the clip group that an identifier names, if it names one element of a graphic
and this is a clip group. -/
def namedClip? (g : Graphic) (id : String) : Option (List Element) :=
  if g.label.id = some id then none
  else
    match g.elements.filter (hasId id) with
    | [.container .clipGroup _ contents] => some contents
    | _ => none

theorem Names.namedClip? {g : Graphic} {id : String} {commands : List Path.Command}
    (h : Names g id (clipDefinition id commands)) :
    namedClip? g id = some [.shape .painted {} commands] := by
  rw [Conversion.namedClip?, if_neg h.root, h.elements]
  rfl

/-- Whether an identifier is `clip` with digits after it. -/
def isClipName (id : String) : Bool :=
  (Text.stripFront? "clip".toList id.toList).any fun ds => !ds.isEmpty && ds.all Char.isDigit

theorem isClipName_clipId (k : ℕ) : isClipName (clipId k) = true := by
  have hdigits : k.repr.toList.all Char.isDigit = true := by
    rw [Nat.repr_eq_ofList_toDigits, String.toList_ofList, List.all_eq_true]
    exact fun c hc => Nat.isDigit_of_mem_toDigits (by decide) (by decide) hc
  have hne : k.repr.toList ≠ [] := fun hnil => Nat.repr_ne_empty (String.toList_eq_nil_iff.1 hnil)
  rw [isClipName, clipId_eq, String.toList_append, Text.stripFront?_append, Option.any_some,
    hdigits, Bool.and_true, Bool.not_eq_true', List.isEmpty_eq_false_iff]
  exact hne

/-- The identifiers of a graphic, that of the root first. -/
def idsOf (g : Graphic) : List String := g.label.id.toList ++ g.elements.filterMap Element.id?

mutual

theorem keptIds_subset : ∀ e : Element, keptIds e ⊆ e.descendants.filterMap Element.id?
  | .shape .painted ⟨none, _⟩ _ => List.nil_subset _
  | .shape .painted ⟨some _, _⟩ _ => List.Subset.refl _
  | .shape .clipping _ _ => List.nil_subset _
  | .container (.group _) ⟨none, _⟩ children => keptIdsIn_subset children
  | .container (.group _) ⟨some _, _⟩ children =>
    List.cons_subset_cons _ (keptIdsIn_subset children)
  | .container .clipGroup _ _ => List.nil_subset _
  | .container (.extra _) _ _ => List.nil_subset _
  | .text _ => List.nil_subset _

theorem keptIdsIn_subset : ∀ es : List Element,
    keptIdsIn es ⊆ (Element.descendants.descendantsOfAll es).filterMap Element.id?
  | [] => List.nil_subset _
  | e :: es => by
    rw [keptIdsIn, Element.descendants.descendantsOfAll, List.filterMap_append]
    exact List.append_subset.2 ⟨List.subset_append_of_subset_left _ (keptIds_subset e),
      List.subset_append_of_subset_right _ (keptIdsIn_subset es)⟩

end

/-- Identifiers that are kept are identifiers. -/
theorem keptIdsOf_subset (g : Graphic) : keptIdsOf g ⊆ idsOf g :=
  List.append_subset.2 ⟨List.subset_append_left _ _,
    List.subset_append_of_subset_right _ (keptIdsIn_subset g.children)⟩

/-! ## Scenes -/

section Scenes

variable {resolve : String → Option (List Element)} {above above' : List Matrix}
  {clips : List (Clip (List Path.Command))} {clips' : List (Clip (List Element))}

/-- A clip group holds a path as it is and nothing else. -/
def IsOnly (commands : List Path.Command) (contents : List Element) : Prop :=
  contents = [.shape .painted {} commands]

/-- What follows a clip path is drawn below one more identity and under one more clip. -/
theorem drawnIn_clippedBy {id : String} {contents : List Element} (h : resolve id = some contents)
    (commands : List Path.Command) (rest : List Element) :
    Svg.drawnIn resolve above' clips' [clipDefinition id commands, clippedBy id rest]
      = Svg.drawnIn resolve (above' ++ [.identity])
          (clips' ++ [⟨above' ++ [.identity], contents⟩]) rest := by
  have hclips : Svg.clipsOf resolve (above' ++ [.identity])
      (Attributes.ofList [("clip-path", reference id)]) = [⟨above' ++ [.identity], contents⟩] := by
    have hget : (Attributes.ofList [("clip-path", reference id)]).get? "clip-path"
        = some (reference id) := rfl
    rw [Svg.clipsOf, hget, Option.bind_some, referenceId?_reference, Option.bind_some, h]
    rfl
  rw [← hclips, Svg.drawnIn, Svg.drawnIn, Svg.drawnIn, List.append_nil]
  rfl

/-- The paint of a path has neither a transform nor a clip. -/
theorem drawn_svgPaint (id : Option String) (foreign : Attributes)
    (commands : List Path.Command) :
    Svg.drawn resolve above' clips'
        (.shape .painted { id, foreign := (svgPaint foreign).value } commands)
      = [⟨id, commands, above', clips'⟩] := by
  have htransform : Svg.ownTransforms (svgPaint foreign).value = [] := by
    rw [Svg.ownTransforms, (keys_svgPaint foreign).get?_eq_none (by decide)]
    rfl
  have hclips (above : List Matrix) :
      Svg.clipsOf resolve above (svgPaint foreign).value = [] := by
    rw [Svg.clipsOf, (keys_svgPaint foreign).get?_eq_none (by decide)]
    rfl
  rw [Svg.drawn, htransform, hclips, List.append_nil, List.append_nil]

/-- What siblings become is drawn like them, if the clip groups are found by their numbers. -/
theorem BecomesSvg.agrees {n n' : ℕ} {es out : List Element} (h : BecomesSvg n es out n')
    (hresolve : ∀ clip ∈ (clipPathsIn es).zipIdx (n + 1),
      resolve (clipId clip.2) = some [.shape .painted {} clip.1])
    (habove : Pads above above') (hclips : List.Forall₂ (Clip.Agrees IsOnly) clips clips') :
    List.Forall₂ (Drawn.Agrees IsOnly) (VectorDrawable.drawnIn above clips es)
      (Svg.drawnIn resolve above' clips' out) := by
  induction h generalizing above above' clips clips' with
  | nil n => exact .nil
  | clip label commands _ ih =>
    rw [clipPathsIn, clipPaths, List.singleton_append, List.zipIdx_cons,
      List.forall_mem_cons] at hresolve
    -- All that follows is in the group that refers to the clip group.
    rw [drawnIn_clippedBy hresolve.1]
    exact ih hresolve.2 habove.snoc_identity
      (List.rel_append hclips (.cons ⟨habove.snoc_identity, rfl⟩ .nil))
  | path label commands _ ih =>
    rw [VectorDrawable.drawnIn_cons rfl, Svg.drawnIn, drawn_svgPaint]
    exact .cons ⟨rfl, rfl, habove, hclips⟩ (ih hresolve habove hclips)
  | group m label h _ ih ih' =>
    -- The numbers go on behind the group where they end in it.
    rw [clipPathsIn, clipPaths, List.zipIdx_append, List.forall_mem_append, Nat.add_right_comm,
      ← h.count] at hresolve
    have hinner := ih hresolve.1 (habove.append_right [m]) hclips
    have hclipsOf : Svg.clipsOf resolve (above' ++ [m]) ∅ = [] := rfl
    rw [VectorDrawable.drawnIn_cons rfl, Svg.drawnIn, VectorDrawable.drawn, Svg.drawn, hclipsOf,
      List.append_nil]
    exact List.rel_append hinner (ih' hresolve.2 habove hclips)
  | extra name label children _ ih =>
    rw [VectorDrawable.drawnIn_cons rfl]
    exact ih hresolve habove hclips
  | text content _ ih =>
    rw [VectorDrawable.drawnIn_cons rfl]
    exact ih hresolve habove hclips

end Scenes

/-! ## Graphics -/

/-- The clip group of every clip path is found by its number, if no identifier is taken. -/
theorem namedClip?_convert {s : String} {g : Graphic} (hread : Yields (read s) g)
    (hformat : g.format = .vectorDrawable) (hids : ∀ id ∈ idsOf g, isClipName id = false) :
    ∀ clip ∈ (clipPathsIn g.children).zipIdx 1,
      namedClip? (convert .svg g).value (clipId clip.2) = some [.shape .painted {} clip.1] := by
  intro clip hclip
  obtain ⟨j, hj, rfl⟩ := List.mem_iff_getElem.1 hclip
  rw [List.length_zipIdx] at hj
  have hfree : clipId (1 + j) ∉ keptIdsOf g := by
    intro hkept
    have hname := hids _ (keptIdsOf_subset g hkept)
    rw [isClipName_clipId] at hname
    cases hname
  rw [List.getElem_zipIdx]
  exact ((names_clipId_iff hread hformat hj).2 hfree).namedClip?

/-- **A vector drawable shows the same in SVG.** A graphic that was read from a vector drawable in
which no identifier is `clip` with digits after it shows the same paths in the same order after
conversion, below the same transforms, and each is clipped by clip groups that hold the clip paths
in effect on it, one each, in the same order and below the same transforms. -/
theorem convert_svg_keeps_scene {s : String} {g : Graphic} (hread : Yields (read s) g)
    (hformat : g.format = .vectorDrawable) (hids : ∀ id ∈ idsOf g, isClipName id = false) :
    List.Forall₂ (Drawn.Agrees IsOnly) (VectorDrawable.scene g)
      (Svg.scene (namedClip? (convert .svg g).value) [] (convert .svg g).value) := by
  obtain ⟨_, hbecomes⟩ := exists_becomesSvg_convert hread hformat
  exact hbecomes.agrees (namedClip?_convert hread hformat hids) .nil .nil

/-- Clip paths in front of a path, in a scaled group and in the list around it. -/
theorem clip_paths_keep_scene :
    ∃ g, Yields (read ("<vector><clip-path android:pathData=\"M0 0h5v5z\"/>"
          ++ "<group android:scaleX=\"2\"><path android:name=\"p\" android:pathData=\"M0 0h1\"/>"
          ++ "<clip-path android:pathData=\"M1 1h2v2z\"/>"
          ++ "<path android:pathData=\"M0 0h3\"/></group></vector>")) g
      ∧ g.format = .vectorDrawable
      ∧ (VectorDrawable.scene g).map (fun a => (a.id, a.above.length, a.clips.length))
          = [(some "p", 1, 1), (none, 1, 2)]
      ∧ List.Forall₂ (Drawn.Agrees IsOnly) (VectorDrawable.scene g)
          (Svg.scene (namedClip? (convert .svg g).value) [] (convert .svg g).value) := by
  obtain ⟨g, hread, hformat, hshown, hids⟩ :
      ∃ g, Yields (read ("<vector><clip-path android:pathData=\"M0 0h5v5z\"/>"
          ++ "<group android:scaleX=\"2\"><path android:name=\"p\" android:pathData=\"M0 0h1\"/>"
          ++ "<clip-path android:pathData=\"M1 1h2v2z\"/>"
          ++ "<path android:pathData=\"M0 0h3\"/></group></vector>")) g
        ∧ g.format = .vectorDrawable
        ∧ (VectorDrawable.scene g).map (fun a => (a.id, a.above.length, a.clips.length))
          = [(some "p", 1, 1), (none, 1, 2)]
        ∧ ∀ id ∈ idsOf g, isClipName id = false := by
    decide +kernel
  exact ⟨g, hread, hformat, hshown, convert_svg_keeps_scene hread hformat hids⟩

end Conversion

end VectorGraphics
