import VectorGraphics.Proofs.Conversion.ReferencedClips

/-!
# Regions of clip paths

A clip group of SVG leaves visible what is inside any of its paths; several clip paths in a vector
drawable leave visible what is inside all of them. A reference to a clip group becomes one clip path
for each of its paths, so that the union of the paths turns into their intersection, and a clip
group without paths, which hides everything, into nothing.

* `Passes` and `Covers` are the two rules, for any notion of the interior of path data;
* `Emits` says which clip paths conversion puts in front of what has a reference;
* `emitted_clips_keep_region_iff` shows that they keep the region exactly if the clip group has an
  outline and all its outlines have one interior (`Coincide`);
* `union_becomes_intersection` is a graphic in which they do not.
-/

namespace VectorGraphics.Conversion

open Element.descendants (descendantsOfAll)
open Reading

/-! ## Regions -/

section Regions

variable (inside : List Path.Command → Point → Prop)

/-- A point passes clip paths in a vector drawable: it is inside all of them. -/
def Passes (es : List Element) (p : Point) : Prop :=
  ∀ clip ∈ es.flatMap (VectorDrawable.clipsOf []), inside clip.region p

/-- A clip group of SVG covers a point: the point is inside one of its paths. -/
def Covers (contents : List Element) (p : Point) : Prop :=
  ∃ outline ∈ outlines contents, inside outline p

/-- There is an outline, and all outlines have one interior. -/
structure Coincide (regions : List (List Path.Command)) : Prop where
  ne_nil : regions ≠ []
  same : ∀ r ∈ regions, ∀ r' ∈ regions, ∀ p, inside r p → inside r' p

variable {inside}

theorem passes_clippingPaths_iff {regions : List (List Path.Command)} {p : Point} :
    Passes inside (clippingPaths regions) p ↔ ∀ r ∈ regions, inside r p := by
  have hregions : (clippingPaths regions).flatMap (VectorDrawable.clipsOf [])
      = regions.map (⟨[], ·⟩) := by
    rw [clippingPaths, List.flatMap_map, List.map_eq_flatMap]
    rfl
  rw [Passes, hregions, List.forall_mem_map]

/-- To be inside all regions is to be inside one of them, exactly if the regions coincide. -/
theorem coincide_iff {regions : List (List Path.Command)} :
    (∀ p, (∀ r ∈ regions, inside r p) ↔ ∃ r ∈ regions, inside r p)
      ↔ Coincide inside regions := by
  constructor
  · intro h
    refine ⟨?_, fun r hr r' hr' p hp => (h p).2 ⟨r, hr, hp⟩ r' hr'⟩
    -- Without regions a point is inside all of them, but inside none.
    rintro rfl
    obtain ⟨r, hr, -⟩ := (h .origin).1 (List.forall_mem_nil _)
    cases hr
  · intro h p
    constructor
    · intro hall
      obtain ⟨r, hr⟩ := List.exists_mem_of_ne_nil regions h.ne_nil
      exact ⟨r, hr, hall r hr⟩
    · rintro ⟨r, hr, hp⟩ r' hr'
      exact h.same r hr r' hr' p hp

theorem coincide_singleton (region : List Path.Command) : Coincide inside [region] where
  ne_nil := List.cons_ne_nil _ _
  same r hr r' hr' p hp := by
    rw [List.mem_singleton.1 hr] at hp
    rwa [List.mem_singleton.1 hr']

end Regions

/-! ## Definitions of clip groups -/

section Definitions

variable {es : List Element} {id : String} {contents : List Element}

/-- The clip groups that can be referred to are those with an identifier. -/
theorem mem_clipDefinitions_iff :
    (id, contents) ∈ clipDefinitions es
      ↔ ∃ foreign, .container .clipGroup ⟨some id, foreign⟩ contents ∈ descendantsOfAll es := by
  rw [clipDefinitions, List.mem_filterMap]
  constructor
  · rintro ⟨e, he, hentry⟩
    split at hentry
    · cases hentry
      exact ⟨_, he⟩
    · cases hentry
  · rintro ⟨foreign, he⟩
    exact ⟨_, he, rfl⟩

/-- An identifier with a definition is found. -/
theorem exists_findClip? {definitions : List (String × List Element)}
    (h : (id, contents) ∈ definitions) :
    ∃ found, findClip? definitions id = some found ∧ (id, found) ∈ definitions := by
  have hmem : (id, contents) ∈ definitions.filter fun entry => entry.1 = id :=
    List.mem_filter.2 ⟨h, decide_eq_true rfl⟩
  obtain ⟨⟨id', found⟩, hlast⟩ := Option.isSome_iff_exists.1
    (List.getLast?_isSome.2 (List.ne_nil_of_mem hmem))
  obtain ⟨hfound, hid⟩ := List.mem_filter.1 (List.mem_of_getLast? hlast)
  obtain rfl : id' = id := of_decide_eq_true hid
  exact ⟨found, by rw [findClip?, hlast]; rfl, hfound⟩

end Definitions

/-! ## Emitted clip paths -/

/-- Conversion puts some clip paths in front of what has a label: of the children of a group, and of
a path in a group of its own. -/
structure Emits (definitions : List (String × List Element)) (label : Label)
    (emitted : List Element) : Prop where
  group : ∀ scope alpha m children,
    (vectorDrawableElement definitions scope alpha (.group m label children)).value
      = [.group m { id := label.id } (emitted
          ++ (vectorDrawableElements definitions (scope.enter label.foreign)
            (alpha * ownOpacity label.foreign) children).value)]
  path : ∀ scope alpha commands,
    (vectorDrawableElement definitions scope alpha (.shape .painted label commands)).value
      = [(transformed label.foreign (.wrap .identity (emitted ++ [.shape .painted
          { label with foreign := (vectorDrawablePaint scope alpha label.foreign).value }
          commands]))).value]

/-- The clip paths in front of what has a reference are the outlines of the paths referred to. -/
theorem emits_clippingPaths {definitions : List (String × List Element)} {label : Label}
    {contents : List Element} (h : referencedClip? definitions label.foreign = some contents) :
    Emits definitions label (clippingPaths (outlines contents)) where
  group scope alpha m children := by
    rw [value_vectorDrawableElement_group, value_clipOf, h]
    rfl
  path scope alpha commands := by
    rw [value_vectorDrawableElement_painted, value_clipOf, h]
    rfl

/-- **A clip region is kept, exactly if the outlines of its paths coincide.** What refers to a clip
group gets some clip paths, and whatever the interior of path data is, a point passes them if and
only if the clip group covers it, for all points, exactly if the clip group has an outline and all
its outlines have one interior. -/
theorem emitted_clips_keep_region_iff {g : Graphic} {label definition : Label} {id : String}
    {defined : List Element}
    (hreference : (label.foreign.get? "clip-path").bind referenceId? = some id)
    (hdefined : .container .clipGroup definition defined ∈ g.elements)
    (hid : definition.id = some id) :
    ∃ contents emitted,
      referencedClip? (clipDefinitions g.children) label.foreign = some contents
        ∧ (∃ foreign, .container .clipGroup ⟨some id, foreign⟩ contents ∈ g.elements)
        ∧ Emits (clipDefinitions g.children) label emitted
        ∧ ∀ inside, (∀ p, Passes inside emitted p ↔ Covers inside contents p)
            ↔ Coincide inside (outlines contents) := by
  have hentry : (id, defined) ∈ clipDefinitions g.children := by
    refine mem_clipDefinitions_iff.2 ⟨definition.foreign, ?_⟩
    rw [← hid]
    exact hdefined
  obtain ⟨contents, hfound, hcontents⟩ := exists_findClip? hentry
  have hclip : referencedClip? (clipDefinitions g.children) label.foreign = some contents := by
    rw [referencedClip?, hreference, Option.bind_some, hfound]
  refine ⟨contents, clippingPaths (outlines contents), hclip, mem_clipDefinitions_iff.1 hcontents,
    emits_clippingPaths hclip, fun inside => ?_⟩
  rw [← coincide_iff]
  exact forall_congr' fun p => iff_congr passes_clippingPaths_iff Iff.rfl

/-- A clip group with one path keeps its region. -/
theorem one_path_keeps_region :
    let label : Label := { foreign := .ofList [("clip-path", "url(#c)")] }
    ∃ g contents emitted,
      Yields (read ("<svg><clipPath id=\"c\"><path d=\"M0 0h1v1z\"/></clipPath>"
          ++ "<path clip-path=\"url(#c)\" d=\"M0 0h9v9z\"/></svg>")) g
        ∧ g.format = .svg
        ∧ (∃ e ∈ g.elements, e.label? = some label)
        ∧ clipDefinitions g.children = [("c", contents)]
        ∧ Emits (clipDefinitions g.children) label emitted
        ∧ ∀ inside p, Passes inside emitted p ↔ Covers inside contents p := by
  intro label
  obtain ⟨g, hread, hformat, hlabel, hdefinitions⟩ :
      ∃ g, Yields (read ("<svg><clipPath id=\"c\"><path d=\"M0 0h1v1z\"/></clipPath>"
          ++ "<path clip-path=\"url(#c)\" d=\"M0 0h9v9z\"/></svg>")) g
        ∧ g.format = .svg
        ∧ (∃ e ∈ g.elements, e.label? = some label)
        ∧ (clipDefinitions g.children).map (fun entry => (entry.1, (outlines entry.2).length))
          = [("c", 1)] := by
    decide +kernel
  obtain ⟨⟨_, contents⟩, hdefinitions, hentry⟩ := List.map_eq_singleton_iff.1 hdefinitions
  obtain ⟨rfl, houtlines⟩ := Prod.mk.inj hentry
  obtain ⟨outline, houtline⟩ := List.length_eq_one_iff.1 houtlines
  have hmem : ("c", contents) ∈ clipDefinitions g.children := by
    rw [hdefinitions]
    exact List.mem_singleton_self _
  obtain ⟨foreign, hgroup⟩ := mem_clipDefinitions_iff.1 hmem
  have hreference : (label.foreign.get? "clip-path").bind referenceId? = some "c" := by
    decide +kernel
  obtain ⟨found, emitted, hfound, -, hemits, hkeeps⟩ :=
    emitted_clips_keep_region_iff hreference hgroup rfl
  rw [hdefinitions] at hfound
  obtain rfl : contents = found := Option.some.inj hfound
  refine ⟨g, contents, emitted, hread, hformat, hlabel, hdefinitions, hemits, fun inside => ?_⟩
  rw [hkeeps, houtline]
  exact coincide_singleton outline

/-- Two paths that are apart: what is inside one of them is visible in SVG and hidden by the clip
paths that are made of them. -/
theorem union_becomes_intersection :
    let label : Label := { foreign := .ofList [("clip-path", "url(#c)")] }
    ∃ g contents emitted near far,
      Yields (read ("<svg><clipPath id=\"c\"><path d=\"M0 0h1v1z\"/><path d=\"M2 2h1v1z\"/>"
          ++ "</clipPath><path clip-path=\"url(#c)\" d=\"M0 0h9v9z\"/></svg>")) g
        ∧ g.format = .svg
        ∧ (∃ e ∈ g.elements, e.label? = some label)
        ∧ clipDefinitions g.children = [("c", contents)]
        ∧ outlines contents = [near, far]
        ∧ Emits (clipDefinitions g.children) label emitted
        ∧ (∀ inside p, inside near p → ¬inside far p →
            Covers inside contents p ∧ ¬Passes inside emitted p)
        ∧ ¬∀ inside p, Passes inside emitted p ↔ Covers inside contents p := by
  intro label
  obtain ⟨g, hread, hformat, hlabel, hdefinitions⟩ :
      ∃ g, Yields (read ("<svg><clipPath id=\"c\"><path d=\"M0 0h1v1z\"/><path d=\"M2 2h1v1z\"/>"
          ++ "</clipPath><path clip-path=\"url(#c)\" d=\"M0 0h9v9z\"/></svg>")) g
        ∧ g.format = .svg
        ∧ (∃ e ∈ g.elements, e.label? = some label)
        ∧ (clipDefinitions g.children).map
            (fun entry => (entry.1, (outlines entry.2).map (Path.print · 0)))
          = [("c", ["M0,0L1,0L1,1Z", "M2,2L3,2L3,3Z"])] := by
    decide +kernel
  obtain ⟨⟨_, contents⟩, hdefinitions, hentry⟩ := List.map_eq_singleton_iff.1 hdefinitions
  obtain ⟨rfl, hprints⟩ := Prod.mk.inj hentry
  obtain ⟨near, _, houtlines, hnear, hprints⟩ := List.map_eq_cons_iff.1 hprints
  obtain ⟨far, rfl, hfar⟩ := List.map_eq_singleton_iff.1 hprints
  have hne : far ≠ near := by
    rintro rfl
    exact absurd (hnear.symm.trans hfar) (by decide)
  have hclip : referencedClip? (clipDefinitions g.children) label.foreign = some contents := by
    rw [hdefinitions]
    rfl
  have happart (inside : List Path.Command → Point → Prop) (p : Point) (hp : inside near p)
      (hp' : ¬inside far p) :
      Covers inside contents p ∧ ¬Passes inside (clippingPaths (outlines contents)) p := by
    rw [passes_clippingPaths_iff, Covers, houtlines]
    exact ⟨⟨near, List.mem_cons_self, hp⟩,
      fun hall => hp' (hall far (List.mem_cons_of_mem _ (List.mem_singleton_self _)))⟩
  refine ⟨g, contents, _, near, far, hread, hformat, hlabel, hdefinitions, houtlines,
    emits_clippingPaths hclip, happart, fun hall => ?_⟩
  obtain ⟨hcovers, hpasses⟩ := happart (fun region _ => region = near) .origin rfl hne
  exact hpasses ((hall _ _).2 hcovers)

/-- A clip group without paths hides everything, and there is no clip path that does. -/
example :
    ∃ g, Yields (read ("<svg><clipPath id=\"c\"/>"
          ++ "<path clip-path=\"url(#c)\" d=\"M0 0h9v9z\"/></svg>")) g
      ∧ (shiftedScene g).length = 1
      ∧ (clipDefinitions g.children).map (fun entry => (outlines entry.2).length) = [0]
      ∧ (VectorDrawable.scene (convert .vectorDrawable g).value).map (·.clips.length) = [0] := by
  decide +kernel

end VectorGraphics.Conversion
