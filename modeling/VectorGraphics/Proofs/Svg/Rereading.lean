import VectorGraphics.Proofs.Graphic.Rereading

/-!
# Elements of SVG that are written and read again

An element that is read from an SVG document is recognized if its children are
(`recognized_readNode_element`), and a recognized element is read again as expected if its children
are (`yields_readNode_nodeOf_shape`, `yields_readNode_nodeOf_container`).
-/

namespace VectorGraphics.Svg

open Markup (Node)
open Reading

/-! ## What is read is recognized -/

/-- A name without a value is not among the attributes. -/
theorem keys_transform_of_get?_eq_none {foreign : Attributes}
    (h : foreign.get? "transform" = none) : foreign.Keys (· ∉ Format.svg.transformKeys) := by
  intro entry hmem hkey
  have hne := List.lookup_eq_none_iff.1 h entry hmem
  rw [List.mem_singleton.1 hkey] at hne
  cases hne

/-- The transform of a group is in one place, and its identifier stays. -/
theorem isReadAs_takeTransform {label : Label} (hlabel : label.foreign.Keys (· ≠ Format.svg.idKey))
    {m : Matrix} {l : Label} (h : Yields (takeTransform label) (m, l)) (hasElements : Bool) :
    l.foreign.Keys (· ≠ Format.svg.idKey) ∧ IsReadAs .svg l.foreign hasElements (.group m) := by
  rw [takeTransform] at h
  split at h
  · next hnone =>
    obtain ⟨rfl, rfl⟩ := Prod.mk.inj (yields_pure.1 h)
    exact ⟨hlabel, .inl (keys_transform_of_get?_eq_none hnone)⟩
  · next value hvalue =>
    split at h
    · obtain ⟨rfl, rfl⟩ := Prod.mk.inj (yields_pure.1 h)
      refine ⟨hlabel.filter _, .inl ?_⟩
      exact (Attributes.keys_erase_ne _ _).mono fun _ hne hmem => hne (List.mem_singleton.1 hmem)
    · next hnone =>
      obtain ⟨_, -, h⟩ := yields_bind.1 h
      obtain ⟨rfl, rfl⟩ := Prod.mk.inj (yields_pure.1 h)
      exact ⟨hlabel, .inr ⟨rfl, value, hvalue, hnone⟩⟩

/-- What is read from an element is recognized. -/
theorem recognized_readNode_element {name : String} {attributes : List (String × String)}
    {children : List Node}
    (hchildren : ∀ {es}, Yields (readNodes children) es → Element.RecognizedAll .svg es)
    {e : Element} (h : Yields (readNode (.element name attributes children)) e) :
    e.Recognized .svg := by
  have hlabel : (labelOf attributes).foreign.Keys (· ≠ Format.svg.idKey) :=
    keys_foreign_ofAttributes_ne _ attributes
  obtain ⟨-, m, l, es, htransform, hes, rfl⟩ | ⟨-, -, cs, hcs, rfl⟩ | ⟨-, es, hes, rfl⟩
    | ⟨hgroup, hclip, hpath, es, hes, rfl⟩ := yields_readNode_iff.1 h
  · obtain ⟨hid, hrole⟩ := isReadAs_takeTransform hlabel htransform (es.any Element.isTagged)
    exact ⟨hid, hrole, hchildren hes⟩
  · refine ⟨nofun, fun entry hmem => ?_, isPath_of_yields_commands hcs⟩
    exact ⟨hlabel.filter _ entry hmem, Attributes.keys_erase_ne _ _ entry hmem⟩
  · exact ⟨hlabel, rfl, hchildren hes⟩
  · refine ⟨hlabel, ⟨hgroup, hclip, fun hname => ?_⟩, hchildren hes⟩
    rw [any_isTagged_of_readNodes .svg hes]
    exact hpath hname

/-! ## What is recognized is read again -/

section Writing

variable (places : UInt8)

theorem labelOf_labelled {label : Label} (hid : label.foreign.Keys (· ≠ Format.svg.idKey))
    (name : String) : labelOf (labelled name label).attributes = label :=
  ofAttributes_label hid name []

/-- The tag of a group gives its transform and its label back. -/
theorem yields_takeTransform_containerTag {m : Matrix} {label : Label}
    (hid : label.foreign.Keys (· ≠ Format.svg.idKey)) {hasElements : Bool}
    (hrole : IsReadAs .svg label.foreign hasElements (.group m)) :
    Yields (takeTransform (labelOf (containerTag places (.group m) label).attributes))
      (if m.isIdentity then .identity else rereadTransform places m, label) := by
  rw [containerTag]
  split
  · rw [labelOf_labelled hid, takeTransform]
    obtain hkeys | ⟨-, value, hvalue, hnone⟩ := hrole
    · rw [hkeys.get?_eq_none fun h => h (List.mem_singleton_self _)]
      exact yields_pure.2 rfl
    · rw [hvalue]
      dsimp only
      rw [hnone]
      exact yields_bind.2 ⟨(), yields_note, yields_pure.2 rfl⟩
  · next hm =>
    have hkeys : label.foreign.Keys (· ∉ Format.svg.transformKeys) := by
      refine hrole.resolve_right fun h => hm ?_
      rw [h.1]
      decide
    obtain ⟨m', hm'⟩ := Option.isSome_iff_exists.1
      (isSome_parseTransform?_transformText m places)
    have hread : labelOf ((labelled "g" label).set "transform" (transformText m places)).attributes
        = ⟨label.id,
          .ofList (label.foreign.toList ++ [("transform", transformText m places)])⟩ := by
      rw [labelled, Markup.Element.set_setAll]
      have hback : Entries (· ≠ Format.svg.idKey) [("transform", transformText m places)] :=
        .cons (by decide) _ entries_nil
      have := ofAttributes_labelled hid "g" [] entries_nil hback
      rwa [List.append_nil, List.nil_append] at this
    have hget : (Attributes.ofList (label.foreign.toList
        ++ [("transform", transformText m places)])).get? "transform"
          = some (transformText m places) := by
      rw [Attributes.get?_ofList, List.reverse_append]
      exact List.lookup_cons_self
    have herase : (Attributes.ofList (label.foreign.toList
        ++ [("transform", transformText m places)])).erase "transform" = label.foreign :=
      filter_ofList_around (p := (· != "transform")) []
        (hkeys.mono fun _ hkey => bne_iff_ne.2 fun heq => hkey (List.mem_singleton.2 heq))
        entries_nil (.cons (bne_self_eq_false _) _ entries_nil)
    rw [hread, takeTransform]
    dsimp only
    rw [hget]
    dsimp only
    rw [rereadTransform, hm', herase]
    exact yields_pure.2 rfl

/-- A recognized path with finite numbers is written as a node that is read as expected. -/
theorem yields_readNode_nodeOf_shape {use : Use} {label : Label} {commands : List Path.Command}
    (h : (Element.shape use label commands).Recognized .svg)
    (hfinite : finitePaths.shape use label commands) :
    Yields (readNode (nodeOf places (.shape use label commands)))
      ((Element.shape use label commands).reread .svg places) := by
  obtain ⟨huse, hkeys, hpath⟩ := h
  obtain ⟨l, hl, hdata, hlabel⟩ := ofAttributes_path hkeys "path" places commands
  have hread : labelOf (pathTag places label commands).attributes = l := hl
  obtain rfl : use = .painted := by
    cases use with
    | painted => rfl
    | clipping => cases huse rfl
  have hcommands := yields_commands_print places hpath hfinite
  rw [← hdata, ← hread] at hcommands
  rw [nodeOf_shape]
  refine yields_readNode_iff.2 (.inr (.inl ⟨by decide, rfl, _, hcommands, ?_⟩))
  rw [hread, hlabel, Element.reread]

/-- A recognized container is written as a node that is read as expected if its children are. -/
theorem yields_readNode_nodeOf_container {role : Role} {label : Label} {children : List Element}
    (h : (Element.container role label children).Recognized .svg)
    (hes : Yields (readNodes (nodesOf places children)) (Element.rereadAll .svg places children)) :
    Yields (readNode (nodeOf places (.container role label children)))
      ((Element.container role label children).reread .svg places) := by
  obtain ⟨hid, hrole, -⟩ := h
  cases role with
  | group m =>
    have htransform := yields_takeTransform_containerTag places hid hrole
    have hname : localName (containerTag places (.group m) label).name = "g" := by
      rw [name_containerTag_group]
      decide
    refine yields_readNode_iff.2 (.inl ⟨hname, _, _, _, htransform, hes, ?_⟩)
    rw [Element.reread, rereadContainer, rereadGroup]
    split <;> rfl
  | clipGroup =>
    refine yields_readNode_iff.2 (.inr (.inr (.inl ⟨?_, _, hes, ?_⟩)))
    · rw [containerTag, labelled, Markup.Element.name_setAll]
      decide
    · rw [containerTag, labelOf_labelled hid]
      rfl
  | extra name =>
    obtain ⟨hgroup, hclip, hpath⟩ := hrole
    have hname : (containerTag places (.extra name) label).name = name :=
      Markup.Element.name_setAll _ _
    have hany : (nodesOf places children).any Markup.Element.isElement
        = children.any Element.isTagged := any_isElement_nodesOf .svg places children
    rw [← hany] at hpath
    refine yields_readNode_iff.2 (.inr (.inr (.inr ⟨?_, ?_, ?_, _, hes, ?_⟩)))
    · rwa [hname]
    · rwa [hname]
    · rwa [hname]
    · rw [hname, containerTag, labelOf_labelled hid]
      rfl

theorem isNormal_nodeOf_shape (use : Use) (label : Label) (commands : List Path.Command) :
    (nodeOf places (.shape use label commands)).isNormal = true := by
  rw [nodeOf_shape]
  rfl

theorem isNormal_nodeOf_container (role : Role) (label : Label) (children : List Element) :
    (nodeOf places (.container role label children)).isNormal
      = Node.isNormalAll (nodesOf places children) :=
  rfl

end Writing

end VectorGraphics.Svg
