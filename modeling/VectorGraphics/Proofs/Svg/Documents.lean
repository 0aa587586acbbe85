import VectorGraphics.Proofs.Graphic.Tidiness

/-!
# Elements of SVG

How one element of an SVG document is read (`yields_readNode_iff`), and what is true of it and of
the element that it is written as if the same is true of its children.
-/

namespace VectorGraphics.Svg

open Markup (Node IsName IsTag)
open ElementProperty Reading

/-! ## Reading -/

/-- Taking the transform out of a label never fails, adds no attribute and leaves the transform in
one place. -/
theorem exists_takeTransform (label : Label) : ∃ m l, Yields (takeTransform label) (m, l)
    ∧ (∀ p, label.foreign.Keys p → l.foreign.Keys p) ∧ OneTransform .svg m l.foreign := by
  rw [takeTransform]
  split
  · exact ⟨_, _, yields_pure.2 rfl, fun _ h => h, .inl rfl⟩
  · split
    · refine ⟨_, _, yields_pure.2 rfl, fun _ h => h.filter _, .inr ?_⟩
      exact (Attributes.keys_erase_ne _ _).mono fun _ hne hmem => hne (List.mem_singleton.1 hmem)
    · exact ⟨_, _, yields_bind.2 ⟨(), yields_note, yields_pure.2 rfl⟩, fun _ h => h, .inl rfl⟩

theorem pathData?_of_localName_ne {name : String} (h : localName name ≠ "path")
    (foreign : Attributes) (hasElements : Bool) :
    pathData? .svg name foreign hasElements = none :=
  if_neg fun hpath => h hpath.1

/-- An element is read exactly if its path data and its children can be read. -/
theorem succeeds_readNode_element {name : String} {attributes : List (String × String)}
    {children : List Node} (hchildren : Succeeds (readNodes children) ↔ ReadableAll .svg children) :
    Succeeds (readNode (.element name attributes children))
      ↔ Readable .svg (.element name attributes children) := by
  rw [readNode, Readable]
  dsimp only
  split
  · next hgroup =>
    obtain ⟨m, l, htransform, -⟩ := exists_takeTransform (labelOf attributes)
    have hne : localName name ≠ "path" := hgroup ▸ by decide
    rw [pathData?_of_localName_ne hne, iff_true_intro isData_none, true_and, ← hchildren,
      succeeds_bind_of_iff (fun _ _ => succeeds_bind_pure)]
    exact and_iff_right ⟨_, htransform⟩
  · split
    · next hpath =>
      obtain ⟨hname, htexts⟩ := hpath
      rw [Bool.not_eq_true'] at htexts
      rw [pathData?, if_pos ⟨hname, htexts⟩, iff_true_intro (readableAll_of_any htexts),
        and_true, succeeds_bind_pure]
      exact succeeds_commands
    · next hpath =>
      have hnone : pathData? .svg name (labelOf attributes).foreign
          (children.any Markup.Element.isElement) = none :=
        if_neg fun h => hpath ⟨h.1, by rw [h.2]; rfl⟩
      have hkept : IsData (pathData? .svg name (labelOf attributes).foreign
          (children.any Markup.Element.isElement)) ∧ ReadableAll .svg children
            ↔ ReadableAll .svg children := by
        rw [hnone, iff_true_intro isData_none, true_and]
      split
      · exact (succeeds_bind_pure.trans hchildren).trans hkept.symm
      · exact (succeeds_bind_pure.trans hchildren).trans hkept.symm

/-- What an element is read as, by its name and by what is inside. -/
theorem yields_readNode_iff {name : String} {attributes : List (String × String)}
    {children : List Node} {e : Element} :
    Yields (readNode (.element name attributes children)) e ↔
      (localName name = "g" ∧ ∃ m l es, Yields (takeTransform (labelOf attributes)) (m, l)
        ∧ Yields (readNodes children) es ∧ e = .group m l es)
      ∨ (localName name = "path" ∧ children.any Markup.Element.isElement = false ∧
        ∃ cs, Yields (commands ((labelOf attributes).foreign.get? Format.svg.pathDataKey)) cs
          ∧ e = .shape .painted { labelOf attributes with
              foreign := (labelOf attributes).foreign.erase Format.svg.pathDataKey } cs)
      ∨ (localName name = "clipPath" ∧ ∃ es, Yields (readNodes children) es
        ∧ e = .container .clipGroup (labelOf attributes) es)
      ∨ (localName name ≠ "g" ∧ localName name ≠ "clipPath"
        ∧ (localName name = "path" → children.any Markup.Element.isElement = true)
        ∧ ∃ es, Yields (readNodes children) es
          ∧ e = .container (.extra name) (labelOf attributes) es) := by
  rw [readNode]
  dsimp only
  constructor
  · intro h
    split at h
    · next hgroup =>
      obtain ⟨⟨m, l⟩, htransform, h⟩ := yields_bind.1 h
      obtain ⟨es, hes, h⟩ := yields_bind.1 h
      exact .inl ⟨hgroup, m, l, es, htransform, hes, (yields_pure.1 h).symm⟩
    · next hgroup =>
      split at h
      · next hpath =>
        obtain ⟨cs, hcs, h⟩ := yields_bind.1 h
        rw [Bool.not_eq_true'] at hpath
        exact .inr (.inl ⟨hpath.1, hpath.2, cs, hcs, (yields_pure.1 h).symm⟩)
      · next hpath =>
        have helements (hname : localName name = "path") :
            children.any Markup.Element.isElement = true := by
          by_contra hnone
          rw [Bool.not_eq_true] at hnone
          exact hpath ⟨hname, by rw [hnone]; rfl⟩
        split at h
        · next hclip =>
          obtain ⟨es, hes, h⟩ := yields_bind.1 h
          exact .inr (.inr (.inl ⟨hclip, es, hes, (yields_pure.1 h).symm⟩))
        · next hclip =>
          obtain ⟨es, hes, h⟩ := yields_bind.1 h
          exact .inr (.inr (.inr ⟨hgroup, hclip, helements, es, hes, (yields_pure.1 h).symm⟩))
  · rintro (⟨hname, m, l, es, htransform, hes, rfl⟩ | ⟨hname, htexts, cs, hcs, rfl⟩
      | ⟨hname, es, hes, rfl⟩ | ⟨hgroup, hclip, hpath, es, hes, rfl⟩)
    · rw [if_pos hname]
      exact yields_bind.2 ⟨_, htransform, yields_bind.2 ⟨es, hes, yields_pure.2 rfl⟩⟩
    · have hgroup : localName name ≠ "g" := hname ▸ by decide
      rw [if_neg hgroup, if_pos ⟨hname, by rw [htexts]; rfl⟩]
      exact yields_bind.2 ⟨cs, hcs, yields_pure.2 rfl⟩
    · have hgroup : localName name ≠ "g" := hname ▸ by decide
      have hpath : localName name ≠ "path" := hname ▸ by decide
      rw [if_neg hgroup, if_neg fun h => hpath h.1, if_pos hname]
      exact yields_bind.2 ⟨es, hes, yields_pure.2 rfl⟩
    · have hkept : ¬(localName name = "path" ∧ (!children.any Markup.Element.isElement) = true) :=
        fun h => by
          rw [hpath h.1] at h
          exact Bool.false_ne_true h.2
      rw [if_neg hgroup, if_neg hkept, if_neg hclip]
      exact yields_bind.2 ⟨es, hes, yields_pure.2 rfl⟩

/-- What is read from an element has the properties that reading gives. -/
theorem holds_readNode_element {P : ElementProperty} {tag : String → List (String × String) → Prop}
    (hreads : ReadsAs P .svg tag) {name : String} {attributes : List (String × String)}
    {children : List Node} (htag : tag name attributes)
    (hchildren : ∀ {es}, Yields (readNodes children) es → P.HoldsAll es) {e : Element}
    (h : Yields (readNode (.element name attributes children)) e) : P.Holds e := by
  obtain ⟨-, m, l, es, htransform, hes, rfl⟩ | ⟨-, -, cs, hcs, rfl⟩ | ⟨-, es, hes, rfl⟩
    | ⟨-, -, -, es, hes, rfl⟩ := yields_readNode_iff.1 h
  · obtain ⟨m', l', htransform', hkeys, hone⟩ := exists_takeTransform (labelOf attributes)
    obtain ⟨rfl, rfl⟩ := Prod.mk.inj (htransform.unique htransform')
    exact ⟨hreads.group htag hkeys hone, hchildren hes⟩
  · exact hreads.shape htag nofun (isPath_of_yields_commands hcs)
  · exact ⟨hreads.clipGroup htag rfl, hchildren hes⟩
  · exact ⟨hreads.extra htag, hchildren hes⟩

/-! ## Writing -/

section Writing

variable (places : UInt8)

theorem isTag_labelled {name : String} (hname : IsName name) {label : Label}
    (h : label.foreign.Keys IsName) : IsTag name (labelled name label).attributes :=
  isTag_setAll hname ((entries_idEntry (isName_idKey .svg) label).append h)

/-- The attributes of a container are read as they were written. -/
theorem pathData?_labelled (name : String) (label : Label) (hasElements : Bool) :
    pathData? .svg name (labelOf (labelled name label).attributes).foreign hasElements
      = pathData? .svg name label.foreign hasElements := by
  have hget := get?_foreign_setAll (idKey_ne_pathDataKey .svg) name label []
  rw [List.append_nil] at hget
  exact pathData?_congr (hget.trans Option.or_none) name hasElements

theorem isTag_containerTag {role : Role} {label : Label}
    (h : (sound .svg).container role label) :
    IsTag (containerTag places role label).name (containerTag places role label).attributes := by
  cases role with
  | group m =>
    rw [containerTag]
    split
    · rw [labelled, Markup.Element.name_setAll]
      exact isTag_labelled (by decide) h.1
    · rw [labelled, Markup.Element.set_setAll, Markup.Element.name_setAll]
      exact isTag_setAll (by decide)
        (((entries_idEntry (isName_idKey .svg) label).append h.1).append
          (.cons (by decide) _ entries_nil))
  | clipGroup =>
    rw [containerTag, labelled, Markup.Element.name_setAll]
    exact isTag_labelled (by decide) h.1
  | extra name =>
    rw [containerTag, labelled, Markup.Element.name_setAll]
    exact isTag_labelled h.2 h.1

theorem name_containerTag_group (m : Matrix) (label : Label) :
    (containerTag places (.group m) label).name = "g" := by
  rw [containerTag]
  split
  · exact Markup.Element.name_setAll _ _
  · exact Markup.Element.name_setAll _ _

/-- The path data that is read with a container is that of a kept element. -/
theorem isData_containerTag (role : Role) (label : Label) (children : List Element) :
    IsData (pathData? .svg (containerTag places role label).name
        (labelOf (containerTag places role label).attributes).foreign
        ((nodesOf places children).any Markup.Element.isElement))
      ↔ (Element.container role label children).Legible .svg := by
  cases role with
  | group m =>
    rw [name_containerTag_group, pathData?_of_localName_ne (by decide)]
    exact iff_of_true isData_none trivial
  | clipGroup =>
    rw [containerTag, labelled, Markup.Element.name_setAll, pathData?_of_localName_ne (by decide)]
    exact iff_of_true isData_none trivial
  | extra name =>
    have hname : (labelled name label).name = name := Markup.Element.name_setAll _ _
    have hany : (nodesOf places children).any Markup.Element.isElement
        = children.any Element.isTagged := any_isElement_nodesOf .svg places children
    rw [containerTag, hname, pathData?_labelled, hany]
    exact Iff.rfl

theorem isTag_pathTag {label : Label} (h : label.foreign.Keys (IsPathKey .svg))
    (commands : List Path.Command) :
    IsTag "path" (pathTag places label commands).attributes :=
  isTag_setAll (by decide) (((entries_idEntry (isName_idKey .svg) label).append
    (entries_dataEntry (by decide) places commands)).append (h.mono fun _ hkey => hkey.1))

theorem nodeOf_shape (use : Use) (label : Label) (commands : List Path.Command) :
    nodeOf places (.shape use label commands)
      = .element "path" (pathTag places label commands).attributes [] := by
  rw [nodeOf, Markup.Element.toNode, pathTag, Markup.Element.name_setAll,
    Markup.Element.children_setAll]

theorem wellFormed_nodeOf_shape {use : Use} {label : Label} {commands : List Path.Command}
    (h : (sound .svg).shape use label commands) :
    (nodeOf places (.shape use label commands)).WellFormed := by
  rw [nodeOf_shape]
  exact ⟨isTag_pathTag places h.1 commands, trivial⟩

theorem wellFormed_nodeOf_container {role : Role} {label : Label} {children : List Element}
    (h : (sound .svg).container role label)
    (hchildren : Node.WellFormedAll (nodesOf places children)) :
    (nodeOf places (.container role label children)).WellFormed :=
  ⟨isTag_containerTag places h, hchildren⟩

/-- A path is read exactly if its numbers are finite. -/
theorem readable_nodeOf_shape {use : Use} {label : Label} {commands : List Path.Command}
    (h : (sound .svg).shape use label commands) :
    Readable .svg (nodeOf places (.shape use label commands))
      ↔ (Element.shape use label commands).Legible .svg := by
  have hread : pathData? .svg "path" (labelOf (pathTag places label commands).attributes).foreign
      false = if commands.isEmpty then none else some (Path.print commands places) := by
    rw [pathData?, if_pos ⟨by decide, rfl⟩]
    exact get?_pathData "path" places h.1 commands
  have hdata := isData_print places h.2
  rw [← hread] at hdata
  rw [nodeOf_shape]
  exact (and_iff_left trivial).trans hdata

/-- A container is read exactly if it is legible itself and its children are read. -/
theorem readable_nodeOf_container (role : Role) (label : Label) (children : List Element) :
    Readable .svg (nodeOf places (.container role label children))
      ↔ (Element.container role label children).Legible .svg
        ∧ ReadableAll .svg (nodesOf places children) := by
  rw [← isData_containerTag places]
  exact Iff.rfl

end Writing

end VectorGraphics.Svg
