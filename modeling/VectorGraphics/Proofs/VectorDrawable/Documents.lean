import VectorGraphics.Proofs.Graphic.Tidiness

/-!
# Elements of vector drawables

How one element of a vector drawable is read (`yields_readNode_iff`), how a group is written
(`toNode_groupElement`), and what is true of an element and of what it is written as if the same is
true of its children.
-/

namespace VectorGraphics.VectorDrawable

open Markup (Node IsName IsTag)
open ElementProperty Reading

/-! ## Reading -/

/-- Taking the transform out of a label never fails, adds no attribute and leaves the transform in
one place. -/
theorem exists_takeTransform (label : Label) : ∃ m l, Yields (takeTransform label) (m, l)
    ∧ (∀ p, label.foreign.Keys p → l.foreign.Keys p)
    ∧ OneTransform .vectorDrawable m l.foreign := by
  rw [takeTransform]
  split
  · exact ⟨_, _, yields_pure.2 rfl, fun _ h => h.filter _, .inr (Attributes.keys_eraseAll _ _)⟩
  · exact ⟨_, _, yields_bind.2 ⟨(), yields_note, yields_pure.2 rfl⟩, fun _ h => h, .inl rfl⟩

theorem pathData?_of_useOf?_eq_none {name : String} (h : useOf? name = none)
    (foreign : Attributes) (hasElements : Bool) :
    pathData? .vectorDrawable name foreign hasElements = none :=
  if_neg fun hpath => by
    rw [h] at hpath
    exact Bool.false_ne_true hpath.1

/-- A group has no path data. -/
theorem readable_group {attributes : List (String × String)} {children : List Node} :
    Readable .vectorDrawable (.element "group" attributes children)
      ↔ ReadableAll .vectorDrawable children := by
  rw [Readable, pathData?_of_useOf?_eq_none (by decide)]
  exact and_iff_right isData_none

/-- An element is read exactly if its path data and its children can be read. -/
theorem succeeds_readNode_element {name : String} {attributes : List (String × String)}
    {children : List Node}
    (hchildren : Succeeds (readNodes children) ↔ ReadableAll .vectorDrawable children) :
    Succeeds (readNode (.element name attributes children))
      ↔ Readable .vectorDrawable (.element name attributes children) := by
  rw [readNode]
  dsimp only
  split
  · next hgroup =>
    obtain ⟨m, l, htransform, -⟩ := exists_takeTransform (labelOf attributes)
    rw [hgroup, readable_group, ← hchildren,
      succeeds_bind_of_iff (fun _ _ => succeeds_bind_pure)]
    exact and_iff_right ⟨_, htransform⟩
  · rw [Readable, ← hchildren]
    split
    · next use huse =>
      split
      · next hkept =>
        have hnone : pathData? .vectorDrawable name (labelOf attributes).foreign
            (children.any Markup.Element.isElement) = none :=
          if_neg fun h => by
            rw [h.2.1, h.2.2] at hkept
            cases hkept
        exact succeeds_bind_pure.trans (and_iff_right (hnone ▸ isData_none)).symm
      · next hpath =>
        rw [Bool.not_eq_true, Bool.or_eq_false_iff] at hpath
        have hdata : pathData? .vectorDrawable name (labelOf attributes).foreign
            (children.any Markup.Element.isElement)
              = (labelOf attributes).foreign.get? Format.vectorDrawable.pathDataKey :=
          if_pos ⟨by rw [huse]; rfl, hpath.1, hpath.2⟩
        rw [hchildren, and_iff_left (readableAll_of_any hpath.1), succeeds_bind_pure]
        exact hdata ▸ succeeds_commands
    · next huse =>
      rw [pathData?_of_useOf?_eq_none huse]
      exact succeeds_bind_pure.trans (and_iff_right isData_none).symm

/-- What an element is read as, by its name and by what is inside. -/
theorem yields_readNode_iff {name : String} {attributes : List (String × String)}
    {children : List Node} {e : Element} :
    Yields (readNode (.element name attributes children)) e ↔
      (name = "group" ∧ ∃ m l es, Yields (takeTransform (labelOf attributes)) (m, l)
        ∧ Yields (readNodes children) es ∧ e = .group m l es)
      ∨ (∃ use, useOf? name = some use ∧ children.any Markup.Element.isElement = false
        ∧ refersToResource (labelOf attributes).foreign = false ∧
        ∃ cs, Yields (commands
            ((labelOf attributes).foreign.get? Format.vectorDrawable.pathDataKey)) cs
          ∧ e = .shape use { labelOf attributes with
              foreign := (labelOf attributes).foreign.erase Format.vectorDrawable.pathDataKey } cs)
      ∨ (name ≠ "group" ∧ ((useOf? name).isSome = true →
          children.any Markup.Element.isElement = true
            ∨ refersToResource (labelOf attributes).foreign = true)
        ∧ ∃ es, Yields (readNodes children) es
          ∧ e = .container (.extra name) (labelOf attributes) es) := by
  rw [readNode]
  dsimp only
  constructor
  · intro h
    split at h
    · next hgroup =>
      obtain ⟨⟨m, l⟩, htransform, h⟩ := yields_bind.1 h
      obtain ⟨es, hes, h⟩ := yields_bind.1 h
      exact .inl ⟨hgroup, m, l, es, htransform, hes, (yields_pure.1 h).symm⟩
    · next hgroup =>
      split at h
      · next use huse =>
        split at h
        · next hkept =>
          obtain ⟨es, hes, h⟩ := yields_bind.1 h
          exact .inr (.inr ⟨hgroup, fun _ => Bool.or_eq_true_iff.1 hkept, es, hes,
            (yields_pure.1 h).symm⟩)
        · next hpath =>
          rw [Bool.not_eq_true, Bool.or_eq_false_iff] at hpath
          obtain ⟨cs, hcs, h⟩ := yields_bind.1 h
          exact .inr (.inl ⟨use, huse, hpath.1, hpath.2, cs, hcs, (yields_pure.1 h).symm⟩)
      · next huse =>
        obtain ⟨es, hes, h⟩ := yields_bind.1 h
        refine .inr (.inr ⟨hgroup, fun hsome => ?_, es, hes, (yields_pure.1 h).symm⟩)
        rw [huse] at hsome
        cases hsome
  · rintro (⟨hname, m, l, es, htransform, hes, rfl⟩ | ⟨use, huse, htexts, hdata, cs, hcs, rfl⟩
      | ⟨hgroup, hkept, es, hes, rfl⟩)
    · rw [if_pos hname]
      exact yields_bind.2 ⟨_, htransform, yields_bind.2 ⟨es, hes, yields_pure.2 rfl⟩⟩
    · have hgroup : name ≠ "group" := by
        rintro rfl
        cases huse
      rw [if_neg hgroup, huse]
      dsimp only
      rw [htexts, hdata, Bool.or_self, if_neg Bool.false_ne_true]
      exact yields_bind.2 ⟨cs, hcs, yields_pure.2 rfl⟩
    · rw [if_neg hgroup]
      split
      · next use huse =>
        rw [if_pos (Bool.or_eq_true_iff.2 (hkept (by rw [huse]; rfl)))]
        exact yields_bind.2 ⟨es, hes, yields_pure.2 rfl⟩
      · exact yields_bind.2 ⟨es, hes, yields_pure.2 rfl⟩

/-- What is read from an element has the properties that reading gives. -/
theorem holds_readNode_element {P : ElementProperty} {tag : String → List (String × String) → Prop}
    (hreads : ReadsAs P .vectorDrawable tag) {name : String} {attributes : List (String × String)}
    {children : List Node} (htag : tag name attributes)
    (hchildren : ∀ {es}, Yields (readNodes children) es → P.HoldsAll es) {e : Element}
    (h : Yields (readNode (.element name attributes children)) e) : P.Holds e := by
  obtain ⟨-, m, l, es, htransform, hes, rfl⟩ | ⟨use, -, -, -, cs, hcs, rfl⟩
    | ⟨-, -, es, hes, rfl⟩ := yields_readNode_iff.1 h
  · obtain ⟨m', l', htransform', hkeys, hone⟩ := exists_takeTransform (labelOf attributes)
    obtain ⟨rfl, rfl⟩ := Prod.mk.inj (htransform.unique htransform')
    exact ⟨hreads.group htag hkeys hone, hchildren hes⟩
  · exact hreads.shape htag (fun _ => rfl) (isPath_of_yields_commands hcs)
  · exact ⟨hreads.extra htag, hchildren hes⟩

/-! ## Writing -/

section Writing

variable (places : UInt8)

theorem isTag_labelled {name : String} (hname : IsName name) {label : Label}
    (h : label.foreign.Keys IsName) {entries : List (String × String)}
    (hentries : Entries IsName entries) : IsTag name (labelled name label entries).attributes :=
  isTag_setAll hname
    (((entries_idEntry (isName_idKey .vectorDrawable) label).append hentries).append h)

theorem toNode_labelled (name : String) (label : Label) (entries : List (String × String))
    (children : List Node) :
    { labelled name label entries with children }.toNode
      = .element name (labelled name label entries).attributes children := by
  rw [Markup.Element.toNode, labelled, Markup.Element.name_setAll]

/-! ### Groups -/

/-- A written transform has keys of transforms, and the texts of numbers for values. -/
theorem forall_mem_transformEntries {P : String × String → Prop}
    (h : ∀ key ∈ Format.vectorDrawable.transformKeys, ∀ (x : Single) (places : UInt8),
      P (key, x.text places)) (m : Matrix) : ∀ entry ∈ transformEntries places m, P entry := by
  have hif {condition : Bool} {key : String} (hkey : key ∈ Format.vectorDrawable.transformKeys)
      (x : Single) (places : UInt8) :
      ∀ entry ∈ entryIf condition key (x.text places), P entry := by
    rw [entryIf]
    split
    · exact List.forall_mem_singleton.2 (h key hkey x places)
    · exact List.forall_mem_nil _
  rw [transformEntries]
  split
  · exact List.forall_mem_nil _
  · simp only [List.forall_mem_append]
    refine ⟨⟨⟨⟨?_, ?_⟩, ?_⟩, ?_⟩, ?_⟩
    all_goals exact hif (by decide) _ _

theorem entries_transformEntries {p : String → Prop}
    (h : ∀ key ∈ Format.vectorDrawable.transformKeys, p key) (m : Matrix) :
    Entries p (transformEntries places m) :=
  forall_mem_transformEntries places (fun key hkey _ _ => h key hkey) m

/-- A group is written as an element around its children, or around a second one inside it. -/
theorem toNode_groupElement (m : Matrix) (label : Label) (children : List Node) :
    ∃ outer, Entries IsName outer ∧
      ((groupElement places m label children).toNode
          = .element "group" (labelled "group" label outer).attributes children ∨
        ∃ inner, IsTag "group" inner ∧ (groupElement places m label children).toNode
          = .element "group" (labelled "group" label outer).attributes
            [.element "group" inner children]) := by
  rw [groupElement]
  dsimp only
  split
  · exact ⟨[], entries_nil, .inl (toNode_labelled ..)⟩
  · split
    · exact ⟨_, entries_transformEntries places (by decide) m, .inl (toNode_labelled ..)⟩
    · let nested := ({ name := "group", children } : Markup.Element).setAll
        (transformEntries places m.splitSkew.2)
      have hnested : nested.toNode = .element "group" nested.attributes children := by
        rw [Markup.Element.toNode, Markup.Element.name_setAll, Markup.Element.children_setAll]
      have htag : IsTag "group" nested.attributes :=
        isTag_setAll (by decide) (entries_transformEntries places (by decide) m.splitSkew.2)
      refine ⟨_, entries_transformEntries places (by decide) m.splitSkew.1,
        .inr ⟨nested.attributes, htag, ?_⟩⟩
      rw [← hnested]
      exact toNode_labelled ..

theorem wellFormed_groupElement (m : Matrix) {label : Label} (h : label.foreign.Keys IsName)
    {children : List Node} (hchildren : Node.WellFormedAll children) :
    (groupElement places m label children).toNode.WellFormed := by
  obtain ⟨outer, houter, heq | ⟨inner, hinner, heq⟩⟩ :=
    toNode_groupElement places m label children
  · rw [heq]
    exact ⟨isTag_labelled (by decide) h houter, hchildren⟩
  · rw [heq]
    exact ⟨isTag_labelled (by decide) h houter, ⟨hinner, hchildren⟩, trivial⟩

theorem readable_groupElement (m : Matrix) (label : Label) (children : List Node) :
    Readable .vectorDrawable (groupElement places m label children).toNode
      ↔ ReadableAll .vectorDrawable children := by
  obtain ⟨outer, -, heq | ⟨inner, -, heq⟩⟩ := toNode_groupElement places m label children
  · rw [heq, readable_group]
  · rw [heq, readable_group, ReadableAll, readable_group]
    exact and_iff_left trivial

/-! ### Paths -/

theorem useOf?_useName (use : Use) : useOf? (useName use) = some use := by
  cases use <;> decide

theorem isName_useName (use : Use) : IsName (useName use) := by
  cases use <;> decide

theorem letter_ne (c : Path.Command) :
    Text.isBlank c.letter = false
      ∧ (decide (c.letter = '@') || decide (c.letter = '?')) = false := by
  cases c with
  | close => decide
  | draw k m gs => cases m <;> rw [Path.Command.letter] <;> cases k <;> decide

/-- Printed path data begins with a letter and so refers to no resource. -/
theorem refersToResource_print {foreign : Attributes} {commands : List Path.Command}
    (h : foreign.get? Format.vectorDrawable.pathDataKey
      = if commands.isEmpty then none else some (Path.print commands places)) :
    refersToResource foreign = false := by
  rw [refersToResource, h]
  cases commands with
  | nil => rfl
  | cons c cs =>
    obtain ⟨hblank, hresource⟩ := letter_ne c
    have hprint : (Path.print (c :: cs) places).toList.dropWhile Text.isBlank
        = c.letter :: ((c.chars places).tail ++ cs.flatMap (Path.Command.chars places)) := by
      rw [Path.print, String.toList_ofList, List.flatMap_cons, Path.Command.chars.eq_def,
        List.cons_append, List.dropWhile_cons_of_neg (by rw [hblank]; exact Bool.false_ne_true),
        List.tail_cons]
    dsimp only [List.isEmpty_cons]
    rw [if_neg Bool.false_ne_true]
    dsimp only
    rw [hprint]
    exact hresource

theorem isTag_pathTag (use : Use) {label : Label}
    (h : label.foreign.Keys (IsPathKey .vectorDrawable)) (commands : List Path.Command) :
    IsTag (useName use) (pathTag places use label commands).attributes :=
  isTag_labelled (isName_useName use) (h.mono fun _ hkey => hkey.1)
    (entries_dataEntry (by decide) places commands)

/-- The path data that is read with a path is that of its commands. -/
theorem pathData?_pathTag (use : Use) {label : Label}
    (h : label.foreign.Keys (IsPathKey .vectorDrawable)) (commands : List Path.Command) :
    pathData? .vectorDrawable (useName use)
        (labelOf (pathTag places use label commands).attributes).foreign false
      = if commands.isEmpty then none else some (Path.print commands places) := by
  have hget : (labelOf (pathTag places use label commands).attributes).foreign.get?
      Format.vectorDrawable.pathDataKey
        = if commands.isEmpty then none else some (Path.print commands places) :=
    get?_pathData (useName use) places h commands
  rw [pathData?, if_pos ⟨by rw [useOf?_useName]; rfl, rfl, refersToResource_print places hget⟩]
  exact hget

/-! ### Elements -/

theorem nodeOf_shape (use : Use) (label : Label) (commands : List Path.Command) :
    nodeOf places (.shape use label commands)
      = .element (useName use) (pathTag places use label commands).attributes [] := by
  rw [nodeOf, Markup.Element.toNode, pathTag, labelled, Markup.Element.name_setAll,
    Markup.Element.children_setAll]

theorem wellFormed_nodeOf_shape {use : Use} {label : Label} {commands : List Path.Command}
    (h : (sound .vectorDrawable).shape use label commands) :
    (nodeOf places (.shape use label commands)).WellFormed := by
  rw [nodeOf_shape]
  exact ⟨isTag_pathTag places use h.1 commands, trivial⟩

theorem wellFormed_nodeOf_container {role : Role} {label : Label} {children : List Element}
    (h : (sound .vectorDrawable).container role label)
    (hchildren : Node.WellFormedAll (nodesOf places children)) :
    (nodeOf places (.container role label children)).WellFormed := by
  cases role with
  | group m => exact wellFormed_groupElement places m h.1 hchildren
  | clipGroup => cases h.2
  | extra name =>
    rw [nodeOf, toNode_labelled]
    exact ⟨isTag_labelled h.2 h.1 entries_nil, hchildren⟩

/-- A path is read exactly if its numbers are finite. -/
theorem readable_nodeOf_shape {use : Use} {label : Label} {commands : List Path.Command}
    (h : (sound .vectorDrawable).shape use label commands) :
    Readable .vectorDrawable (nodeOf places (.shape use label commands))
      ↔ (Element.shape use label commands).Legible .vectorDrawable := by
  have hdata := isData_print places h.2
  rw [← pathData?_pathTag places use h.1 commands] at hdata
  rw [nodeOf_shape]
  exact (and_iff_left trivial).trans hdata

/-- A container is read exactly if it is legible itself and its children are read. -/
theorem readable_nodeOf_container {role : Role} {label : Label} {children : List Element}
    (h : (sound .vectorDrawable).container role label) :
    Readable .vectorDrawable (nodeOf places (.container role label children))
      ↔ (Element.container role label children).Legible .vectorDrawable
        ∧ ReadableAll .vectorDrawable (nodesOf places children) := by
  cases role with
  | group m => exact (readable_groupElement places m label _).trans (and_iff_right trivial).symm
  | clipGroup => cases h.2
  | extra name =>
    have hget := get?_foreign_setAll (idKey_ne_pathDataKey .vectorDrawable) name label []
    have hdata := pathData?_congr (hget.trans Option.or_none) name (children.any Element.isTagged)
    have hany : (nodesOf places children).any Markup.Element.isElement
        = children.any Element.isTagged := any_isElement_nodesOf .vectorDrawable places children
    rw [nodeOf, toNode_labelled, Readable, hany]
    exact and_congr_left fun _ => hdata ▸ Iff.rfl

end Writing

end VectorGraphics.VectorDrawable
