import VectorGraphics.Proofs.Graphic.Rereading

/-!
# Elements of vector drawables that are written and read again

An element that is read from a vector drawable is recognized if its children are
(`recognized_readNode_element`), and a recognized element is read again as expected if its children
are (`yields_readNode_nodeOf_shape`, `yields_readNode_nodeOf_container`).
-/

namespace VectorGraphics.VectorDrawable

open Markup (Node)
open Reading

/-! ## What is read is recognized -/

/-- The transform of a group is in one place, and its identifier stays. -/
theorem isReadAs_takeTransform {label : Label}
    (hlabel : label.foreign.Keys (· ≠ Format.vectorDrawable.idKey)) {m : Matrix} {l : Label}
    (h : Yields (takeTransform label) (m, l)) (hasElements : Bool) :
    l.foreign.Keys (· ≠ Format.vectorDrawable.idKey)
      ∧ IsReadAs .vectorDrawable l.foreign hasElements (.group m) := by
  rw [takeTransform] at h
  split at h
  · obtain ⟨rfl, rfl⟩ := Prod.mk.inj (yields_pure.1 h)
    exact ⟨hlabel.filter _, .inl (Attributes.keys_eraseAll _ _)⟩
  · next key raw herror =>
    obtain ⟨_, -, h⟩ := yields_bind.1 h
    obtain ⟨rfl, rfl⟩ := Prod.mk.inj (yields_pure.1 h)
    exact ⟨hlabel, .inr ⟨rfl, _, herror⟩⟩

/-- What is read from an element is recognized. -/
theorem recognized_readNode_element {name : String} {attributes : List (String × String)}
    {children : List Node}
    (hchildren : ∀ {es}, Yields (readNodes children) es → Element.RecognizedAll .vectorDrawable es)
    {e : Element} (h : Yields (readNode (.element name attributes children)) e) :
    e.Recognized .vectorDrawable := by
  have hlabel : (labelOf attributes).foreign.Keys (· ≠ Format.vectorDrawable.idKey) :=
    keys_foreign_ofAttributes_ne _ attributes
  obtain ⟨-, m, l, es, htransform, hes, rfl⟩ | ⟨use, -, -, -, cs, hcs, rfl⟩
    | ⟨hgroup, hkept, es, hes, rfl⟩ := yields_readNode_iff.1 h
  · obtain ⟨hid, hrole⟩ := isReadAs_takeTransform hlabel htransform (es.any Element.isTagged)
    exact ⟨hid, hrole, hchildren hes⟩
  · refine ⟨fun _ => rfl, fun entry hmem => ?_, isPath_of_yields_commands hcs⟩
    exact ⟨hlabel.filter _ entry hmem, Attributes.keys_erase_ne _ _ entry hmem⟩
  · refine ⟨hlabel, ⟨hgroup, fun huse => ?_⟩, hchildren hes⟩
    rw [any_isTagged_of_readNodes .vectorDrawable hes]
    exact hkept huse

/-! ## Transforms -/

/-- A transform depends on its own attributes only. -/
theorem groupTransform_congr {a b : Attributes}
    (h : ∀ key ∈ Format.vectorDrawable.transformKeys, a.get? key = b.get? key) :
    groupTransform a = groupTransform b := by
  have hnumber {key : String} (hkey : key ∈ Format.vectorDrawable.transformKeys)
      (default : Single) : numberOr a key default = numberOr b key default := by
    rw [numberOr, numberOr, h key hkey]
  simp only [Format.transformKeys, List.mem_cons, List.not_mem_nil, or_false] at hnumber
  simp only [groupTransform, hnumber, true_or, or_true]

/-- Attributes with the texts of numbers are read. -/
theorem exists_groupTransform {entries : List (String × String)}
    (h : ∀ entry ∈ entries, ∃ (x : Single) (places : UInt8), entry.2 = x.text places) :
    ∃ t, groupTransform (.ofList entries) = .ok t := by
  have hnumber (key : String) (default : Single) :
      ∃ x, numberOr (.ofList entries) key default = .ok x := by
    rw [numberOr]
    cases hget : (Attributes.ofList entries).get? key with
    | none => exact ⟨default, rfl⟩
    | some raw =>
      rw [Attributes.get?_ofList] at hget
      obtain ⟨front, back, hentries, -⟩ := List.lookup_eq_some_iff.1 hget
      obtain ⟨x, places, hraw⟩ := h (key, raw) (by
        rw [← List.mem_reverse, hentries]
        exact List.mem_append_right _ List.mem_cons_self)
      obtain ⟨hword, y, hy⟩ := Single.isWord_chars x places
      obtain rfl : raw = x.text places := hraw
      refine ⟨y, ?_⟩
      simp only [Single.text, String.toList_ofList, hword.trimList, hy]
  obtain ⟨x₁, h₁⟩ := hnumber "android:rotation" 0
  obtain ⟨x₂, h₂⟩ := hnumber "android:pivotX" 0
  obtain ⟨x₃, h₃⟩ := hnumber "android:pivotY" 0
  obtain ⟨x₄, h₄⟩ := hnumber "android:scaleX" 1
  obtain ⟨x₅, h₅⟩ := hnumber "android:scaleY" 1
  obtain ⟨x₆, h₆⟩ := hnumber "android:translateX" 0
  obtain ⟨x₇, h₇⟩ := hnumber "android:translateY" 0
  rw [groupTransform, h₁, h₂, h₃, h₄, h₅, h₆, h₇]
  exact ⟨_, rfl⟩

/-- Without attributes a group is not transformed. -/
theorem exists_groupTransform_empty : ∃ t, groupTransform ∅ = .ok t ∧ t.matrix = .identity := by
  refine ⟨_, rfl, ?_⟩
  rw [GroupTransform.matrix, Matrix.mk.injEq]
  decide +kernel

/-! ## What is recognized is read again -/

section Writing

variable (places : UInt8)

theorem labelOf_labelled {label : Label}
    (hid : label.foreign.Keys (· ≠ Format.vectorDrawable.idKey)) (name : String) :
    labelOf (labelled name label []).attributes = label := by
  rw [labelled, List.append_nil]
  exact ofAttributes_label hid name []

/-- A label with a transform beside it gives both back. -/
theorem yields_takeTransform_labelled (label : Label)
    (hid : label.foreign.Keys (· ≠ Format.vectorDrawable.idKey))
    (hkeys : label.foreign.Keys (· ∉ Format.vectorDrawable.transformKeys)) (children : List Node)
    {entries : List (String × String)}
    (hentries : Entries (· ∈ Format.vectorDrawable.transformKeys) entries) {t : GroupTransform}
    (ht : groupTransform (.ofList entries) = .ok t) :
    Yields (takeTransform (labelOf (({ name := "group", children } : Markup.Element).setAll
        (label.idEntry nameKey ++ entries ++ label.foreign.toList)).attributes))
      (t.matrix, label) := by
  have hread : labelOf (({ name := "group", children } : Markup.Element).setAll
      (label.idEntry nameKey ++ entries ++ label.foreign.toList)).attributes
        = ⟨label.id, .ofList (entries ++ label.foreign.toList)⟩ := by
    have hfront : Entries (· ≠ Format.vectorDrawable.idKey) entries := fun entry hmem heq =>
      absurd (heq ▸ hentries entry hmem) (by decide)
    have := ofAttributes_labelled hid "group" children hfront entries_nil
    rwa [List.append_nil, List.append_nil] at this
  have htransform : groupTransform (.ofList (entries ++ label.foreign.toList)) = .ok t := by
    rw [← ht]
    refine groupTransform_congr fun key hkey => ?_
    rw [get?_ofList_append, hkeys.get?_eq_none fun hnot => hnot hkey, Option.none_or]
  have herase : (Attributes.ofList (entries ++ label.foreign.toList)).eraseAll
      Format.vectorDrawable.transformKeys = label.foreign := by
    have := filter_ofList_around (p := fun key => !Format.vectorDrawable.transformKeys.contains key)
      (a := label.foreign) entries (fun entry hmem => by simpa using hkeys entry hmem)
      (fun entry hmem => by simpa using hentries entry hmem) entries_nil
    rwa [List.append_nil] at this
  rw [hread, takeTransform]
  dsimp only
  rw [htransform, herase]
  exact yields_pure.2 rfl

/-- A label without a transform beside it gives a transform that cannot be read back, or none. -/
theorem yields_takeTransform_label {m : Matrix} {label : Label}
    (hid : label.foreign.Keys (· ≠ Format.vectorDrawable.idKey)) {hasElements : Bool}
    (hrole : IsReadAs .vectorDrawable label.foreign hasElements (.group m)) :
    Yields (takeTransform (labelOf (labelled "group" label []).attributes)) (.identity, label) := by
  obtain hkeys | ⟨-, ⟨key, raw⟩, herror⟩ := hrole
  · obtain ⟨t, ht, hidentity⟩ := exists_groupTransform_empty
    rw [← hidentity]
    exact yields_takeTransform_labelled label hid hkeys [] entries_nil ht
  · have hread : labelOf (labelled "group" label []).attributes = label := labelOf_labelled hid _
    rw [hread, takeTransform, herror]
    exact yields_bind.2 ⟨(), yields_note, yields_pure.2 rfl⟩

/-- What a transform is written as is read as a transform. -/
theorem exists_rereadTransform (m : Matrix) :
    ∃ t, groupTransform (.ofList (transformEntries places m)) = .ok t
      ∧ t.matrix = rereadTransform places m := by
  obtain ⟨t, ht⟩ := exists_groupTransform (forall_mem_transformEntries places
    (P := fun entry => ∃ (x : Single) (places : UInt8), entry.2 = x.text places)
    (fun key hkey x places => ⟨x, places, rfl⟩) m)
  refine ⟨t, ht, ?_⟩
  rw [rereadTransform, ht]

/-- A group is read as one group, or as two. -/
theorem yields_readNode_groupElement {m : Matrix} {label : Label}
    (hid : label.foreign.Keys (· ≠ Format.vectorDrawable.idKey)) {hasElements : Bool}
    (hrole : IsReadAs .vectorDrawable label.foreign hasElements (.group m)) {ns : List Node}
    {es : List Element} (hes : Yields (readNodes ns) es) :
    Yields (readNode (groupElement places m label ns).toNode)
      (rereadGroup .vectorDrawable places m label es) := by
  have hgroup {attributes : List (String × String)} {ns : List Node} {es : List Element}
      {m : Matrix} {l : Label} (h : Yields (takeTransform (labelOf attributes)) (m, l))
      (hes : Yields (readNodes ns) es) :
      Yields (readNode (.element "group" attributes ns)) (.group m l es) :=
    yields_readNode_iff.2 (.inl ⟨rfl, m, l, es, h, hes, rfl⟩)
  have hsettled (hm : ¬m.isIdentity = true) :
      label.foreign.Keys (· ∉ Format.vectorDrawable.transformKeys) := by
    refine hrole.resolve_right fun h => hm ?_
    rw [h.1]
    decide
  have hentries (m : Matrix) :
      Entries (· ∈ Format.vectorDrawable.transformKeys) (transformEntries places m) :=
    entries_transformEntries places (fun _ hkey => hkey) m
  rw [groupElement, rereadGroup]
  dsimp only
  split
  · rw [toNode_labelled]
    exact hgroup (yields_takeTransform_label hid hrole) hes
  · next hm =>
    cases hdecompose : m.decompose with
    | some d =>
      dsimp only
      obtain ⟨t, ht, htransform⟩ := exists_rereadTransform places m
      rw [toNode_labelled, ← htransform]
      exact hgroup (yields_takeTransform_labelled label hid (hsettled hm) [] (hentries m) ht) hes
    | none =>
      dsimp only
      obtain ⟨t, ht, htransform⟩ := exists_rereadTransform places m.splitSkew.1
      obtain ⟨u, hu, hinner⟩ := exists_rereadTransform places m.splitSkew.2
      rw [toNode_labelled, ← htransform, ← hinner]
      refine hgroup (yields_takeTransform_labelled label hid (hsettled hm) [] (hentries _) ht)
        (yields_bind.2 ⟨_, ?_, yields_bind.2 ⟨[], yields_pure.2 rfl, yields_pure.2 rfl⟩⟩)
      have hnested := yields_takeTransform_labelled {} Attributes.keys_empty
        Attributes.keys_empty ns (hentries m.splitSkew.2) hu
      rw [Markup.Element.toNode, Markup.Element.name_setAll, Markup.Element.children_setAll]
      rw [show (∅ : Attributes).toList = [] from rfl, List.append_nil] at hnested
      exact hgroup hnested hes

/-- A recognized path with finite numbers is written as a node that is read as expected. -/
theorem yields_readNode_nodeOf_shape {use : Use} {label : Label} {commands : List Path.Command}
    (h : (Element.shape use label commands).Recognized .vectorDrawable)
    (hfinite : finitePaths.shape use label commands) :
    Yields (readNode (nodeOf places (.shape use label commands)))
      ((Element.shape use label commands).reread .vectorDrawable places) := by
  obtain ⟨-, hkeys, hpath⟩ := h
  obtain ⟨l, hl, hdata, hlabel⟩ := ofAttributes_path hkeys (useName use) places commands
  have hread : labelOf (pathTag places use label commands).attributes = l := hl
  have hcommands := yields_commands_print places hpath hfinite
  have hresource := refersToResource_print places hdata
  rw [← hdata, ← hread] at hcommands
  rw [← hread] at hresource
  rw [nodeOf_shape]
  refine yields_readNode_iff.2 (.inr (.inl ⟨use, useOf?_useName use, rfl, hresource, _,
    hcommands, ?_⟩))
  rw [hread, hlabel, Element.reread]

/-- A recognized container is written as a node that is read as expected if its children are. -/
theorem yields_readNode_nodeOf_container {role : Role} {label : Label} {children : List Element}
    (h : (Element.container role label children).Recognized .vectorDrawable)
    (hes : Yields (readNodes (nodesOf places children))
      (Element.rereadAll .vectorDrawable places children)) :
    Yields (readNode (nodeOf places (.container role label children)))
      ((Element.container role label children).reread .vectorDrawable places) := by
  obtain ⟨hid, hrole, -⟩ := h
  cases role with
  | group m => exact yields_readNode_groupElement places hid hrole hes
  | clipGroup => cases hrole
  | extra name =>
    have hread : labelOf (labelled name label []).attributes = label := labelOf_labelled hid name
    have hnode : nodeOf places (.container (.extra name) label children)
        = .element name (labelled name label []).attributes (nodesOf places children) :=
      toNode_labelled ..
    have hany : (nodesOf places children).any Markup.Element.isElement
        = children.any Element.isTagged := any_isElement_nodesOf .vectorDrawable places children
    obtain ⟨hgroup, hkept⟩ := hrole
    rw [← hany, ← hread] at hkept
    rw [hnode]
    refine yields_readNode_iff.2 (.inr (.inr ⟨hgroup, hkept, _, hes, ?_⟩))
    rw [hread]
    rfl

theorem isNormal_nodeOf_shape (use : Use) (label : Label) (commands : List Path.Command) :
    (nodeOf places (.shape use label commands)).isNormal = true := by
  rw [nodeOf_shape]
  rfl

theorem isNormal_nodeOf_container (role : Role) (label : Label) (children : List Element) :
    (nodeOf places (.container role label children)).isNormal
      = Node.isNormalAll (nodesOf places children) := by
  cases role with
  | group m =>
    obtain ⟨outer, -, heq | ⟨inner, -, heq⟩⟩ :=
      toNode_groupElement places m label (nodesOf places children)
    · rw [nodeOf, heq]
      rfl
    · rw [nodeOf, heq]
      exact (Bool.and_true _).trans (Bool.and_true _)
  | clipGroup | extra name => rfl

end Writing

end VectorGraphics.VectorDrawable
