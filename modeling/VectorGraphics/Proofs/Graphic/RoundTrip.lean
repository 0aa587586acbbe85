import VectorGraphics.Proofs.Svg.Rereading
import VectorGraphics.Proofs.VectorDrawable.Rereading

/-!
# Reading undoes writing

Whatever is read from a document is recognized (`recognized_graphicOf`), and a recognized graphic
with finite paths is read again as expected (`yields_graphicOf_elementOf`). So a graphic that was
read from a document with names is written as a document that is read as the same graphic again,
with its numbers as they were written (`yields_readAs_writeAs`). Its paths have to consist of finite
numbers, and its character data has to be in normal form.
-/

namespace VectorGraphics

open Markup (Node)
open Reading

/-! ## What is read is recognized -/

section Recognized

variable {format : Format}

mutual

/-- What is read from a node is recognized. -/
theorem recognized_readNode : ∀ {n : Node} {e : Element}, Yields (format.readNode n) e →
    e.Recognized format
  | .text content, e, h => by
    rw [Format.readNode_text] at h
    rw [← yields_pure.1 h]
    trivial
  | .element name attributes children, e, h => by
    have hchildren {es : List Element} (hes : Yields (format.readNodes children) es) :
        Element.RecognizedAll format es := recognizedAll_readNodes hes
    cases format with
    | svg => exact Svg.recognized_readNode_element hchildren h
    | vectorDrawable => exact VectorDrawable.recognized_readNode_element hchildren h

theorem recognizedAll_readNodes : ∀ {ns : List Node} {es : List Element},
    Yields (format.readNodes ns) es → Element.RecognizedAll format es
  | [], es, h => by
    rw [Format.readNodes_nil] at h
    rw [← yields_pure.1 h]
    trivial
  | n :: ns, es, h => by
    rw [Format.readNodes_cons] at h
    obtain ⟨e, rest, he, hrest, rfl⟩ := yields_cons.1 h
    exact ⟨recognized_readNode he, recognizedAll_readNodes hrest⟩

end

/-- The graphic of a document is recognized. -/
theorem recognized_graphicOf {root : Markup.Element} {g : Graphic}
    (h : Yields (format.graphicOf root) g) : g.Recognized := by
  obtain ⟨es, hes, rfl⟩ := exists_of_graphicOf h
  exact ⟨keys_foreign_ofAttributes_ne _ root.attributes, recognizedAll_readNodes hes⟩

end Recognized

/-! ## What is recognized is read again -/

section Writing

variable {format : Format} (places : UInt8)

mutual

/-- A recognized element with finite paths is written as a node that is read as expected. -/
theorem yields_readNode_nodeOf : ∀ {e : Element}, e.Recognized format → finitePaths.Holds e →
    Yields (format.readNode (format.nodeOf places e)) (e.reread format places)
  | .text content, _, _ => by
    rw [Format.nodeOf_text, Format.readNode_text, Element.reread]
    exact yields_pure.2 rfl
  | .shape use label commands, h, hfinite => by
    cases format with
    | svg => exact Svg.yields_readNode_nodeOf_shape places h hfinite
    | vectorDrawable => exact VectorDrawable.yields_readNode_nodeOf_shape places h hfinite
  | .container role label children, h, hfinite => by
    have hes := yields_readNodes_nodesOf h.2.2 hfinite.2
    cases format with
    | svg => exact Svg.yields_readNode_nodeOf_container places h hes
    | vectorDrawable => exact VectorDrawable.yields_readNode_nodeOf_container places h hes

theorem yields_readNodes_nodesOf : ∀ {es : List Element}, Element.RecognizedAll format es →
    finitePaths.HoldsAll es →
      Yields (format.readNodes (format.nodesOf places es)) (Element.rereadAll format places es)
  | [], _, _ => by
    rw [Format.nodesOf_nil, Format.readNodes_nil]
    exact yields_pure.2 rfl
  | e :: es, h, hfinite => by
    rw [Format.nodesOf_cons, Format.readNodes_cons]
    exact yields_cons.2 ⟨_, _, yields_readNode_nodeOf h.1 hfinite.1,
      yields_readNodes_nodesOf h.2 hfinite.2, rfl⟩

end

variable (format)

mutual

/-- Character data is written where it is. -/
theorem isNormal_nodeOf : ∀ e : Element, (format.nodeOf places e).isNormal = e.isNormal
  | .text content => by
    rw [Format.nodeOf_text]
    rfl
  | .shape use label commands => by
    cases format with
    | svg => exact Svg.isNormal_nodeOf_shape places use label commands
    | vectorDrawable => exact VectorDrawable.isNormal_nodeOf_shape places use label commands
  | .container role label children => by
    rw [Element.isNormal, ← isNormalAll_nodesOf children]
    cases format with
    | svg => exact Svg.isNormal_nodeOf_container places role label children
    | vectorDrawable => exact VectorDrawable.isNormal_nodeOf_container places role label children

theorem isNormalAll_nodesOf : ∀ es : List Element,
    Node.isNormalAll (format.nodesOf places es) = Element.isNormalAll es
  | [] => by
    rw [Format.nodesOf_nil]
    rfl
  | e :: es => by
    have hhead : (format.nodesOf places es).head?.all Markup.Element.isElement
        = es.head?.all Element.isTagged := by
      cases es with
      | nil =>
        rw [Format.nodesOf_nil]
        rfl
      | cons f es =>
        rw [Format.nodesOf_cons]
        exact isElement_nodeOf format places f
    rw [Format.nodesOf_cons, Node.isNormalAll, Element.isNormalAll, isNormal_nodeOf e,
      isNormalAll_nodesOf es, isElement_nodeOf, hhead]

end

variable {format}

/-- A recognized graphic with finite paths is written as a document that is read as expected. -/
theorem yields_graphicOf_elementOf {g : Graphic} (h : g.Recognized)
    (hfinite : finitePaths.HoldsAll g.children) :
    Yields (g.format.graphicOf (g.format.elementOf g places)) (g.reread places) := by
  have hes := yields_readNodes_nodesOf places h.children hfinite
  have hlabel : Label.ofAttributes g.format.idKey (g.format.elementOf g places).attributes
      = g.label := by
    obtain ⟨isNamespace, heq⟩ := exists_elementOf g.format places g
    rw [heq]
    exact ofAttributes_root h.root _ [] isNamespace
  rw [graphicOf_of_name (name_elementOf places g), hlabel, children_elementOf]
  exact yields_bind_pure.2 ⟨_, hes, rfl⟩

end Writing

/-! ## Documents -/

instance : DecidablePred finitePaths.Here
  | .shape _ _ commands =>
    inferInstanceAs (Decidable (∀ c ∈ commands, ∀ xs ∈ c.numbers, ∀ x ∈ xs, x.isFinite = true))
  | .container .. => isTrue trivial
  | .text _ => isTrue trivial

instance (es : List Element) : Decidable (finitePaths.HoldsAll es) :=
  decidable_of_iff _ ElementProperty.holdsAll_iff_descendants.symm

/-- **Reading undoes writing.** What is read from a document with names in one of the formats, with
finite paths and without blank or divided character data, is written as a document that is read
again: as the same tree, in which the numbers of paths and the transforms of groups are what their
texts are read as. -/
theorem yields_readAs_writeAs {format : Format} {s : String} {root : Markup.Element} {g : Graphic}
    (hparse : Markup.parse s = .ok root) (hnames : root.Named) (hread : Yields (readAs format s) g)
    (hfinite : finitePaths.HoldsAll g.children) (hnormal : Element.isNormalAll g.children = true)
    (places : UInt8) :
    g.format = format ∧ Yields (readAs format (writeAs format g places)) (g.reread places) := by
  obtain ⟨root', hroot, hread⟩ := yields_bind.1 hread
  obtain rfl := hroot.unique (yields_document.2 hparse)
  have hsound := sound_graphicOf hnames hread
  have hrecognized := recognized_graphicOf hread
  obtain rfl := format_graphicOf hread
  have hwell := wellFormed_elementOf places hsound.root hsound.children
  have hdocument : Node.isNormalAll (g.format.elementOf g places).children = true := by
    rw [children_elementOf, isNormalAll_nodesOf, hnormal]
  have hself := (Markup.parse_text_eq_self_iff hwell).2 hdocument
  exact ⟨rfl, yields_bind.2 ⟨_, yields_document.2 hself,
    yields_graphicOf_elementOf places hrecognized hfinite⟩⟩

/-- A vector drawable with a group that has no width, and with character data. -/
def flatGroup : Markup.Element :=
  { name := "vector"
    children := [.element "group" [("android:name", "a"), ("android:scaleX", "0")]
      [.element "path" [("android:pathData", "M1.25 2h3z")] [], .text "1 < 2",
        .element "b" [] []]] }

/-- A group without width is written as two groups, and read as two. -/
theorem flatGroup_reads_back : ∃ g, Yields (readAs .vectorDrawable flatGroup.text) g
    ∧ Yields (readAs .vectorDrawable (writeAs .vectorDrawable g 1)) (g.reread 1) := by
  obtain ⟨g, hread, hfinite, hnormal⟩ : ∃ g, Yields (readAs .vectorDrawable flatGroup.text) g
      ∧ finitePaths.HoldsAll g.children ∧ Element.isNormalAll g.children = true := by
    decide +kernel
  have hparse : Markup.parse flatGroup.text = .ok flatGroup :=
    (Markup.parse_text_eq_self_iff (by decide +kernel)).2 (by decide +kernel)
  exact ⟨g, hread, (yields_readAs_writeAs hparse (by decide +kernel) hread hfinite hnormal 1).2⟩

end VectorGraphics
