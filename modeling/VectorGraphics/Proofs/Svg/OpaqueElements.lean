import VectorGraphics.Proofs.Graphic.Documents
import VectorGraphics.Proofs.Markup.DocumentContents

/-!
# Character data of opaque elements

An element that is neither a group nor a clip path nor a plain path is kept as it is
(`names_opaqueElements`). Its character data is in the document and in what is written from it, in
the same order, but for two kinds: runs that are blank throughout, which are dropped everywhere, and
what stands in a path. Where an opaque element has neither, its character data is carried through
whole, and nowhere else (`characters_write_iff`): blanks between the elements inside it are lost.
-/

namespace VectorGraphics.Svg

open Markup (Node Span IsContent Intact spans contentOf isBlankRun)
open Reading

/-- A path without elements inside, of which nothing but the path is kept. -/
def isPlainPath (name : String) (hasElements : Bool) : Bool :=
  localName name = "path" && !hasElements

/-- Whether an element is kept as it is. -/
def isOpaque (name : String) (hasElements : Bool) : Bool :=
  localName name ≠ "g" && localName name ≠ "clipPath" && !isPlainPath name hasElements

/-- The elements of a document that are kept as they are, in document order. -/
def opaqueElements (s : String) : List Span :=
  (spans (contentOf s)).filter (Span.satisfies isOpaque)

/-- The name of an element that is kept as it is. -/
def extraName? : Element → Option String
  | .container (.extra name) _ _ => some name
  | _ => none

/-! ## Nodes -/

/-- No element loses its character data. -/
abbrev keepsAll (_ : String) (_ : Bool) : Bool := false

theorem selectedIn_of_any {skips selects : String → Bool → Bool} {ns : List Node}
    (h : ns.any Markup.Element.isElement = false) : Node.selectedIn skips selects ns = [] := by
  induction ns with
  | nil => rfl
  | cons n ns ih =>
    rw [List.any_cons, Bool.or_eq_false_iff] at h
    cases n with
    | text content => exact ih h.2
    | element => exact absurd h.1 Bool.noConfusion

/-- What becomes of the character data of some nodes `ns` that are read as `es`: it is written but
for that of plain paths, and the opaque elements in them are the extra ones. -/
structure Carried (places : UInt8) (ns : List Node) (es : List Element) : Prop where
  kept : Node.keptIn keepsAll (nodesOf places es) = Node.keptIn isPlainPath ns
  selected : Node.selectedIn keepsAll isOpaque (nodesOf places es)
    = Node.selectedIn isPlainPath isOpaque ns
  names : (Node.selectedIn isPlainPath isOpaque ns).map Prod.fst
    = (Element.descendants.descendantsOfAll es).filterMap extraName?

variable {places : UInt8}

theorem Carried.nil : Carried places [] [] := ⟨rfl, rfl, rfl⟩

theorem Carried.cons {n : Node} {e : Element} {ns : List Node} {es : List Element}
    (h : Carried places [n] [e]) (h' : Carried places ns es) :
    Carried places (n :: ns) (e :: es) := by
  obtain ⟨hkept, hselected, hnames⟩ := h
  obtain ⟨hkept', hselected', hnames'⟩ := h'
  simp only [nodesOf, Node.keptIn, Node.selectedIn, Element.descendants.descendantsOfAll,
    List.append_nil] at hkept hselected hnames
  refine ⟨?_, ?_, ?_⟩
  · rw [nodesOf, Node.keptIn, Node.keptIn, hkept, hkept']
  · rw [nodesOf, Node.selectedIn, Node.selectedIn, hselected, hselected']
  · rw [Node.selectedIn, Element.descendants.descendantsOfAll, List.map_append,
      List.filterMap_append, hnames, hnames']

theorem isOpaque_congr {name name' : String} (h : localName name' = localName name)
    (hasElements : Bool) : isOpaque name' hasElements = isOpaque name hasElements := by
  rw [isOpaque, isOpaque, isPlainPath, isPlainPath, h]

theorem name_containerTag_of_extraName? {role : Role} {label : Label} {es : List Element}
    {name : String} (h : extraName? (.container role label es) = some name) :
    (containerTag places role label).name = name := by
  cases role with
  | extra name' =>
    obtain rfl := Option.some.inj h
    exact Markup.Element.name_setAll _ _
  | group m => cases h
  | clipGroup => cases h

/-- The character data in a container is that of its children. -/
theorem Carried.container {name : String} {attributes : List (String × String)}
    {children : List Node} {role : Role} {label : Label} {es : List Element}
    (hchildren : Carried places children es)
    (helements : es.any Element.isTagged = children.any Markup.Element.isElement)
    (hname : localName (containerTag places role label).name = localName name)
    (hkept : isPlainPath name (children.any Markup.Element.isElement) = false)
    (hextra : extraName? (.container role label es)
      = if isOpaque name (children.any Markup.Element.isElement) then some name else none) :
    Carried places [.element name attributes children] [.container role label es] := by
  have hnode : nodesOf places [.container role label es]
      = [.element (containerTag places role label).name (containerTag places role label).attributes
          (nodesOf places es)] := rfl
  have hany : (nodesOf places es).any Markup.Element.isElement
      = children.any Markup.Element.isElement :=
    (any_isElement_nodesOf .svg places es).trans helements
  refine ⟨?_, ?_, ?_⟩
  · simp only [hnode, Node.keptIn, Node.kept, keepsAll, hkept, hchildren.kept]
  · simp only [hnode, Node.selectedIn, Node.selected, hany, isOpaque_congr hname, hchildren.kept,
      hchildren.selected]
    split
    · next hopaque =>
      rw [if_pos hopaque] at hextra
      rw [name_containerTag_of_extraName? hextra]
    · rfl
  · rw [Node.selectedIn, Node.selected, Node.selectedIn, List.append_nil, List.map_append,
      hchildren.names, Element.descendants.descendantsOfAll, Element.descendants,
      Element.descendants.descendantsOfAll, List.append_nil, List.filterMap_cons, hextra]
    split <;> rfl

/-- Of a plain path nothing is listed, and no character data is kept. -/
theorem carried_path {name : String} {attributes : List (String × String)} {children : List Node}
    {use : Use} {label : Label} {commands : List Path.Command} (hname : localName name = "path")
    (htexts : children.any Markup.Element.isElement = false) :
    Carried places [.element name attributes children] [.shape use label commands] := by
  have hnode : nodesOf places [.shape use label commands]
      = [.element "path" (pathTag places label commands).attributes []] := by
    rw [nodesOf, nodeOf_shape, nodesOf]
  have hpath : isPlainPath name false = true := by
    rw [isPlainPath, hname]
    rfl
  have hopaque : isOpaque name false = false := by
    rw [isOpaque, hpath, Bool.not_true, Bool.and_false]
  have hopaque' : isOpaque "path" false = false := by decide
  refine ⟨?_, ?_, ?_⟩
  · simp only [hnode, Node.keptIn, Node.kept, htexts, hpath]
    rfl
  · simp only [hnode, Node.selectedIn, Node.selected, htexts, hopaque, List.any_nil, hopaque',
      selectedIn_of_any htexts]
    rfl
  · simp only [Node.selectedIn, Node.selected, htexts, hopaque, selectedIn_of_any htexts]
    rfl

mutual

theorem carried_readNode : ∀ {n : Node} {e : Element}, Yields (readNode n) e →
    Carried places [n] [e]
  | .text content, e, h => by
    rw [← yields_pure.1 h]
    exact ⟨rfl, rfl, rfl⟩
  | .element name attributes children, e, h => by
    obtain ⟨hname, m, l, es, -, hes, rfl⟩ | ⟨hname, htexts, cs, -, rfl⟩ | ⟨hname, es, hes, rfl⟩
      | ⟨hgroup, hclip, hpath, es, hes, rfl⟩ := yields_readNode_iff.1 h
    · refine (carried_readNodes hes).container (any_isTagged_of_readNodes .svg hes) ?_ ?_ ?_
      · rw [name_containerTag_group, hname]
        decide
      · rw [isPlainPath, hname]
        rfl
      · rw [isOpaque, hname]
        rfl
    · exact carried_path hname htexts
    · refine (carried_readNodes hes).container (any_isTagged_of_readNodes .svg hes) ?_ ?_ ?_
      · rw [containerTag, labelled, Markup.Element.name_setAll, hname]
        decide
      · rw [isPlainPath, hname]
        rfl
      · rw [isOpaque, hname]
        rfl
    · have hplain : isPlainPath name (children.any Markup.Element.isElement) = false := by
        rw [isPlainPath, Bool.and_eq_false_iff, decide_eq_false_iff_not, Bool.not_eq_false']
        exact or_iff_not_imp_left.2 fun h => hpath (not_not.1 h)
      refine (carried_readNodes hes).container (any_isTagged_of_readNodes .svg hes) ?_ hplain ?_
      · rw [containerTag, labelled, Markup.Element.name_setAll]
      · rw [isOpaque, hplain, decide_eq_true hgroup, decide_eq_true hclip]
        rfl

theorem carried_readNodes : ∀ {ns : List Node} {es : List Element}, Yields (readNodes ns) es →
    Carried places ns es
  | [], es, h => by
    rw [← yields_pure.1 h]
    exact .nil
  | n :: ns, es, h => by
    rw [readNodes] at h
    obtain ⟨e, rest, he, hrest, rfl⟩ := yields_cons.1 h
    exact (carried_readNode he).cons (carried_readNodes hrest)

end

/-! ## Documents -/

/-- What an SVG document is read as. -/
theorem exists_of_readAs {s : String} {g : Graphic} (hread : Yields (readAs .svg s) g) :
    ∃ root, Markup.parse s = .ok root ∧ Yields (readNodes root.children) g.children := by
  obtain ⟨root, hroot, hread⟩ := yields_bind.1 hread
  obtain ⟨es, hes, rfl⟩ := exists_of_graphicOf hread
  exact ⟨root, yields_document.1 hroot, hes⟩

/-- The elements of a document that are kept as they are are the extra elements of the graphic that
is read from it. -/
theorem names_opaqueElements {s : String} {g : Graphic} (hread : Yields (readAs .svg s) g) :
    (opaqueElements s).map Span.name = g.elements.filterMap extraName? := by
  obtain ⟨root, hparse, hes⟩ := exists_of_readAs hread
  have hcarried : Carried 0 root.children g.children := carried_readNodes hes
  have hspans : List.Forall₂ _ (opaqueElements s)
      (Node.selectedIn isPlainPath isOpaque root.children) :=
    (Markup.isContent_of_parse hparse).forall₂_selected
  rw [Graphic.elements, ← hcarried.names, ← List.forall₂_eq_eq_eq, List.forall₂_map_left_iff,
    List.forall₂_map_right_iff]
  exact hspans.imp fun _ _ h => h.1

/-- Of a written document, all opaque elements have their character data. -/
theorem characters_writeAs {g : Graphic} {places : UInt8}
    (h : (elementOf g places).WellFormed) :
    (opaqueElements (writeAs .svg g places)).map (fun e => (e.name, e.characters))
      = Node.selectedIn keepsAll isOpaque (nodesOf places g.children) := by
  have hcontent : IsContent _ (contentOf (writeAs .svg g places)) (nodesOf places g.children) :=
    Markup.isContent_text h
  exact hcontent.map_selected_eq_iff.2 fun _ _ => Markup.intact_never

/-- **Character data of opaque elements.** In what is written from a document with names, an opaque
element has the same character data as in the document exactly if it had no blank run of character
data and no plain path with character data in it. -/
theorem characters_write_iff {s : String} {root : Markup.Element} {g : Graphic}
    (hparse : Markup.parse s = .ok root) (hnames : root.Named) (hread : Yields (readAs .svg s) g)
    (places : UInt8) :
    (opaqueElements (writeAs .svg g places)).map (fun e => (e.name, e.characters))
        = (opaqueElements s).map (fun e => (e.name, e.characters))
      ↔ ∀ e ∈ opaqueElements s, Intact isBlankRun isPlainPath e.content := by
  obtain ⟨root', hroot, hread⟩ := yields_bind.1 hread
  obtain rfl := hroot.unique (yields_document.2 hparse)
  have hsound := sound_graphicOf hnames hread
  obtain ⟨es, hes, rfl⟩ := exists_of_graphicOf hread
  rw [characters_writeAs (wellFormed_elementOf places hsound.root hsound.children),
    (carried_readNodes hes).selected, eq_comm]
  exact (Markup.isContent_of_parse hparse).map_selected_eq_iff

/-- Text with references, a comment, blanks that are quoted and an element inside. -/
def mixedText : String :=
  "<svg><text>a &amp; <!-- b --><![CDATA[ <]]><tspan>&#98;</tspan>.</text></svg>"

theorem mixedText_carried : ∃ g, Yields (readAs .svg mixedText) g
    ∧ (opaqueElements (writeAs .svg g 2)).map (fun e => (e.name, e.characters))
      = (opaqueElements mixedText).map (fun e => (e.name, e.characters)) := by
  obtain ⟨root, hroot, hnames⟩ : ∃ root, Yields (document mixedText) root ∧ root.Named := by
    decide +kernel
  obtain ⟨g, hread⟩ : Succeeds (readAs .svg mixedText) := by
    decide +kernel
  exact ⟨g, hread, (characters_write_iff (yields_document.1 hroot) hnames hread 2).2
    (by decide +kernel)⟩

/-- All of its character data is there, in the order of the document. -/
example : (opaqueElements mixedText).map (fun e => (e.name, String.ofList e.characters))
    = [("text", "a &  <b."), ("tspan", "b")] := by
  decide +kernel

/-- The blank between two elements is lost. -/
theorem blank_between_elements_lost : ∃ g,
    Yields (readAs .svg "<svg><text><tspan>a</tspan> <tspan>b</tspan></text></svg>") g
      ∧ (opaqueElements (writeAs .svg g 2)).map Span.characters
        ≠ (opaqueElements "<svg><text><tspan>a</tspan> <tspan>b</tspan></text></svg>").map
            Span.characters := by
  decide +kernel

end VectorGraphics.Svg
