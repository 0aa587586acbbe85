import VectorGraphics.Proofs.Svg.Documents
import VectorGraphics.Proofs.VectorDrawable.Documents

/-!
# Documents of both formats

What is read from a document with names is a sound graphic (`sound_graphicOf`), and whatever is read
is tidy and clips as its format does (`tidy_read`, `native_read`). A sound graphic is written as a
document that is read back (`wellFormed_elementOf`), and as a graphic exactly if its elements are
legible (`succeeds_graphicOf_elementOf`).

Each of these is an induction over the nodes of a document or the elements of a graphic. What it
needs to know of one of them, given the same of its children, is proved for each format by itself.
-/

namespace VectorGraphics

open Markup (Node IsName)
open ElementProperty Reading

/-! ## Reading -/

section Nodes

variable (format : Format)

mutual

/-- A node is read exactly if its path data can be read. -/
theorem succeeds_readNode : ∀ n : Node, Succeeds (format.readNode n) ↔ Readable format n
  | .text content => by
    rw [Format.readNode_text]
    exact iff_of_true (succeeds_pure _) trivial
  | .element name attributes children => by
    have hchildren := succeeds_readNodes children
    cases format with
    | svg => exact Svg.succeeds_readNode_element hchildren
    | vectorDrawable => exact VectorDrawable.succeeds_readNode_element hchildren

theorem succeeds_readNodes : ∀ ns : List Node,
    Succeeds (format.readNodes ns) ↔ ReadableAll format ns
  | [] => by
    rw [Format.readNodes_nil]
    exact iff_of_true (succeeds_pure _) trivial
  | n :: ns => by
    rw [Format.readNodes_cons, ReadableAll, ← succeeds_readNode n, ← succeeds_readNodes ns]
    exact succeeds_bind_of_iff fun _ _ => succeeds_bind_pure

end

end Nodes

section Holds

variable {format : Format} {P : ElementProperty} {tag : String → List (String × String) → Prop}

mutual

/-- What is read from a node has the properties that reading gives. -/
theorem holds_readNode (hreads : ReadsAs P format tag) : ∀ {n : Node} {e : Element},
    n.AllTags tag → Yields (format.readNode n) e → P.Holds e
  | .text content, e, _, h => by
    rw [Format.readNode_text] at h
    rw [← yields_pure.1 h]
    trivial
  | .element name attributes children, e, ⟨htag, htags⟩, h => by
    have hchildren {es : List Element} (hes : Yields (format.readNodes children) es) :
        P.HoldsAll es := holds_readNodes hreads htags hes
    cases format with
    | svg => exact Svg.holds_readNode_element hreads htag hchildren h
    | vectorDrawable => exact VectorDrawable.holds_readNode_element hreads htag hchildren h

theorem holds_readNodes (hreads : ReadsAs P format tag) : ∀ {ns : List Node} {es : List Element},
    Node.AllTagsIn tag ns → Yields (format.readNodes ns) es → P.HoldsAll es
  | [], es, _, h => by
    rw [Format.readNodes_nil] at h
    rw [← yields_pure.1 h]
    trivial
  | n :: ns, es, ⟨hn, hns⟩, h => by
    rw [Format.readNodes_cons] at h
    obtain ⟨e, rest, he, hrest, rfl⟩ := yields_cons.1 h
    exact ⟨holds_readNode hreads hn he, holds_readNodes hreads hns hrest⟩

end

end Holds

section Tagged

variable (format : Format)

/-- Nodes are read as elements, and character data as character data. -/
theorem isTagged_of_readNode {n : Node} {e : Element} (h : Yields (format.readNode n) e) :
    e.isTagged = Markup.Element.isElement n := by
  cases n with
  | text content =>
    rw [Format.readNode_text] at h
    rw [← yields_pure.1 h]
    rfl
  | element name attributes children =>
    cases format with
    | svg =>
      obtain ⟨-, m, l, es, -, -, rfl⟩ | ⟨-, -, cs, -, rfl⟩ | ⟨-, es, -, rfl⟩
        | ⟨-, -, -, es, -, rfl⟩ := Svg.yields_readNode_iff.1 h
      all_goals rfl
    | vectorDrawable =>
      obtain ⟨-, m, l, es, -, -, rfl⟩ | ⟨use, -, -, -, cs, -, rfl⟩ | ⟨-, -, es, -, rfl⟩ :=
        VectorDrawable.yields_readNode_iff.1 h
      all_goals rfl

theorem any_isTagged_of_readNodes {ns : List Node} {es : List Element}
    (h : Yields (format.readNodes ns) es) :
    es.any Element.isTagged = ns.any Markup.Element.isElement := by
  induction ns generalizing es with
  | nil =>
    rw [Format.readNodes_nil] at h
    rw [← yields_pure.1 h]
    rfl
  | cons n ns ih =>
    rw [Format.readNodes_cons] at h
    obtain ⟨e, rest, he, hrest, rfl⟩ := yields_cons.1 h
    rw [List.any_cons, List.any_cons, isTagged_of_readNode format he, ih hrest]

end Tagged

section Graphics

variable {format : Format} {root : Markup.Element} {g : Graphic}

/-- What the graphic of a document is made of. -/
theorem exists_of_graphicOf (h : Yields (format.graphicOf root) g) :
    ∃ es, Yields (format.readNodes root.children) es
      ∧ g = ⟨format, .ofAttributes format.idKey root.attributes, es⟩ := by
  cases format with
  | svg | vectorDrawable =>
    obtain ⟨-, h⟩ := yields_ite_throw.1 h
    obtain ⟨es, hes, rfl⟩ := yields_bind_pure.1 h
    exact ⟨es, hes, rfl⟩

/-- A root of the right name makes a graphic of what its children are read as. -/
theorem graphicOf_of_name (h : root.name = format.rootName) :
    format.graphicOf root
      = do return ⟨format, .ofAttributes format.idKey root.attributes,
        ← format.readNodes root.children⟩ := by
  cases format with
  | svg =>
    have hname : Svg.localName root.name = "svg" := by
      rw [h]
      decide
    exact if_pos hname
  | vectorDrawable => exact if_pos h

theorem format_graphicOf (h : Yields (format.graphicOf root) g) : g.format = format := by
  obtain ⟨es, -, rfl⟩ := exists_of_graphicOf h
  rfl

/-- The graphic of a document is sound if the document has names. -/
theorem sound_graphicOf (hnames : root.Named) (h : Yields (format.graphicOf root) g) :
    g.Sound := by
  obtain ⟨es, hes, rfl⟩ := exists_of_graphicOf h
  exact ⟨Label.keys_foreign_ofAttributes hnames.1.keys,
    holds_readNodes (readsAs_sound format) hnames.2 hes⟩

/-- What reading gives whatever the tags are is true of the graphic of a document. -/
theorem holdsAll_graphicOf {P : ElementProperty} (hreads : ReadsAs P format fun _ _ => True)
    (h : Yields (format.graphicOf root) g) : P.HoldsAll g.children := by
  obtain ⟨es, hes, rfl⟩ := exists_of_graphicOf h
  exact holds_readNodes hreads (Node.allTagsIn_of_forall (fun _ _ => trivial) _) hes

/-- Whatever is read is the graphic of a document of one of the formats. -/
theorem exists_of_read {s : String} (hread : Yields (read s) g) :
    ∃ root, Yields (document s) root ∧ Yields (g.format.graphicOf root) g := by
  obtain ⟨root, hroot, hread⟩ := yields_bind.1 hread
  refine ⟨root, hroot, ?_⟩
  split at hread
  · have hformat : g.format = .vectorDrawable := format_graphicOf hread
    rw [hformat]
    exact hread
  · have hformat : g.format = .svg := format_graphicOf hread
    rw [hformat]
    exact hread

/-- What is read from a document with names is sound. -/
theorem sound_read {s : String} (hparse : Markup.parse s = .ok root) (hnames : root.Named)
    (hread : Yields (read s) g) : g.Sound := by
  obtain ⟨root', hroot, hread⟩ := exists_of_read hread
  obtain rfl := hroot.unique (yields_document.2 hparse)
  exact sound_graphicOf hnames hread

/-- A graphic that was read is tidy. -/
theorem tidy_read {s : String} (hread : Yields (read s) g) : g.Tidy := by
  obtain ⟨root, -, hread⟩ := exists_of_read hread
  exact holdsAll_graphicOf (readsAs_tidy g.format) hread

/-- A graphic that was read clips as its format does. -/
theorem native_read {s : String} (hread : Yields (read s) g) :
    (native g.format).HoldsAll g.children := by
  obtain ⟨root, -, hread⟩ := exists_of_read hread
  exact holdsAll_graphicOf (readsAs_native g.format) hread

end Graphics

/-! ## Writing -/

section Writing

variable {format : Format} (places : UInt8)

mutual

/-- A sound element is written as nodes that can be read back. -/
theorem wellFormed_nodeOf : ∀ {e : Element}, (sound format).Holds e →
    (format.nodeOf places e).WellFormed
  | .text _, _ => by
    rw [Format.nodeOf_text]
    trivial
  | .shape use label commands, h => by
    cases format with
    | svg => exact Svg.wellFormed_nodeOf_shape places h
    | vectorDrawable => exact VectorDrawable.wellFormed_nodeOf_shape places h
  | .container role label children, h => by
    have hchildren := wellFormedAll_nodesOf h.2
    cases format with
    | svg => exact Svg.wellFormed_nodeOf_container places h.1 hchildren
    | vectorDrawable => exact VectorDrawable.wellFormed_nodeOf_container places h.1 hchildren

theorem wellFormedAll_nodesOf : ∀ {es : List Element}, (sound format).HoldsAll es →
    Node.WellFormedAll (format.nodesOf places es)
  | [], _ => by
    rw [Format.nodesOf_nil]
    trivial
  | _ :: _, h => by
    rw [Format.nodesOf_cons]
    exact ⟨wellFormed_nodeOf h.1, wellFormedAll_nodesOf h.2⟩

end

mutual

/-- What a sound element is written as can be read exactly if the element is legible. -/
theorem readable_nodeOf : ∀ {e : Element}, (sound format).Holds e →
    (Readable format (format.nodeOf places e) ↔ ∀ f ∈ e.descendants, f.Legible format)
  | .text content, _ => by
    rw [Format.nodeOf_text]
    refine iff_of_true trivial fun f hf => ?_
    rw [List.mem_singleton.1 hf]
    trivial
  | .shape use label commands, h => by
    rw [Element.descendants_shape, List.forall_mem_singleton]
    cases format with
    | svg => exact Svg.readable_nodeOf_shape places h
    | vectorDrawable => exact VectorDrawable.readable_nodeOf_shape places h
  | .container role label children, h => by
    rw [Element.descendants, List.forall_mem_cons, ← readableAll_nodesOf h.2]
    cases format with
    | svg => exact Svg.readable_nodeOf_container places role label children
    | vectorDrawable => exact VectorDrawable.readable_nodeOf_container places h.1

theorem readableAll_nodesOf : ∀ {es : List Element}, (sound format).HoldsAll es →
    (ReadableAll format (format.nodesOf places es)
      ↔ ∀ f ∈ Element.descendants.descendantsOfAll es, f.Legible format)
  | [], _ => by
    rw [Format.nodesOf_nil]
    exact iff_of_true trivial nofun
  | e :: es, h => by
    have he := readable_nodeOf h.1
    have hes := readableAll_nodesOf h.2
    rw [Format.nodesOf_cons, ReadableAll, he, hes, Element.descendants.descendantsOfAll,
      List.forall_mem_append]

end

variable (format) in
/-- The root element of a graphic has its namespaces in front and its identifier behind them. -/
theorem exists_elementOf (g : Graphic) : ∃ isNamespace : String × String → Bool,
    format.elementOf g places = { ({ name := format.rootName } : Markup.Element).setAll
        (g.label.foreign.toList.filter isNamespace ++ g.label.idEntry format.idKey
          ++ g.label.foreign.toList.filter fun entry => !isNamespace entry) with
      children := format.nodesOf places g.children } := by
  cases format with
  | svg =>
    refine ⟨fun entry => Svg.isNamespace entry.1, ?_⟩
    rw [Format.elementOf, Svg.elementOf, List.partition_eq_filter_filter]
    rfl
  | vectorDrawable =>
    refine ⟨fun entry => VectorDrawable.isNamespace entry.1, ?_⟩
    rw [Format.elementOf, VectorDrawable.elementOf, List.partition_eq_filter_filter]
    rfl

theorem name_elementOf (g : Graphic) : (format.elementOf g places).name = format.rootName := by
  obtain ⟨_, h⟩ := exists_elementOf format places g
  rw [h]
  exact Markup.Element.name_setAll _ _

theorem children_elementOf (g : Graphic) :
    (format.elementOf g places).children = format.nodesOf places g.children := by
  obtain ⟨_, h⟩ := exists_elementOf format places g
  rw [h]

/-- A sound graphic is written as a document that can be read back. -/
theorem wellFormed_elementOf {g : Graphic} (hroot : g.label.foreign.Keys IsName)
    (hchildren : (sound format).HoldsAll g.children) : (format.elementOf g places).WellFormed := by
  have hname : IsName format.rootName := by
    cases format <;> decide
  obtain ⟨_, h⟩ := exists_elementOf format places g
  rw [Markup.Element.WellFormed, Markup.Element.toNode, name_elementOf, h]
  refine ⟨isTag_setAll hname ?_, wellFormedAll_nodesOf places hchildren⟩
  exact ((Entries.filter hroot _).append (entries_idEntry (isName_idKey format) g.label)).append
    (Entries.filter hroot _)

/-- The document of a sound graphic can be read exactly if all its elements are legible. -/
theorem succeeds_graphicOf_elementOf {g : Graphic}
    (hchildren : (sound format).HoldsAll g.children) :
    Succeeds (format.graphicOf (format.elementOf g places).normalize)
      ↔ ∀ e ∈ g.elements, e.Legible format := by
  have hname : (format.elementOf g places).normalize.name = format.rootName :=
    name_elementOf places g
  rw [graphicOf_of_name hname, succeeds_bind_pure, succeeds_readNodes, Graphic.elements,
    ← readableAll_nodesOf places hchildren, ← children_elementOf]
  exact readableAll_normalizeAll [] _

end Writing

end VectorGraphics
