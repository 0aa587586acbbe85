import VectorGraphics.Proofs.Markup.Documents

/-!
# Documents in normal form

A tree of nodes is in normal form if no run of character data is blank throughout and no two runs
stand side by side. Whatever is read back is in normal form (`isNormalAll_normalizeAll`), and what
is in normal form is read back as it is (`parse_text_eq_self_iff`).
-/

namespace VectorGraphics.Markup

mutual

/-- Whether a node is in normal form, with everything inside it. -/
def Node.isNormal : Node → Bool
  | .text content => !content.toList.all Text.isBlank
  | .element _ _ children => Node.isNormalAll children

/-- Whether some siblings are in normal form, with everything inside them. -/
def Node.isNormalAll : List Node → Bool
  | [] => true
  | n :: ns =>
    n.isNormal && (Element.isElement n || ns.head?.all Element.isElement) && Node.isNormalAll ns

end

/-- Being in normal form, for an element and everything inside it. -/
def Element.IsNormal (e : Element) : Prop := e.toNode.isNormal = true

instance (e : Element) : Decidable e.IsNormal := inferInstanceAs (Decidable (_ = true))

/-! ## What is read back is in normal form -/

/-- A run in front of an element keeps the form. -/
theorem isNormalAll_textRun_append (cs : List Char) {ns : List Node}
    (hhead : ns.head?.all Element.isElement = true) :
    Node.isNormalAll (textRun cs ++ ns) = Node.isNormalAll ns := by
  rw [textRun]
  split
  · rfl
  · next hblank =>
    rw [List.singleton_append, Node.isNormalAll, Node.isNormal, String.toList_ofList,
      Bool.eq_false_iff.2 hblank, hhead, Bool.or_true]
    rfl

mutual

theorem isNormal_normalize : ∀ {n : Node}, Element.isElement n = true →
    n.normalize.isNormal = true
  | .text _, h => by cases h
  | .element _ _ children, _ => isNormalAll_normalizeAll [] children

/-- Whatever is read back is in normal form. -/
theorem isNormalAll_normalizeAll : ∀ (pending : List Char) (ns : List Node),
    Node.isNormalAll (Node.normalizeAll pending ns) = true
  | pending, [] => by
    have hrun : Node.isNormalAll (textRun pending ++ []) = true :=
      isNormalAll_textRun_append pending rfl
    rwa [List.append_nil] at hrun
  | pending, .text content :: ns => isNormalAll_normalizeAll (pending ++ content.toList) ns
  | pending, .element name attributes children :: ns => by
    have hnode : (Node.element name attributes children).normalize.isNormal = true :=
      isNormal_normalize rfl
    have hrest := isNormalAll_normalizeAll [] ns
    rw [Node.normalizeAll, isNormalAll_textRun_append pending rfl, Node.isNormalAll, hnode, hrest]
    rfl

end

/-! ## What is in normal form is read back as it is -/

theorem textRun_toList {content : String} (h : (Node.text content).isNormal = true) :
    textRun content.toList = [.text content] := by
  rw [Node.isNormal, Bool.not_eq_true'] at h
  rw [textRun, if_neg (Bool.eq_false_iff.1 h), String.ofList_toList]

/-- Siblings are in normal form if the first is, a run is not followed by a run, and the others
are. -/
theorem isNormalAll_cons {n : Node} {ns : List Node} :
    Node.isNormalAll (n :: ns) = true ↔
      n.isNormal = true ∧ (Element.isElement n = true ∨ ns.head?.all Element.isElement = true)
        ∧ Node.isNormalAll ns = true := by
  rw [Node.isNormalAll, Bool.and_eq_true, Bool.and_eq_true, Bool.or_eq_true, and_assoc]

mutual

theorem normalize_of_isNormal : ∀ {n : Node}, n.isNormal = true → n.normalize = n
  | .text _, _ => rfl
  | .element name attributes children, h => by
    rw [Node.normalize, normalizeAll_of_isNormalAll h]

/-- Siblings in normal form are read back as they are. -/
theorem normalizeAll_of_isNormalAll : ∀ {ns : List Node}, Node.isNormalAll ns = true →
    Node.normalizeAll [] ns = ns
  | [], _ => rfl
  | [.text content], h => textRun_toList (isNormalAll_cons.1 h).1
  | .text _ :: .text _ :: _, h => by
    obtain ⟨-, hsides | hsides, -⟩ := isNormalAll_cons.1 h
    · cases hsides
    · cases hsides
  | .text content :: .element name attributes children :: ns, h => by
    obtain ⟨hcontent, -, hothers⟩ := isNormalAll_cons.1 h
    obtain ⟨hnode, -, hrest⟩ := isNormalAll_cons.1 hothers
    have hrun : textRun ([] ++ content.toList) = [.text content] := textRun_toList hcontent
    rw [Node.normalizeAll, Node.normalizeAll, hrun, normalize_of_isNormal hnode,
      normalizeAll_of_isNormalAll hrest, List.singleton_append]
  | .element name attributes children :: ns, h => by
    obtain ⟨hnode, -, hrest⟩ := isNormalAll_cons.1 h
    rw [Node.normalizeAll, normalize_of_isNormal hnode, normalizeAll_of_isNormalAll hrest]
    rfl

end

theorem normalize_eq_self_iff {e : Element} : e.normalize = e ↔ e.IsNormal := by
  obtain ⟨name, attributes, children⟩ := e
  constructor
  · intro h
    have hchildren : Node.normalizeAll [] children = children :=
      (Element.mk.inj h).2.2
    have hnormal := isNormalAll_normalizeAll [] children
    rwa [hchildren] at hnormal
  · intro h
    have hchildren : Node.normalizeAll [] children = children := normalizeAll_of_isNormalAll h
    rw [Element.normalize, hchildren]

/-! ## Documents -/

/-- The text of an element is read as the very same element if, and only if, the element is in
normal form: no run of character data is blank or next to another one. -/
theorem parse_text_eq_self_iff {e : Element} (h : e.WellFormed) :
    parse e.text = .ok e ↔ e.IsNormal := by
  rw [parse_text h, Except.ok.injEq, normalize_eq_self_iff]

/-- Character data that looks like a tag and like a reference, next to elements with and without
content, and a value with quotes. -/
def lookalikes : Element :=
  { name := "text"
    attributes := [("font:name", "\"A&B\" <'c'>"), ("d", "")]
    children := [.text "</text> &lt; &#x41;", .element "tspan" [("x", "&quot;")] [.text " ]]> "],
      .element "tspan" [] [], .text "\n<!-- & -->"] }

theorem lookalikes_read_back : parse lookalikes.text = .ok lookalikes :=
  (parse_text_eq_self_iff (by decide +kernel)).2 (by decide +kernel)

/-- Runs side by side become one, and a blank run is dropped. -/
example : parse (Element.text { name := "a", children :=
      [.text "x", .text "y", .element "b" [] [.text " "]] })
    = .ok { name := "a", children := [.text "xy", .element "b" [] []] } := by
  cbv

end VectorGraphics.Markup
