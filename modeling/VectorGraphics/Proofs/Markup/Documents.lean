import VectorGraphics.Proofs.Markup.Tags

/-!
# Written documents are read back

Reading the text of an element gives the element again (`parse_text`), except for character data:
runs that stand side by side become one, and a run that is blank throughout is dropped
(`Node.normalize`).
-/

namespace VectorGraphics.Markup

/-! ## Elements that can be read back -/

/-- A tag whose names no markup can be mistaken for. -/
structure HasNames (name : String) (attributes : List (String × String)) : Prop where
  name : IsName name
  keys : ∀ key ∈ attributes.map Prod.fst, IsName key

/-- A tag with names and without an attribute that is there twice. -/
structure IsTag (name : String) (attributes : List (String × String)) : Prop
    extends HasNames name attributes where
  nodup : (attributes.map Prod.fst).Nodup

mutual

/-- Every tag of a node satisfies `p`. -/
def Node.AllTags (p : String → List (String × String) → Prop) : Node → Prop
  | .text _ => True
  | .element name attributes children => p name attributes ∧ Node.AllTagsIn p children

/-- Every tag of some nodes satisfies `p`. -/
def Node.AllTagsIn (p : String → List (String × String) → Prop) : List Node → Prop
  | [] => True
  | n :: ns => n.AllTags p ∧ Node.AllTagsIn p ns

end

section Forall

variable {p : String → List (String × String) → Prop}

mutual

theorem Node.allTags_of_forall (h : ∀ name attributes, p name attributes) :
    ∀ n : Node, n.AllTags p
  | .text _ => trivial
  | .element .. => ⟨h _ _, Node.allTagsIn_of_forall h _⟩

theorem Node.allTagsIn_of_forall (h : ∀ name attributes, p name attributes) :
    ∀ ns : List Node, Node.AllTagsIn p ns
  | [] => trivial
  | n :: ns => ⟨Node.allTags_of_forall h n, Node.allTagsIn_of_forall h ns⟩

end

end Forall

section Decidable

instance (name : String) (attributes : List (String × String)) :
    Decidable (HasNames name attributes) :=
  decidable_of_iff (IsName name ∧ ∀ key ∈ attributes.map Prod.fst, IsName key)
    ⟨fun h => ⟨h.1, h.2⟩, fun h => ⟨h.1, h.2⟩⟩

instance (name : String) (attributes : List (String × String)) :
    Decidable (IsTag name attributes) :=
  decidable_of_iff (HasNames name attributes ∧ (attributes.map Prod.fst).Nodup)
    ⟨fun h => ⟨h.1, h.2⟩, fun h => ⟨h.1, h.2⟩⟩

variable {p : String → List (String × String) → Prop}
  [∀ name attributes, Decidable (p name attributes)]

mutual

instance Node.decidableAllTags : ∀ n : Node, Decidable (n.AllTags p)
  | .text _ => .isTrue trivial
  | .element _ _ children =>
    have := Node.decidableAllTagsIn children
    inferInstanceAs (Decidable (_ ∧ _))

instance Node.decidableAllTagsIn : ∀ ns : List Node, Decidable (Node.AllTagsIn p ns)
  | [] => .isTrue trivial
  | n :: ns =>
    have := Node.decidableAllTags n
    have := Node.decidableAllTagsIn ns
    inferInstanceAs (Decidable (_ ∧ _))

end

end Decidable

/-- Every tag of a node can be read back. -/
abbrev Node.WellFormed (n : Node) : Prop := n.AllTags IsTag

/-- Every tag of some nodes can be read back. -/
abbrev Node.WellFormedAll (ns : List Node) : Prop := Node.AllTagsIn IsTag ns

/-- Every tag of an element can be read back. -/
def Element.WellFormed (e : Element) : Prop := e.toNode.WellFormed

/-- Every tag of an element has names. -/
def Element.Named (e : Element) : Prop := e.toNode.AllTags HasNames

instance (e : Element) : Decidable e.WellFormed := Node.decidableAllTags e.toNode

instance (e : Element) : Decidable e.Named := Node.decidableAllTags e.toNode

/-- A run of character data as it is read: nothing if it is blank. -/
def textRun (cs : List Char) : List Node :=
  if cs.all Text.isBlank then [] else [.text (.ofList cs)]

mutual

/-- A node as it is read back. -/
def Node.normalize : Node → Node
  | .text content => .text content
  | .element name attributes children =>
    .element name attributes (Node.normalizeAll [] children)

/-- Some nodes as they are read back, after character data `pending`. -/
def Node.normalizeAll (pending : List Char) : List Node → List Node
  | [] => textRun pending
  | .text content :: ns => Node.normalizeAll (pending ++ content.toList) ns
  | .element name attributes children :: ns =>
    textRun pending ++ (Node.element name attributes children).normalize
      :: Node.normalizeAll [] ns

end

/-- An element as it is read back. -/
def Element.normalize (e : Element) : Element :=
  { e with children := Node.normalizeAll [] e.children }

/-! ## Tokens -/

theorem tokens_text {cs rest : List Char} (hne : cs ≠ []) (hcs : ∀ c ∈ cs, c ≠ '<') :
    tokens (cs ++ '<' :: rest) = .text cs :: tokens ('<' :: rest) := by
  obtain ⟨c, cs, rfl⟩ := List.exists_cons_of_ne_nil hne
  obtain ⟨hc, hcs⟩ := List.forall_mem_cons.1 hcs
  have hall : ∀ d ∈ cs, (d != '<') = true := fun d hd => bne_iff_ne.2 (hcs d hd)
  rw [List.cons_append, tokens]
  simp only [if_neg hc, takeWhile_stop (a := '<') hall rfl, dropWhile_stop (a := '<') hall rfl]

theorem tokens_markup {cs rest : List Char} {t : Token} (h : takeMarkup cs = .ok (t, rest)) :
    tokens ('<' :: cs) = t :: tokens rest := by
  rw [tokens]
  simp only [if_true]
  split
  · next herror => cases h.symm.trans herror
  · next hok =>
    obtain ⟨rfl, rfl⟩ := Prod.mk.inj (Except.ok.inj (h.symm.trans hok))
    rfl

/-- What begins with a name is neither a declaration nor an instruction. -/
theorem takeMarkup_name {name : String} (hname : IsName name) {cs content rest : List Char}
    (h : breakTag? none (name.toList ++ cs) = some (content, rest)) :
    takeMarkup (name.toList ++ cs) = .ok (tagToken content, rest) := by
  obtain ⟨c, ds, hcons⟩ := List.exists_cons_of_ne_nil hname.ne_nil
  obtain ⟨hbang, hmark⟩ := hname.head_ne c (by rw [hcons]; rfl)
  rw [hcons, List.cons_append] at h ⊢
  unfold takeMarkup
  split
  · next heq => exact absurd (List.cons.inj heq).1 hbang
  · next heq => exact absurd (List.cons.inj heq).1 hmark
  · rw [h]

/-- The text of a tag begins with a name, which has no slash. -/
theorem tagToken_name {name : String} (hname : IsName name) (cs : List Char) :
    tagToken (name.toList ++ cs)
      = if (name.toList ++ cs).getLast? = some '/' then .empty (name.toList ++ cs).dropLast
        else .start (name.toList ++ cs) := by
  obtain ⟨c, ds, hcons⟩ := List.exists_cons_of_ne_nil hname.ne_nil
  have hc : c ≠ '/' :=
    (isNameChar_iff.1 (hname.isNameChar c (by rw [hcons]; exact List.mem_cons_self))).2.2.2.2.2.1
  rw [hcons, List.cons_append]
  unfold tagToken
  split
  · next heq => exact absurd (List.cons.inj heq).1 hc
  · rfl

/-- A tag ends with its name or with the quote of its last attribute. -/
theorem getLast?_tagContent {name : String} (hname : IsName name)
    (attributes : List (String × String)) :
    (tagContent name attributes).getLast? ≠ some '/' := by
  rw [tagContent]
  obtain rfl | ⟨init, ⟨key, value⟩, rfl⟩ := List.eq_nil_or_concat attributes
  · intro hlast
    rw [attributeChars, List.flatMap_nil, List.append_nil] at hlast
    have hslash := hname.isNameChar '/' (List.mem_of_getLast? hlast)
    exact absurd hslash (by decide)
  · have hchars : attributeChars (init ++ [(key, value)])
        = attributeChars init ++ (' ' :: key.toList ++ ['=', '"'] ++ encodeValue value)
          ++ ['"'] := by
      simp [attributeChars, writeAttribute]
    rw [List.concat_eq_append, hchars, ← List.append_assoc, List.getLast?_concat]
    decide

section Tags

variable {name : String} {attributes : List (String × String)} (h : IsTag name attributes)
  (rest : List Char)

include h

theorem tokens_start :
    tokens (writeTag name attributes ++ '>' :: rest)
      = .start (tagContent name attributes) :: tokens rest := by
  have hend : breakTag? none ('>' :: rest) = some ([], rest) := rfl
  have hbreak := breakTag?_tagContent h.name h.keys hend
  have hlast := getLast?_tagContent h.name attributes
  rw [tagContent, List.append_assoc, List.append_nil] at hbreak
  rw [tagContent] at hlast
  rw [writeTag_eq, List.cons_append, tagContent, List.append_assoc,
    tokens_markup (takeMarkup_name h.name hbreak), tagToken_name h.name,
    if_neg hlast]

theorem tokens_empty :
    tokens (writeTag name attributes ++ '/' :: '>' :: rest)
      = .empty (tagContent name attributes) :: tokens rest := by
  have hend : breakTag? none ('/' :: '>' :: rest) = some (['/'], rest) := rfl
  have hbreak := breakTag?_tagContent h.name h.keys hend
  rw [tagContent, List.append_assoc, List.append_assoc] at hbreak
  rw [writeTag_eq, List.cons_append, tagContent, List.append_assoc,
    tokens_markup (takeMarkup_name h.name hbreak), tagToken_name h.name, ← List.append_assoc,
    if_pos List.getLast?_concat, List.dropLast_concat]

omit h in
theorem tokens_stop (hname : IsName name) :
    tokens ('<' :: '/' :: (name.toList ++ '>' :: rest)) = .stop name.toList :: tokens rest := by
  have hfront : ∀ c ∈ '/' :: name.toList, c ≠ '"' ∧ c ≠ '\'' ∧ c ≠ '>' := by
    refine List.forall_mem_cons.2 ⟨by decide, fun c hc => ?_⟩
    obtain ⟨-, hquote, happ, -, hend, -⟩ := isNameChar_iff.1 (hname.isNameChar c hc)
    exact ⟨hquote, happ, hend⟩
  have hbreak : breakTag? none ('/' :: (name.toList ++ '>' :: rest))
      = some ('/' :: name.toList ++ [], rest) :=
    breakTag?_name hfront rfl
  have hmarkup : takeMarkup ('/' :: (name.toList ++ '>' :: rest))
      = .ok (.stop name.toList, rest) := by
    have htrim : (name.toList.reverse.dropWhile isSpace).reverse = name.toList := by
      rw [List.dropWhile_eq_self_iff.2 fun hlength => ?_, List.reverse_reverse]
      have hmem : name.toList.reverse[0] ∈ name.toList :=
        List.mem_reverse.1 (List.getElem_mem hlength)
      rw [(isNameChar_iff.1 (hname.isNameChar _ hmem)).1]
      exact Bool.false_ne_true
    unfold takeMarkup
    split
    · next heq => exact absurd (List.cons.inj heq).1 (by decide)
    · next heq => exact absurd (List.cons.inj heq).1 (by decide)
    · simp only [hbreak, List.append_nil, tagToken, htrim, if_neg hname.ne_nil]
  exact tokens_markup hmarkup

end Tags

/-! ## Content -/

theorem readContent_run (current : Element) (outer : List Element) (cs rest : List Char) :
    readContent current outer (tokens (cs.flatMap encodeTextChar ++ '<' :: rest))
      = readContent { current with children := current.children ++ textRun cs } outer
        (tokens ('<' :: rest)) := by
  cases cs with
  | nil =>
    rw [List.flatMap_nil, List.nil_append, show textRun [] = [] from rfl, List.append_nil]
  | cons c cs =>
    have hne : (c :: cs).flatMap encodeTextChar ≠ [] := by
      rw [List.flatMap_cons]
      exact List.append_ne_nil_of_left_ne_nil (encodeTextChar_ne_nil c) _
    have hdecode : decode ((c :: cs).flatMap encodeTextChar) = .ok (c :: cs) :=
      decode_flatMap (c :: cs) fun position c _ _ => decodeFrom_encodeTextChar position c
    have hmarkup : ∀ d ∈ (c :: cs).flatMap encodeTextChar, d ≠ '<' := by
      have := encodeText_ne (.ofList (c :: cs))
      rwa [encodeText, String.toList_ofList] at this
    rw [tokens_text hne hmarkup, readContent, hdecode]
    dsimp only
    rw [textRun]
    split
    · rw [List.append_nil]
    · rfl

/-- The text of some nodes, after character data and before markup, is read as the nodes. -/
def ReadsBack (ns : List Node) : Prop :=
  ∀ (pending : List Char) (current : Element) (outer : List Element) (rest : List Char),
    readContent current outer
        (tokens (pending.flatMap encodeTextChar ++ (Node.chars.childChars ns ++ '<' :: rest)))
      = readContent { current with children := current.children ++ Node.normalizeAll pending ns }
        outer (tokens ('<' :: rest))

/-- An element is read back if its children are. -/
theorem readContent_element {name : String} {attributes : List (String × String)}
    {children : List Node} (htag : IsTag name attributes) (hchildren : ReadsBack children)
    (current : Element) (outer : List Element) (rest : List Char) :
    readContent current outer (tokens ((Node.element name attributes children).chars ++ rest))
      = readContent (current.append (Node.element name attributes children).normalize) outer
        (tokens rest) := by
  have hread : ofTag (tagContent name attributes) = .ok { name, attributes } :=
    ofTag_tagContent htag.name htag.keys htag.nodup
  cases children with
  | nil =>
    rw [Node.chars, List.append_assoc]
    simp only [List.cons_append, List.nil_append]
    rw [tokens_empty htag, readContent, hread]
    rfl
  | cons child children =>
    have hcontent := hchildren [] { name, attributes } (current :: outer)
      ('/' :: (name.toList ++ '>' :: rest))
    rw [List.flatMap_nil, List.nil_append] at hcontent
    rw [Node.chars, List.append_assoc, List.cons_append, tokens_start htag, readContent, hread]
    simp only [List.append_assoc, List.cons_append, List.nil_append]
    rw [hcontent, tokens_stop rest htag.name, readContent, String.ofList_toList, if_pos rfl]
    rfl

theorem exists_chars_element (name : String) (attributes : List (String × String))
    (children : List Node) : ∃ cs, (Node.element name attributes children).chars = '<' :: cs := by
  cases children with
  | nil => exact ⟨_, rfl⟩
  | cons child children => exact ⟨_, rfl⟩

mutual

theorem readContent_node : ∀ n : Node, n.WellFormed → Element.isElement n = true →
    ∀ (current : Element) (outer : List Element) (rest : List Char),
      readContent current outer (tokens (n.chars ++ rest))
        = readContent (current.append n.normalize) outer (tokens rest)
  | .text _, _, h => by cases h
  | .element _ _ children, hwell, _ =>
    readContent_element hwell.1 (readsBack_of_wellFormed children hwell.2)

/-- Well-formed nodes are read back. -/
theorem readsBack_of_wellFormed : ∀ ns : List Node, Node.WellFormedAll ns → ReadsBack ns
  | [], _ => fun pending current outer rest => readContent_run current outer pending rest
  | .text content :: ns, hwell => fun pending current outer rest => by
    have := readsBack_of_wellFormed ns hwell.2 (pending ++ content.toList) current outer rest
    rw [List.flatMap_append, List.append_assoc] at this
    rw [Node.chars.childChars, Node.chars, List.append_assoc]
    exact this
  | .element name attributes children :: ns, hwell => fun pending current outer rest => by
    obtain ⟨cs, hcs⟩ := exists_chars_element name attributes children
    have hrun := readContent_run current outer pending
      (cs ++ (Node.chars.childChars ns ++ '<' :: rest))
    have hnode := readContent_node (.element name attributes children) hwell.1 rfl
      { current with children := current.children ++ textRun pending } outer
      (Node.chars.childChars ns ++ '<' :: rest)
    have hmore := readsBack_of_wellFormed ns hwell.2 []
    rw [hcs, List.cons_append] at hnode
    rw [Node.chars.childChars, hcs, List.append_assoc, List.cons_append, hrun, hnode]
    refine (hmore _ outer rest).trans ?_
    rw [Node.normalizeAll, Element.append]
    simp only [List.append_assoc, List.singleton_append]

end

/-! ## Documents -/

theorem dropMark_text (e : Element) : dropMark e.text.toList = e.toNode.chars := by
  obtain ⟨cs, hcs⟩ := exists_chars_element e.name e.attributes e.children
  rw [Element.text, String.toList_ofList, Element.toNode, hcs]
  rfl

/-- The text of an element is read as the element. -/
theorem parse_text {e : Element} (h : e.WellFormed) : parse e.text = .ok e.normalize := by
  obtain ⟨htag, hchildren⟩ := h
  have hread : ofTag (tagContent e.name e.attributes)
      = .ok { name := e.name, attributes := e.attributes } :=
    ofTag_tagContent htag.name htag.keys htag.nodup
  obtain ⟨name, attributes, children⟩ := e
  rw [parse, dropMark_text, Element.toNode]
  cases children with
  | nil =>
    rw [Node.chars, tokens_empty htag, readRoot, hread]
    rfl
  | cons child children =>
    have hcontent := readsBack_of_wellFormed _ hchildren [] { name, attributes } []
      ('/' :: (name.toList ++ ['>']))
    rw [List.flatMap_nil, List.nil_append] at hcontent
    rw [Node.chars, tokens_start htag, readRoot, hread]
    simp only [List.append_assoc, List.cons_append, List.nil_append]
    rw [hcontent, tokens_stop [] htag.name, readContent, String.ofList_toList, if_pos rfl]
    rfl

end VectorGraphics.Markup
