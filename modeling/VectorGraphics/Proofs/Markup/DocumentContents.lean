import VectorGraphics.Proofs.Markup.Contents

/-!
# Contents of documents

What is read from a document stands in it, except that blank runs of character data are dropped
(`isContent_of_parse`). What a document is written from stands in it without exception
(`isContent_text`): runs that are written side by side become one, but none is dropped.
-/

namespace VectorGraphics.Markup

/-! ## Reading -/

/-- Whether a run of character data is blank throughout. -/
def isBlankRun (cs : List Char) : Bool := cs.all Text.isBlank

theorem ofTag_eq_ok {content : List Char} {e : Element} (h : ofTag content = .ok e) :
    e = { name := tagName content, attributes := e.attributes } := by
  rw [ofTag] at h
  split at h
  · rw [← Except.ok.inj h]
    rfl
  · cases h
  · cases h

/-- What is left to do after the end tag of `current`. -/
def resume (current : Element) (outer : List Element) (rest : List Token) : Except Error Element :=
  match outer with
  | [] => .ok current
  | parent :: outer => readContent (parent.append current.toNode) outer rest

/-- Some nodes are read from the content of `current`, and reading goes on after its end tag. -/
def ReadsInside (current : Element) (outer : List Element) (ts : List Token) (root : Element) :
    Prop :=
  ∃ content name rest ns, ts = content ++ .stop name :: rest ∧ IsContent isBlankRun content ns
    ∧ resume { current with children := current.children ++ ns } outer rest = .ok root

/-- One more token in front, which stands for the nodes `new`. -/
theorem readsInside_cons {current : Element} {outer : List Element} {t : Token} {ts : List Token}
    {root : Element} (new : List Node)
    (h : ReadsInside { current with children := current.children ++ new } outer ts root)
    (hnew : ∀ {content ns}, IsContent isBlankRun content ns →
      IsContent isBlankRun (t :: content) (new ++ ns)) :
    ReadsInside current outer (t :: ts) root := by
  obtain ⟨content, name, rest, ns, rfl, hcontent, hresume⟩ := h
  refine ⟨t :: content, name, rest, new ++ ns, rfl, hnew hcontent, ?_⟩
  rwa [← List.append_assoc]

theorem IsContent.single {drops : List Char → Bool} {ts : List Token} {ns : List Node}
    {content cs : List Char} (hdecode : decode content = .ok cs) (hdrops : drops cs = false)
    (h : IsContent drops ts ns) :
    IsContent drops (.text content :: ts) (.text (.ofList cs) :: ns) := by
  have hcs : [String.ofList cs].flatMap String.toList = cs := by
    rw [List.flatMap_singleton, String.toList_ofList]
  exact .run [.ofList cs] (hcs.symm ▸ hdecode) (hcs.symm ▸ hdrops) h

/-- Reading the content of an element. -/
theorem readsInside_of_readContent {current : Element} {outer : List Element} {ts : List Token}
    {root : Element} (h : readContent current outer ts = .ok root) :
    ReadsInside current outer ts root := by
  match ts with
  | [] => cases h
  | .malformed _ :: _ => cases h
  | .skipped :: ts =>
    refine readsInside_cons [] ?_ .skipped
    rw [List.append_nil]
    exact readsInside_of_readContent h
  | .verbatim content :: ts =>
    exact readsInside_cons _ (readsInside_of_readContent h) (.verbatim content)
  | .text content :: ts =>
    rw [readContent] at h
    split at h
    · cases h
    · next cs hdecode =>
      split at h
      · next hblank =>
        refine readsInside_cons [] ?_ (.dropped hdecode hblank)
        rw [List.append_nil]
        exact readsInside_of_readContent h
      · next hblank =>
        exact readsInside_cons _ (readsInside_of_readContent h)
          (.single hdecode (Bool.eq_false_iff.2 hblank))
  | .empty content :: ts =>
    rw [readContent] at h
    split at h
    · cases h
    · next e htag =>
      rw [ofTag_eq_ok htag] at h
      exact readsInside_cons _ (readsInside_of_readContent h) (.empty content e.attributes)
  | .start content :: ts =>
    rw [readContent] at h
    split at h
    · cases h
    · next e htag =>
      rw [ofTag_eq_ok htag] at h
      obtain ⟨inner, name, rest, children, rfl, hinner, hresume⟩ := readsInside_of_readContent h
      rw [resume] at hresume
      obtain ⟨more, name', rest', ns, rfl, hmore, hresume⟩ := readsInside_of_readContent hresume
      refine ⟨.start content :: (inner ++ .stop name :: more), name', rest', _, ?_,
        .element content name e.attributes hinner hmore, ?_⟩
      · simp
      · rw [← hresume]
        simp [Element.append, Element.toNode]
  | .stop name :: ts =>
    unfold readContent at h
    split at h
    · refine ⟨[], name, ts, [], rfl, .nil, ?_⟩
      rw [List.append_nil]
      exact h
    · cases h
termination_by ts.length

/-- What is read from a document stands in it, but for the blank runs. -/
theorem isContent_of_parse {s : String} {root : Element} (h : parse s = .ok root) :
    IsContent isBlankRun (contentOf s) root.children := by
  rw [parse] at h
  rw [contentOf]
  generalize tokens (dropMark s.toList) = ts at h ⊢
  fun_induction readRoot ts with
  | case1 | case2 | case3 => cases h
  | case4 content ts =>
    rw [ofTag_eq_ok h]
    exact .nil
  | case5 => cases h
  | case6 content ts e htag =>
    rw [ofTag_eq_ok htag] at h
    obtain ⟨inner, name, rest, children, rfl, hinner, hresume⟩ := readsInside_of_readContent h
    rw [rootContent, hinner.within_append, within, List.append_nil, ← Except.ok.inj hresume]
    exact hinner
  | case7 t ts hmalformed hstop hempty hstart ih =>
    rw [rootContent]
    · exact ih h
    · exact hstart
    · exact hempty

/-! ## Writing -/

/-- No run of character data is dropped. -/
def never (_ : List Char) : Bool := false

theorem intact_never {content : List Token} : Intact never (fun _ _ => false) content where
  runs := fun t _ => by cases t <;> rfl
  skipped := fun _ _ h => absurd h Bool.false_ne_true

/-- Some tokens stand for some nodes, in front of any others. -/
def StandsFor (front : List Token) (ns : List Node) : Prop :=
  ∀ {ts : List Token} {ms : List Node}, IsContent never ts ms →
    IsContent never (front ++ ts) (ns ++ ms)

/-- Runs without a character need no tokens. -/
theorem standsFor_nil {texts : List String} (h : texts.flatMap encodeText = []) :
    StandsFor [] (texts.map .text) := by
  intro ts ms hts
  induction texts with
  | nil => exact hts
  | cons text texts ih =>
    obtain ⟨htext, htexts⟩ := List.append_eq_nil_iff.1 (List.flatMap_cons.symm.trans h)
    have hempty : text = "" := by
      refine String.toList_inj.1 (List.eq_nil_iff_forall_not_mem.2 fun c hc => ?_)
      exact encodeTextChar_ne_nil c (List.flatMap_eq_nil_iff.1 htext c hc)
    rw [hempty]
    exact .nothing (ih htexts)

/-- Character data before markup is one run, or nothing. -/
theorem exists_tokens_texts (texts : List String) (rest : List Char) :
    ∃ front, tokens (texts.flatMap encodeText ++ '<' :: rest) = front ++ tokens ('<' :: rest)
      ∧ StandsFor front (texts.map .text) := by
  by_cases hnil : texts.flatMap encodeText = []
  · exact ⟨[], by rw [hnil]; rfl, standsFor_nil hnil⟩
  · have hdecode : decode (texts.flatMap encodeText) = .ok (texts.flatMap String.toList) := by
      rw [show texts.flatMap encodeText = _ from (List.flatMap_assoc ..).symm]
      exact decode_flatMap _ fun position c _ _ => decodeFrom_encodeTextChar position c
    have hmarkup : ∀ c ∈ texts.flatMap encodeText, c ≠ '<' := by
      intro c hc
      obtain ⟨text, -, hc⟩ := List.mem_flatMap.1 hc
      exact encodeText_ne text c hc
    exact ⟨[.text (texts.flatMap encodeText)], tokens_text hnil hmarkup,
      fun h => .run texts hdecode rfl h⟩

theorem tagName_tagContent {name : String} {attributes : List (String × String)}
    (h : IsTag name attributes) : tagName (tagContent name attributes) = name := by
  have hread := ofTag_eq_ok (ofTag_tagContent h.name h.keys h.nodup)
  exact (Element.mk.inj hread).1.symm

mutual

/-- The tokens of a written element. -/
theorem exists_tokens_node : ∀ n : Node, n.WellFormed → Element.isElement n = true →
    ∀ rest, ∃ front, tokens (n.chars ++ rest) = front ++ tokens rest ∧ StandsFor front [n]
  | .text _, _, h, _ => by cases h
  | .element name attributes [], hwell, _, rest => by
    refine ⟨[.empty (tagContent name attributes)], ?_, fun h => ?_⟩
    · rw [Node.chars, List.append_assoc]
      exact tokens_empty hwell.1 rest
    · have hempty := IsContent.empty (tagContent name attributes) attributes h
      rwa [tagName_tagContent hwell.1] at hempty
  | .element name attributes (child :: children), hwell, _, rest => by
    obtain ⟨inner, htokens, hinner⟩ := exists_tokens_nodes (child :: children) hwell.2 []
      ('/' :: (name.toList ++ '>' :: rest))
    refine ⟨.start (tagContent name attributes) :: (inner ++ [.stop name.toList]), ?_, fun h => ?_⟩
    · rw [List.flatMap_nil, List.nil_append] at htokens
      rw [Node.chars, List.append_assoc, List.cons_append, tokens_start hwell.1]
      simp only [List.append_assoc, List.cons_append, List.nil_append]
      rw [htokens, tokens_stop rest hwell.1.name]
    · have hchildren := hinner .nil
      rw [List.append_nil, List.append_nil] at hchildren
      have helement := IsContent.element (tagContent name attributes) name.toList attributes
        hchildren h
      rw [tagName_tagContent hwell.1] at helement
      simpa using helement

/-- The tokens of written nodes, after character data and before markup. -/
theorem exists_tokens_nodes : ∀ ns : List Node, Node.WellFormedAll ns →
    ∀ (texts : List String) (rest : List Char), ∃ front,
      tokens (texts.flatMap encodeText ++ (Node.chars.childChars ns ++ '<' :: rest))
        = front ++ tokens ('<' :: rest) ∧ StandsFor front (texts.map .text ++ ns)
  | [], _, texts, rest => by
    rw [List.append_nil]
    exact exists_tokens_texts texts rest
  | .text content :: ns, hwell, texts, rest => by
    obtain ⟨front, htokens, hfront⟩ := exists_tokens_nodes ns hwell.2 (texts ++ [content]) rest
    refine ⟨front, ?_, ?_⟩
    · rw [Node.chars.childChars, Node.chars, List.append_assoc, ← htokens, List.flatMap_append,
        List.flatMap_singleton, List.append_assoc]
    · rwa [List.map_append, List.append_assoc] at hfront
  | .element name attributes children :: ns, hwell, texts, rest => by
    obtain ⟨cs, hcs⟩ := exists_chars_element name attributes children
    obtain ⟨before, hbefore, htexts⟩ := exists_tokens_texts texts
      (cs ++ (Node.chars.childChars ns ++ '<' :: rest))
    obtain ⟨node, hnode, helement⟩ := exists_tokens_node (.element name attributes children)
      hwell.1 rfl (Node.chars.childChars ns ++ '<' :: rest)
    obtain ⟨after, hafter, hns⟩ := exists_tokens_nodes ns hwell.2 [] rest
    refine ⟨before ++ (node ++ after), ?_, fun h => ?_⟩
    · rw [hcs, List.cons_append] at hnode
      rw [List.flatMap_nil, List.nil_append] at hafter
      rw [Node.chars.childChars, hcs, List.append_assoc, List.cons_append, hbefore, hnode, hafter,
        List.append_assoc, List.append_assoc]
    · rw [List.append_assoc, List.append_assoc, List.append_assoc]
      exact htexts (helement (hns h))

end

/-- What a document is written from stands in it. -/
theorem isContent_text {e : Element} (h : e.WellFormed) :
    IsContent never (contentOf e.text) e.children := by
  obtain ⟨name, attributes, children⟩ := e
  obtain ⟨htag, hchildren⟩ := h
  rw [contentOf, dropMark_text, Element.toNode]
  cases children with
  | nil =>
    rw [Node.chars, tokens_empty htag]
    exact .nil
  | cons child children =>
    obtain ⟨inner, htokens, hinner⟩ := exists_tokens_nodes _ hchildren []
      ('/' :: (name.toList ++ ['>']))
    have hcontent := hinner .nil
    rw [List.append_nil, List.append_nil] at hcontent
    rw [List.flatMap_nil, List.nil_append] at htokens
    rw [Node.chars, tokens_start htag]
    simp only [List.append_assoc, List.cons_append, List.nil_append]
    rw [htokens, tokens_stop [] htag.name, rootContent, hcontent.within_append, within,
      List.append_nil]
    exact hcontent

end VectorGraphics.Markup
