import Mathlib.Data.List.Forall2
import VectorGraphics.Proofs.Markup.Documents

/-!
# Contents of elements

An element of a document is known by its name and by the tokens between its tags (`Span`), and these
tell its character data, whatever the reader makes of them. This module relates the tokens to the
nodes that are read from them and to the nodes that they are written from.

* `IsContent`: some tokens stand for some nodes, where runs of character data may be dropped.
* `isContent_of_parse`: what is read stands in the document, but for the blank runs.
* `isContent_text`: what is written stands in the document, without exception.
* `IsContent.selected`: the character data of some elements, as it stands in the tokens and as it is
  in the nodes; it is the same exactly for the elements in which nothing is lost (`Intact`).
-/

namespace VectorGraphics.Markup

/-! ## Elements of a document -/

/-- The character data of a token. -/
def Token.characters : Token → List Char
  | .text content =>
    match decode content with
    | .ok cs => cs
    | .error _ => []
  | .verbatim content => content
  | _ => []

/-- Whether an element begins with a token. -/
def Token.isElement : Token → Bool
  | .start _ | .empty _ => true
  | _ => false

/-- An element as it stands in a document: its name, and the tokens between its tags. -/
structure Span where
  name : String
  content : List Token

namespace Span

/-- All the character data inside an element. -/
def characters (s : Span) : List Char := s.content.flatMap Token.characters

/-- Whether an element satisfies a condition on its name and on whether there are elements in it. -/
def satisfies (p : String → Bool → Bool) (s : Span) : Bool :=
  p s.name (s.content.any Token.isElement)

end Span

/-- The tokens in front of the end tag of an element, after `depth` start tags inside it. -/
def within (depth : Nat) : List Token → List Token
  | [] => []
  | .start content :: ts => .start content :: within (depth + 1) ts
  | .stop name :: ts =>
    match depth with
    | 0 => []
    | depth + 1 => .stop name :: within depth ts
  | t :: ts => t :: within depth ts

/-- The name in a tag. -/
def tagName (content : List Char) : String := .ofList (content.takeWhile (!isSpace ·))

/-- The elements that begin in some tokens, in document order. -/
def spans : List Token → List Span
  | [] => []
  | .start content :: ts => ⟨tagName content, within 0 ts⟩ :: spans ts
  | .empty content :: ts => ⟨tagName content, []⟩ :: spans ts
  | _ :: ts => spans ts

/-- The tokens inside the first element. -/
def rootContent : List Token → List Token
  | [] => []
  | .start _ :: ts => within 0 ts
  | .empty _ :: _ => []
  | _ :: ts => rootContent ts

/-- The tokens inside the root element of a document. -/
def contentOf (s : String) : List Token := rootContent (tokens (dropMark s.toList))

theorem within_subset (depth : Nat) (ts : List Token) : within depth ts ⊆ ts := by
  fun_induction within depth ts with
  | case1 | case3 => exact List.nil_subset _
  | case2 _ _ _ ih | case4 _ _ _ ih | case5 _ _ _ _ _ ih => exact List.cons_subset_cons _ ih

/-- The content of an element lies in the tokens in which the element begins. -/
theorem content_subset_of_mem_spans {ts : List Token} {s : Span} (h : s ∈ spans ts) :
    s.content ⊆ ts := by
  fun_induction spans ts with
  | case1 => cases h
  | case2 content ts ih =>
    obtain rfl | h := List.mem_cons.1 h
    · exact List.subset_cons_of_subset _ (within_subset 0 ts)
    · exact List.subset_cons_of_subset _ (ih h)
  | case3 content ts ih =>
    obtain rfl | h := List.mem_cons.1 h
    · exact List.nil_subset _
    · exact List.subset_cons_of_subset _ (ih h)
  | case4 _ _ _ _ ih => exact List.subset_cons_of_subset _ (ih h)

/-! ## Tokens and nodes -/

/-- Some tokens stand for some nodes. Runs of character data for which `drops` holds are dropped; a
run may be divided, and a run without a character needs no token. -/
inductive IsContent (drops : List Char → Bool) : List Token → List Node → Prop
  | nil : IsContent drops [] []
  | skipped {ts : List Token} {ns : List Node} (h : IsContent drops ts ns) :
    IsContent drops (.skipped :: ts) ns
  | nothing {ts : List Token} {ns : List Node} (h : IsContent drops ts ns) :
    IsContent drops ts (.text "" :: ns)
  | verbatim {ts : List Token} {ns : List Node} (content : List Char)
    (h : IsContent drops ts ns) :
    IsContent drops (.verbatim content :: ts) (.text (.ofList content) :: ns)
  | dropped {ts : List Token} {ns : List Node} {content cs : List Char}
    (hdecode : decode content = .ok cs) (hdrops : drops cs = true) (h : IsContent drops ts ns) :
    IsContent drops (.text content :: ts) ns
  | run {ts : List Token} {ns : List Node} {content : List Char} (texts : List String)
    (hdecode : decode content = .ok (texts.flatMap String.toList))
    (hdrops : drops (texts.flatMap String.toList) = false) (h : IsContent drops ts ns) :
    IsContent drops (.text content :: ts) (texts.map .text ++ ns)
  | empty {ts : List Token} {ns : List Node} (content : List Char)
    (attributes : List (String × String)) (h : IsContent drops ts ns) :
    IsContent drops (.empty content :: ts) (.element (tagName content) attributes [] :: ns)
  | element {inner ts : List Token} {children ns : List Node} (content name : List Char)
    (attributes : List (String × String)) (hchildren : IsContent drops inner children)
    (h : IsContent drops ts ns) :
    IsContent drops (.start content :: (inner ++ .stop name :: ts))
      (.element (tagName content) attributes children :: ns)

variable {drops : List Char → Bool} {content : List Token} {ns : List Node}

/-- What stands for nodes closes all elements that it opens. -/
theorem IsContent.within_append (h : IsContent drops content ns) (depth : Nat) (ts : List Token) :
    within depth (content ++ ts) = content ++ within depth ts := by
  induction h generalizing depth ts with
  | nil => rfl
  | nothing _ ih => exact ih depth ts
  | skipped _ ih | verbatim _ _ ih | dropped _ _ _ ih | run _ _ _ _ ih | empty _ _ _ ih =>
    exact congrArg (List.cons _) (ih depth ts)
  | element content name attributes _ _ ihchildren ih =>
    simp only [List.cons_append, List.append_assoc, within, ihchildren, ih]

theorem IsContent.spans_append (h : IsContent drops content ns) (ts : List Token) :
    spans (content ++ ts) = spans content ++ spans ts := by
  induction h generalizing ts with
  | nil => rfl
  | nothing _ ih => exact ih ts
  | skipped _ ih | verbatim _ _ ih | dropped _ _ _ ih | run _ _ _ _ ih => exact ih ts
  | empty _ _ _ ih => exact congrArg (List.cons _) (ih ts)
  | element content name attributes hchildren _ ihchildren ih =>
    simp only [List.cons_append, List.append_assoc, spans, hchildren.within_append, within,
      List.append_nil, ihchildren, ih]

/-- An element and what follows it. -/
theorem IsContent.spans_element (h : IsContent drops content ns) (tag name : List Char)
    (ts : List Token) : spans (.start tag :: (content ++ .stop name :: ts))
      = ⟨tagName tag, content⟩ :: (spans content ++ spans ts) := by
  rw [spans, h.within_append, within, List.append_nil, h.spans_append, spans]
  · nofun
  · nofun

theorem any_isElement_texts (texts : List String) (ns : List Node) :
    (texts.map Node.text ++ ns).any Element.isElement = ns.any Element.isElement := by
  rw [List.any_append, List.any_map, List.any_eq_false.2, Bool.false_or]
  exact fun _ _ => Bool.false_ne_true

theorem IsContent.any_isElement (h : IsContent drops content ns) :
    content.any Token.isElement = ns.any Element.isElement := by
  induction h with
  | nil => rfl
  | nothing _ ih | skipped _ ih | verbatim _ _ ih | dropped _ _ _ ih => exact ih
  | run texts _ _ _ ih => exact ih.trans (any_isElement_texts texts _).symm
  | empty | element => rfl

/-! ## Character data -/

section Kept

-- Which elements lose their character data, and which are selected, depends on their name and on
-- whether there are elements inside.
variable (skips selects : String → Bool → Bool)

mutual

/-- The character data of a node that is kept. -/
def Node.kept : Node → List Char
  | .text content => content.toList
  | .element name _ children =>
    if skips name (children.any Element.isElement) then [] else Node.keptIn children

/-- The character data of some nodes that is kept. -/
def Node.keptIn : List Node → List Char
  | [] => []
  | n :: ns => n.kept ++ Node.keptIn ns

end

mutual

/-- The selected elements of a node, outer ones first, each with its name and the character data
that is kept. -/
def Node.selected : Node → List (String × List Char)
  | .text _ => []
  | .element name _ children =>
    (if selects name (children.any Element.isElement) then [(name, Node.keptIn skips children)]
      else []) ++ Node.selectedIn children

/-- The selected elements of some nodes, in document order. -/
def Node.selectedIn : List Node → List (String × List Char)
  | [] => []
  | n :: ns => n.selected ++ Node.selectedIn ns

end

end Kept

/-- Whether a token is a run of character data that is dropped. -/
def Token.isDropped (drops : List Char → Bool) (t : Token) : Bool :=
  match t with
  | .text _ => drops t.characters && !t.characters.isEmpty
  | _ => false

/-- No character data in some tokens is lost: no run is dropped, and there is none in the elements
whose character data is not kept. -/
structure Intact (drops : List Char → Bool) (skips : String → Bool → Bool)
    (content : List Token) : Prop where
  runs : ∀ t ∈ content, t.isDropped drops = false
  skipped : ∀ s ∈ spans content, s.satisfies skips = true → s.characters = []

instance (skips : String → Bool → Bool) : Decidable (Intact drops skips content) :=
  decidable_of_iff ((∀ t ∈ content, t.isDropped drops = false)
      ∧ ∀ s ∈ spans content, s.satisfies skips = true → s.characters = [])
    ⟨fun h => ⟨h.1, h.2⟩, fun h => ⟨h.1, h.2⟩⟩

variable {skips selects : String → Bool → Bool}

theorem intact_cons {t : Token} {ts : List Token} (h : spans (t :: ts) = spans ts) :
    Intact drops skips (t :: ts) ↔ t.isDropped drops = false ∧ Intact drops skips ts := by
  constructor
  · rintro ⟨hruns, hskipped⟩
    obtain ⟨ht, hts⟩ := List.forall_mem_cons.1 hruns
    exact ⟨ht, hts, h ▸ hskipped⟩
  · rintro ⟨ht, hruns, hskipped⟩
    exact ⟨List.forall_mem_cons.2 ⟨ht, hruns⟩, h ▸ hskipped⟩

theorem intact_element {inner ts : List Token} {children : List Node} {tag name : List Char}
    (h : IsContent drops inner children) :
    Intact drops skips (.start tag :: (inner ++ .stop name :: ts)) ↔
      (Span.satisfies skips ⟨tagName tag, inner⟩ = true → inner.flatMap Token.characters = [])
        ∧ Intact drops skips inner ∧ Intact drops skips ts := by
  constructor
  · rintro ⟨hruns, hskipped⟩
    rw [h.spans_element, List.forall_mem_cons, List.forall_mem_append] at hskipped
    rw [List.forall_mem_cons, List.forall_mem_append, List.forall_mem_cons] at hruns
    exact ⟨hskipped.1, ⟨hruns.2.1, hskipped.2.1⟩, hruns.2.2.2, hskipped.2.2⟩
  · rintro ⟨hself, hinner, hts⟩
    refine ⟨?_, ?_⟩
    · rw [List.forall_mem_cons, List.forall_mem_append, List.forall_mem_cons]
      exact ⟨rfl, hinner.runs, rfl, hts.runs⟩
    · rw [h.spans_element, List.forall_mem_cons, List.forall_mem_append]
      exact ⟨hself, hinner.skipped, hts.skipped⟩

theorem intact_empty {ts : List Token} {tag : List Char} :
    Intact drops skips (.empty tag :: ts) ↔ Intact drops skips ts := by
  constructor
  · rintro ⟨hruns, hskipped⟩
    exact ⟨(List.forall_mem_cons.1 hruns).2, (List.forall_mem_cons.1 hskipped).2⟩
  · rintro ⟨hruns, hskipped⟩
    exact ⟨List.forall_mem_cons.2 ⟨rfl, hruns⟩, List.forall_mem_cons.2 ⟨fun _ => rfl, hskipped⟩⟩

/-- Where there is no character data, none is lost. -/
theorem intact_of_characters_eq_nil {content : List Token}
    (h : content.flatMap Token.characters = []) : Intact drops skips content := by
  rw [List.flatMap_eq_nil_iff] at h
  refine ⟨fun t ht => ?_, fun s hs _ => List.flatMap_eq_nil_iff.2 fun t ht =>
    h t (content_subset_of_mem_spans hs ht)⟩
  have hnone := h t ht
  cases t with
  | text => rw [Token.isDropped, hnone, List.isEmpty_nil, Bool.not_true, Bool.and_false]
  | _ => rfl

theorem characters_text {cs ds : List Char} (h : decode cs = .ok ds) :
    (Token.text cs).characters = ds := by
  rw [Token.characters, h]

theorem keptIn_texts (texts : List String) (ns : List Node) :
    Node.keptIn skips (texts.map .text ++ ns)
      = texts.flatMap String.toList ++ Node.keptIn skips ns := by
  induction texts with
  | nil => rfl
  | cons text texts ih =>
    rw [List.map_cons, List.cons_append, Node.keptIn, Node.kept, ih, List.flatMap_cons,
      List.append_assoc]

theorem selectedIn_texts (texts : List String) (ns : List Node) :
    Node.selectedIn skips selects (texts.map .text ++ ns) = Node.selectedIn skips selects ns := by
  induction texts with
  | nil => rfl
  | cons text texts ih => exact ih

/-- The character data of an element, by the tokens that stand for it. -/
theorem flatMap_characters_element (tag name : List Char) (inner ts : List Token) :
    (Token.start tag :: (inner ++ .stop name :: ts)).flatMap Token.characters
      = inner.flatMap Token.characters ++ ts.flatMap Token.characters := by
  rw [List.flatMap_cons, List.flatMap_append, List.flatMap_cons]
  rfl

/-- Character data is kept in its order. -/
theorem IsContent.keptIn_sublist (h : IsContent drops content ns) :
    (Node.keptIn skips ns).Sublist (content.flatMap Token.characters) := by
  induction h with
  | nil => exact .slnil
  | skipped _ ih | nothing _ ih => exact ih
  | verbatim cs _ ih =>
    rw [Node.keptIn, Node.kept, String.toList_ofList]
    exact ih.append_left cs
  | dropped hdecode _ _ ih =>
    rw [List.flatMap_cons]
    exact ih.trans (List.sublist_append_right _ _)
  | run texts hdecode _ _ ih =>
    rw [keptIn_texts, List.flatMap_cons, characters_text hdecode]
    exact ih.append_left _
  | empty tag attributes _ ih =>
    rw [Node.keptIn, Node.kept, Node.keptIn, ite_self]
    exact ih
  | element tag name attributes _ _ ihchildren ih =>
    rw [Node.keptIn, Node.kept, flatMap_characters_element]
    refine List.Sublist.append ?_ ih
    split
    · exact List.nil_sublist _
    · exact ihchildren

theorem append_eq_append_iff_of_sublist {α : Type} {a a' b b' : List α} (ha : a'.Sublist a)
    (hb : b'.Sublist b) : a' ++ b' = a ++ b ↔ a' = a ∧ b' = b := by
  constructor
  · intro h
    have hlength := congrArg List.length h
    rw [List.length_append, List.length_append] at hlength
    have hle := hb.length_le
    have hle' := ha.length_le
    exact List.append_inj h (by omega)
  · rintro ⟨rfl, rfl⟩
    rfl

/-- All character data is kept exactly if none is lost. -/
theorem IsContent.keptIn_eq_iff (h : IsContent drops content ns) :
    Node.keptIn skips ns = content.flatMap Token.characters ↔ Intact drops skips content := by
  induction h with
  | nil => exact iff_of_true rfl ⟨nofun, nofun⟩
  | skipped _ ih => exact ih.trans ((intact_cons rfl).trans (and_iff_right rfl)).symm
  | nothing _ ih => exact ih
  | verbatim cs _ ih =>
    rw [Node.keptIn, Node.kept, String.toList_ofList, List.flatMap_cons, intact_cons rfl]
    exact (List.append_right_inj cs).trans (ih.trans (and_iff_right rfl).symm)
  | @dropped ts ns content cs hdecode hdrops h ih =>
    have hrun : (Token.text content).isDropped drops = false ↔ [] = cs := by
      rw [Token.isDropped, characters_text hdecode, hdrops]
      cases cs <;> simp
    rw [intact_cons rfl, hrun, ← ih, List.flatMap_cons, characters_text hdecode,
      ← append_eq_append_iff_of_sublist (List.nil_sublist cs) h.keptIn_sublist, List.nil_append]
  | @run ts ns content texts hdecode hdrops _ ih =>
    have hrun : (Token.text content).isDropped drops = false := by
      rw [Token.isDropped, characters_text hdecode, hdrops, Bool.false_and]
    rw [intact_cons rfl, and_iff_right hrun, ← ih, keptIn_texts, List.flatMap_cons,
      characters_text hdecode, List.append_right_inj]
  | empty tag attributes _ ih =>
    rw [intact_empty, ← ih, Node.keptIn, Node.kept, Node.keptIn, ite_self]
    rfl
  | @element inner ts children ns tag name attributes hchildren h ihchildren ih =>
    have hsublist : (Node.kept skips (.element (tagName tag) attributes children)).Sublist
        (inner.flatMap Token.characters) := by
      rw [Node.kept]
      split
      · exact List.nil_sublist _
      · exact hchildren.keptIn_sublist
    rw [intact_element hchildren, Node.keptIn, flatMap_characters_element,
      append_eq_append_iff_of_sublist hsublist h.keptIn_sublist, ih, ← and_assoc, Node.kept,
      Span.satisfies, hchildren.any_isElement]
    refine and_congr_left' ?_
    split
    · next hskips =>
      rw [forall_prop_of_true hskips, eq_comm]
      exact (and_iff_left_of_imp intact_of_characters_eq_nil).symm
    · next hkept => rw [ihchildren, iff_true_intro fun h => absurd h hkept, true_and]

/-- The selected elements in the order of the document, with all of their character data where none
of it is lost. -/
theorem IsContent.forall₂_selected (h : IsContent drops content ns) :
    List.Forall₂ (fun s (d : String × List Char) =>
        s.name = d.1 ∧ (s.characters = d.2 ↔ Intact drops skips s.content))
      ((spans content).filter (Span.satisfies selects)) (Node.selectedIn skips selects ns) := by
  induction h with
  | nil => exact .nil
  | skipped _ ih | nothing _ ih | verbatim _ _ ih | dropped _ _ _ ih => exact ih
  | run texts _ _ _ ih =>
    rw [selectedIn_texts]
    exact ih
  | empty tag attributes _ ih =>
    rw [spans, List.filter_cons, Span.satisfies, Node.selectedIn, Node.selected,
      Node.selectedIn, List.append_nil]
    change List.Forall₂ _ (if selects (tagName tag) false = true then _ else _)
      ((if selects (tagName tag) false = true then _ else _) ++ _)
    split
    · exact .cons ⟨rfl, iff_of_true rfl ⟨nofun, nofun⟩⟩ ih
    · exact ih
  | element tag name attributes hchildren h ihchildren ih =>
    rw [hchildren.spans_element, List.filter_cons, List.filter_append, Node.selectedIn,
      Node.selected, List.append_assoc, Span.satisfies, hchildren.any_isElement]
    split
    · exact .cons ⟨rfl, eq_comm.trans hchildren.keptIn_eq_iff⟩ (List.rel_append ihchildren ih)
    · exact List.rel_append ihchildren ih

/-- The selected elements have all of their character data exactly if none of it is lost. -/
theorem IsContent.map_selected_eq_iff (h : IsContent drops content ns) :
    ((spans content).filter (Span.satisfies selects)).map (fun s => (s.name, s.characters))
        = Node.selectedIn skips selects ns
      ↔ ∀ s ∈ (spans content).filter (Span.satisfies selects), Intact drops skips s.content := by
  have hselected : List.Forall₂ _ _ (Node.selectedIn skips selects ns) := h.forall₂_selected
  generalize (spans content).filter (Span.satisfies selects) = elements,
    Node.selectedIn skips selects ns = data at hselected ⊢
  induction hselected with
  | nil => exact iff_of_true rfl (List.forall_mem_nil _)
  | cons hs _ ih =>
    rw [List.map_cons, List.cons_eq_cons, Prod.ext_iff, List.forall_mem_cons]
    exact and_congr ((and_iff_right hs.1).trans hs.2) ih

end VectorGraphics.Markup
