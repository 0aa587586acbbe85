import VectorGraphics.Markup.Attribute
import VectorGraphics.Text.Search

/-!
# Tokens of a document

`tokens` cuts a document into character data, tags and what is passed over. A text that cannot be
cut any further ends the list with the reason, so that whoever stops reading earlier never meets
it.

None of this is decided by the program itself. It leaves the cutting to an XML reader, quick-xml,
which is not part of it: what counts as a token, and every message of a `Malformation`, follow the
behaviour of that reader. What the program makes of the tokens is in `Markup.Reader`.
-/

namespace VectorGraphics.Markup

/-- Why a document cannot be cut into tokens. -/
inductive Malformation
  /-- `<!` before something unknown. -/
  | unknownDeclaration
  | unclosedCharacterData
  | unclosedComment
  | unclosedDocumentType
  | unclosedInstruction
  | unclosedTag
  /-- A document type declaration without a name. -/
  | missingDocumentTypeName
  deriving DecidableEq, Repr

/-- The error in words. -/
def Malformation.message : Malformation → String
  | .unknownDeclaration => "syntax error: unknown or missed symbol in markup"
  | .unclosedCharacterData =>
    "syntax error: CDATA not closed: `]]>` not found before end of input"
  | .unclosedComment => "syntax error: comment not closed: `-->` not found before end of input"
  | .unclosedDocumentType => "syntax error: DOCTYPE not closed: `>` not found before end of input"
  | .unclosedInstruction =>
    "syntax error: processing instruction or xml declaration not closed: `?>` not found "
      ++ "before end of input"
  | .unclosedTag => "syntax error: tag not closed: `>` not found before end of input"
  | .missingDocumentTypeName =>
    "ill-formed document: `<!DOCTYPE>` declaration does not contain a name of a document type"

/-- A piece of a document. -/
inductive Token
  /-- Character data with references. -/
  | text (content : List Char)
  /-- Character data as it stands. -/
  | verbatim (content : List Char)
  /-- A comment, a declaration or a processing instruction. -/
  | skipped
  /-- A start tag: everything between `<` and `>`. -/
  | start (content : List Char)
  /-- The tag of an element without content: everything between `<` and `/>`. -/
  | empty (content : List Char)
  /-- An end tag, with its name. -/
  | stop (name : List Char)
  /-- The end of what can be read. -/
  | malformed (reason : Malformation)
  deriving DecidableEq, Repr

/-! ## Finding the end -/

/-- What stands before and after the first occurrence of `pattern`. -/
def breakAt? (pattern : List Char) : List Char → Option (List Char × List Char)
  | [] => none
  | c :: cs =>
    if pattern.isPrefixOf (c :: cs) then some ([], (c :: cs).drop pattern.length)
    else (breakAt? pattern cs).map fun (before, after) => (c :: before, after)

/-- What stands before and after the first `>` outside quotes; `quote` is open at the start. -/
def breakTag? (quote : Option Char) : List Char → Option (List Char × List Char)
  | [] => none
  | c :: cs =>
    match quote with
    | some q => (breakTag? (if c = q then none else quote) cs).map fun (t, r) => (c :: t, r)
    | none =>
      if c = '>' then some ([], cs)
      else
        (breakTag? (if c = '"' ∨ c = '\'' then some c else none) cs).map fun (t, r) => (c :: t, r)

/-- What stands before and after the first `>` that closes no inner `<`, of which `depth` are
open. -/
def breakBalanced? (depth : Nat) : List Char → Option (List Char × List Char)
  | [] => none
  | c :: cs =>
    if c = '>' then
      match depth with
      | 0 => some ([], cs)
      | depth + 1 => (breakBalanced? depth cs).map fun (t, r) => (c :: t, r)
    else
      (breakBalanced? (if c = '<' then depth + 1 else depth) cs).map fun (t, r) => (c :: t, r)

/-- What follows a word at the front of a text, letters of either case being the same. -/
def stripWord? : (word : List Char) → List Char → Option (List Char)
  | [], cs => some cs
  | _ :: _, [] => none
  | w :: ws, c :: cs => if w.toLower = c.toLower then stripWord? ws cs else none

/-! ## One piece of markup -/

/-- The token of a tag. -/
def tagToken (content : List Char) : Token :=
  match content with
  | '/' :: name =>
    let trimmed := (name.reverse.dropWhile isSpace).reverse
    .stop (if trimmed = [] then name else trimmed)
  | _ => if content.getLast? = some '/' then .empty content.dropLast else .start content

/-- The markup after `<!`. -/
def takeDeclaration (cs : List Char) : Except Malformation (Token × List Char) :=
  match cs with
  | '[' :: _ =>
    match (Text.stripFront? "[CDATA[".toList cs).bind (breakAt? "]]>".toList) with
    | some (content, rest) => .ok (.verbatim content, rest)
    | none => .error .unclosedCharacterData
  | '-' :: _ =>
    match (Text.stripFront? "--".toList cs).bind (breakAt? "-->".toList) with
    | some (_, rest) => .ok (.skipped, rest)
    | none => .error .unclosedComment
  | 'D' :: _ => documentType cs
  | 'd' :: _ => documentType cs
  | _ => .error .unknownDeclaration
where
  /-- A document type declaration. -/
  documentType (cs : List Char) : Except Malformation (Token × List Char) :=
    match (stripWord? "DOCTYPE".toList cs).bind (breakBalanced? 0) with
    | some (content, rest) =>
      if content.all isSpace then .error .missingDocumentTypeName else .ok (.skipped, rest)
    | none => .error .unclosedDocumentType

/-- The markup after `<?`. The question mark may itself be the one before `>`, and then nothing
stands between. -/
def takeInstruction (cs : List Char) : Except Malformation (Token × List Char) :=
  match cs with
  | '>' :: _ => .error .unclosedInstruction
  | _ =>
    match breakAt? "?>".toList cs with
    | some (_, rest) => .ok (.skipped, rest)
    | none => .error .unclosedInstruction

/-- The markup after `<`. -/
def takeMarkup (cs : List Char) : Except Malformation (Token × List Char) :=
  match cs with
  | '!' :: cs => takeDeclaration cs
  | '?' :: cs => takeInstruction cs
  | _ =>
    match breakTag? none cs with
    | some (content, rest) => .ok (tagToken content, rest)
    | none => .error .unclosedTag

/-! ## Markup shortens the text -/

theorem breakAt?_length_le {pattern cs before after : List Char}
    (h : breakAt? pattern cs = some (before, after)) : after.length ≤ cs.length := by
  fun_induction breakAt? pattern cs generalizing before after with
  | case1 => simp at h
  | case2 c cs _ =>
    simp only [Option.some.injEq, Prod.mk.injEq] at h
    rw [← h.2, List.length_drop]
    omega
  | case3 c cs _ ih =>
    obtain ⟨⟨t, r⟩, hr, heq⟩ := Option.map_eq_some_iff.1 h
    simp only [Prod.mk.injEq] at heq
    have := ih hr
    rw [← heq.2, List.length_cons]
    omega

theorem breakTag?_length_le {quote : Option Char} {cs before after : List Char}
    (h : breakTag? quote cs = some (before, after)) : after.length ≤ cs.length := by
  induction cs generalizing quote before after with
  | nil => simp [breakTag?] at h
  | cons c cs ih =>
    unfold breakTag? at h
    split at h
    · obtain ⟨⟨t, r⟩, hr, heq⟩ := Option.map_eq_some_iff.1 h
      simp only [Prod.mk.injEq] at heq
      have := ih hr
      rw [← heq.2, List.length_cons]
      omega
    · split at h
      · simp only [Option.some.injEq, Prod.mk.injEq] at h
        rw [← h.2, List.length_cons]
        omega
      · obtain ⟨⟨t, r⟩, hr, heq⟩ := Option.map_eq_some_iff.1 h
        simp only [Prod.mk.injEq] at heq
        have := ih hr
        rw [← heq.2, List.length_cons]
        omega

theorem breakBalanced?_length_le {depth : Nat} {cs before after : List Char}
    (h : breakBalanced? depth cs = some (before, after)) : after.length ≤ cs.length := by
  induction cs generalizing depth before after with
  | nil => simp [breakBalanced?] at h
  | cons c cs ih =>
    unfold breakBalanced? at h
    split at h
    · split at h
      · simp only [Option.some.injEq, Prod.mk.injEq] at h
        rw [← h.2, List.length_cons]
        omega
      · obtain ⟨⟨t, r⟩, hr, heq⟩ := Option.map_eq_some_iff.1 h
        simp only [Prod.mk.injEq] at heq
        have := ih hr
        rw [← heq.2, List.length_cons]
        omega
    · obtain ⟨⟨t, r⟩, hr, heq⟩ := Option.map_eq_some_iff.1 h
      simp only [Prod.mk.injEq] at heq
      have := ih hr
      rw [← heq.2, List.length_cons]
      omega

theorem stripWord?_length_le {word cs rest : List Char}
    (h : stripWord? word cs = some rest) : rest.length ≤ cs.length := by
  fun_induction stripWord? word cs generalizing rest with
  | case1 => simp_all
  | case2 => simp at h
  | case3 p ps c cs hc ih =>
    have := ih h
    rw [List.length_cons]
    omega
  | case4 => simp at h

theorem takeDeclaration_length_le {cs rest : List Char} {t : Token}
    (h : takeDeclaration cs = .ok (t, rest)) : rest.length ≤ cs.length := by
  have drop {pattern r : List Char}
      (hr : Text.stripFront? pattern cs = some r) : r.length ≤ cs.length := by
    simp only [Text.stripFront?] at hr
    split at hr
    · simp only [Option.some.injEq] at hr
      rw [← hr, List.length_drop]
      omega
    · simp at hr
  have type (h : takeDeclaration.documentType cs = .ok (t, rest)) :
      rest.length ≤ cs.length := by
    simp only [takeDeclaration.documentType] at h
    split at h
    · next heq =>
      split at h
      · simp at h
      · simp only [Except.ok.injEq, Prod.mk.injEq] at h
        obtain ⟨r, hr, hb⟩ := Option.bind_eq_some_iff.1 heq
        have h₁ := stripWord?_length_le hr
        have h₂ := breakBalanced?_length_le hb
        rw [← h.2]
        omega
    · simp at h
  unfold takeDeclaration at h
  split at h
  · split at h
    · next heq =>
      simp only [Except.ok.injEq, Prod.mk.injEq] at h
      obtain ⟨r, hr, hb⟩ := Option.bind_eq_some_iff.1 heq
      have h₁ := drop hr
      have h₂ := breakAt?_length_le hb
      rw [← h.2]
      omega
    · simp at h
  · split at h
    · next heq =>
      simp only [Except.ok.injEq, Prod.mk.injEq] at h
      obtain ⟨r, hr, hb⟩ := Option.bind_eq_some_iff.1 heq
      have h₁ := drop hr
      have h₂ := breakAt?_length_le hb
      rw [← h.2]
      omega
    · simp at h
  · exact type h
  · exact type h
  · simp at h

theorem takeInstruction_length_le {cs rest : List Char} {t : Token}
    (h : takeInstruction cs = .ok (t, rest)) : rest.length ≤ cs.length := by
  unfold takeInstruction at h
  split at h
  · simp at h
  · split at h
    · next heq =>
      simp only [Except.ok.injEq, Prod.mk.injEq] at h
      have := breakAt?_length_le heq
      rw [← h.2]
      exact this
    · simp at h

/-- Taking markup does not lengthen the text. -/
theorem takeMarkup_length_le {cs rest : List Char} {t : Token}
    (h : takeMarkup cs = .ok (t, rest)) : rest.length ≤ cs.length := by
  unfold takeMarkup at h
  split at h
  · have := takeDeclaration_length_le h
    rw [List.length_cons]
    omega
  · have := takeInstruction_length_le h
    rw [List.length_cons]
    omega
  · split at h
    · next heq =>
      simp only [Except.ok.injEq, Prod.mk.injEq] at h
      have := breakTag?_length_le heq
      rw [← h.2]
      exact this
    · simp at h

/-! ## Whole documents -/

/-- The tokens of a document. -/
def tokens (cs : List Char) : List Token :=
  match cs with
  | [] => []
  | c :: rest =>
    if c = '<' then
      match h : takeMarkup rest with
      | .error reason => [.malformed reason]
      | .ok (token, rest') =>
        have : rest'.length < rest.length + 1 := by
          have := takeMarkup_length_le h
          omega
        token :: tokens rest'
    else
      have : (rest.dropWhile (· != '<')).length < rest.length + 1 := by
        have := length_dropWhile_le (· != '<') rest
        omega
      .text (c :: rest.takeWhile (· != '<')) :: tokens (rest.dropWhile (· != '<'))
termination_by cs.length

end VectorGraphics.Markup
