import Mathlib.Data.List.TakeWhile
import VectorGraphics.Markup.Reader
import VectorGraphics.Markup.Writer

/-!
# Written tags are read back

Character data and attribute values are decoded to what was encoded (`decode_encodeText`,
`decode_encodeValue`). A tag of names without markup in them is found whole in front of a text
(`breakTag?_tag`) and read as the name and the attributes that it was written from
(`ofTag_writeTag`).
-/

namespace VectorGraphics.Markup

/-! ## References -/

theorem takeWhile_stop {α : Type} {p : α → Bool} {front rest : List α} {a : α}
    (hfront : ∀ b ∈ front, p b = true) (ha : p a = false) :
    (front ++ a :: rest).takeWhile p = front := by
  rw [List.takeWhile_append_of_pos hfront, List.takeWhile_cons_of_neg (by rw [ha]; decide),
    List.append_nil]

theorem dropWhile_stop {α : Type} {p : α → Bool} {front rest : List α} {a : α}
    (hfront : ∀ b ∈ front, p b = true) (ha : p a = false) :
    (front ++ a :: rest).dropWhile p = a :: rest := by
  rw [List.dropWhile_append_of_pos hfront, List.dropWhile_cons_of_neg (by rw [ha]; decide)]

/-- A reference in front of a text is resolved first. -/
theorem decodeFrom_reference (body : List Char) {rest ds : List Char} {d : Char} (position : Nat)
    (hbody : body.all (!endsReference ·) = true)
    (hresolve : resolve (position + 1) body = .ok d)
    (hrest : ∀ position, decodeFrom position rest = .ok ds) :
    decodeFrom position ('&' :: body ++ ';' :: rest) = .ok (d :: ds) := by
  have hwhole : ∀ c ∈ body, (!endsReference c) = true := List.all_eq_true.1 hbody
  have hdrop : (body ++ ';' :: rest).dropWhile (!endsReference ·) = ';' :: rest :=
    dropWhile_stop hwhole rfl
  rw [List.cons_append, decodeFrom]
  simp only [if_true, takeWhile_stop (a := ';') (p := (!endsReference ·)) hwhole rfl]
  split
  · next rest' h =>
    obtain ⟨-, rfl⟩ := List.cons.inj (hdrop.symm.trans h)
    simp only [hresolve, hrest]
  · next h => exact absurd hdrop (h rest)

theorem decodeFrom_cons {c : Char} {rest ds : List Char} (position : Nat) (hc : c ≠ '&')
    (hrest : ∀ position, decodeFrom position rest = .ok ds) :
    decodeFrom position (c :: rest) = .ok (c :: ds) := by
  rw [decodeFrom, if_neg hc, hrest]

/-- An encoded character of character data is decoded. -/
theorem decodeFrom_encodeTextChar {rest ds : List Char} (position : Nat) (c : Char)
    (hrest : ∀ position, decodeFrom position rest = .ok ds) :
    decodeFrom position (encodeTextChar c ++ rest) = .ok (c :: ds) := by
  unfold encodeTextChar
  split
  · next h =>
    rw [h]
    exact decodeFrom_reference ['a', 'm', 'p'] position rfl rfl hrest
  · split
    · next h =>
      rw [h]
      exact decodeFrom_reference ['l', 't'] position rfl rfl hrest
    · split
      · next h =>
        rw [h]
        exact decodeFrom_reference ['g', 't'] position rfl rfl hrest
      · next h _ _ => exact decodeFrom_cons position h hrest

/-- Encoded characters are decoded one by one. -/
theorem decode_flatMap {encode : Char → List Char} (cs : List Char)
    (h : ∀ (position : Nat) (c : Char) {rest ds : List Char},
      (∀ position, decodeFrom position rest = .ok ds) →
      decodeFrom position (encode c ++ rest) = .ok (c :: ds)) :
    decode (cs.flatMap encode) = .ok cs := by
  have go (position : Nat) : decodeFrom position (cs.flatMap encode) = .ok cs := by
    induction cs generalizing position with
    | nil =>
      rw [List.flatMap_nil, decodeFrom]
    | cons c cs ih =>
      rw [List.flatMap_cons]
      exact h position c ih
  exact go 0

theorem decode_encodeText (s : String) : decode (encodeText s) = .ok s.toList :=
  decode_flatMap s.toList fun position c _ _ => decodeFrom_encodeTextChar position c

theorem decode_encodeValue (s : String) : decode (encodeValue s) = .ok s.toList := by
  refine decode_flatMap s.toList fun position c _ _ hrest => ?_
  unfold encodeValueChar
  split
  · next h =>
    rw [h]
    exact decodeFrom_reference ['q', 'u', 'o', 't'] position rfl rfl hrest
  · exact decodeFrom_encodeTextChar position c hrest

theorem encodeTextChar_ne_nil (c : Char) : encodeTextChar c ≠ [] := by
  unfold encodeTextChar
  split_ifs <;> exact List.cons_ne_nil _ _

/-- No markup begins in encoded character data. -/
theorem encodeText_ne (s : String) : ∀ c ∈ encodeText s, c ≠ '<' := by
  intro c hc
  obtain ⟨d, -, hd⟩ := List.mem_flatMap.1 hc
  unfold encodeTextChar at hd
  split at hd
  · rintro rfl
    exact absurd hd (by decide)
  · split at hd
    · rintro rfl
      exact absurd hd (by decide)
    · split at hd
      · rintro rfl
        exact absurd hd (by decide)
      · next h _ =>
        rw [List.mem_singleton.1 hd]
        exact h

/-- An encoded value does not end early. -/
theorem encodeValue_ne (s : String) : ∀ c ∈ encodeValue s, c ≠ '"' := by
  intro c hc
  obtain ⟨d, -, hd⟩ := List.mem_flatMap.1 hc
  unfold encodeValueChar encodeTextChar at hd
  split at hd
  · rintro rfl
    exact absurd hd (by decide)
  · next hquote =>
    split at hd
    · rintro rfl
      exact absurd hd (by decide)
    · split at hd
      · rintro rfl
        exact absurd hd (by decide)
      · split at hd
        · rintro rfl
          exact absurd hd (by decide)
        · rw [List.mem_singleton.1 hd]
          exact hquote

/-! ## Names -/

/-- The characters of names, neither blanks nor markup. -/
def isNameChar (c : Char) : Bool :=
  !(isSpace c || c = '"' || c = '\'' || c = '<' || c = '>' || c = '/' || c = '=')

/-- Being a name that no markup can be mistaken for. -/
structure IsName (name : String) : Prop where
  ne_nil : name.toList ≠ []
  isNameChar : ∀ c ∈ name.toList, isNameChar c = true
  head_ne : ∀ c, name.toList.head? = some c → c ≠ '!' ∧ c ≠ '?'

instance (name : String) : Decidable (IsName name) :=
  decidable_of_iff (name.toList ≠ [] ∧ name.toList.all Markup.isNameChar = true
      ∧ name.toList.head?.all (fun c => c ≠ '!' ∧ c ≠ '?') = true)
    (by
      rw [List.all_eq_true, Option.all_eq_true]
      exact ⟨fun h => ⟨h.1, h.2.1, fun c hc => of_decide_eq_true (h.2.2 c hc)⟩,
        fun h => ⟨h.1, h.2, fun c hc => decide_eq_true (h.3 c hc)⟩⟩)

example : IsName "android:pathData" := by decide

theorem isNameChar_iff {c : Char} :
    isNameChar c = true ↔ isSpace c = false ∧ c ≠ '"' ∧ c ≠ '\'' ∧ c ≠ '<' ∧ c ≠ '>' ∧ c ≠ '/'
      ∧ c ≠ '=' := by
  simp [isNameChar, and_assoc]

/-- A name ends neither at a blank nor at an equals sign inside. -/
theorem not_endsKey_of_isNameChar {c : Char} (h : isNameChar c = true) :
    (!endsKey c) = true := by
  obtain ⟨hspace, -, -, -, -, -, hequals⟩ := isNameChar_iff.1 h
  simp [endsKey, hspace, hequals]

/-! ## Attributes -/

/-- Attributes as they are written. -/
def attributeChars (attributes : List (String × String)) : List Char :=
  attributes.flatMap fun (key, value) => writeAttribute key value

theorem attributeChars_cons (key value : String) (attributes : List (String × String)) :
    attributeChars ((key, value) :: attributes)
      = writeAttribute key value ++ attributeChars attributes := rfl

/-- An attribute in front of a text is taken first. -/
theorem takeAttribute_written {c : Char} {name value : List Char}
    (hname : ∀ d ∈ name, (!endsKey d) = true) (hvalue : ∀ d ∈ value, (d != '"') = true)
    {seen : List (List Char × Nat)} (hseen : seen.lookup (c :: name) = none) (total : Nat)
    (rest : List Char) :
    takeAttribute total seen c (name ++ '=' :: '"' :: (value ++ '"' :: rest))
      = .ok (⟨c :: name, value,
          total - byteLength (c :: (name ++ '=' :: '"' :: (value ++ '"' :: rest)))⟩, rest) := by
  have hequals : ('=' :: '"' :: (value ++ '"' :: rest)).dropWhile isSpace
      = '=' :: '"' :: (value ++ '"' :: rest) := rfl
  have hquote : ('"' :: (value ++ '"' :: rest)).dropWhile isSpace
      = '"' :: (value ++ '"' :: rest) := rfl
  simp only [takeAttribute, dropWhile_stop (a := '=') hname rfl,
    takeWhile_stop (a := '=') hname rfl, hequals, hseen, hquote, true_or, if_true,
    dropWhile_stop (a := '"') hvalue rfl, takeWhile_stop (a := '"') hvalue rfl]

/-- A written attribute begins with its key, after a blank. -/
theorem dropWhile_isSpace_writeAttribute {key : String} {c : Char} {name : List Char}
    (hname : key.toList = c :: name) (hc : isNameChar c = true) (value : String)
    (more : List Char) : (writeAttribute key value ++ more).dropWhile isSpace
      = c :: (name ++ '=' :: '"' :: (encodeValue value ++ '"' :: more)) := by
  have hchar : isSpace c = false := (isNameChar_iff.1 hc).1
  have hspace : isSpace ' ' = true := rfl
  simp [writeAttribute, hname, hspace, hchar]

/-- Written attributes are read back. -/
theorem readAttributes_written (total : Nat) {attributes : List (String × String)}
    (hnames : ∀ key ∈ attributes.map Prod.fst, IsName key)
    (hnodup : (attributes.map Prod.fst).Nodup) (seen : List (List Char × Nat))
    (hseen : ∀ key ∈ attributes.map Prod.fst, seen.lookup key.toList = none) :
    readAttributes total seen (attributeChars attributes)
      = .ok attributes := by
  induction attributes generalizing seen with
  | nil =>
    rw [attributeChars, List.flatMap_nil, readAttributes]
    rfl
  | cons entry attributes ih =>
    obtain ⟨key, value⟩ := entry
    obtain ⟨hkey, hnames⟩ : IsName key ∧ ∀ k ∈ attributes.map Prod.fst, IsName k :=
      List.forall_mem_cons.1 hnames
    obtain ⟨hnew, hnodup⟩ := List.nodup_cons.1 hnodup
    obtain ⟨hkeySeen, hseen⟩ := List.forall_mem_cons.1 hseen
    obtain ⟨c, name, hname⟩ := List.exists_cons_of_ne_nil hkey.ne_nil
    have hchars := hkey.isNameChar
    rw [hname] at hchars hkeySeen
    obtain ⟨hc, hchars⟩ := List.forall_mem_cons.1 hchars
    have hvalue : ∀ d ∈ encodeValue value, (d != '"') = true := fun d hd =>
      bne_iff_ne.2 (encodeValue_ne value d hd)
    have htake := takeAttribute_written (fun d hd => not_endsKey_of_isNameChar (hchars d hd))
      hvalue hkeySeen total (attributeChars attributes)
    -- No key that follows is the one that has been seen now.
    have hmore (position : Nat) := ih hnames hnodup ((c :: name, position) :: seen)
      fun k hk => by
        rw [List.lookup_cons, beq_false_of_ne, hseen k hk]
        rintro heq
        refine hnew ?_
        rwa [String.toList_inj.1 (hname.trans heq.symm)]
    have hskip := dropWhile_isSpace_writeAttribute hname hc value (attributeChars attributes)
    rw [attributeChars_cons, readAttributes]
    split
    · next hnil => cases hskip.symm.trans hnil
    · next d ds hcons =>
      obtain ⟨rfl, rfl⟩ := List.cons.inj (hskip.symm.trans hcons)
      split
      · next herror => cases htake.symm.trans herror
      · next a rest hok =>
        obtain ⟨rfl, rfl⟩ := Prod.mk.inj (Except.ok.inj (htake.symm.trans hok))
        simp only [decode_encodeValue, hmore]
        rw [← hname, String.ofList_toList, String.ofList_toList]

/-! ## Tags -/

/-- The content of a written tag. -/
def tagContent (name : String) (attributes : List (String × String)) : List Char :=
  name.toList ++ attributeChars attributes

theorem writeTag_eq (name : String) (attributes : List (String × String)) :
    writeTag name attributes = '<' :: tagContent name attributes := rfl

/-- Attributes begin with a blank. -/
theorem writeAttributes_cases (attributes : List (String × String)) :
    attributeChars attributes = [] ∨ ∃ cs, attributeChars attributes = ' ' :: cs := by
  cases attributes with
  | nil => exact .inl rfl
  | cons entry attributes => exact .inr ⟨_, rfl⟩

/-- A written tag is read as the element that it was written from. -/
theorem ofTag_tagContent {name : String} {attributes : List (String × String)}
    (hname : IsName name) (hkeys : ∀ key ∈ attributes.map Prod.fst, IsName key)
    (hnodup : (attributes.map Prod.fst).Nodup) :
    ofTag (tagContent name attributes) = .ok { name, attributes } := by
  have hchars : ∀ c ∈ name.toList, (!isSpace c) = true := fun c hc => by
    rw [(isNameChar_iff.1 (hname.isNameChar c hc)).1]
    rfl
  have hread := readAttributes_written (byteLength (tagContent name attributes)) hkeys hnodup
    [] fun _ _ => rfl
  have htake : (tagContent name attributes).takeWhile (!isSpace ·) = name.toList := by
    rw [tagContent]
    obtain h | ⟨cs, h⟩ := writeAttributes_cases attributes
    · rw [h, List.append_nil, List.takeWhile_eq_self_iff.2 hchars]
    · rw [h, takeWhile_stop hchars rfl]
  have hdrop : (tagContent name attributes).dropWhile (!isSpace ·) = attributeChars attributes := by
    rw [tagContent]
    obtain h | ⟨cs, h⟩ := writeAttributes_cases attributes
    · rw [h, List.append_nil, List.dropWhile_eq_nil_iff.2 hchars]
    · rw [h, dropWhile_stop hchars rfl]
  simp only [ofTag, htake, hdrop, hread, String.ofList_toList]

/-! ## The end of a tag -/

/-- Quotes and ends of tags do not stand in names. -/
theorem breakTag?_name {front cs content rest : List Char}
    (hfront : ∀ c ∈ front, c ≠ '"' ∧ c ≠ '\'' ∧ c ≠ '>')
    (h : breakTag? none cs = some (content, rest)) :
    breakTag? none (front ++ cs) = some (front ++ content, rest) := by
  induction front with
  | nil => exact h
  | cons c front ih =>
    obtain ⟨⟨hquote, happ, hend⟩, hfront⟩ := List.forall_mem_cons.1 hfront
    rw [List.cons_append, breakTag?, if_neg hend, if_neg (not_or.2 ⟨hquote, happ⟩), ih hfront]
    rfl

/-- An attribute value ends at the next quote. -/
theorem breakTag?_value {front cs content rest : List Char} (hfront : ∀ c ∈ front, c ≠ '"')
    (h : breakTag? none cs = some (content, rest)) :
    breakTag? (some '"') (front ++ '"' :: cs) = some (front ++ '"' :: content, rest) := by
  induction front with
  | nil =>
    rw [List.nil_append, breakTag?]
    simp only [if_true, h]
    rfl
  | cons c front ih =>
    obtain ⟨hquote, hfront⟩ := List.forall_mem_cons.1 hfront
    rw [List.cons_append, breakTag?]
    simp only [if_neg hquote, ih hfront]
    rfl

theorem breakTag?_attributes {attributes : List (String × String)} {cs content rest : List Char}
    (hkeys : ∀ key ∈ attributes.map Prod.fst, IsName key)
    (h : breakTag? none cs = some (content, rest)) :
    breakTag? none (attributeChars attributes ++ cs)
      = some (attributeChars attributes ++ content, rest) := by
  induction attributes with
  | nil => exact h
  | cons entry attributes ih =>
    obtain ⟨key, value⟩ := entry
    obtain ⟨hkey, hkeys⟩ := List.forall_mem_cons.1 hkeys
    have hfront : ∀ c ∈ ' ' :: key.toList ++ ['='], c ≠ '"' ∧ c ≠ '\'' ∧ c ≠ '>' := by
      intro c hc
      simp only [List.cons_append, List.mem_cons, List.mem_append, List.not_mem_nil,
        or_false] at hc
      obtain rfl | hc | rfl := hc
      · decide
      · obtain ⟨-, hquote, happ, -, hend, -⟩ := isNameChar_iff.1 (hkey.isNameChar c hc)
        exact ⟨hquote, happ, hend⟩
      · decide
    have hvalue := breakTag?_value (encodeValue_ne value) (ih hkeys)
    have hopen : breakTag? none
        ('"' :: (encodeValue value ++ '"' :: (attributeChars attributes ++ cs)))
        = some ('"' :: (encodeValue value ++ '"' :: (attributeChars attributes ++ content)),
          rest) := by
      rw [breakTag?]
      simp only [if_false, true_or, if_true, hvalue, Char.reduceEq]
      rfl
    have := breakTag?_name hfront hopen
    simpa [attributeChars_cons, writeAttribute] using this

/-- The content of a written tag is found whole. -/
theorem breakTag?_tagContent {name : String} {attributes : List (String × String)}
    {cs content rest : List Char} (hname : IsName name)
    (hkeys : ∀ key ∈ attributes.map Prod.fst, IsName key)
    (h : breakTag? none cs = some (content, rest)) :
    breakTag? none (tagContent name attributes ++ cs)
      = some (tagContent name attributes ++ content, rest) := by
  have hfront : ∀ c ∈ name.toList, c ≠ '"' ∧ c ≠ '\'' ∧ c ≠ '>' := fun c hc => by
    obtain ⟨-, hquote, happ, -, hend, -⟩ := isNameChar_iff.1 (hname.isNameChar c hc)
    exact ⟨hquote, happ, hend⟩
  rw [tagContent, List.append_assoc, List.append_assoc]
  exact breakTag?_name hfront (breakTag?_attributes hkeys h)

end VectorGraphics.Markup
