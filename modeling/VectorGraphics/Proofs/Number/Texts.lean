import VectorGraphics.Proofs.Number.Literal

/-!
# The text of any coordinate

The text of a coordinate, finite or not, is a word of letters, digits, signs and points, and it is
read as a number (`Single.isWord_chars`). Whatever is read as a number has only such characters and
plus signs (`Single.isLiteralChar_of_ofLiteral?`).
-/

namespace VectorGraphics

/-- The characters of the texts of coordinates. -/
def isTextChar (c : Char) : Bool := c.isAlphanum || c = '-' || c = '.'

/-- A word of characters as they are in the texts of coordinates. -/
structure IsWord (cs : List Char) : Prop where
  ne_nil : cs ≠ []
  char : ∀ c ∈ cs, isTextChar c = true

instance (cs : List Char) : Decidable (IsWord cs) :=
  decidable_of_iff (cs ≠ [] ∧ cs.all isTextChar = true)
    ⟨fun h => ⟨h.1, List.all_eq_true.1 h.2⟩, fun h => ⟨h.1, List.all_eq_true.2 h.2⟩⟩

theorem isTextChar_of_isDigit {c : Char} (h : c.isDigit = true) : isTextChar c = true := by
  rw [isTextChar, Char.isAlphanum, h, Bool.or_true]
  rfl

/-- The characters of texts lie between the minus sign and the small letters. -/
theorem toNat_of_isTextChar {c : Char} (h : isTextChar c = true) :
    45 ≤ c.toNat ∧ c.toNat ≤ 122 := by
  simp only [isTextChar, Char.isAlphanum, Char.isAlpha, Char.isUpper, Char.isLower, Char.isDigit,
    Bool.or_eq_true, Bool.and_eq_true, decide_eq_true_eq] at h
  change ((((65 ≤ c.toNat ∧ c.toNat ≤ 90) ∨ (97 ≤ c.toNat ∧ c.toNat ≤ 122))
    ∨ (48 ≤ c.toNat ∧ c.toNat ≤ 57)) ∨ c = '-') ∨ c = '.' at h
  obtain (((h | h) | h) | rfl) | rfl := h
  · omega
  · omega
  · omega
  · decide
  · decide

theorem isBlank_of_isTextChar {c : Char} (h : isTextChar c = true) : Text.isBlank c = false := by
  have hbounds := toNat_of_isTextChar h
  simp only [Text.isBlank, Bool.or_eq_false_iff, Bool.and_eq_false_iff, decide_eq_false_iff_not]
  omega

/-- Nothing is trimmed where nothing is blank. -/
theorem Text.trimList_of_forall {cs : List Char} (h : ∀ c ∈ cs, Text.isBlank c = false) :
    Text.trimList cs = cs := by
  have hkeep {l : List Char} (hl : ∀ c ∈ l, Text.isBlank c = false) :
      l.dropWhile Text.isBlank = l :=
    List.dropWhile_eq_self_iff.2 fun hlength => by
      rw [hl _ (List.getElem_mem hlength)]
      exact Bool.false_ne_true
  rw [Text.trimList, hkeep h, Text.dropRightWhile, hkeep fun c hc => h c (List.mem_reverse.1 hc),
    List.reverse_reverse]

theorem IsWord.trimList {cs : List Char} (h : IsWord cs) : Text.trimList cs = cs :=
  Text.trimList_of_forall fun c hc => isBlank_of_isTextChar (h.char c hc)

namespace Single

/-- A plain literal is a word. -/
theorem isWord_of_isPlain {cs : List Char} (h : Decimal.IsPlain cs) : IsWord cs := by
  have hunsigned {cs : List Char} (h : Decimal.IsUnsigned cs) : IsWord cs := by
    obtain ⟨whole, fraction, hw, hf, rfl⟩ := h
    refine ⟨List.append_ne_nil_of_left_ne_nil hw.1 _, fun c hc => ?_⟩
    obtain hc | hc := List.mem_append.1 hc
    · exact isTextChar_of_isDigit (hw.2 c hc)
    · obtain rfl | ⟨ds, hd, rfl⟩ := hf
      · cases hc
      · obtain rfl | hc := List.mem_cons.1 hc
        · rfl
        · exact isTextChar_of_isDigit (hd.2 c hc)
  obtain h | ⟨ds, h, rfl⟩ := h
  · exact hunsigned h
  · exact ⟨List.cons_ne_nil _ _, List.forall_mem_cons.2 ⟨rfl, (hunsigned h).char⟩⟩

theorem isWord_nonfiniteText (u : Float.Model.UnpackedFloat) :
    IsWord (nonfiniteText u) ∧ ∃ y, ofLiteral? (nonfiniteText u) = some y := by
  unfold nonfiniteText
  split
  · exact ⟨by decide, Option.isSome_iff_exists.1 (by decide)⟩
  · exact ⟨by decide, Option.isSome_iff_exists.1 (by decide)⟩
  · exact ⟨by decide, Option.isSome_iff_exists.1 (by decide)⟩

/-- The text of a coordinate is a word that is read as a number. -/
theorem isWord_chars (x : Single) (places : UInt8) :
    IsWord (x.chars places) ∧ ∃ y, ofLiteral? (x.chars places) = some y := by
  by_cases hx : x.isFinite = true
  · have hplain := isPlain_chars hx places
    exact ⟨isWord_of_isPlain hplain, ofLiteral?_plain hplain⟩
  · rw [chars, if_neg hx]
    exact isWord_nonfiniteText _

end Single

/-! ## The characters of literals -/

/-- The characters of the literals that are read as numbers. -/
def isLiteralChar (c : Char) : Bool := isTextChar c || c = '+'

theorem isLiteralChar_of_isTextChar {c : Char} (h : isTextChar c = true) :
    isLiteralChar c = true := by
  rw [isLiteralChar, h, Bool.true_or]

theorem isLiteralChar_of_isDigit {c : Char} (h : c.isDigit = true) : isLiteralChar c = true :=
  isLiteralChar_of_isTextChar (isTextChar_of_isDigit h)

/-- A character that becomes a letter in lower case is a letter. -/
theorem isLiteralChar_of_toLower {c : Char} (h : c.toLower.isAlpha = true) :
    isLiteralChar c = true := by
  rw [Char.isAlpha_toLower_eq_isAlpha] at h
  rw [isLiteralChar, isTextChar, Char.isAlphanum, h]
  rfl

namespace Decimal

theorem isDigit_of_nat? {cs : List Char} {n : ℕ} (h : nat? cs = some n) :
    ∀ c ∈ cs, c.isDigit = true :=
  List.all_eq_true.1 (Option.ite_none_right_eq_some.1 h).1.2

theorem isLiteralChar_of_int? {cs : List Char} {n : ℤ} (h : int? cs = some n) :
    ∀ c ∈ cs, isLiteralChar c = true := by
  have hdigits {ds : List Char} (hds : nat? ds ≠ none) : ∀ c ∈ ds, isLiteralChar c = true := by
    obtain ⟨k, hk⟩ := Option.ne_none_iff_exists'.1 hds
    exact fun c hc => isLiteralChar_of_isDigit (isDigit_of_nat? hk c hc)
  rw [int?.eq_def] at h
  split at h
  · refine List.forall_mem_cons.2 ⟨rfl, hdigits fun hnone => ?_⟩
    rw [hnone] at h
    cases h
  · refine List.forall_mem_cons.2 ⟨rfl, hdigits fun hnone => ?_⟩
    rw [hnone] at h
    cases h
  · refine hdigits fun hnone => ?_
    rw [hnone] at h
    cases h

theorem isLiteralChar_of_power? {cs : List Char} {n : ℤ} (h : power? cs = some n) :
    ∀ c ∈ cs, isLiteralChar c = true := by
  cases cs with
  | nil => exact List.forall_mem_nil _
  | cons c cs =>
    obtain ⟨he, hn⟩ := Option.ite_none_right_eq_some.1 h
    refine List.forall_mem_cons.2 ⟨?_, isLiteralChar_of_int? hn⟩
    obtain rfl | rfl := he <;> rfl

theorem isLiteralChar_of_mem_takeDigits {cs : List Char}
    (h : ∀ c ∈ (takeDigits cs).2, isLiteralChar c = true) : ∀ c ∈ cs, isLiteralChar c = true := by
  intro c hc
  rw [← List.takeWhile_append_dropWhile (p := Char.isDigit) (l := cs)] at hc
  obtain hc | hc := List.mem_append.1 hc
  · exact isLiteralChar_of_isDigit (List.mem_takeWhile_imp hc)
  · exact h c hc

theorem isLiteralChar_of_mem_takeFraction {cs : List Char}
    (h : ∀ c ∈ (takeFraction cs).2, isLiteralChar c = true) : ∀ c ∈ cs, isLiteralChar c = true := by
  rw [takeFraction.eq_def] at h
  split at h
  · exact List.forall_mem_cons.2 ⟨rfl, isLiteralChar_of_mem_takeDigits h⟩
  · exact h

theorem isLiteralChar_of_ofLiteral? {cs : List Char} {d : Decimal} (h : ofLiteral? cs = some d) :
    cs ≠ [] ∧ ∀ c ∈ cs, isLiteralChar c = true := by
  constructor
  · rintro rfl
    cases h
  · obtain ⟨-, h⟩ := Option.ite_none_left_eq_some.1 h
    obtain ⟨power, hpower, -⟩ := Option.map_eq_some_iff.1 h
    exact isLiteralChar_of_mem_takeDigits
      (isLiteralChar_of_mem_takeFraction (isLiteralChar_of_power? hpower))

end Decimal

namespace Single

theorem isLiteralChar_of_ofUnsigned? {cs : List Char} {x : Single} (h : ofUnsigned? cs = some x) :
    cs ≠ [] ∧ ∀ c ∈ cs, isLiteralChar c = true := by
  have hword {word : String} (hword : String.ofList (cs.map Char.toLower) = word)
      (hne : word.toList ≠ []) (halpha : word.toList.all Char.isAlpha = true) :
      cs ≠ [] ∧ ∀ c ∈ cs, isLiteralChar c = true := by
    rw [← hword, String.toList_ofList] at hne halpha
    exact ⟨fun hnil => hne (by rw [hnil, List.map_nil]),
      fun c hc =>
        isLiteralChar_of_toLower (List.all_eq_true.1 halpha _ (List.mem_map_of_mem hc))⟩
  rw [ofUnsigned?] at h
  split at h
  · next heq =>
    obtain heq | heq := heq
    · exact hword heq (by decide) (by decide +kernel)
    · exact hword heq (by decide) (by decide +kernel)
  · split at h
    · next heq => exact hword heq (by decide) (by decide +kernel)
    · obtain ⟨d, hd, -⟩ := Option.map_eq_some_iff.1 h
      exact Decimal.isLiteralChar_of_ofLiteral? hd

/-- A literal has characters, and all of them are letters, digits, signs and points. -/
theorem isLiteralChar_of_ofLiteral? {cs : List Char} {x : Single} (h : ofLiteral? cs = some x) :
    cs ≠ [] ∧ ∀ c ∈ cs, isLiteralChar c = true := by
  rw [ofLiteral?.eq_def] at h
  split at h
  · obtain ⟨y, hy, -⟩ := Option.map_eq_some_iff.1 h
    exact ⟨List.cons_ne_nil _ _,
      List.forall_mem_cons.2 ⟨rfl, (isLiteralChar_of_ofUnsigned? hy).2⟩⟩
  · exact ⟨List.cons_ne_nil _ _, List.forall_mem_cons.2 ⟨rfl, (isLiteralChar_of_ofUnsigned? h).2⟩⟩
  · exact isLiteralChar_of_ofUnsigned? h

end Single

end VectorGraphics
