import VectorGraphics.Proofs.Svg.TransformLists

/-!
# Written transforms are read back

A transform is written as one call with literals for its arguments. Every such call is read as a
matrix (`isSome_parseTransform?_callText`), and so is whatever is written for a matrix
(`isSome_parseTransform?_transformText`).
-/

namespace VectorGraphics.Svg

/-! ## One call -/

/-- Texts that are read as numbers. -/
def AreNumbers (texts : List String) : Prop :=
  ∀ t ∈ texts, ∃ x, Single.ofLiteral? t.toList = some x

/-- Literals between blanks list as many numbers. -/
theorem exists_listed {texts : List String} (h : AreNumbers texts) :
    ∃ xs, Listed xs ([' '].intercalate (texts.map String.toList)) ∧ xs.length = texts.length := by
  induction texts with
  | nil => exact ⟨[], .stop, rfl⟩
  | cons t texts ih =>
    obtain ⟨⟨x, hx⟩, htexts⟩ := List.forall_mem_cons.1 h
    obtain ⟨xs, hxs, hlength⟩ := ih htexts
    refine ⟨x :: xs, ?_, congrArg (· + 1) hlength⟩
    cases texts with
    | nil =>
      obtain rfl := List.eq_nil_of_length_eq_zero hlength
      rw [List.map_singleton, List.intercalate_singleton, ← List.append_nil t.toList]
      exact .number hx nofun .stop
    | cons u texts =>
      rw [List.map_cons, List.map_cons, List.intercalate_cons_cons, List.append_assoc]
      exact .number hx (by simp [isSeparator, Text.isAsciiBlank]) (.separator (by decide) hxs)

/-- A call is read as its matrix if there is one for every list of so many arguments. -/
theorem isSome_parseTransform?_callText {name : String} {texts : List String}
    (htexts : AreNumbers texts)
    (hstep : ∀ xs : List Single, xs.length = texts.length → (step? name xs).isSome = true) :
    (parseTransform? (callText name texts)).isSome = true := by
  have hchars : (callText name texts).toList
      = name.toList ++ '(' :: ([' '].intercalate (texts.map String.toList) ++ [')']) := by
    simp [callText, String.toList_intercalate]
  obtain ⟨xs, hxs, hlength⟩ := exists_listed htexts
  obtain ⟨m, hm⟩ := Option.isSome_iff_exists.1 (hstep xs hlength)
  have hm := step?_eq_some_iff.1 hm
  have htrim : Text.trimList (callText name texts).toList = (callText name texts).toList := by
    obtain ⟨c, cs, hcons⟩ := List.exists_cons_of_ne_nil hm.isWord.ne_nil
    have hc := isBlank_of_isTextChar (hm.isWord.char c (hcons ▸ List.mem_cons_self))
    rw [hchars, hcons, ← List.cons_append, ← List.append_assoc, List.cons_append, List.cons_append]
    exact Text.trimList_of_ends hc (by decide) _
  have hwritten : Written [m] (callText name texts).toList := by
    have h : Written [m] ([] ++ name.toList ++ []
        ++ '(' :: ([' '].intercalate (texts.map String.toList) ++ ')' :: ([] ++ []))) :=
      .call hm nofun nofun hxs nofun .stop
    rwa [List.nil_append, List.append_nil, List.append_nil, ← hchars] at h
  rw [parseTransform?, htrim, multiplyCalls?_eq_some_iff.2 ⟨[m], hwritten, rfl⟩]
  rfl

/-! ## Whatever is written -/

theorem areNumbers_nil : AreNumbers [] := List.forall_mem_nil _

theorem AreNumbers.cons {texts : List String} (h : AreNumbers texts) (x : Single) (places : UInt8) :
    AreNumbers (x.text places :: texts) := by
  refine List.forall_mem_cons.2 ⟨?_, h⟩
  rw [Single.text, String.toList_ofList]
  exact (Single.isWord_chars x places).2

/-- What is written for a matrix is read as a matrix. -/
theorem isSome_parseTransform?_transformText (m : Matrix) (places : UInt8) :
    (parseTransform? (transformText m places)).isSome = true := by
  rw [transformText]
  dsimp only
  split
  · split
    · exact isSome_parseTransform?_callText (areNumbers_nil.cons m.e places)
        fun | [_], _ => rfl
    · exact isSome_parseTransform?_callText
        ((areNumbers_nil.cons m.f places).cons m.e places) fun | [_, _], _ => rfl
  · split
    · split
      · exact isSome_parseTransform?_callText
          (areNumbers_nil.cons m.a (finerPlaces places)) fun | [_], _ => rfl
      · exact isSome_parseTransform?_callText
          ((areNumbers_nil.cons m.d (finerPlaces places)).cons m.a (finerPlaces places))
          fun | [_, _], _ => rfl
    · split
      · next angle _ =>
        exact isSome_parseTransform?_callText
          (areNumbers_nil.cons angle (finerPlaces places)) fun | [_], _ => rfl
      · exact isSome_parseTransform?_callText
          ((((((areNumbers_nil.cons m.f places).cons m.e places).cons m.d (finerPlaces places)).cons
            m.c (finerPlaces places)).cons m.b (finerPlaces places)).cons m.a (finerPlaces places))
          fun | [_, _, _, _, _, _], _ => rfl

end VectorGraphics.Svg
