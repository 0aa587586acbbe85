import VectorGraphics.Proofs.Graphic.Scopes

/-!
# Inherited values

The computed value of an inherited property goes from parent to child: an element computes what it
specifies, and what its parent computes if it specifies nothing or the keyword `inherit`
(`computedValue?`). A scope knows only the last value besides `inherit` that each element on the
way sets, so that `inherit` cannot take an earlier value of the same element back, and on the
element that is looked at it is a value like any other. `resolve_eq_computedValue?_iff` shows that
these are the only differences.

Chains of elements are given from the inside to the outside, each element before its parent.
-/

namespace VectorGraphics

/-! ## Computed values -/

/-- The value that an element specifies for a property: the last declaration in its style, else its
attribute. -/
def specifiedValue? (foreign : Attributes) (key : String) : Option String :=
  (Scope.styled? foreign key).or (foreign.get? key)

/-- The computed value of an inherited property on the first element of a chain. -/
def computedValue? (key : String) : List Attributes → Option String
  | [] => none
  | foreign :: outer =>
    match specifiedValue? foreign key with
    | none => computedValue? key outer
    | some value => if value = "inherit" then computedValue? key outer else some value

/-- The keyword is never computed. -/
theorem computedValue?_ne_inherit (key : String) (chain : List Attributes) :
    computedValue? key chain ≠ some "inherit" := by
  induction chain with
  | nil => nofun
  | cons foreign outer ih =>
    rw [computedValue?]
    split
    · exact ih
    · split
      · exact ih
      · next hne => exact fun heq => hne (Option.some.inj heq)

/-- `inherit` never takes a value back inside a chain: where the innermost element that hands a
value on ends in `inherit`, it computes that value all the same. -/
def HonorsInherit (key : String) : List Attributes → Prop
  | [] => True
  | foreign :: outer =>
    if handedOn foreign key = [] then HonorsInherit key outer
    else specifiedValue? foreign key = some "inherit" →
      computedValue? key outer = (handedOn foreign key).getLast?

instance decidableHonorsInherit (key : String) : ∀ chain, Decidable (HonorsInherit key chain)
  | [] => inferInstanceAs (Decidable True)
  | foreign :: outer =>
    have := decidableHonorsInherit key outer
    inferInstanceAs (Decidable (if handedOn foreign key = [] then HonorsInherit key outer
      else specifiedValue? foreign key = some "inherit" →
        computedValue? key outer = (handedOn foreign key).getLast?))

/-! ## Values in a scope -/

section

variable {key : String} {foreign : Attributes}

theorem specifiedValue?_eq (foreign : Attributes) (key : String) :
    specifiedValue? foreign key = (setValues foreign key).getLast? := by
  have h := Scope.resolve_eq {} foreign key
  rw [Scope.resolve, Scope.get?, Attributes.get?_empty, Option.or_none, Option.or_none] at h
  exact h

/-- The value that counts on an element is handed on, unless it is the keyword. -/
theorem getLast?_handedOn (hkey : key ∈ inheritedProperties) {value : String}
    (hvalue : specifiedValue? foreign key = some value) (hne : value ≠ "inherit") :
    (handedOn foreign key).getLast? = some value := by
  have hlast : (setValues foreign key).reverse.head? = some value := by
    rw [List.head?_reverse, ← specifiedValue?_eq, hvalue]
  obtain ⟨rest, hrest⟩ := List.head?_eq_some_iff.1 hlast
  have hhanded : isHandedOn key value = true := by
    simp [isHandedOn, hkey, hne]
  rw [handedOn, List.getLast?_filter, hrest, List.find?_cons_of_pos hhanded]

/-- An element that specifies nothing hands nothing on. -/
theorem handedOn_of_specifiedValue?_eq_none (h : specifiedValue? foreign key = none) :
    handedOn foreign key = [] := by
  rw [specifiedValue?_eq, List.getLast?_eq_none_iff] at h
  rw [handedOn, h, List.filter_nil]

/-- A scope holds the computed value of the elements around it exactly if these honor `inherit`. -/
theorem get?_foldr_enter_iff (hkey : key ∈ inheritedProperties) (chain : List Attributes) :
    (chain.foldr (fun foreign scope => scope.enter foreign) ({} : Scope)).get? key
        = computedValue? key chain
      ↔ HonorsInherit key chain := by
  induction chain with
  | nil => exact iff_of_true rfl trivial
  | cons foreign outer ih =>
    rw [List.foldr_cons, Scope.get?_enter, computedValue?, HonorsInherit]
    cases hspecified : specifiedValue? foreign key with
    | none =>
      rw [handedOn_of_specifiedValue?_eq_none hspecified]
      exact ih
    | some value =>
      by_cases hinherit : value = "inherit"
      · subst hinherit
        by_cases hnil : handedOn foreign key = []
        · simpa [hnil] using ih
        · obtain ⟨handed, hhanded⟩ := Option.isSome_iff_exists.1 (List.getLast?_isSome.2 hnil)
          simp [hnil, hhanded, eq_comm]
      · have hlast := getLast?_handedOn hkey hspecified hinherit
        have hne : handedOn foreign key ≠ [] := by
          rintro hnil
          rw [hnil] at hlast
          cases hlast
        simp [hlast, hne, hinherit]

end

/-! ## Values of an element -/

/-- The value that a scope gives for an inherited property of an element is the computed value,
exactly if the element does not specify `inherit` and, where it specifies nothing, the elements
around it honor `inherit`. -/
theorem resolve_eq_computedValue?_iff {key : String} (hkey : key ∈ inheritedProperties)
    (ancestors : List Attributes) (foreign : Attributes) :
    (ancestors.foldl Scope.enter {}).resolve foreign key
        = computedValue? key (foreign :: ancestors.reverse)
      ↔ specifiedValue? foreign key ≠ some "inherit"
        ∧ (specifiedValue? foreign key = none → HonorsInherit key ancestors.reverse) := by
  rw [Scope.resolve_eq, ← specifiedValue?_eq, computedValue?, List.foldl_eq_foldr_reverse]
  cases specifiedValue? foreign key with
  | none => simpa using get?_foldr_enter_iff hkey ancestors.reverse
  | some value =>
    by_cases hinherit : value = "inherit"
    · subst hinherit
      simpa using (computedValue?_ne_inherit key ancestors.reverse).symm
    · simp [hinherit]

/-- A stroke is inherited through a group that asks for it, from a style that overrules an
attribute. -/
theorem inherited_stroke_is_computed :
    "stroke" ∈ inheritedProperties
      ∧ ([Attributes.ofList [("stroke", "red"), ("style", "stroke:none; stroke: blue")],
            .ofList [("stroke", "inherit")]].foldl Scope.enter {}).resolve ∅ "stroke"
          = computedValue? "stroke" (∅ :: [Attributes.ofList
            [("stroke", "red"), ("style", "stroke:none; stroke: blue")],
            .ofList [("stroke", "inherit")]].reverse) := by
  refine ⟨by decide, (resolve_eq_computedValue?_iff (by decide) _ _).2 ?_⟩
  decide +kernel

/-- A group that overrules its own fill by `inherit` hands that fill on, and a path that asks for
the fill around it gets the keyword. -/
theorem inherit_is_not_computed :
    ([Attributes.ofList [("fill", "blue")],
          .ofList [("fill", "red"), ("style", "fill:inherit")]].foldl Scope.enter {}).resolve ∅
          "fill" = some "red"
      ∧ computedValue? "fill" (∅ :: [Attributes.ofList [("fill", "blue")],
          .ofList [("fill", "red"), ("style", "fill:inherit")]].reverse) = some "blue"
      ∧ ([Attributes.ofList [("fill", "blue")]].foldl Scope.enter {}).resolve
          (.ofList [("fill", "inherit")]) "fill" = some "inherit"
      ∧ computedValue? "fill" (.ofList [("fill", "inherit")]
          :: [Attributes.ofList [("fill", "blue")]].reverse) = some "blue" := by
  decide +kernel

end VectorGraphics
