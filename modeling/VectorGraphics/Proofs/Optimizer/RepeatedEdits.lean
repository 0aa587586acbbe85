import VectorGraphics.Proofs.Optimizer.ColorTexts
import VectorGraphics.Proofs.Optimizer.Defaults

/-!
# Editing attributes twice

The two passes that edit attributes leave what they have left before
(`editing_attributes_twice`).

Each of them leaves the attributes of an element in a form that it does not change: attributes from
which nothing can be removed in their scope (`IsReduced`), and colors in their shortest form
(`IsShortened`). Going inwards, an element is edited in the scope of what its parents have become.
As the parents stay as they are the second time, so does the scope, and the form is reached on every
element at once (`mapGraphicAttributes_twice`).
-/

namespace VectorGraphics.Optimizer

/-! ## Attributes from which nothing can be removed -/

/-- In a scope, no attribute is redundant, and the style is spelled by declarations each of which
stays. -/
structure IsReduced (format : Format) (scope : Scope) (foreign : Attributes) : Prop where
  not_redundant : ∀ key value, foreign.get? key = some value →
    isRedundant format scope key value = false
  style_kept : format = .svg → ∀ style, foreign.get? "style" = some style →
    declarations style ≠ [] ∧ joinDeclarations (declarations style) = style
      ∧ ∀ d ∈ declarations style, keepsDeclaration scope foreign d.1 d.2 = true

variable {format : Format} {scope : Scope} {foreign : Attributes}

theorem insert_of_get? {key value : String} (h : foreign.get? key = some value) :
    foreign.insert key value = foreign := by
  refine Attributes.ext_get? fun other => ?_
  by_cases hother : other = key
  · rw [hother, Attributes.get?_insert_self, h]
  · exact Attributes.get?_insert_of_ne foreign value hother

theorem IsReduced.removeFromStyle_eq (h : IsReduced .svg scope foreign) :
    removeFromStyle .svg scope foreign = foreign := by
  rw [removeFromStyle]
  split
  · rfl
  · next style hstyle =>
    obtain ⟨hne, hjoin, hkept⟩ := h.style_kept rfl style hstyle
    have hall : keptDeclarations .svg scope foreign style = declarations style :=
      List.filter_eq_self.2 hkept
    rw [hall]
    split
    · next hnil => exact absurd hnil hne
    · rw [hjoin, insert_of_get? hstyle]

/-- Nothing is removed where nothing can be removed. -/
theorem IsReduced.removeDefaults_eq (h : IsReduced format scope foreign) :
    removeDefaults format scope foreign = foreign := by
  have hfilter : foreign.filter (fun key value => !isRedundant format scope key value)
      = foreign := by
    refine Attributes.ext_get? fun key => ?_
    rw [Attributes.get?_filter]
    cases hvalue : foreign.get? key with
    | none => rfl
    | some value => rw [Option.filter, h.not_redundant key value hvalue, Bool.not_false, if_pos rfl]
  cases format with
  | svg =>
    rw [removeDefaults, h.removeFromStyle_eq, hfilter]
  | vectorDrawable => exact hfilter

/-- An attribute that is removed is the default, so that removing it hides no other value. -/
theorem onlyDefault_removeDefaults {entry : String × String} (hentry : entry ∈ defaults .svg) :
    onlyDefault scope (removeDefaults .svg scope foreign) entry.1
      = onlyDefault scope foreign entry.1 := by
  have hkey : entry.1 ≠ "style" := fun heq => style_notMem (heq ▸ List.mem_map_of_mem hentry)
  rw [onlyDefault, onlyDefault, get?_removeDefaults scope foreign hkey]
  cases hscope : (scope.get? entry.1).all (isDefault .svg entry.1) with
  | false => rfl
  | true =>
    rw [Bool.true_and, Bool.true_and]
    cases foreign.get? entry.1 with
    | none => rfl
    | some value =>
      rw [Option.filter, isRedundant_eq scope hentry, hscope, Bool.and_true]
      cases hvalue : isDefault .svg entry.1 value with
      | false => simp [hvalue]
      | true => simp [hvalue]

/-- A declaration that stays would stay again. -/
theorem keepsDeclaration_removeDefaults {property value : String} :
    keepsDeclaration scope (removeDefaults .svg scope foreign) property value
      = keepsDeclaration scope foreign property value := by
  by_cases hproperty : property ∈ defaultKeys
  · obtain ⟨entry, hentry, rfl⟩ := List.mem_map.1 hproperty
    rw [keepsDeclaration_eq _ _ hentry, keepsDeclaration_eq _ _ hentry,
      onlyDefault_removeDefaults hentry]
  · rw [keepsDeclaration, keepsDeclaration, isRedundant_eq_false hproperty]
    rfl

/-- The style that is left is spelled by the declarations that stay. -/
theorem exists_of_get?_style {style : String}
    (h : (removeDefaults .svg scope foreign).get? "style" = some style) :
    ∃ kept, kept ≠ [] ∧ joinDeclarations kept = style ∧ ∀ d ∈ kept, IsDeclaration d := by
  rw [removeDefaults, Attributes.get?_filter, filter_not_isRedundant style_notMem,
    removeFromStyle] at h
  split at h
  · next hnone => cases hnone.symm.trans h
  · next before hbefore =>
    split at h
    · cases ((Attributes.keys_erase_ne foreign "style").get?_eq_none (not_not.2 rfl)).symm.trans h
    · next hne =>
      rw [Attributes.get?_insert_self] at h
      refine ⟨_, hne, Option.some.inj h, fun d hd => ?_⟩
      exact isDeclaration_of_mem (List.mem_of_mem_filter hd)

/-- Nothing can be removed from what is left. -/
theorem isReduced_removeDefaults (format : Format) (scope : Scope) (foreign : Attributes) :
    IsReduced format scope (removeDefaults format scope foreign) := by
  constructor
  · intro key value hvalue
    rw [removeDefaults.eq_def, Attributes.get?_filter] at hvalue
    simpa using (Option.filter_eq_some_iff.1 hvalue).2
  · rintro rfl style hstyle
    obtain ⟨kept, hne, rfl, hkept⟩ := exists_of_get?_style hstyle
    have hdeclared := declared_of_get?_eq_some hstyle
    rw [declarations_joinDeclarations hkept] at hdeclared ⊢
    refine ⟨hne, rfl, fun d hd => ?_⟩
    rw [← hdeclared, declared_removeDefaults] at hd
    rw [keepsDeclaration_removeDefaults]
    exact (List.mem_filter.1 hd).2

/-! ## Colors in their shortest form -/

theorem minifyColor_minifyColor (format : Format) (value : String) :
    minifyColor format (minifyColor format value) = minifyColor format value :=
  (isShortened_minifyColor format value).minifyColor_eq

theorem minifyProperty_minifyProperty (format : Format) (key value : String) :
    minifyProperty format key (minifyProperty format key value)
      = minifyProperty format key value := by
  by_cases hkey : (colorKeys format).contains key = true
  · rw [minifyProperty, minifyProperty, if_pos hkey, if_pos hkey, minifyColor_minifyColor]
  · rw [minifyProperty, minifyProperty, if_neg hkey, if_neg hkey]

theorem minifyStyle_minifyStyle (style : String) :
    minifyStyle (minifyStyle style) = minifyStyle style := by
  rw [minifyStyle, declarations_minifyStyle, List.map_map, minifyStyle]
  congr 1
  refine List.map_congr_left fun d _ => ?_
  exact congrArg (d.1, ·) (minifyProperty_minifyProperty .svg d.1 d.2)

theorem minifyColors_minifyColors (format : Format) (foreign : Attributes) :
    minifyColors format (minifyColors format foreign) = minifyColors format foreign := by
  refine Attributes.eq_of_toList_eq ?_
  simp only [minifyColors, Attributes.mapValues, List.map_map]
  refine List.map_congr_left fun entry _ => ?_
  simp only [Function.comp_apply, Prod.mk.injEq, true_and]
  split
  · exact minifyStyle_minifyStyle entry.2
  · exact minifyProperty_minifyProperty format entry.1 entry.2

/-! ## Whole trees -/

section Tree

variable {edit : Scope → Attributes → Attributes}

mutual

/-- An edit that leaves what it has left in every scope does so on every element at once. -/
theorem mapAttributes_twice
    (h : ∀ scope foreign, edit scope (edit scope foreign) = edit scope foreign)
    (scope : Scope) : ∀ e : Element,
    mapAttributes edit scope (mapAttributes edit scope e) = mapAttributes edit scope e
  | .shape use label commands => by
    simp only [mapAttributes, h]
  | .container role label children => by
    simp only [mapAttributes, h, mapAttributesIn_twice h]
  | .text content => rfl

theorem mapAttributesIn_twice
    (h : ∀ scope foreign, edit scope (edit scope foreign) = edit scope foreign)
    (scope : Scope) : ∀ es : List Element,
    mapAttributesIn edit scope (mapAttributesIn edit scope es) = mapAttributesIn edit scope es
  | [] => rfl
  | e :: es => by
    simp only [mapAttributesIn, mapAttributes_twice h scope e, mapAttributesIn_twice h scope es]

end

theorem mapGraphicAttributes_twice
    (h : ∀ scope foreign, edit scope (edit scope foreign) = edit scope foreign)
    (g : Graphic) :
    mapGraphicAttributes edit (mapGraphicAttributes edit g) = mapGraphicAttributes edit g := by
  simp only [mapGraphicAttributes, h, mapAttributesIn_twice h]

end Tree

/-- **Editing attributes twice changes no more than editing them once.** Removing the default values
from what has been left of a graphic removes nothing, and colors in their shortest form are left as
they are, in either format and whatever the options. -/
theorem editing_attributes_twice (o : Options) (g : Graphic) :
    let bare := (Pass.removeDefaults.run o g).value
    let short := (Pass.minifyColors.run o g).value
    (Pass.removeDefaults.run o bare).value = bare
      ∧ (Pass.minifyColors.run o short).value = short := by
  constructor
  · refine mapGraphicAttributes_twice (fun scope foreign => ?_) g
    exact (isReduced_removeDefaults g.format scope foreign).removeDefaults_eq
  · exact mapGraphicAttributes_twice (fun _ => minifyColors_minifyColors g.format) g

end VectorGraphics.Optimizer
