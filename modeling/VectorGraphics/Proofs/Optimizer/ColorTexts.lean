import Mathlib.Data.List.Forall2
import VectorGraphics.Optimizer.Attributes
import VectorGraphics.Proofs.Color.ShortTexts
import VectorGraphics.Proofs.Graphic.Declarations

/-!
# What becomes of colors

Writing the colors of an element in their shortest form changes nothing else: attributes and
declarations stay in their order, and where the text of a color is replaced, the new one is shorter
and of the same color (`KeepsAttribute`). No text of the color is shorter than what is there in the
end (`IsShortened`).
-/

namespace VectorGraphics.Optimizer

/-! ## One color -/

/-- The color that a text denotes in a format. -/
def colorOf? : Format → String → Option Color
  | .svg => Color.ofSvgText?
  | .vectorDrawable => Color.ofArgbText?

/-- What becomes of a value that may be a color. It stays, or a shorter text of the same color takes
its place; and in the end no text of the color is shorter. -/
structure IsShortened (format : Format) (before after : String) : Prop where
  kept_or_shorter : after = before
    ∨ after.length < (Text.trim before).length ∧ (colorOf? format before).isSome = true
  same_color : colorOf? format after = colorOf? format before
  shortest : ∀ c, colorOf? format before = some c → ∀ other, colorOf? format other = some c →
    (Text.trim after).length ≤ (Text.trim other).length

variable {format : Format} {value : String}

theorem shortestColor?_eq_none (h : colorOf? format value = none) :
    shortestColor? format value = none := by
  cases format with
  | svg => exact Option.bind_eq_none_iff.2 fun c hc => absurd (h.symm.trans hc) nofun
  | vectorDrawable => exact Option.map_eq_none_iff.2 h

/-- The shortest form of a color denotes it, and no text of the color is shorter. -/
theorem exists_shortestColor? {c : Color} (h : colorOf? format value = some c) :
    ∃ t, shortestColor? format value = some t ∧ colorOf? format t = some c
      ∧ ∀ other, colorOf? format other = some c → t.length ≤ (Text.trim other).length := by
  cases format with
  | svg =>
    obtain ⟨t, ht, hread, -⟩ := Color.exists_svgText? h
    refine ⟨t, Option.bind_eq_some_iff.2 ⟨c, h, ht⟩, hread, fun other hother => ?_⟩
    obtain ⟨t', ht', -, hle⟩ := Color.exists_svgText? hother
    obtain rfl := Option.some.inj (ht.symm.trans ht')
    exact hle
  | vectorDrawable =>
    exact ⟨c.argbText, Option.map_eq_some_iff.2 ⟨c, h, rfl⟩, Color.ofArgbText?_argbText c,
      fun _ hother => Color.length_argbText_le hother⟩

theorem isShortened_minifyColor (format : Format) (value : String) :
    IsShortened format value (minifyColor format value) := by
  rw [minifyColor]
  cases hc : colorOf? format value with
  | none =>
    rw [shortestColor?_eq_none hc]
    exact ⟨.inl rfl, rfl, fun c hc' => absurd (hc.symm.trans hc') nofun⟩
  | some c =>
    obtain ⟨t, ht, hread, hshortest⟩ := exists_shortestColor? hc
    rw [ht]
    dsimp only
    split
    · next hlt =>
      refine ⟨.inr ⟨hlt, hc ▸ rfl⟩, hread.trans hc.symm, fun c' hc' other hother => ?_⟩
      obtain rfl := Option.some.inj (hc.symm.trans hc')
      exact (Text.length_trim_le t).trans (hshortest other hother)
    · next hnot =>
      refine ⟨.inl rfl, rfl, fun c' hc' other hother => ?_⟩
      obtain rfl := Option.some.inj (hc.symm.trans hc')
      exact (Nat.le_of_not_lt hnot).trans (hshortest other hother)

/-- Nothing becomes of a color a second time. -/
theorem IsShortened.minifyColor_eq {before after : String} (h : IsShortened format before after) :
    minifyColor format after = after := by
  obtain hkept | ⟨hlt, hcolor⟩ := (isShortened_minifyColor format after).kept_or_shorter
  · exact hkept
  · obtain ⟨c, hc⟩ := Option.isSome_iff_exists.1 hcolor
    have hread := (isShortened_minifyColor format after).same_color.trans hc
    have hle := h.shortest c (h.same_color.symm.trans hc) _ hread
    exact absurd (hle.trans (Text.length_trim_le _)) (Nat.not_le_of_lt hlt)

/-! ## Properties and styles -/

/-- What becomes of a property, if it is a color and if it is not. -/
def KeepsProperty (format : Format) (before after : String × String) : Prop :=
  after.1 = before.1
    ∧ if before.1 ∈ colorKeys format then IsShortened format before.2 after.2
      else after.2 = before.2

theorem keepsProperty_minifyProperty (format : Format) (entry : String × String) :
    KeepsProperty format entry (entry.1, minifyProperty format entry.1 entry.2) := by
  refine ⟨rfl, ?_⟩
  dsimp only
  rw [minifyProperty]
  split
  · next hkey =>
    rw [if_pos (List.contains_iff_mem.2 hkey)]
    exact isShortened_minifyColor format entry.2
  · next hkey => rw [if_neg fun h => hkey (List.contains_iff_mem.1 h)]

/-- The shortest form of a color is a value of a declaration. -/
theorem isDeclaration_minifyProperty {d : String × String} (hd : IsDeclaration d) :
    IsDeclaration (d.1, minifyProperty .svg d.1 d.2) := by
  have hvalue : minifyProperty .svg d.1 d.2 = d.2
      ∨ ∃ c : Color, c.svgText? = some (minifyProperty .svg d.1 d.2) := by
    rw [minifyProperty, minifyColor]
    split
    · split
      · next t ht =>
        split
        · obtain ⟨c, -, hc⟩ := Option.bind_eq_some_iff.1 ht
          exact .inr ⟨c, hc⟩
        · exact .inl rfl
      · exact .inl rfl
    · exact .inl rfl
  obtain heq | ⟨c, hc⟩ := hvalue
  · rwa [heq]
  · have hchars := Color.isColorChar_of_svgText? hc
    exact { hd with
      value_whole := fun hmem => absurd (hchars _ hmem) (by decide)
      value_trimmed :=
        Text.trimList_of_forall fun ch hch => Color.isBlank_of_isColorChar (hchars ch hch) }

/-- The declarations of a style stay in their places. -/
theorem declarations_minifyStyle (style : String) :
    declarations (minifyStyle style)
      = (declarations style).map fun d => (d.1, minifyProperty .svg d.1 d.2) := by
  refine declarations_joinDeclarations (List.forall_mem_map.2 fun d hd => ?_)
  exact isDeclaration_minifyProperty (isDeclaration_of_mem hd)

/-! ## Attributes -/

/-- What becomes of an attribute. A style of an SVG element is spelled by its declarations, and each
of them is a property for itself. -/
def KeepsAttribute (format : Format) (before after : String × String) : Prop :=
  if format = .svg ∧ before.1 = "style" then
    after.1 = before.1 ∧ after.2 = joinDeclarations (declarations after.2)
      ∧ List.Forall₂ (KeepsProperty .svg) (declarations before.2) (declarations after.2)
  else KeepsProperty format before after

theorem keepsAttribute_minifyColors (format : Format) (foreign : Attributes) :
    List.Forall₂ (KeepsAttribute format) foreign.toList (minifyColors format foreign).toList := by
  rw [minifyColors, Attributes.mapValues, List.forall₂_map_right_iff]
  refine List.forall₂_same.2 fun entry _ => ?_
  rw [KeepsAttribute]
  dsimp only
  split
  · refine ⟨rfl, ?_, ?_⟩
    · rw [declarations_minifyStyle, minifyStyle]
    · rw [declarations_minifyStyle, List.forall₂_map_right_iff]
      exact List.forall₂_same.2 fun d _ => keepsProperty_minifyProperty .svg d
  · exact keepsProperty_minifyProperty format entry

/-- **Short colors are the same colors.** The text that is written for a color is read as that
color, and no text that is read as the color is shorter. Hence, writing the colors of an element in
their shortest form keeps all attributes and declarations in their places, and the value of each one
as it was or in a shorter text of the same color. -/
theorem color_texts_shortened :
    (∀ s c, Color.ofSvgText? s = some c → ∃ t, c.svgText? = some t ∧ Color.ofSvgText? t = some c
        ∧ t.length ≤ (Text.trim s).length)
      ∧ (∀ s c, Color.ofArgbText? s = some c → Color.ofArgbText? c.argbText = some c
        ∧ c.argbText.length ≤ (Text.trim s).length)
      ∧ ∀ format foreign, List.Forall₂ (KeepsAttribute format) foreign.toList
          (minifyColors format foreign).toList := by
  refine ⟨fun s c h => Color.exists_svgText? h, fun s c h => ?_, keepsAttribute_minifyColors⟩
  exact ⟨Color.ofArgbText?_argbText c, Color.length_argbText_le h⟩

/-- A name that is longer than the digits, and digits with an alpha channel that is not needed. -/
theorem white_texts_shortened :
    Color.ofSvgText? " White" = some ⟨0xff, 0xff, 0xff, 0xff⟩
      ∧ (∃ t, (⟨0xff, 0xff, 0xff, 0xff⟩ : Color).svgText? = some t
        ∧ Color.ofSvgText? t = some ⟨0xff, 0xff, 0xff, 0xff⟩
        ∧ t.length ≤ (Text.trim " White").length)
      ∧ Color.ofArgbText? "#FFffFFff" = some ⟨0xff, 0xff, 0xff, 0xff⟩
      ∧ (⟨0xff, 0xff, 0xff, 0xff⟩ : Color).argbText.length ≤ (Text.trim "#FFffFFff").length := by
  obtain ⟨hsvg, hargb, -⟩ := color_texts_shortened
  have hname : Color.ofSvgText? " White" = some ⟨0xff, 0xff, 0xff, 0xff⟩ := by decide +kernel
  have hdigits : Color.ofArgbText? "#FFffFFff" = some ⟨0xff, 0xff, 0xff, 0xff⟩ := by
    decide +kernel
  exact ⟨hname, hsvg _ _ hname, hdigits, (hargb _ _ hdigits).2⟩

end VectorGraphics.Optimizer
