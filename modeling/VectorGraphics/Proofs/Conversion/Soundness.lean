import VectorGraphics.Conversion.ToVectorDrawable
import VectorGraphics.Proofs.Graphic.Tidiness

/-!
# Conversion keeps graphics sound and tidy

The attributes of a converted graphic have the names of a fixed list, and its paths are those of
the graphic it was made from, some of them mapped. So all that conversion makes is sound and tidy,
whatever attributes there were (`converted`), and what a sound or tidy graphic becomes is sound or
tidy in the other format (`sound_convert`, `tidy_convert`).
-/

namespace VectorGraphics.Conversion

open Markup (IsName)
open ElementProperty

variable {p : String → Prop}

/-! ## Properties -/

/-- What conversion relies on: the paths are paths, and clip groups are in SVG only. -/
def convertible (format : Format) : ElementProperty where
  shape _ _ commands := Path.IsPath commands
  container role _ := role = .clipGroup → format = .svg

/-- What conversion makes. No attribute holds path data or a transform. -/
def converted (format : Format) : ElementProperty where
  shape _ label commands := label.foreign.Keys (IsPathKey format) ∧ Path.IsPath commands
  container role label :=
    label.foreign.Keys (fun key => IsName key ∧ key ∉ format.transformKeys) ∧ IsRole format role

variable {format : Format} {es : List Element}

theorem convertible_of_sound (h : (sound format).HoldsAll es) : (convertible format).HoldsAll es :=
  h.mono (fun h => h.2) fun h hrole => by
    rw [hrole] at h
    exact h.2

theorem convertible_of_tidy (h : (tidy format).HoldsAll es) : (convertible format).HoldsAll es :=
  h.mono (fun h => h.2) fun h hrole => by
    rw [hrole] at h
    exact h

theorem sound_of_converted (h : (converted format).HoldsAll es) : (sound format).HoldsAll es :=
  h.mono id fun h => ⟨h.1.mono fun _ hkey => hkey.1, h.2⟩

theorem tidy_of_converted (h : (converted format).HoldsAll es) : (tidy format).HoldsAll es := by
  refine h.mono (fun h => ⟨h.1.mono fun _ hkey => hkey.2, h.2⟩) fun {role label} h => ?_
  cases role with
  | group m => exact .inr (h.1.mono fun _ hkey => hkey.2)
  | clipGroup => exact h.2
  | extra name => trivial

/-! ## Entries -/

/-- A property has its new name. -/
theorem entries_renamed {get? : String → Option String} {names : List (String × String)}
    (h : ∀ name ∈ names, p name.2) : Entries p (renamed get? names) := by
  intro entry hmem
  obtain ⟨name, hname, hentry⟩ := List.mem_filterMap.1 hmem
  obtain ⟨value, -, rfl⟩ := Option.map_eq_some_iff.1 hentry
  exact h name hname

/-! ## Paint -/

theorem entries_fillEntries {get? : String → Option String} {alpha : Single}
    (c : Option Color) :
    Entries (IsPathKey .vectorDrawable) (fillEntries get? alpha c) := by
  cases c with
  | none => exact entries_nil
  | some c => exact .cons (by decide) _ (entries_ite (.cons (by decide) _ entries_nil))

theorem entries_strokeEntries {get? : String → Option String} {alpha : Single}
    (c : Option Color) :
    Entries (IsPathKey .vectorDrawable) (strokeEntries get? alpha c) := by
  cases c with
  | none => exact entries_nil
  | some c =>
    refine .append (.append (.cons (by decide) _ (.cons (by decide) _ entries_nil)) ?_) ?_
    · exact entries_ite (.cons (by decide) _ entries_nil)
    · exact entries_renamed (by decide)

/-- The paint of a path in a vector drawable. -/
theorem keys_vectorDrawablePaint (scope : Scope) (alpha : Single) (foreign : Attributes) :
    (vectorDrawablePaint scope alpha foreign).value.Keys (IsPathKey .vectorDrawable) := by
  rw [vectorDrawablePaint]
  simp only [Logged.value_bind, Logged.value_pure]
  refine Attributes.keys_ofList
    (.append (.append (entries_fillEntries _) ?_) (entries_strokeEntries _))
  exact entries_ite (.cons (by decide) _ entries_nil)

theorem entries_opacityEntry {key : String} (hkey : p key) (opacity : Single) :
    Entries p (opacityEntry key opacity) :=
  entries_ite (.cons hkey _ entries_nil)

/-- The attributes that a path has in SVG when it comes from a vector drawable. -/
def svgPaintNames : List String :=
  ["fill", "fill-opacity", "fill-rule", "stroke", "stroke-linecap", "stroke-linejoin",
    "stroke-miterlimit", "stroke-opacity", "stroke-width"]

theorem entries_svgFill (fill : Option (String × Single)) :
    Entries (· ∈ svgPaintNames) (svgFill fill) := by
  cases fill with
  | none => exact .cons (by decide) _ entries_nil
  | some paint => exact .cons (by decide) _ (entries_opacityEntry (by decide) _)

theorem entries_svgStroke (foreign : Attributes) (stroke : Option (String × Single)) :
    Entries (· ∈ svgPaintNames) (svgStroke foreign stroke) := by
  cases stroke with
  | none => exact entries_nil
  | some paint =>
    refine .append (.append (.cons (by decide) _ (.cons (by decide) _ entries_nil)) ?_) ?_
    · exact entries_opacityEntry (by decide) _
    · exact entries_renamed (by decide)

/-- The paint of a path in SVG. -/
theorem keys_svgPaint (foreign : Attributes) :
    (svgPaint foreign).value.Keys (· ∈ svgPaintNames) := by
  have hentries (fill stroke : Option (String × Single)) (condition : Prop)
      [Decidable condition] :
      Entries (· ∈ svgPaintNames) (svgFill fill
        ++ (if condition then [("fill-rule", "evenodd")] else []) ++ svgStroke foreign stroke) :=
    .append (.append (entries_svgFill fill) (entries_ite (.cons (by decide) _ entries_nil)))
      (entries_svgStroke foreign stroke)
  exact Attributes.keys_ofList (hentries _ _ _)

/-- The paint of a path in SVG may stand on it. -/
theorem isPathKey_svgPaint (foreign : Attributes) :
    (svgPaint foreign).value.Keys (IsPathKey .svg) :=
  (keys_svgPaint foreign).mono (by decide)

/-! ## Clip paths -/

mutual

/-- The clip paths that an element becomes. -/
theorem holdsAll_clipShapes : ∀ {m : Matrix} {e : Element}, (convertible .svg).Holds e →
    (converted .vectorDrawable).HoldsAll (clipShapes m e).value
  | _, .shape .., h => holdsAll_singleton ⟨Attributes.keys_empty, Path.IsPath.mapPath h _⟩
  | _, .container (.group _) _ _, h => holdsAll_clipShapesOf h.2
  | _, .container .clipGroup _ _, _ => trivial
  | _, .container (.extra _) _ _, _ => trivial
  | _, .text _, _ => trivial

theorem holdsAll_clipShapesOf : ∀ {m : Matrix} {es : List Element},
    (convertible .svg).HoldsAll es → (converted .vectorDrawable).HoldsAll (clipShapesOf m es).value
  | _, [], _ => trivial
  | _, _ :: _, h => (holdsAll_clipShapes h.1).append (holdsAll_clipShapesOf h.2)

end

/-- The contents of some clip paths can be converted. -/
def ConvertibleClips (clips : List (String × List Element)) : Prop :=
  ∀ entry ∈ clips, (convertible .svg).HoldsAll entry.2

theorem convertibleClips_clipDefinitions {es : List Element} (h : (convertible .svg).HoldsAll es) :
    ConvertibleClips (clipDefinitions es) := by
  intro entry hmem
  obtain ⟨e, he, hentry⟩ := List.mem_filterMap.1 hmem
  have hinside := holdsAll_iff.1 h.descendants e he
  split at hentry
  · rw [← Option.some.inj hentry]
    exact hinside.2
  · cases hentry

theorem holdsAll_clipOf {clips : List (String × List Element)} (hclips : ConvertibleClips clips)
    {foreign : Attributes} {shapes : List Element}
    (h : (clipOf clips foreign).value = some shapes) :
    (converted .vectorDrawable).HoldsAll shapes := by
  rw [clipOf] at h
  split at h
  · cases h
  · split at h
    · next contents hcontents =>
      rw [← Option.some.inj h]
      rw [findClip?] at hcontents
      obtain ⟨entry, hentry, rfl⟩ := Option.map_eq_some_iff.1 hcontents
      exact holdsAll_clipShapesOf (hclips entry (List.mem_filter.1 (List.mem_of_getLast? hentry)).1)
    · cases h

/-! ## Elements -/

theorem holds_shape {format : Format} {use : Use} {id : Option String} {foreign : Attributes}
    {commands : List Path.Command} (hkeys : foreign.Keys (IsPathKey format))
    (hpath : Path.IsPath commands) :
    (converted format).Holds (.shape use { id, foreign } commands) :=
  ⟨hkeys, hpath⟩

theorem holds_wrap (m : Matrix) {format : Format} {es : List Element}
    (h : (converted format).HoldsAll es) : (converted format).Holds (.wrap m es) :=
  ⟨⟨Attributes.keys_empty, trivial⟩, h⟩

theorem holds_clipped {clip : Option (List Element)} {path : Element}
    (hclip : ∀ shapes, clip = some shapes → (converted .vectorDrawable).HoldsAll shapes)
    (h : (converted .vectorDrawable).Holds path) :
    (converted .vectorDrawable).Holds (clipped clip path) := by
  cases clip with
  | none => exact h
  | some shapes => exact holds_wrap _ ((hclip shapes rfl).append (holdsAll_singleton h))

theorem holds_transformed {foreign : Attributes} {path : Element}
    (h : (converted .vectorDrawable).Holds path) :
    (converted .vectorDrawable).Holds (transformed foreign path).value := by
  rw [transformed]
  split
  · exact h
  · split
    · exact holds_wrap _ (holdsAll_singleton h)
    · exact h

theorem value_vectorDrawableElement_group (clips : List (String × List Element)) (scope : Scope)
    (alpha : Single) (m : Matrix) (label : Label) (children : List Element) :
    (vectorDrawableElement clips scope alpha (.group m label children)).value
      = [.group m { id := label.id } ((clipOf clips label.foreign).value.getD []
          ++ (vectorDrawableElements clips (scope.enter label.foreign)
            (alpha * ownOpacity label.foreign) children).value)] := by
  rw [vectorDrawableElement]
  split <;> rfl

theorem value_vectorDrawableElement_painted (clips : List (String × List Element)) (scope : Scope)
    (alpha : Single) (label : Label) (commands : List Path.Command) :
    (vectorDrawableElement clips scope alpha (.shape .painted label commands)).value
      = [(transformed label.foreign (clipped (clipOf clips label.foreign).value
          (.shape .painted
            { label with foreign := (vectorDrawablePaint scope alpha label.foreign).value }
            commands))).value] := by
  rw [vectorDrawableElement]
  rfl

mutual

/-- What an element of SVG becomes. -/
theorem holdsAll_vectorDrawableElement {clips : List (String × List Element)}
    (hclips : ConvertibleClips clips) : ∀ (scope : Scope) (alpha : Single) {e : Element},
    (convertible .svg).Holds e →
      (converted .vectorDrawable).HoldsAll (vectorDrawableElement clips scope alpha e).value
  | scope, alpha, .container (.group m) label children, h => by
    have hclip : (converted .vectorDrawable).HoldsAll
        ((clipOf clips label.foreign).value.getD []) := by
      cases hshapes : (clipOf clips label.foreign).value with
      | none => trivial
      | some shapes => exact holdsAll_clipOf hclips hshapes
    rw [value_vectorDrawableElement_group]
    exact holdsAll_singleton ⟨⟨Attributes.keys_empty, trivial⟩,
      hclip.append (holdsAll_vectorDrawableElements hclips _ _ h.2)⟩
  | scope, alpha, .shape .painted label commands, h => by
    have hkeys := keys_vectorDrawablePaint scope alpha label.foreign
    rw [value_vectorDrawableElement_painted]
    refine holdsAll_singleton (holds_transformed (holds_clipped (fun shapes hshapes => ?_) ?_))
    · exact holdsAll_clipOf hclips hshapes
    · exact holds_shape hkeys h
  | _, _, .shape .clipping _ _, h => holdsAll_singleton ⟨Attributes.keys_empty, h⟩
  | _, _, .container (.extra _) _ _, _ => trivial
  | _, _, .container .clipGroup _ _, _ => trivial
  | _, _, .text _, _ => trivial

theorem holdsAll_vectorDrawableElements {clips : List (String × List Element)}
    (hclips : ConvertibleClips clips) : ∀ (scope : Scope) (alpha : Single) {es : List Element},
    (convertible .svg).HoldsAll es →
      (converted .vectorDrawable).HoldsAll (vectorDrawableElements clips scope alpha es).value
  | _, _, [], _ => trivial
  | scope, alpha, e :: es, h => by
    have hfront := holdsAll_vectorDrawableElement hclips scope alpha h.1
    have hrest := holdsAll_vectorDrawableElements hclips scope alpha h.2
    rw [vectorDrawableElements]
    exact hfront.append hrest

end

theorem holds_clipDefinition {id : String} {commands : List Path.Command}
    (h : Path.IsPath commands) : (converted .svg).Holds (clipDefinition id commands) :=
  ⟨⟨Attributes.keys_empty, rfl⟩, holdsAll_singleton ⟨Attributes.keys_empty, h⟩⟩

theorem holds_clippedBy {id : String} {es : List Element} (h : (converted .svg).HoldsAll es) :
    (converted .svg).Holds (clippedBy id es) :=
  ⟨⟨Attributes.keys_ofList (.cons (by decide) _ entries_nil), trivial⟩, h⟩

mutual

/-- What elements of a vector drawable become. -/
theorem holdsAll_svgElements : ∀ {n : Nat} {es : List Element},
    (convertible .vectorDrawable).HoldsAll es →
      (converted .svg).HoldsAll (svgElements n es).value.1
  | _, [], _ => trivial
  | n, .shape .clipping label commands :: es, h => by
    rw [svgElements]
    exact ⟨holds_clipDefinition h.1,
      holdsAll_singleton (holds_clippedBy (holdsAll_svgElements h.2))⟩
  | n, .shape .painted label commands :: es, h => by
    rw [svgElements]
    · exact (holdsAll_svgElement h.1).append (holdsAll_svgElements h.2)
    · nofun
  | n, .container role label children :: es, h => by
    rw [svgElements]
    · exact (holdsAll_svgElement h.1).append (holdsAll_svgElements h.2)
    · nofun
  | n, .text content :: es, h => by
    rw [svgElements]
    · exact (holdsAll_svgElement h.1).append (holdsAll_svgElements h.2)
    · nofun

theorem holdsAll_svgElement : ∀ {n : Nat} {e : Element},
    (convertible .vectorDrawable).Holds e → (converted .svg).HoldsAll (svgElement n e).value.1
  | n, .container (.group m) label children, h => by
    rw [svgElement]
    exact holdsAll_singleton ⟨⟨Attributes.keys_empty, trivial⟩, holdsAll_svgElements h.2⟩
  | n, .shape use label commands, h => by
    rw [svgElement]
    exact holdsAll_singleton (holds_shape (isPathKey_svgPaint label.foreign) h)
  | _, .container .clipGroup label children, h => nomatch h.1 rfl
  | n, .container (.extra name) label children, h => by
    rw [svgElement]
    trivial
  | n, .text content, h => by
    rw [svgElement]
    trivial

end

/-! ## Graphics -/

theorem keys_vectorDrawableRoot (foreign : Attributes) :
    (vectorDrawableRoot foreign).Keys IsName :=
  Attributes.keys_ofList (.cons (by decide) _ (.cons (by decide) _ (.cons (by decide) _
    (.cons (by decide) _ (.cons (by decide) _ entries_nil)))))

/-- The attributes that the root has in SVG when it comes from a vector drawable. -/
def svgRootNames : List String := ["height", "opacity", "viewBox", "width", "xmlns"]

theorem entries_viewBoxEntry (foreign : Attributes) :
    Entries (· ∈ svgRootNames) (viewBoxEntry foreign) := by
  rw [viewBoxEntry]
  split
  · exact .cons (by decide) _ entries_nil
  · exact entries_nil

theorem entries_sizeEntry (foreign : Attributes) (source : String) {target : String}
    (h : p target) : Entries p (sizeEntry foreign source target) := by
  rw [sizeEntry]
  split
  · exact .cons h _ entries_nil
  · exact entries_nil

/-- The attributes of the root in SVG. -/
theorem keys_svgRoot (foreign : Attributes) : (svgRoot foreign).Keys (· ∈ svgRootNames) := by
  have hopacity : Entries (· ∈ svgRootNames)
      (((sizeOf? foreign "android:alpha").map (opacityEntry "opacity")).getD []) := by
    cases sizeOf? foreign "android:alpha" with
    | none => exact entries_nil
    | some alpha => exact entries_opacityEntry (by decide) alpha
  refine Attributes.keys_ofList
    (.append (.append (.append (.cons (by decide) _ ?_) ?_) ?_) hopacity)
  · exact entries_viewBoxEntry foreign
  · exact entries_sizeEntry foreign _ (by decide)
  · exact entries_sizeEntry foreign _ (by decide)

/-- The elements of a graphic that is converted to a vector drawable. -/
theorem converted_svgToVectorDrawable {g : Graphic} (h : (convertible .svg).HoldsAll g.children) :
    (converted .vectorDrawable).HoldsAll (svgToVectorDrawable g).value.children := by
  have hchildren := holdsAll_vectorDrawableElements (convertibleClips_clipDefinitions h)
    (Scope.enter {} g.label.foreign) (ownOpacity g.label.foreign) h
  rw [svgToVectorDrawable]
  simp only [Logged.value_bind, Logged.value_pure]
  split
  · exact hchildren
  · exact holdsAll_singleton (holds_wrap _ hchildren)

/-- The elements of a graphic that is converted to SVG. -/
theorem converted_vectorDrawableToSvg {g : Graphic}
    (h : (convertible .vectorDrawable).HoldsAll g.children) :
    (converted .svg).HoldsAll (vectorDrawableToSvg g).value.children :=
  holdsAll_svgElements h

/-- A graphic that is converted has the format that was asked for. -/
theorem format_convert (target : Format) (g : Graphic) :
    (convert target g).value.format = target := by
  rw [convert.eq_def]
  split
  · rfl
  · rfl
  · next hformat => exact hformat
  · next hformat => exact hformat

/-- What a sound graphic is converted to is sound and has the format that was asked for. -/
theorem sound_convert {g : Graphic} (h : g.Sound) (target : Format) :
    (convert target g).value.Sound ∧ (convert target g).value.format = target := by
  refine ⟨?_, format_convert target g⟩
  have hconvertible := convertible_of_sound h.children
  rw [convert.eq_def]
  split
  · next hformat =>
    rw [hformat] at hconvertible
    exact ⟨keys_vectorDrawableRoot _,
      sound_of_converted (converted_svgToVectorDrawable hconvertible)⟩
  · next hformat =>
    rw [hformat] at hconvertible
    exact ⟨(keys_svgRoot _).mono (by decide),
      sound_of_converted (converted_vectorDrawableToSvg hconvertible)⟩
  · exact h
  · exact h

/-- What a tidy graphic is converted to is tidy. -/
theorem tidy_convert {g : Graphic} (h : g.Tidy) (target : Format) :
    (convert target g).value.Tidy := by
  have hconvertible := convertible_of_tidy h
  rw [convert.eq_def]
  split
  · next hformat =>
    rw [hformat] at hconvertible
    exact tidy_of_converted (converted_svgToVectorDrawable hconvertible)
  · next hformat =>
    rw [hformat] at hconvertible
    exact tidy_of_converted (converted_vectorDrawableToSvg hconvertible)
  · exact h
  · exact h

end VectorGraphics.Conversion
