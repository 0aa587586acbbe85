import VectorGraphics.Proofs.Graphic.Tidiness
import VectorGraphics.Proofs.Optimizer.Properties

/-!
# Optimizing keeps graphics sound and tidy

A property of elements that rewriting paths, editing attributes, joining paths and baking transforms
keep is kept by every pass (`Pass.holdsAll_apply`). Being sound and being tidy are such properties,
and no pass leaves the format of a graphic (`sound_optimize`).
-/

namespace VectorGraphics.Optimizer

open ElementProperty

/-! ## Attributes -/

section Attributes

variable {format : Format} {scope : Scope} {p : String → Prop} {foreign : Attributes}

theorem keys_removeDefaults (hstyle : p "style") (h : foreign.Keys p) :
    (removeDefaults format scope foreign).Keys p := by
  refine Attributes.Keys.filter ?_ _
  cases format with
  | vectorDrawable => exact h
  | svg =>
    dsimp only
    rw [removeFromStyle]
    split
    · exact h
    · split
      · exact h.filter _
      · exact h.insert hstyle _

theorem keys_minifyColors (h : foreign.Keys p) : (minifyColors format foreign).Keys p :=
  h.mapValues _

theorem keys_scaleStroke {places : UInt8} {m : Matrix} (hwidth : p format.strokeWidthKey)
    (h : foreign.Keys p) : (scaleStroke format places m scope foreign).Keys p := by
  rw [scaleStroke]
  split
  · exact h
  · split
    · exact h
    · split
      · exact h
      · exact h.insertSome hwidth _

end Attributes

/-! ## Properties that passes keep -/

/-- What the passes do to single elements keeps a property. -/
structure KeepsPasses (P : ElementProperty) (format : Format) : Prop where
  paths : ∀ {edit : List Path.Command → List Path.Command},
    (∀ {cs}, Path.IsPath cs → Path.IsPath (edit cs)) →
    ∀ {use label commands}, P.shape use label commands → P.shape use label (edit commands)
  removeDefaults : KeepsAttributes P (removeDefaults format)
  minifyColors : KeepsAttributes P fun _ => minifyColors format
  join : KeepsJoin P
  bake : ∀ places, KeepsBake P format places

/-- Every pass keeps such a property. -/
theorem Pass.holdsAll_apply {P : ElementProperty} {g : Graphic} (hkeeps : KeepsPasses P g.format)
    (h : P.HoldsAll g.children) (o : Options) (p : Pass) :
    P.HoldsAll (p.apply o g).value.children := by
  cases p with
  | bakeTransforms => exact h.bakeAll (hkeeps.bake o.places)
  | splitGroups => exact h.mapShapesIn (hkeeps.paths (·.splitGroups))
  | simplifyCurves => exact h.mapShapesIn (hkeeps.paths (·.simplifyCurves _ _))
  | convertToArcs => exact h.mapShapesIn (hkeeps.paths (·.convertToArcs _ _))
  | alignLines => exact h.mapShapesIn (hkeeps.paths (·.alignLines _))
  | chooseModes => exact h.mapShapesIn (hkeeps.paths (·.chooseModes _))
  | dropRepeated => exact h.mapShapesIn (hkeeps.paths (·.dropRepeated))
  | removeDefaults => exact h.mapAttributesIn hkeeps.removeDefaults
  | minifyColors => exact h.mapAttributesIn hkeeps.minifyColors
  | mergePaths => exact (h.mapSiblingsIn (·.mergeSiblings hkeeps.join)).mergeSiblings hkeeps.join
  | removeEmptyGroups => exact (h.mapSiblingsIn (·.removeEmpty)).removeEmpty
  | collapseGroups => exact (h.mapSiblingsIn (·.collapse)).collapse

theorem format_apply (o : Options) (g : Graphic) (p : Pass) :
    (p.apply o g).value.format = g.format := by
  cases p <;> rfl

/-- Paths that are drawn as one begin with a move. -/
theorem isPath_append_appendable {cs ds : List Path.Command} (h : Path.IsPath cs)
    (h' : Path.IsPath ds) (hne : cs ≠ []) : Path.IsPath (cs ++ Run.appendable ds) := by
  refine h.append hne ?_
  cases ds with
  | nil => nofun
  | cons d ds =>
    obtain ⟨hd, hds⟩ := List.forall_mem_cons.1 h'.hasGroups
    exact List.forall_mem_cons.2 ⟨(Path.standsFor_inMode d _ _).hasGroups hd, hds⟩

/-! ## Soundness -/

theorem keepsPasses_sound (format : Format) : KeepsPasses (sound format) format where
  paths hedit _ _ _ h := ⟨h.1, hedit h.2⟩
  removeDefaults :=
    { shape := fun h => ⟨keys_removeDefaults (by cases format <;> decide) h.1, h.2⟩
      container := fun h => ⟨keys_removeDefaults (by decide) h.1, h.2⟩ }
  minifyColors :=
    { shape := fun h => ⟨keys_minifyColors h.1, h.2⟩
      container := fun h => ⟨keys_minifyColors h.1, h.2⟩ }
  join h h' hne := ⟨h.1, isPath_append_appendable h.2 h'.2 hne⟩
  bake _ :=
    { shape := fun h => ⟨keys_scaleStroke (by cases format <;> decide) h.1, h.2.mapPath _⟩
      identity := fun h => ⟨h.1, trivial⟩
      resolved := fun _ h => ⟨h.1, trivial⟩
      wrapper := fun _ => ⟨Attributes.keys_empty, trivial⟩ }

/-- Every pass keeps graphics sound. -/
theorem Pass.sound_apply {g : Graphic} (h : g.Sound) (o : Options) (p : Pass) :
    (p.apply o g).value.Sound := by
  refine ⟨?_, ?_⟩
  · cases p with
    | removeDefaults => exact keys_removeDefaults (by decide) h.root
    | minifyColors => exact keys_minifyColors h.root
    | _ => exact h.root
  · rw [format_apply]
    exact Pass.holdsAll_apply (keepsPasses_sound g.format) h.children o p

/-- Optimizing keeps the format, and keeps graphics sound. -/
theorem sound_optimize {g : Graphic} (h : g.Sound) (o : Options) :
    (optimize o g).value.Sound ∧ (optimize o g).value.format = g.format := by
  have go (ps : List Pass) (g : Graphic) (h : g.Sound) :
      (ps.foldlM (Pass.run o) g).value.Sound
        ∧ (ps.foldlM (Pass.run o) g).value.format = g.format := by
    induction ps generalizing g with
    | nil => exact ⟨h, rfl⟩
    | cons p ps ih =>
      obtain ⟨hsound, hformat⟩ := ih _ (Pass.sound_apply h o p)
      rw [List.foldlM_cons]
      exact ⟨hsound, hformat.trans (format_apply o g p)⟩
  exact go (pipeline o) g h

/-! ## Tidiness -/

theorem hasOneTransform_mono {format : Format} {foreign foreign' : Attributes}
    (hkeys : foreign.Keys (· ∉ format.transformKeys) → foreign'.Keys (· ∉ format.transformKeys))
    {role : Role} (h : HasOneTransform format foreign role) :
    HasOneTransform format foreign' role := by
  cases role with
  | group m => exact h.imp_right hkeys
  | clipGroup | extra => exact h

/-- A known transform is not left among the attributes. -/
theorem keys_of_resolved {format : Format} {foreign : Attributes}
    (h : hasUnresolvedTransform format foreign = false) :
    foreign.Keys (· ∉ format.transformKeys) := by
  intro entry hmem hkey
  rw [hasUnresolvedTransform, List.any_eq_false] at h
  exact h entry.1 hkey (List.any_eq_true.2 ⟨entry, hmem, decide_eq_true rfl⟩)

theorem keepsPasses_tidy (format : Format) : KeepsPasses (tidy format) format where
  paths hedit _ _ _ h := ⟨h.1, hedit h.2⟩
  removeDefaults :=
    { shape := fun h => ⟨keys_removeDefaults (by cases format <;> decide) h.1, h.2⟩
      container := hasOneTransform_mono (keys_removeDefaults (by cases format <;> decide)) }
  minifyColors :=
    { shape := fun h => ⟨keys_minifyColors h.1, h.2⟩
      container := hasOneTransform_mono keys_minifyColors }
  join h h' hne := ⟨h.1, isPath_append_appendable h.2 h'.2 hne⟩
  bake _ :=
    { shape := fun h => ⟨keys_scaleStroke (by cases format <;> decide) h.1, h.2.mapPath _⟩
      identity := fun _ => .inl rfl
      resolved := fun hresolved _ => .inr (keys_of_resolved hresolved)
      wrapper := fun _ => .inr Attributes.keys_empty }

/-- Every pass keeps graphics tidy. -/
theorem Pass.tidy_apply {g : Graphic} (h : g.Tidy) (o : Options) (p : Pass) :
    (p.apply o g).value.Tidy := by
  rw [Graphic.Tidy, format_apply]
  exact Pass.holdsAll_apply (keepsPasses_tidy g.format) h o p

end VectorGraphics.Optimizer
