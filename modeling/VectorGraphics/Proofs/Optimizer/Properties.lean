import VectorGraphics.Proofs.Graphic.Properties
import VectorGraphics.Proofs.Optimizer.Baking

/-!
# Properties that the passes keep

Each way of changing a tree keeps a property of all elements if what is done to the elements one
by one keeps it: traversals, dissolving groups, merging siblings and baking transforms.
-/

namespace VectorGraphics.ElementProperty

open Optimizer

variable {P : ElementProperty}

/-! ## Traversals -/

section Shapes

variable {edit : List Path.Command → List Path.Command}

mutual

theorem Holds.mapShapes (hedit : ∀ {use label commands}, P.shape use label commands →
    P.shape use label (edit commands)) :
    ∀ {e : Element}, P.Holds e → P.Holds (mapShapes edit e)
  | .shape _ _ commands, h => by
    rw [Optimizer.mapShapes, editCommands]
    split
    · exact h
    · exact hedit h
  | .container .., h => ⟨h.1, HoldsAll.mapShapesIn hedit h.2⟩
  | .text _, h => h

theorem HoldsAll.mapShapesIn (hedit : ∀ {use label commands}, P.shape use label commands →
    P.shape use label (edit commands)) :
    ∀ {es : List Element}, P.HoldsAll es → P.HoldsAll (mapShapesIn edit es)
  | [], _ => trivial
  | _ :: _, h => ⟨Holds.mapShapes hedit h.1, HoldsAll.mapShapesIn hedit h.2⟩

end

end Shapes

section Attributes

variable {edit : Scope → Attributes → Attributes}

/-- An edit of attributes keeps a property. -/
structure KeepsAttributes (P : ElementProperty) (edit : Scope → Attributes → Attributes) :
    Prop where
  shape : ∀ {scope use label commands}, P.shape use label commands →
    P.shape use { label with foreign := edit scope label.foreign } commands
  container : ∀ {scope role label}, P.container role label →
    P.container role { label with foreign := edit scope label.foreign }

mutual

theorem Holds.mapAttributes (hedit : KeepsAttributes P edit) :
    ∀ {scope : Scope} {e : Element}, P.Holds e → P.Holds (mapAttributes edit scope e)
  | _, .shape .., h => hedit.shape h
  | _, .container .., h => ⟨hedit.container h.1, HoldsAll.mapAttributesIn hedit h.2⟩
  | _, .text _, h => h

theorem HoldsAll.mapAttributesIn (hedit : KeepsAttributes P edit) :
    ∀ {scope : Scope} {es : List Element}, P.HoldsAll es →
      P.HoldsAll (mapAttributesIn edit scope es)
  | _, [], _ => trivial
  | _, _ :: _, h => ⟨Holds.mapAttributes hedit h.1, HoldsAll.mapAttributesIn hedit h.2⟩

end

end Attributes

section Siblings

variable {isOpen : Role → Bool} {edit : Scope → List Element → Logged (List Element)}

mutual

theorem Holds.mapSiblings
    (hedit : ∀ {scope es}, P.HoldsAll es → P.HoldsAll (edit scope es).value) :
    ∀ {scope : Scope} {e : Element}, P.Holds e → P.Holds (mapSiblings isOpen edit scope e).value
  | _, .shape .., h => h
  | _, .container role _ _, h => by
    rw [Optimizer.mapSiblings]
    split
    · exact ⟨h.1, hedit (HoldsAll.mapSiblingsIn hedit h.2)⟩
    · exact h
  | _, .text _, h => h

theorem HoldsAll.mapSiblingsIn
    (hedit : ∀ {scope es}, P.HoldsAll es → P.HoldsAll (edit scope es).value) :
    ∀ {scope : Scope} {es : List Element}, P.HoldsAll es →
      P.HoldsAll (mapSiblingsIn isOpen edit scope es).value
  | _, [], _ => trivial
  | _, _ :: _, h => ⟨Holds.mapSiblings hedit h.1, HoldsAll.mapSiblingsIn hedit h.2⟩

end

end Siblings

/-! ## Groups -/

theorem HoldsAll.removeEmpty {es : List Element} (h : P.HoldsAll es) :
    P.HoldsAll (removeEmpty es) :=
  h.of_subset fun _ hmem => (List.mem_filter.1 hmem).1

theorem Holds.children {e : Element} {children : List Element} (h : P.Holds e)
    (hchildren : e.children? = some children) : P.HoldsAll children := by
  cases e with
  | container role label es =>
    rw [← Option.some.inj hchildren]
    exact h.2
  | shape use label commands => cases hchildren
  | text content => cases hchildren

theorem Holds.collapseOne {e : Element} (h : P.Holds e) : P.HoldsAll (collapseOne e).value := by
  rw [Optimizer.collapseOne]
  split
  · next children hsome =>
    rw [collapsible?] at hsome
    split at hsome
    · exact h.children (Option.filter_eq_some_iff.1 hsome).1
    · cases hsome
  · exact holdsAll_singleton h

theorem HoldsAll.collapse {es : List Element} (h : P.HoldsAll es) :
    P.HoldsAll (collapse es).value := by
  induction es with
  | nil => trivial
  | cons e es ih => exact (h.1.collapseOne).append (ih h.2)

/-! ## Merging -/

/-- Paths that are drawn as one keep a property. -/
def KeepsJoin (P : ElementProperty) : Prop :=
  ∀ {foreign cs ds}, P.shape .painted { foreign } cs → P.shape .painted { foreign } ds → cs ≠ [] →
    P.shape .painted { foreign } (cs ++ Run.appendable ds)

/-- The property is true of the path that a run becomes. -/
structure HoldsRun (P : ElementProperty) (r : Run) : Prop where
  shape : P.shape .painted { foreign := r.foreign } r.commands
  ne_nil : r.commands ≠ []

theorem Holds.run {format : Format} {scope : Scope} {e : Element} {r : Run} (h : P.Holds e)
    (hr : Run.ofElement? format scope e = some r) : P.HoldsRun r := by
  unfold Run.ofElement? at hr
  split at hr
  · next foreign commands =>
    obtain ⟨box, hbox, rfl⟩ := Option.map_eq_some_iff.1 hr
    refine ⟨h, ?_⟩
    rintro rfl
    cases hbox
  · cases hr

theorem HoldsRun.join (hjoin : P.KeepsJoin) {r s joined : Run} (hr : P.HoldsRun r)
    (hs : P.HoldsRun s) (h : r.join? s = some joined) : P.HoldsRun joined := by
  rw [Run.join?] at h
  split at h
  · next hcondition =>
    obtain rfl := Option.some.inj h
    refine ⟨hjoin hr.shape ?_ hr.ne_nil, List.append_ne_nil_of_left_ne_nil hr.ne_nil _⟩
    rw [hcondition.1]
    exact hs.shape
  · cases h

theorem HoldsAll.mergeFrom (hjoin : P.KeepsJoin) {format : Format} {scope : Scope}
    {current : Option Run} {es : List Element} (hcurrent : ∀ r, current = some r → P.HoldsRun r)
    (h : P.HoldsAll es) : P.HoldsAll (mergeFrom format scope current es) := by
  fun_induction Optimizer.mergeFrom format scope current es with
  | case1 => trivial
  | case2 r => exact holdsAll_singleton (hcurrent r rfl).shape
  | case3 e es hnone ih => exact ⟨h.1, ih nofun h.2⟩
  | case4 e es s hs ih =>
    refine ih (fun r hr => ?_) h.2
    rw [← Option.some.inj hr]
    exact h.1.run hs
  | case5 e es r hnone ih => exact ⟨(hcurrent r rfl).shape, h.1, ih nofun h.2⟩
  | case6 e es r s hs joined hjoined ih =>
    refine ih (fun t ht => ?_) h.2
    rw [← Option.some.inj ht]
    exact (hcurrent r rfl).join hjoin (h.1.run hs) hjoined
  | case7 e es r s hs hnone ih =>
    refine ⟨(hcurrent r rfl).shape, ih (fun t ht => ?_) h.2⟩
    rw [← Option.some.inj ht]
    exact h.1.run hs

theorem HoldsAll.mergeSiblings (hjoin : P.KeepsJoin) {format : Format} {scope : Scope}
    {es : List Element} (h : P.HoldsAll es) :
    P.HoldsAll (mergeSiblings format scope es).value := by
  have hvalue : (Optimizer.mergeSiblings format scope es).value
      = Optimizer.mergeFrom format scope none es := by
    rw [Optimizer.mergeSiblings]
    split <;> rfl
  rw [hvalue]
  exact HoldsAll.mergeFrom hjoin nofun h

/-! ## Baking -/

/-- Baking keeps a property if mapping a path keeps it and, as far as the transforms of groups
matter, the identity is fine and a group may have any transform when all of it is known. -/
structure KeepsBake (P : ElementProperty) (format : Format) (places : UInt8) : Prop where
  shape : ∀ {m scope use label commands}, P.shape use label commands →
    P.shape use { label with foreign := scaleStroke format places m scope label.foreign }
      (Path.mapPath m commands)
  identity : ∀ {t label}, P.container (.group t) label → P.container (.group .identity) label
  resolved : ∀ {t t' label}, hasUnresolvedTransform format label.foreign = false →
    P.container (.group t) label → P.container (.group t') label
  wrapper : ∀ m, P.container (.group m) {}

section Bake

variable {format : Format} {places : UInt8}

theorem KeepsBake.group_none (hkeeps : KeepsBake P format places) {scope : Scope} {t : Matrix}
    {label : Label} {children : List Element} (hcontainer : P.container (.group t) label)
    (hchildren : ∀ {scope handed}, P.HoldsAll (bakeAll format places scope handed children).value) :
    P.Holds (bake format places scope none (.group t label children)).value := by
  rw [bake_group_none]
  refine ⟨?_, hchildren⟩
  rw [keptTransform]
  split
  · exact hkeeps.identity hcontainer
  · exact hcontainer

mutual

theorem Holds.bake (hkeeps : KeepsBake P format places) :
    ∀ {scope : Scope} {handed : Option Matrix} {e : Element}, P.Holds e →
      P.Holds (bake format places scope handed e).value
  | _, none, .shape .., h => h
  | _, some _, .shape .., h => hkeeps.shape h
  | scope, none, .container (.group t) label children, h =>
    hkeeps.group_none h.1 (HoldsAll.bakeAll hkeeps h.2)
  | scope, some m, .container (.group t) label children, h => by
    rw [bake_group_some]
    split
    · exact ⟨hkeeps.wrapper m,
        holdsAll_singleton (hkeeps.group_none h.1 (HoldsAll.bakeAll hkeeps h.2))⟩
    · next hwrapper =>
      have hresolved : hasUnresolvedTransform format label.foreign = false :=
        Bool.eq_false_iff.2 fun hunresolved => hwrapper (needsWrapper_of_unresolved hunresolved)
      exact hkeeps.group_none (hkeeps.resolved hresolved h.1) (HoldsAll.bakeAll hkeeps h.2)
  | _, _, .container .clipGroup _ _, h => ⟨h.1, HoldsAll.bakeAll hkeeps h.2⟩
  | _, _, .container (.extra _) _ _, h => ⟨h.1, HoldsAll.bakeAll hkeeps h.2⟩
  | _, _, .text _, h => h

theorem HoldsAll.bakeAll (hkeeps : KeepsBake P format places) :
    ∀ {scope : Scope} {handed : Option Matrix} {es : List Element}, P.HoldsAll es →
      P.HoldsAll (bakeAll format places scope handed es).value
  | _, _, [], _ => trivial
  | _, _, _ :: _, h => ⟨Holds.bake hkeeps h.1, HoldsAll.bakeAll hkeeps h.2⟩

end

end Bake

end VectorGraphics.ElementProperty
