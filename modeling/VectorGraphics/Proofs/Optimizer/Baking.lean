import VectorGraphics.Optimizer.Pass
import VectorGraphics.Proofs.Optimizer.Chains

/-!
# Baking applies every transform once

Baking moves the transforms of groups towards the paths inside. This module shows that none is
lost, doubled or moved past another one.

* `bakeAll_keeps`: every path, text and unreadable container stays in place, and the factors of
  the chain above it are those from before; a path that was mapped has taken the last of them.
* `bake_handed`: an element that is handed a transform is baked as if it had taken the transform
  before, by `receive`.
* `bake_group_all_or_nothing`: a group stays as it is, or all its children take its transform.
* `bakeTransforms_applies_each_transform_once` is the result about the pass.
-/

namespace VectorGraphics.Optimizer

variable {format : Format} {places : UInt8} {scope : Scope}

/-! ## Handing down -/

/-- A group hands nothing down when there is an obstacle. -/
theorem obstacle_of_handsDown {t : Matrix} {label : Label} {children : List Element}
    (h : (handsDown format scope t label children).value = true) :
    obstacle? format scope t label.foreign children = none := by
  rw [handsDown] at h
  split at h
  · cases h
  · split at h
    · cases h
    · next hnone => exact hnone

theorem resolved_of_handsDown {t : Matrix} {label : Label} {children : List Element}
    (h : (handsDown format scope t label children).value = true) :
    hasUnresolvedTransform format label.foreign = false := by
  have hnone := obstacle_of_handsDown h
  rw [obstacle?] at hnone
  split at hnone
  · cases hnone
  · next hresolved => exact Bool.eq_false_iff.2 hresolved

theorem childObstacle_of_handsDown {t : Matrix} {label : Label} {children : List Element}
    (h : (handsDown format scope t label children).value = true) :
    ∀ e ∈ children, childObstacle? format t (scope.enter label.foreign) e = none := by
  have hnone := obstacle_of_handsDown h
  rw [obstacle?] at hnone
  split at hnone
  · cases hnone
  · split at hnone
    · cases hnone
    · exact List.findSome?_eq_none_iff.1 hnone

theorem needsWrapper_of_unresolved {m t : Matrix} {foreign : Attributes}
    (h : hasUnresolvedTransform format foreign = true) :
    needsWrapper format m t foreign = true := by
  rw [needsWrapper, h, Bool.true_or]

/-! ## Baking a container -/

/-- A group that is handed nothing decides about its own transform. -/
theorem bake_group_none (t : Matrix) (label : Label) (children : List Element) :
    bake format places scope none (.group t label children) = (do
      let down ← handsDown format scope t label children
      let children ← bakeAll format places (scope.enter label.foreign)
        (if down then some t else none) children
      return .group (keptTransform t down) label children) := by
  rfl

/-- A group that is handed a transform is wrapped, or decides about the product. -/
theorem bake_group_some (m t : Matrix) (label : Label) (children : List Element) :
    bake format places scope (some m) (.group t label children) =
      if needsWrapper format m t label.foreign then
        (fun g => .wrap m [g]) <$> bake format places scope none (.group t label children)
      else bake format places scope none (.group (m * t) label children) := by
  cases h : needsWrapper format m t label.foreign with
  | true => simp [bake, Option.filter, h]
  | false => simp [bake, Option.filter, h]

/-! ## Sites after baking -/

/-- How baking leaves a site: the factors of its chain are the same, and a path that is mapped
takes the last one. -/
inductive Keeps (format : Format) (places : UInt8) : Site → Site → Prop
  | unmapped {before after : List Link} (node : Node) :
    Folds before after → Keeps format places ⟨before, node⟩ ⟨after, node⟩
  | mapped {before after : List Link} (m : Matrix) (scope : Scope) (use : Use) (label : Label)
      (commands : List Path.Command) :
    Folds before (after ++ [.factor m]) →
    Keeps format places ⟨before, .shape use label commands⟩
      ⟨after, .shape use
        { label with foreign := scaleStroke format places m scope label.foreign }
        (Path.mapPath m commands)⟩

/-- The chains above an element before and after baking, with the transform that the element is
handed as a product of the innermost factors. -/
def Pending (before after : List Link) : Option Matrix → Prop
  | none => Folds before after
  | some m => ∃ outer ms, before = outer ++ ms.map .factor ∧ Folds outer after ∧ IsProduct ms m

theorem Pending.folds {before after : List Link} {m : Matrix}
    (h : Pending before after (some m)) : Folds before (after ++ [.factor m]) := by
  obtain ⟨outer, ms, rfl, hfolds, hm⟩ := h
  exact hfolds.append (.product hm)

/-- A group that is handed a transform multiplies its own to it. -/
theorem Pending.mul {before after : List Link} {m : Matrix} (h : Pending before after (some m))
    (t : Matrix) : Pending (before ++ [.factor t]) after (some (m * t)) := by
  obtain ⟨outer, ms, rfl, hfolds, hm⟩ := h
  refine ⟨outer, ms ++ [t], ?_, hfolds, hm.mul (.single t)⟩
  rw [List.map_append, List.map_singleton, List.append_assoc]

/-- The chains inside a group whose transform `t` is the product of the innermost factors: it is
handed down and the identity is left, or it stays. -/
theorem Pending.enter {before after : List Link} {t : Matrix}
    (h : Pending before after (some t)) (down : Bool) :
    Pending before (after ++ [.factor (keptTransform t down)])
      (if down then some t else none) := by
  cases down with
  | false => exact h.folds
  | true =>
    obtain ⟨outer, ms, rfl, hfolds, ht⟩ := h
    refine ⟨outer, ms, rfl, ?_, ht⟩
    have folds := hfolds.append (.identity .nil)
    rwa [List.append_nil] at folds

/-- Baking keeps the sites of some siblings, whatever chains they are below and whatever they are
handed, as long as none of them stands in its way. -/
def KeepsAll (format : Format) (places : UInt8) (es : List Element) : Prop :=
  ∀ scope handed before after, Pending before after handed →
    (∀ m, handed = some m → ∀ e ∈ es, childObstacle? format m scope e = none) →
    List.Forall₂ (Keeps format places) (sitesOfAll format before es)
      (sitesOfAll format after (bakeAll format places scope handed es).value)

variable {children : List Element} {label : Label} {before after : List Link}

/-- A container that is a link as a whole keeps its place, and its children are handed nothing. -/
theorem KeepsAll.whole (h : KeepsAll format places children) (role : Role)
    (hwhole : isWhole format role label = true) (hfolds : Folds before after) (scope : Scope) :
    List.Forall₂ (Keeps format places) (sites format before (.container role label children))
      (sites format after
        (.container role label (bakeAll format places scope none children).value)) := by
  rw [sites_container_of_whole hwhole, sites_container_of_whole hwhole]
  refine .cons (.unmapped _ hfolds) (h scope none _ _ (hfolds.snoc _) ?_)
  intro m hm
  cases hm

/-- A group whose transform can be read and is the product of the innermost factors. -/
theorem KeepsAll.resolved (h : KeepsAll format places children)
    (hresolved : hasUnresolvedTransform format label.foreign = false) {t : Matrix}
    (hpending : Pending before after (some t)) (scope : Scope) :
    List.Forall₂ (Keeps format places) (sitesOfAll format before children)
      (sites format after (bake format places scope none (.group t label children)).value) := by
  rw [bake_group_none]
  simp only [Logged.value_bind, Logged.value_pure]
  rw [sites_group_of_resolved hresolved]
  refine h _ _ _ _ (hpending.enter _) fun m hm => ?_
  split at hm
  · next hdown =>
    cases hm
    exact childObstacle_of_handsDown hdown
  · cases hm

/-- A group that is handed nothing. -/
theorem KeepsAll.group (h : KeepsAll format places children) (hfolds : Folds before after)
    (t : Matrix) (scope : Scope) :
    List.Forall₂ (Keeps format places) (sites format before (.group t label children))
      (sites format after (bake format places scope none (.group t label children)).value) := by
  cases hresolved : hasUnresolvedTransform format label.foreign with
  | false =>
    rw [sites_group_of_resolved hresolved]
    exact h.resolved hresolved ⟨before, [t], rfl, hfolds, .single t⟩ scope
  | true =>
    have hdown : (handsDown format scope t label children).value = false := by
      refine Bool.eq_false_iff.2 fun hdown => ?_
      rw [resolved_of_handsDown hdown] at hresolved
      cases hresolved
    rw [bake_group_none]
    simp only [Logged.value_bind, Logged.value_pure, hdown]
    exact h.whole (.group t) hresolved hfolds _

/-- A group that is handed a transform. -/
theorem KeepsAll.group_handed (h : KeepsAll format places children) {m : Matrix}
    (hpending : Pending before after (some m)) (t : Matrix) (scope : Scope) :
    List.Forall₂ (Keeps format places) (sites format before (.group t label children))
      (sites format after
        (bake format places scope (some m) (.group t label children)).value) := by
  rw [bake_group_some]
  split
  · rw [Logged.value_map, sites_wrap]
    exact h.group hpending.folds t scope
  · next hwrapper =>
    have hresolved : hasUnresolvedTransform format label.foreign = false :=
      Bool.eq_false_iff.2 fun hunresolved => hwrapper (needsWrapper_of_unresolved hunresolved)
    rw [sites_group_of_resolved hresolved]
    exact h.resolved hresolved (hpending.mul t) scope

mutual

/-- Baking keeps the sites of an element. The transform it is handed is the product of the
innermost factors above it. -/
theorem bake_keeps (scope : Scope) (handed : Option Matrix) {before after : List Link}
    (hpending : Pending before after handed) :
    ∀ e, (∀ m, handed = some m → childObstacle? format m scope e = none) →
      List.Forall₂ (Keeps format places) (sites format before e)
        (sites format after (bake format places scope handed e).value)
  | .shape use label commands, _ => by
    cases handed with
    | none => exact .cons (.unmapped _ hpending) .nil
    | some m => exact .cons (.mapped m scope use label commands hpending.folds) .nil
  | .container role label children, hobstacle => by
    have ih : KeepsAll format places children := fun scope handed _ _ hpending =>
      bakeAll_keeps scope handed hpending children
    cases handed with
    | none =>
      cases role with
      | group t => exact ih.group hpending t scope
      | clipGroup => exact ih.whole _ rfl hpending _
      | extra name => exact ih.whole _ rfl hpending _
    | some m =>
      cases role with
      | group t => exact ih.group_handed hpending t scope
      | clipGroup => cases hobstacle m rfl
      | extra name => cases hobstacle m rfl
  | .text content, hobstacle => by
    cases handed with
    | none => exact .cons (.unmapped _ hpending) .nil
    | some m => cases hobstacle m rfl

/-- Baking keeps the sites of siblings. -/
theorem bakeAll_keeps (scope : Scope) (handed : Option Matrix) {before after : List Link}
    (hpending : Pending before after handed) :
    ∀ es, (∀ m, handed = some m → ∀ e ∈ es, childObstacle? format m scope e = none) →
      List.Forall₂ (Keeps format places) (sitesOfAll format before es)
        (sitesOfAll format after (bakeAll format places scope handed es).value)
  | [], _ => .nil
  | e :: es, hobstacle => by
    have head := bake_keeps scope handed hpending e
      fun m hm => hobstacle m hm e List.mem_cons_self
    have tail := bakeAll_keeps scope handed hpending es
      fun m hm e he => hobstacle m hm e (List.mem_cons_of_mem _ he)
    exact List.rel_append head tail

end

/-! ## All or nothing -/

/-- What becomes of a child that takes the transform of its group. -/
def receive (format : Format) (places : UInt8) (scope : Scope) (m : Matrix) : Element → Element
  | .shape use label commands =>
    .shape use { label with foreign := scaleStroke format places m scope label.foreign }
      (Path.mapPath m commands)
  | .container (.group t) label children =>
    if needsWrapper format m t label.foreign then .wrap m [.group t label children]
    else .group (m * t) label children
  | e => e

/-- The ways in which a child takes the transform of its group. -/
inductive Takes (format : Format) (places : UInt8) (scope : Scope) (m : Matrix) :
    Element → Element → Prop
  | mapped (use : Use) (label : Label) (commands : List Path.Command) :
    Takes format places scope m (.shape use label commands)
      (.shape use { label with foreign := scaleStroke format places m scope label.foreign }
        (Path.mapPath m commands))
  | composed {t : Matrix} {label : Label} (children : List Element) :
    needsWrapper format m t label.foreign = false →
    Takes format places scope m (.group t label children) (.group (m * t) label children)
  | wrapped {t : Matrix} {label : Label} (children : List Element) :
    needsWrapper format m t label.foreign = true →
    Takes format places scope m (.group t label children) (.wrap m [.group t label children])

/-- A child that is no obstacle takes the transform. -/
theorem takes_receive {m : Matrix} {e : Element}
    (h : childObstacle? format m scope e = none) :
    Takes format places scope m e (receive format places scope m e) := by
  cases e with
  | shape use label commands => exact .mapped use label commands
  | text content => cases h
  | container role label children =>
    cases role with
    | clipGroup => cases h
    | extra name => cases h
    | group t =>
      rw [receive]
      split
      · next hwrapper => exact .wrapped children hwrapper
      · next hwrapper => exact .composed children (Bool.eq_false_iff.2 hwrapper)

/-- A wrapper hands nothing down, as its only child would be wrapped again. -/
theorem handsDown_wrapper {m t : Matrix} (h : needsWrapper format m t label.foreign = true) :
    handsDown format scope m {} [.group t label children] = pure false := by
  have hresolved : hasUnresolvedTransform format (∅ : Attributes) = false := by
    cases format <;> rfl
  have hreference : hasReference (∅ : Attributes) = false := rfl
  have hnone : obstacle? format scope m (∅ : Attributes) [.group t label children] = none := by
    simp [obstacle?, hresolved, hreference, childObstacle?]
  rw [handsDown, hnone]
  simp [absorbs, h]

/-- An element that is handed a transform is baked as if it had taken it before. -/
theorem bake_handed (m : Matrix) (e : Element) :
    bake format places scope (some m) e
      = bake format places scope none (receive format places scope m e) := by
  cases e with
  | shape use label commands => rfl
  | text content => rfl
  | container role label children =>
    cases role with
    | clipGroup => rfl
    | extra name => rfl
    | group t =>
      rw [bake_group_some, receive]
      split
      · next hwrapper =>
        rw [Element.wrap, bake_group_none m, handsDown_wrapper hwrapper]
        simp [bakeAll, keptTransform, Element.wrap]
      · rfl

theorem bakeAll_handed (m : Matrix) (es : List Element) :
    bakeAll format places scope (some m) es
      = bakeAll format places scope none (es.map (receive format places scope m)) := by
  induction es with
  | nil => rfl
  | cons e es ih => rw [bakeAll, bake_handed, ih, List.map_cons, bakeAll]

/-- Baking goes on inside a group that is as it was, or that is left with the identity after all
its children took its transform. -/
theorem bake_group_all_or_nothing (t : Matrix) (label : Label) (children : List Element) :
    (bake format places scope none (.group t label children)).value
        = .group t label
          (bakeAll format places (scope.enter label.foreign) none children).value ∨
      ∃ taken, List.Forall₂ (Takes format places (scope.enter label.foreign) t) children taken ∧
        (bake format places scope none (.group t label children)).value
          = .group .identity label
            (bakeAll format places (scope.enter label.foreign) none taken).value := by
  rw [bake_group_none]
  simp only [Logged.value_bind, Logged.value_pure]
  cases hdown : (handsDown format scope t label children).value with
  | false => exact .inl rfl
  | true =>
    refine .inr ⟨children.map (receive format places (scope.enter label.foreign) t), ?_, ?_⟩
    · refine List.forall₂_map_right_iff.2 (List.forall₂_same.2 fun e he => ?_)
      exact takes_receive (childObstacle_of_handsDown hdown e he)
    · rw [← bakeAll_handed]
      rfl

/-! ## The pass -/

/-- Baking applies every transform exactly once: all paths stay in order with their identifiers,
and the factors above a path, with the matrix that it is mapped by as the last one, are the
factors that were above it before, between the same unreadable ones. A group keeps its transform,
or all its children take it. -/
theorem bakeTransforms_applies_each_transform_once (o : Options) (g : Graphic) :
    ((Pass.run o g .bakeTransforms).value.format = g.format ∧
      (Pass.run o g .bakeTransforms).value.label = g.label ∧
      List.Forall₂ (Keeps g.format o.places) (sitesOfAll g.format [] g.children)
        (sitesOfAll g.format [] (Pass.run o g .bakeTransforms).value.children)) ∧
    ∀ format places scope,
      (∀ above es, List.Forall₂ (Keeps format places) (sitesOfAll format above es)
        (sitesOfAll format above (bakeAll format places scope none es).value)) ∧
      ∀ t label children,
        (bake format places scope none (.group t label children)).value
            = .group t label
              (bakeAll format places (scope.enter label.foreign) none children).value ∨
          ∃ taken,
            List.Forall₂ (Takes format places (scope.enter label.foreign) t) children taken ∧
            (bake format places scope none (.group t label children)).value
              = .group .identity label
                (bakeAll format places (scope.enter label.foreign) none taken).value := by
  have keeps (format : Format) (places : UInt8) (scope : Scope) (above : List Link)
      (es : List Element) : List.Forall₂ (Keeps format places) (sitesOfAll format above es)
        (sitesOfAll format above (bakeAll format places scope none es).value) :=
    bakeAll_keeps scope none (.refl above) es fun m hm => by cases hm
  exact ⟨⟨rfl, rfl, keeps g.format o.places _ [] g.children⟩, fun format places scope =>
    ⟨keeps format places scope, bake_group_all_or_nothing⟩⟩

end VectorGraphics.Optimizer
