import VectorGraphics.Optimizer.Pass
import VectorGraphics.Proofs.Optimizer.Baking
import VectorGraphics.Proofs.Optimizer.Flattening
import VectorGraphics.Proofs.Optimizer.Merging
import VectorGraphics.Proofs.Optimizer.Switches

/-!
# What passes do to switches

Every pass acts on each switch of a graphic by an effect on its alternatives, and on what is around
the switch in a way that does not depend on them. The effect is an edit of each alternative by
itself (`follows_oneByOne`), except when paths are merged: then the alternatives are merged like
siblings that are drawn one after another (`follows_merging`).

What is around a switch may depend on the other children of a container, as when baking asks whether
a child is in the way, but never on what is inside these (`handsDown_congr`, `collapsible?_congr`,
`isEmptyGroup_congr`, `ofElement?_congr`).
-/

namespace VectorGraphics.Optimizer

variable {format : Format} {scope : Scope}

mutual

theorem actsOnOne_singleton {P : Effect} (hP : ∀ scope, P scope id) (scope : Scope) :
    ∀ e : Element, ActsOnOne P (fun e => [e]) scope e
  | .container _ label children =>
    actsOnOne_container _ _ rfl (fun _ => hP _) (actsOn_id hP (scope.enter label.foreign) children)
      fun _ _ => rfl
  | .shape .. | .text _ => fun _ => .nil

theorem actsOn_id {P : Effect} (hP : ∀ scope, P scope id) (scope : Scope) :
    ∀ es : List Element, ActsOn P id scope es
  | [] => .nil rfl
  | e :: es => .cons (actsOnOne_singleton hP scope e) (actsOn_id hP scope es) fun _ _ _ => rfl

end

mutual

theorem actsOnOne_mapShapes (edit : List Path.Command → List Path.Command) (scope : Scope) :
    ∀ e : Element, ActsOnOne oneByOne (fun e => [mapShapes edit e]) scope e
  | .container _ _ children =>
    actsOnOne_container _ _ rfl (fun _ => ⟨mapShapes edit, funext (mapShapesIn_eq_map edit)⟩)
      (actsOn_mapShapesIn edit _ children) fun _ _ => rfl
  | .shape .. | .text _ => fun _ => .nil

theorem actsOn_mapShapesIn (edit : List Path.Command → List Path.Command) (scope : Scope) :
    ∀ es : List Element, ActsOn oneByOne (mapShapesIn edit) scope es
  | [] => .nil rfl
  | e :: es =>
    .cons (actsOnOne_mapShapes edit scope e) (actsOn_mapShapesIn edit scope es) fun _ _ _ => rfl

end

mutual

theorem actsOnOne_mapAttributes (edit : Scope → Attributes → Attributes) (inner scope : Scope) :
    ∀ e : Element, ActsOnOne oneByOne (fun e => [mapAttributes edit inner e]) scope e
  | .container _ _ children =>
    actsOnOne_container _ _ rfl
      (fun _ => ⟨mapAttributes edit _, funext (mapAttributesIn_eq_map edit _)⟩)
      (actsOn_mapAttributesIn edit _ _ children) fun _ _ => rfl
  | .shape .. | .text _ => fun _ => .nil

theorem actsOn_mapAttributesIn (edit : Scope → Attributes → Attributes) (inner scope : Scope) :
    ∀ es : List Element, ActsOn oneByOne (mapAttributesIn edit inner) scope es
  | [] => .nil rfl
  | e :: es =>
    .cons (actsOnOne_mapAttributes edit inner scope e) (actsOn_mapAttributesIn edit inner scope es)
      fun _ _ _ => rfl

end

/-! ## Baking -/

/-- What stands in the way of handing a transform down does not lie inside the children. -/
theorem handsDown_congr {t : Matrix} {label : Label} {es es' : List Element}
    (h : es.map bare = es'.map bare) :
    handsDown format scope t label es = handsDown format scope t label es' := by
  have hbare (es : List Element) :
      handsDown format scope t label es = handsDown format scope t label (es.map bare) := by
    have hobstacle : childObstacle? format t (scope.enter label.foreign) ∘ bare
        = childObstacle? format t (scope.enter label.foreign) := by
      funext e
      rcases e with ⟨_ | _ | _, _, _⟩ | _ | _ <;> rfl
    have habsorbs : absorbs format t ∘ bare = absorbs format t := by
      funext e
      rcases e with ⟨_ | _ | _, _, _⟩ | _ | _ <;> rfl
    simp only [handsDown, obstacle?, List.isEmpty_map, List.findSome?_map, List.any_map,
      hobstacle, habsorbs]
  rw [hbare, h, ← hbare]

theorem oneByOne_bakeAll (places : UInt8) (scope : Scope) (handed : Option Matrix) :
    oneByOne scope fun es => (bakeAll format places scope handed es).value := by
  refine ⟨fun e => (bake format places scope handed e).value, funext fun es => ?_⟩
  induction es with
  | nil => rfl
  | cons e es ih => exact congrArg ((bake format places scope handed e).value :: ·) ih

/-- A group that is changed like one that is handed nothing when transforms are baked. -/
theorem actsOnOne_of_bake_none {places : UInt8} {t : Matrix} {label : Label}
    {children : List Element} {one : Element → List Element} (t' : Matrix)
    (hchildren : ∀ handed, ActsOn oneByOne
      (fun es => (bakeAll format places (scope.enter label.foreign) handed es).value)
      (scope.enter label.foreign) children)
    (hone : ∀ es, one (.group t label es)
      = [(bake format places scope none (.group t' label es)).value]) :
    ActsOnOne oneByOne one scope (.group t label children) := by
  let down := (handsDown format scope t' label children).value
  refine actsOnOne_container (.group (keptTransform t' down)) label rfl nofun
    (hchildren (if down then some t' else none)) fun es hes => ?_
  rw [hone, bake_group_none, handsDown_congr (hes rfl)]
  rfl

/-- A group that is changed and then wrapped. -/
theorem ActsOnOne.wrap {P : Effect} {one one' : Element → List Element} {t : Matrix}
    {label : Label} {children : List Element} (m : Matrix)
    (h : ActsOnOne P one scope (.group t label children))
    (hone : ∀ es, one' (.group t label es) = [.wrap m (one (.group t label es))]) :
    ActsOnOne P one' scope (.group t label children) := by
  intro after
  have hwrap : switchesIn after (one' (.group t label children))
      = (switchesIn (after.enter ∅) (one (.group t label children))).map
          (.within fun es => [.wrap m es]) := by
    rw [hone, switchesIn_singleton]
    exact List.map_map
  rw [hwrap, ← List.map_id (switches scope _)]
  refine forall₂_within id _ (h _) fun s hs es => ?_
  obtain ⟨t, -, rfl⟩ := List.mem_map.1 hs
  exact hone (t.replace es)

mutual

theorem actsOnOne_bake (places : UInt8) (scope : Scope) (handed : Option Matrix) :
    ∀ e : Element, ActsOnOne oneByOne (fun e => [(bake format places scope handed e).value]) scope e
  | .container (.group t) label children => by
    have hchildren (handed : Option Matrix) :=
      actsOn_bakeAll places (scope.enter label.foreign) handed children
    cases handed with
    | none => exact actsOnOne_of_bake_none t hchildren fun _ => rfl
    | some m =>
      cases hwrapper : needsWrapper format m t label.foreign with
      | true =>
        have hgroup : ActsOnOne oneByOne (fun e => [(bake format places scope none e).value]) scope
            (.group t label children) := actsOnOne_of_bake_none t hchildren fun _ => rfl
        refine hgroup.wrap m fun es => ?_
        rw [bake_group_some, if_pos hwrapper]
        rfl
      | false =>
        refine actsOnOne_of_bake_none (m * t) hchildren fun es => ?_
        rw [bake_group_some, if_neg (Bool.eq_false_iff.1 hwrapper)]
  | .container (.extra _) label children =>
    actsOnOne_container _ _ rfl (fun _ => oneByOne_bakeAll ..)
      (actsOn_bakeAll places (scope.enter label.foreign) none children) fun _ _ => rfl
  | .container .clipGroup label children =>
    actsOnOne_container _ _ rfl nofun
      (actsOn_bakeAll places (scope.enter label.foreign) none children) fun _ _ => rfl
  | .shape .. => by
    cases handed <;> exact fun _ => .nil
  | .text _ => fun _ => .nil

theorem actsOn_bakeAll (places : UInt8) (scope : Scope) (handed : Option Matrix) :
    ∀ es : List Element,
      ActsOn oneByOne (fun es => (bakeAll format places scope handed es).value) scope es
  | [] => .nil rfl
  | e :: es =>
    .cons (actsOnOne_bake places scope handed e) (actsOn_bakeAll places scope handed es)
      fun _ _ _ => rfl

end

/-! ## Edits of sibling lists -/

theorem isClipPath_bare (e : Element) : isClipPath (bare e) = isClipPath e := by
  cases e <;> rfl

theorem isEmpty_congr {es es' : List Element} (h : es.map bare = es'.map bare) :
    es.isEmpty = es'.isEmpty := by
  rw [← List.isEmpty_map, h, List.isEmpty_map]

theorem hasAttributes?_congr (role : Role) (label : Label) (es es' : List Element) :
    (Element.container role label es).hasAttributes?
      = (Element.container role label es').hasAttributes? := by
  cases role <;> rfl

theorem isEmptyGroup_congr {role : Role} {label : Label} {es es' : List Element}
    (h : es.map bare = es'.map bare) :
    isEmptyGroup (.container role label es) = isEmptyGroup (.container role label es') := by
  rw [isEmptyGroup, isEmptyGroup, hasAttributes?_congr role label es es', Element.children?,
    Element.children?, Option.any_some, Option.any_some, isEmpty_congr h]

/-- Whether a group is replaced by its children does not depend on what is inside these. -/
theorem collapsible?_congr {role : Role} {label : Label} {es es' : List Element}
    (h : es.map bare = es'.map bare) :
    collapsible? (.container role label es)
      = (collapsible? (.container role label es')).map fun _ => es := by
  have hclip (es : List Element) : es.any isClipPath = (es.map bare).any isClipPath := by
    rw [List.any_map]
    exact congrArg es.any (funext fun e => (isClipPath_bare e).symm)
  rw [collapsible?, collapsible?, hasAttributes?_congr role label es es']
  split
  · simp only [Element.children?, Option.filter_some, isEmpty_congr h, hclip es, h, ← hclip es']
    split <;> rfl
  · rfl

/-- Replacing groups by their children leaves the switches inside them as they are. -/
theorem actsOn_collapse (scope : Scope) (es : List Element) :
    ActsOn untouched (fun es => (collapse es).value) scope es := by
  have hchildren (scope : Scope) (es : List Element) : ActsOn untouched id scope es :=
    actsOn_id (P := untouched) (fun _ => rfl) scope es
  induction es with
  | nil => exact .nil rfl
  | cons e es ih =>
    refine .cons ?_ ih fun e' es' _ => value_collapse_cons e' es'
    cases e with
    | container role label children =>
      cases hsome : collapsible? (.container role label children) with
      | some dissolved =>
        obtain ⟨_, _, heq, hplain, -⟩ := collapsible?_eq_some_iff.1 hsome
        obtain ⟨rfl, rfl, rfl⟩ := Element.container.inj heq
        intro after
        beta_reduce
        rw [hsome, Option.getD_some, switches, if_pos (isSequence_of_isPlainGroup hplain),
          List.nil_append, ← List.map_id (switchesIn after children)]
        refine forall₂_within _ id (hchildren _ children after) fun s hs es => ?_
        rw [collapsible?_congr (map_bare_replace s hs es), hsome]
        rfl
      | none =>
        refine actsOnOne_container role label rfl (fun _ => rfl) (hchildren _ children)
          fun es hes => ?_
        cases role with
        | group | clipGroup =>
          rw [collapsible?_congr (hes rfl), hsome]
          rfl
        | extra => rfl
    | shape | text => exact fun _ => .nil

/-- Dropping empty groups leaves switches as they are. -/
theorem actsOn_removeEmpty (scope : Scope) (es : List Element) :
    ActsOn untouched removeEmpty scope es := by
  induction es with
  | nil => exact .nil rfl
  | cons e es ih =>
    suffices he : ActsOnOne untouched (fun e => removeEmpty [e]) scope e from
      .cons he ih fun e' es' _ => List.filter_append [e'] es'
    cases e with
    | container role label children =>
      cases hempty : isEmptyGroup (.container role label children) with
      | true =>
        obtain ⟨_, _, heq, hplain⟩ := isEmptyGroup_iff.1 hempty
        obtain ⟨rfl, rfl, rfl⟩ := Element.container.inj heq
        intro after
        have hdropped : removeEmpty [.container role label []] = [] := by
          rw [removeEmpty, List.filter_cons, hempty]
          rfl
        beta_reduce
        rw [hdropped, switches, if_pos (isSequence_of_isPlainGroup hplain)]
        exact .nil
      | false =>
        refine actsOnOne_container role label rfl (fun _ => rfl)
          (actsOn_id (P := untouched) (fun _ => rfl) _ children) fun es hes => ?_
        have hkept : isEmptyGroup (.container role label es) = false := by
          cases role with
          | group | clipGroup => rwa [isEmptyGroup_congr (hes rfl)]
          | extra => rfl
        rw [removeEmpty, List.filter_cons, hkept]
        rfl
    | shape | text => exact fun _ => .nil

theorem ofElement?_bare (e : Element) :
    Run.ofElement? format scope (bare e) = Run.ofElement? format scope e := by
  cases e <;> rfl

theorem ofElement?_congr {e e' : Element} (h : bare e' = bare e) :
    Run.ofElement? format scope e' = Run.ofElement? format scope e := by
  rw [← ofElement?_bare, h, ofElement?_bare]

/-- A path that can be merged has no switches. -/
theorem actsOnOne_of_ofElement? {P : Effect} {e : Element} {r : Run} (one : List Element)
    (h : Run.ofElement? format scope e = some r) (hone : ∀ after, switchesIn after one = []) :
    ActsOnOne P (fun _ => one) scope e := by
  obtain ⟨rfl, -⟩ := Run.ofElement?_eq_some h
  intro after
  rw [hone]
  exact .nil

/-- Merging leaves the switches between the merged paths as they are. -/
theorem actsOn_mergeFrom (current : Option Run) (scope : Scope) (es : List Element) :
    ActsOn untouched (mergeFrom format scope current) scope es := by
  fun_induction mergeFrom format scope current es with
  | case1 => exact .nil rfl
  | case2 r => exact fun _ => .nil
  | case3 e es hnone ih =>
    refine .cons (actsOnOne_singleton (P := untouched) (fun _ => rfl) scope e) ih
      fun e' es' he' => ?_
    simp only [mergeFrom, ofElement?_congr he', hnone]
    rfl
  | case4 e es s hs ih =>
    refine .cons (actsOnOne_of_ofElement? [] hs fun _ => rfl) ih fun e' es' he' => ?_
    simp only [mergeFrom, ofElement?_congr he', hs]
    rfl
  | case5 e es r hnone ih =>
    have he : ActsOnOne untouched (fun e => [r.element, e]) scope e := by
      intro after
      have hsame := actsOnOne_singleton (P := untouched) (fun _ => rfl) scope e after
      rw [← List.map_id (switches scope e)]
      exact forall₂_within id (r.element :: ·) hsame fun _ _ _ => rfl
    refine .cons he ih fun e' es' he' => ?_
    simp only [mergeFrom, ofElement?_congr he', hnone]
    rfl
  | case6 e es r s hs joined hjoined ih =>
    refine .cons (actsOnOne_of_ofElement? [] hs fun _ => rfl) ih fun e' es' he' => ?_
    simp only [mergeFrom, ofElement?_congr he', hs, hjoined]
    rfl
  | case7 e es r s hs hnone ih =>
    refine .cons (actsOnOne_of_ofElement? [r.element] hs fun _ => rfl) ih
      fun e' es' he' => ?_
    simp only [mergeFrom, ofElement?_congr he', hs, hnone]
    rfl

section

variable {P : Effect} {isOpen : Role → Bool} {edit : Scope → List Element → Logged (List Element)}

/-- The siblings that come in place of some siblings when sibling lists are edited, those inside
them first. -/
def editIn (isOpen : Role → Bool) (edit : Scope → List Element → Logged (List Element))
    (scope : Scope) (es : List Element) : List Element :=
  (edit scope (mapSiblingsIn isOpen edit scope es).value).value

/-- Editing sibling lists acts on switches with the effects `P`: the edit leaves the switches among
the siblings alone, an open switch is edited with one of these effects, and what is in a closed
container may stay as it is. -/
structure EditActs (P : Effect) (isOpen : Role → Bool)
    (edit : Scope → List Element → Logged (List Element)) : Prop where
  edited : ∀ scope es, ActsOn untouched (fun es => (edit scope es).value) scope es
  opened : ∀ role scope, isSequence role = false → isOpen role = true →
    P scope (editIn isOpen edit scope)
  closed : ∀ role scope, isOpen role = false → P scope id

theorem EditActs.editIn (h : EditActs P isOpen edit) {es : List Element}
    (hes : ActsOn P (fun es => (mapSiblingsIn isOpen edit scope es).value) scope es) :
    ActsOn P (editIn isOpen edit scope) scope es := hes.comp (h.edited scope _)

mutual

theorem actsOnOne_mapSiblings (h : EditActs P isOpen edit) (scope : Scope) :
    ∀ e : Element, ActsOnOne P (fun e => [(mapSiblings isOpen edit scope e).value]) scope e
  | .container role label children => by
    cases hrole : isOpen role with
    | true =>
      refine actsOnOne_container role label rfl (h.opened role _ · hrole)
        (h.editIn (actsOn_mapSiblingsIn h (scope.enter label.foreign) children)) fun es _ => ?_
      rw [mapSiblings, if_pos hrole]
      rfl
    | false =>
      have hchildren := actsOn_id (h.closed role · hrole) (scope.enter label.foreign) children
      refine actsOnOne_container role label rfl (fun _ => h.closed role _ hrole) hchildren
        fun es _ => ?_
      rw [mapSiblings, if_neg (Bool.eq_false_iff.1 hrole)]
      rfl
  | .shape .. | .text _ => fun _ => .nil

theorem actsOn_mapSiblingsIn (h : EditActs P isOpen edit) (scope : Scope) :
    ∀ es : List Element, ActsOn P (fun es => (mapSiblingsIn isOpen edit scope es).value) scope es
  | [] => .nil rfl
  | e :: es =>
    .cons (actsOnOne_mapSiblings h scope e) (actsOn_mapSiblingsIn h scope es) fun _ _ _ => rfl

end

theorem EditActs.actsOn_editIn (h : EditActs P isOpen edit) (scope : Scope) (es : List Element) :
    ActsOn P (Optimizer.editIn isOpen edit scope) scope es :=
  h.editIn (actsOn_mapSiblingsIn h scope es)

end

/-! ## Passes -/

theorem forall₂_switches {P : Effect} {F : List Element → List Element} {G : Graphic → Graphic}
    {g : Graphic} (label : Label)
    (h : ActsOn P F (Scope.enter {} g.label.foreign) g.children)
    (hG : ∀ es, G { g with children := es } = { g with label, children := F es }) :
    List.Forall₂ (Follows P G) g.switches (G g).switches := by
  have hchildren : G g = { g with label, children := F g.children } := hG g.children
  rw [hchildren]
  exact forall₂_within _ _ (h _) fun s _ es => hG (s.replace es)

theorem forall₂_mapGraphicAttributes {g : Graphic}
    (edit : Format → Scope → Attributes → Attributes) :
    List.Forall₂ (Follows oneByOne fun g : Graphic => mapGraphicAttributes (edit g.format) g)
      g.switches (mapGraphicAttributes (edit g.format) g).switches :=
  forall₂_switches { g.label with foreign := edit g.format {} g.label.foreign }
    (actsOn_mapAttributesIn (edit g.format)
      (Scope.enter {} (edit g.format {} g.label.foreign)) _ g.children) fun _ => rfl

/-- Merging, as an effect on alternatives. -/
def merging (format : Format) : Effect :=
  fun scope f => f = editIn (fun _ => true) (mergeSiblings format) scope

theorem editActs_merging : EditActs (merging format) (fun _ => true) (mergeSiblings format) where
  edited := fun scope es => by
    simp only [value_mergeSiblings]
    exact actsOn_mergeFrom none scope es
  opened := fun _ _ _ _ => rfl
  closed := nofun

theorem editActs_of_isSequence {edit : Scope → List Element → Logged (List Element)}
    (h : ∀ scope es, ActsOn untouched (fun es => (edit scope es).value) scope es) :
    EditActs oneByOne isSequence edit where
  edited := h
  opened := fun _ _ hswitch hopen => absurd (hopen.symm.trans hswitch) Bool.noConfusion
  closed := fun _ _ _ => ⟨id, List.map_id_fun.symm⟩

/-- Every pass but merging changes alternatives one by one. -/
theorem follows_oneByOne (o : Options) (p : Pass) (g : Graphic) (hp : p ≠ .mergePaths) :
    List.Forall₂ (Follows oneByOne fun g => (p.run o g).value) g.switches
      (p.run o g).value.switches := by
  cases p with
  | mergePaths => exact absurd rfl hp
  | bakeTransforms =>
    exact forall₂_switches _ (actsOn_bakeAll o.places _ none g.children) fun _ => rfl
  | removeDefaults => exact forall₂_mapGraphicAttributes fun format => removeDefaults format
  | minifyColors => exact forall₂_mapGraphicAttributes fun format _ => minifyColors format
  | removeEmptyGroups =>
    have hedit : EditActs oneByOne isSequence fun _ es => pure (removeEmpty es) :=
      editActs_of_isSequence actsOn_removeEmpty
    exact forall₂_switches _ (hedit.actsOn_editIn _ g.children) fun _ => rfl
  | collapseGroups =>
    exact forall₂_switches _ ((editActs_of_isSequence actsOn_collapse).actsOn_editIn _ g.children)
      fun _ => rfl
  | _ => exact forall₂_switches _ (actsOn_mapShapesIn _ _ g.children) fun _ => rfl

theorem follows_merging (o : Options) (g : Graphic) :
    List.Forall₂ (Follows (merging g.format) fun g => (Pass.mergePaths.run o g).value) g.switches
      (Pass.mergePaths.run o g).value.switches :=
  forall₂_switches _ (editActs_merging.actsOn_editIn _ g.children) fun _ => rfl

end VectorGraphics.Optimizer
