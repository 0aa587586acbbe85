import VectorGraphics.Graphic.Document
import VectorGraphics.Proofs.Graphic.Outcomes
import VectorGraphics.Proofs.Optimizer.Flattening

/-!
# What clip paths reach

A clip path clips the painted paths in the later siblings of its list. Dissolving a group puts its
children into the list around it, where more may follow, so that a group with a clip path stays.
But a clip path whose path data refers to a resource is kept under its name like any other element,
and a group with only such clip paths is dissolved.

`clipReaches` lists, clip path by clip path, the numbers of the painted paths that are clipped.
`collapseGroups_keeps_clipReaches_iff` shows that dissolving groups keeps it exactly if no clip path
comes to stand in a list in which painted paths follow its group (`confinesIn`).
-/

namespace VectorGraphics.Optimizer

open Element.descendants (descendantsOfAll)
open Reading

/-! ## Painted paths and clip paths -/

/-- Whether an element is a path that is painted. -/
def isPainted : Element → Bool
  | .shape .painted _ _ => true
  | _ => false

/-- Whether an element clips what follows it: a clip path, or what is kept under the name of one. -/
def isClip : Element → Bool
  | .shape .clipping _ _ => true
  | .container (.extra name) _ _ => name = "clip-path"
  | _ => false

/-- How many painted paths there are in an element. -/
def paths (e : Element) : ℕ := e.descendants.countP isPainted

/-- How many painted paths there are in some elements. -/
def pathsIn (es : List Element) : ℕ := (descendantsOfAll es).countP isPainted

theorem pathsIn_cons (e : Element) (es : List Element) :
    pathsIn (e :: es) = paths e + pathsIn es := List.countP_append

theorem paths_container (role : Role) (label : Label) (children : List Element) :
    paths (.container role label children) = pathsIn children := List.countP_cons

theorem pathsIn_append (es fs : List Element) : pathsIn (es ++ fs) = pathsIn es + pathsIn fs := by
  simp only [pathsIn, Element.descendantsOfAll_eq_flatMap, List.flatMap_append, List.countP_append]

mutual

/-- The numbers of the painted paths that each clip path inside an element clips, where `start`
painted paths come before. -/
def reaches (start : ℕ) : Element → List (List ℕ)
  | .container _ _ children => reachesIn start 0 children
  | _ => []

/-- The numbers of the painted paths that each clip path among some siblings and inside them clips,
where `start` painted paths come before, and further siblings with `follow` painted paths after. -/
def reachesIn (start follow : ℕ) : List Element → List (List ℕ)
  | [] => []
  | e :: es =>
    -- The paths of the siblings after `e` have the next numbers after those inside `e`.
    (if isClip e then [List.range' (start + paths e) (pathsIn es + follow)] else [])
      ++ reaches start e ++ reachesIn (start + paths e) follow es

end

/-- The numbers of the painted paths that each clip path of a graphic clips, where clip paths and
painted paths are taken in document order. -/
def clipReaches (g : Graphic) : List (List ℕ) := reachesIn 0 0 g.children

/-! ## Reaches in a list -/

theorem reachesIn_append (start follow : ℕ) (es fs : List Element) :
    reachesIn start follow (es ++ fs)
      = reachesIn start (pathsIn fs + follow) es ++ reachesIn (start + pathsIn es) follow fs := by
  induction es generalizing start with
  | nil => rfl
  | cons e es ih =>
    simp only [List.cons_append, reachesIn, ih, pathsIn_append, pathsIn_cons, List.append_assoc,
      Nat.add_assoc]

theorem reachesIn_singleton (start follow : ℕ) (e : Element) :
    reachesIn start follow [e]
      = (if isClip e then [List.range' (start + paths e) follow] else []) ++ reaches start e := by
  rw [reachesIn, reachesIn, List.append_nil, show pathsIn [] + follow = follow from Nat.zero_add _]

mutual

theorem length_reaches (start : ℕ) (e : Element) :
    (reaches start e).length + (if isClip e then 1 else 0) = e.descendants.countP isClip := by
  cases e with
  | container role label children =>
    rw [reaches, length_reachesIn, Element.descendants, List.countP_cons]
  | shape use label commands => cases use <;> rfl
  | text content => rfl

/-- Every clip path has its reach. -/
theorem length_reachesIn (start follow : ℕ) (es : List Element) :
    (reachesIn start follow es).length = (descendantsOfAll es).countP isClip := by
  cases es with
  | nil => rfl
  | cons e es =>
    rw [reachesIn, List.length_append, List.length_append, length_reachesIn, descendantsOfAll,
      List.countP_append, ← length_reaches start e]
    split <;> simp [Nat.add_comm]

end

/-- An element in place of another keeps all reaches, if no more follows or it is no clip path, and
if those inside are kept. -/
theorem reachesIn_singleton_eq_iff {x e : Element} (hclip : isClip x = isClip e)
    (hpaths : paths x = paths e) (start rest follow : ℕ) :
    reachesIn start (rest + follow) [x] = reachesIn start rest [e]
      ↔ (isClip e = true → follow = 0) ∧ reaches start x = reaches start e := by
  rw [reachesIn_singleton, reachesIn_singleton, hclip, hpaths]
  by_cases h : isClip e = true
  · rw [if_pos h, if_pos h, List.singleton_append, List.singleton_append, List.cons.injEq]
    refine and_congr_left' ⟨fun heq _ => ?_, fun hfollow => by rw [hfollow h, Nat.add_zero]⟩
    have hlength := congrArg List.length heq
    rw [List.length_range', List.length_range'] at hlength
    omega
  · simp [h]

/-! ## Dissolving groups -/

/-- The elements that come in place of an element when groups are dissolved. -/
def dissolve (scope : Scope) (e : Element) : List Element :=
  (collapseOne (mapSiblings isSequence (fun _ => collapse) scope e).value).value

section

variable (scope : Scope)

theorem dissolveIn_cons (e : Element) (es : List Element) :
    dissolveIn scope (e :: es) = dissolve scope e ++ dissolveIn scope es := rfl

theorem sightingsIn_dissolve (around : List (Role × Label)) (e : Element) :
    sightingsIn around (dissolve scope e) = sightingsIn around [e] := by
  rw [← sightingsIn_dissolveIn scope around [e], dissolveIn_cons]
  exact congrArg _ (List.append_nil _).symm

/-- Dissolving groups brings no clip path with path data into a list. -/
theorem any_isClipPath_dissolveIn (es : List Element) :
    (dissolveIn scope es).any isClipPath = es.any isClipPath := by
  induction es with
  | nil => rfl
  | cons e es ih =>
    rw [dissolveIn_cons, List.any_append, ih, List.any_cons]
    congr 1
    have hinside : isClipPath (mapSiblings isSequence (fun _ => collapse) scope e).value
        = isClipPath e := by
      cases e with
      | container role label children =>
        rw [value_mapSiblings_collapse]
        split <;> rfl
      | shape use label commands => rfl
      | text content => rfl
    rw [dissolve, value_collapseOne, ← hinside]
    cases hsome : collapsible? (mapSiblings isSequence (fun _ => collapse) scope e).value with
    | none => simp
    | some children =>
      obtain ⟨role, label, heq, -, -, hclip⟩ := collapsible?_eq_some_iff.1 hsome
      rw [Option.getD_some, heq, hclip]
      rfl

/-- Whether a group is dissolved does not depend on what happens inside it. -/
theorem collapsible?_mapSiblings_collapse (role : Role) (label : Label) (children : List Element) :
    collapsible? (mapSiblings isSequence (fun _ => collapse) scope
        (.container role label children)).value
      = (collapsible? (.container role label children)).map
          fun _ => dissolveIn (scope.enter label.foreign) children := by
  rw [value_mapSiblings_collapse]
  cases hplain : isPlainGroup role label with
  | false =>
    have hnone (es : List Element) : collapsible? (.container role label es) = none := by
      rw [collapsible?, if_neg]
      rw [hasAttributes?_container, hplain]
      exact Bool.false_ne_true
    split <;> simp only [hnone, Option.map_none]
  | true =>
    have hempty : (dissolveIn (scope.enter label.foreign) children).isEmpty = children.isEmpty := by
      rw [Bool.eq_iff_iff, List.isEmpty_iff, List.isEmpty_iff, dissolveIn_eq_nil_iff]
    rw [if_pos (isSequence_of_isPlainGroup hplain), collapsible?, collapsible?,
      if_pos ((hasAttributes?_container ..).2 hplain),
      if_pos ((hasAttributes?_container ..).2 hplain)]
    change ((some (dissolveIn (scope.enter label.foreign) children)).filter _)
      = ((some children).filter _).map _
    rw [Option.filter_some, Option.filter_some, hempty, any_isClipPath_dissolveIn]
    split <;> rfl

end

/-! ## Counting what is seen -/

/-- A property of elements that no group has and that does not depend on children. -/
structure IsSeen (p : Element → Bool) : Prop where
  group : ∀ m label children, p (.group m label children) = false
  container : ∀ role label children children',
    p (.container role label children) = p (.container role label children')

theorem isSeen_isPainted : IsSeen isPainted where
  group _ _ _ := rfl
  container _ _ _ _ := rfl

theorem isSeen_isClip : IsSeen isClip where
  group _ _ _ := rfl
  container role _ _ _ := by cases role <;> rfl

theorem countP_frame {p : Element → Bool} (hp : IsSeen p) (role : Role) (label : Label)
    (children : List Element) :
    (frame role label children).countP p = if p (.container role label children) then 1 else 0 := by
  cases role with
  | group m =>
    rw [hp.group]
    rfl
  | clipGroup =>
    rw [frame, List.countP_singleton, hp.container _ _ _ children]
    rintro _ ⟨⟩
  | extra name =>
    rw [frame, List.countP_singleton, hp.container _ _ _ children]
    rintro _ ⟨⟩

mutual

theorem countP_sightings {p : Element → Bool} (hp : IsSeen p) (around : List (Role × Label))
    (e : Element) :
    (sightings around e).countP (p ·.element) = e.descendants.countP p := by
  cases e with
  | container role label children =>
    rw [sightings, List.countP_append, List.countP_map, countP_sightingsIn hp, Element.descendants,
      List.countP_cons, Nat.add_comm, ← countP_frame hp]
    rfl
  | shape use label commands => rfl
  | text content => rfl

/-- What is seen is counted alike in a tree and among its sightings. -/
theorem countP_sightingsIn {p : Element → Bool} (hp : IsSeen p) (around : List (Role × Label))
    (es : List Element) :
    (sightingsIn around es).countP (p ·.element) = (descendantsOfAll es).countP p := by
  cases es with
  | nil => rfl
  | cons e es =>
    rw [sightingsIn, descendantsOfAll, List.countP_append, List.countP_append,
      countP_sightings hp, countP_sightingsIn hp]

end

section

variable (scope : Scope)

/-- Dissolving groups keeps the number of the elements that are seen. -/
theorem countP_dissolveIn {p : Element → Bool} (hp : IsSeen p) (es : List Element) :
    (descendantsOfAll (dissolveIn scope es)).countP p = (descendantsOfAll es).countP p := by
  rw [← countP_sightingsIn hp [], sightingsIn_dissolveIn, countP_sightingsIn hp]

theorem countP_dissolve {p : Element → Bool} (hp : IsSeen p) (e : Element) :
    (descendantsOfAll (dissolve scope e)).countP p = (descendantsOfAll [e]).countP p := by
  rw [← countP_sightingsIn hp [], sightingsIn_dissolve, countP_sightingsIn hp]

theorem pathsIn_dissolveIn (es : List Element) : pathsIn (dissolveIn scope es) = pathsIn es :=
  countP_dissolveIn scope isSeen_isPainted es

theorem pathsIn_dissolve (e : Element) : pathsIn (dissolve scope e) = paths e :=
  (countP_dissolve scope isSeen_isPainted e).trans (pathsIn_cons e [])

theorem length_reachesIn_dissolve (start follow rest : ℕ) (e : Element) :
    (reachesIn start follow (dissolve scope e)).length = (reachesIn start rest [e]).length := by
  rw [length_reachesIn, length_reachesIn, countP_dissolve scope isSeen_isClip]

end

/-! ## Confined clip paths -/

mutual

/-- Whether the clip paths inside an element clip the same when groups are dissolved, where
siblings with `follow` painted paths come after the element. Only the children of a group that is
dissolved come to stand before these. -/
def confines (follow : ℕ) : Element → Bool
  | .container role label children =>
    if (collapsible? (.container role label children)).isSome then confinesIn follow children
    else !isSequence role || confinesIn 0 children
  | _ => true

/-- Whether the clip paths among some siblings and inside them clip the same when groups are
dissolved, where `follow` painted paths come to follow in the list into which the siblings are
put. -/
def confinesIn (follow : ℕ) : List Element → Bool
  | [] => true
  | e :: es =>
    (!isClip e || follow == 0) && confines (pathsIn es + follow) e && confinesIn follow es

end

theorem isClip_of_isPlainGroup {role : Role} {label : Label} (h : isPlainGroup role label = true)
    (children : List Element) : isClip (.container role label children) = false := by
  cases role with
  | group m => rfl
  | clipGroup => cases h
  | extra name => cases h

mutual

/-- Dissolving groups keeps the reach of a clip path and of those inside it, if they are confined
where siblings with `rest` painted paths come after it, and `follow` more when they are put into
another list. -/
theorem reachesIn_dissolve_iff (scope : Scope) (start rest follow : ℕ) (e : Element) :
    reachesIn start (rest + follow) (dissolve scope e) = reachesIn start rest [e]
      ↔ (isClip e = true → follow = 0) ∧ confines (rest + follow) e = true := by
  cases e with
  | container role label children =>
    have hinside (k : ℕ) := reachesIn_dissolveIn_iff (scope.enter label.foreign) start k children
    rw [confines, dissolve, value_collapseOne, collapsible?_mapSiblings_collapse]
    cases hsome : collapsible? (.container role label children) with
    | some _ =>
      obtain ⟨_, _, heq, hplain, -, -⟩ := collapsible?_eq_some_iff.1 hsome
      obtain ⟨rfl, rfl, rfl⟩ := Element.container.inj heq
      rw [Option.map_some, Option.getD_some, reachesIn_singleton, isClip_of_isPlainGroup hplain]
      simpa [reaches] using hinside (rest + follow)
    | none =>
      rw [Option.map_none, Option.getD_none, value_mapSiblings_collapse]
      cases hopen : isSequence role with
      | false => simp [reachesIn_singleton_eq_iff rfl rfl]
      | true =>
        have hpaths :
            paths (.container role label (dissolveIn (scope.enter label.foreign) children))
              = paths (.container role label children) := by
          rw [paths_container, paths_container, pathsIn_dissolveIn]
        refine (reachesIn_singleton_eq_iff (isSeen_isClip.container ..) hpaths ..).trans
          (and_congr_right' ?_)
        simpa [reaches] using hinside 0
  | shape use label commands =>
    exact (reachesIn_singleton_eq_iff rfl rfl start rest follow).trans
      (and_congr_right' (iff_of_true rfl rfl))
  | text content => exact iff_of_true rfl ⟨nofun, rfl⟩

/-- Dissolving groups keeps the reach of the clip paths among some siblings and inside them exactly
if they are confined. -/
theorem reachesIn_dissolveIn_iff (scope : Scope) (start follow : ℕ) (es : List Element) :
    reachesIn start follow (dissolveIn scope es) = reachesIn start 0 es
      ↔ confinesIn follow es = true := by
  cases es with
  | nil => exact iff_of_true rfl rfl
  | cons e es =>
    have hfront := reachesIn_dissolve_iff scope start (pathsIn es) follow e
    have hrest := reachesIn_dissolveIn_iff scope (start + paths e) follow es
    have hsplit : reachesIn start 0 (e :: es)
        = reachesIn start (pathsIn es) [e] ++ reachesIn (start + paths e) 0 es := by
      rw [reachesIn_singleton]
      rfl
    have hclip : (!isClip e || follow == 0) = true ↔ (isClip e = true → follow = 0) := by
      cases isClip e <;> simp
    rw [dissolveIn_cons, reachesIn_append, pathsIn_dissolveIn, pathsIn_dissolve, hsplit,
      confinesIn, Bool.and_eq_true, Bool.and_eq_true, hclip, ← hfront, ← hrest]
    constructor
    · exact fun heq => List.append_inj heq (length_reachesIn_dissolve ..)
    · rintro ⟨hleft, hright⟩
      rw [hleft, hright]

end

mutual

theorem confines_of_isClipPath (follow : ℕ) (e : Element)
    (h : ∀ x ∈ e.descendants, isClip x = true → isClipPath x = true) :
    confines follow e = true := by
  cases e with
  | container role label children =>
    rw [Element.descendants, List.forall_mem_cons] at h
    rw [confines]
    split
    · next hsome =>
      obtain ⟨_, hsome⟩ := Option.isSome_iff_exists.1 hsome
      obtain ⟨_, _, heq, -, -, hclip⟩ := collapsible?_eq_some_iff.1 hsome
      obtain ⟨rfl, rfl, rfl⟩ := Element.container.inj heq
      exact confinesIn_of_isClipPath follow children h.2 (.inr hclip)
    · rw [confinesIn_of_isClipPath 0 children h.2 (.inl rfl), Bool.or_true]
  | shape use label commands => rfl
  | text content => rfl

/-- Clip paths with path data are confined: a group with one is not dissolved. -/
theorem confinesIn_of_isClipPath (follow : ℕ) (es : List Element)
    (h : ∀ x ∈ descendantsOfAll es, isClip x = true → isClipPath x = true)
    (hlist : follow = 0 ∨ es.any isClipPath = false) : confinesIn follow es = true := by
  cases es with
  | nil => rfl
  | cons e es =>
    rw [descendantsOfAll, List.forall_mem_append] at h
    rw [List.any_cons, Bool.or_eq_false_iff] at hlist
    have hclip : (!isClip e || follow == 0) = true := by
      obtain hfollow | hnone := hlist
      · simp [hfollow]
      · have hself : e ∈ e.descendants := by cases e <;> exact List.mem_cons_self
        have hnot : ¬isClip e = true := fun he => by simp [h.1 e hself he] at hnone
        simp [hnot]
    rw [confinesIn, hclip, confines_of_isClipPath _ e h.1,
      confinesIn_of_isClipPath follow es h.2 (hlist.imp_right And.right)]
    rfl

end

/-! ## Clip paths of a graphic -/

theorem clipReaches_collapseGroups_iff (o : Options) (g : Graphic) :
    clipReaches (Pass.collapseGroups.run o g).value = clipReaches g
      ↔ confinesIn 0 g.children = true :=
  reachesIn_dissolveIn_iff (Scope.enter {} g.label.foreign) 0 0 g.children

/-- **Dissolving groups keeps what clip paths reach, exactly if they are confined.** All that is
seen stays in its order, so that clip paths and painted paths keep their numbers. -/
theorem collapseGroups_keeps_clipReaches_iff (o : Options) (g : Graphic) :
    sightingsIn [] (Pass.collapseGroups.run o g).value.children = sightingsIn [] g.children
      ∧ (clipReaches (Pass.collapseGroups.run o g).value = clipReaches g
        ↔ confinesIn 0 g.children = true) :=
  ⟨sightingsIn_dissolveIn (Scope.enter {} g.label.foreign) [] g.children,
    clipReaches_collapseGroups_iff o g⟩

/-- The path data of a clip path is a resource, and its group is dissolved: it clips one path
before, and the path behind the group as well after. -/
theorem resource_clip_path_escapes :
    ∃ g, Yields (read ("<vector><group><clip-path android:pathData=\"@string/c\"/>"
          ++ "<path android:pathData=\"M0 0h1\"/></group>"
          ++ "<path android:pathData=\"M2 2h1\"/></vector>")) g
      ∧ g.format = .vectorDrawable
      ∧ clipReaches g = [[0]]
      ∧ clipReaches (Pass.collapseGroups.run {} g).value = [[0, 1]] := by
  decide +kernel

/-- Where all clip paths have path data, none clips anything else when groups are dissolved. -/
theorem clipReaches_collapseGroups_of_isClipPath (o : Options) {g : Graphic}
    (h : ∀ e ∈ g.elements, isClip e = true → isClipPath e = true) :
    clipReaches (Pass.collapseGroups.run o g).value = clipReaches g :=
  (clipReaches_collapseGroups_iff o g).2 (confinesIn_of_isClipPath 0 g.children h (.inl rfl))

end VectorGraphics.Optimizer
