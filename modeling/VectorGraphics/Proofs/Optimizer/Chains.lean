import Mathlib.Data.List.Forall2
import VectorGraphics.Optimizer.Transforms

/-!
# Chains of transforms

What an element is drawn through is the chain of the containers above it. Products of `Single`
matrices are rounded, so that they are not associative, and two chains are compared by the factors
that they are made of.

* A `Link` is one container of a chain: the transform of a group, or a container as a whole if a
  group has a transform that cannot be read or if the container is no group.
* `IsProduct ms m` says that `m` is a product of `ms` in this order, in some bracketing.
* `Folds before after` says that every link of `after` is a link of `before` or a product of
  consecutive ones, in order and with none left out. A group with the identity has no factor.
* `sites` lists the paths, the texts and the containers that are links as a whole, in document
  order, each with the chain above it.
-/

namespace VectorGraphics.Optimizer

/-! ## Chains -/

/-- A container of a chain. -/
inductive Link
  /-- The transform of a group. -/
  | factor (transform : Matrix)
  /-- A container with its attributes, which may hold a transform of their own. -/
  | whole (role : Role) (label : Label)

/-- Whether a container is a link as a whole. -/
def isWhole (format : Format) : Role → Label → Bool
  | .group _, label => hasUnresolvedTransform format label.foreign
  | _, _ => true

/-- The link that a container adds to the chains inside it. -/
def link (format : Format) (role : Role) (label : Label) : Link :=
  match role with
  | .group t => if isWhole format (.group t) label then .whole (.group t) label else .factor t
  | role => .whole role label

/-- Being a product of some factors in their order. -/
inductive IsProduct : List Matrix → Matrix → Prop
  | single (m : Matrix) : IsProduct [m] m
  | mul {ms ns : List Matrix} {m n : Matrix} :
    IsProduct ms m → IsProduct ns n → IsProduct (ms ++ ns) (m * n)

/-- Having the same factors in the same order, between the same containers. -/
inductive Folds : List Link → List Link → Prop
  | nil : Folds [] []
  | identity {before after : List Link} :
    Folds before after → Folds before (.factor .identity :: after)
  | factor {before after : List Link} {ms : List Matrix} {m : Matrix} :
    IsProduct ms m → Folds before after → Folds (ms.map .factor ++ before) (.factor m :: after)
  | whole {before after : List Link} (role : Role) (label : Label) :
    Folds before after → Folds (.whole role label :: before) (.whole role label :: after)

namespace Folds

theorem product {ms : List Matrix} {m : Matrix} (h : IsProduct ms m) :
    Folds (ms.map .factor) [.factor m] := by
  have folds := Folds.factor h .nil
  rwa [List.append_nil] at folds

theorem append {before before' after after' : List Link} (h : Folds before after)
    (h' : Folds before' after') : Folds (before ++ before') (after ++ after') := by
  induction h with
  | nil => exact h'
  | identity _ ih => exact .identity ih
  | factor hm _ ih =>
    rw [List.append_assoc]
    exact .factor hm ih
  | whole role label _ ih => exact .whole role label ih

/-- A chain goes on with the same link. -/
theorem snoc {before after : List Link} (h : Folds before after) (l : Link) :
    Folds (before ++ [l]) (after ++ [l]) := by
  refine h.append ?_
  cases l with
  | factor m => exact product (.single m)
  | whole role label => exact .whole role label .nil

theorem refl (chain : List Link) : Folds chain chain := by
  induction chain with
  | nil => exact .nil
  | cons l chain ih =>
    cases l with
    | factor m => exact .factor (.single m) ih
    | whole role label => exact .whole role label ih

end Folds

/-! ## Sites -/

/-- What stands at a site. -/
inductive Node
  | shape (use : Use) (label : Label) (commands : List Path.Command)
  | whole (role : Role) (label : Label)
  | text (content : String)

/-- A place in a graphic with the chain above it, outermost container first. -/
structure Site where
  above : List Link
  node : Node

mutual

/-- The sites of an element below a chain, in document order. -/
def sites (format : Format) (above : List Link) : Element → List Site
  | .shape use label commands => [⟨above, .shape use label commands⟩]
  | .container role label children =>
    (if isWhole format role label then [⟨above, .whole role label⟩] else [])
      ++ sitesOfAll format (above ++ [link format role label]) children
  | .text content => [⟨above, .text content⟩]

/-- The sites of siblings below a chain, in document order. -/
def sitesOfAll (format : Format) (above : List Link) : List Element → List Site
  | [] => []
  | e :: es => sites format above e ++ sitesOfAll format above es

end

theorem sites_group_of_resolved {format : Format} {label : Label}
    (h : hasUnresolvedTransform format label.foreign = false) (above : List Link) (t : Matrix)
    (children : List Element) :
    sites format above (.group t label children)
      = sitesOfAll format (above ++ [.factor t]) children := by
  simp [sites, link, isWhole, h]

theorem sites_container_of_whole {format : Format} {role : Role} {label : Label}
    (h : isWhole format role label = true) (above : List Link) (children : List Element) :
    sites format above (.container role label children)
      = ⟨above, .whole role label⟩
        :: sitesOfAll format (above ++ [.whole role label]) children := by
  have hlink : link format role label = .whole role label := by
    cases role with
    | group t => simp [link, h]
    | clipGroup => rfl
    | extra name => rfl
  simp [sites, h, hlink]

/-- A wrapper adds its transform to the chain. -/
theorem sites_wrap (format : Format) (above : List Link) (m : Matrix) (e : Element) :
    sites format above (.wrap m [e]) = sites format (above ++ [.factor m]) e := by
  have h : hasUnresolvedTransform format (∅ : Attributes) = false := by cases format <;> rfl
  rw [Element.wrap, sites_group_of_resolved h, sitesOfAll, sitesOfAll, List.append_nil]

end VectorGraphics.Optimizer
