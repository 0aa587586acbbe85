import VectorGraphics.Optimizer.Groups
import Mathlib.Data.List.Forall2

/-!
# Switches

The children of a `switch` are alternatives, of which one is drawn. `Graphic.switches` lists the
switches of a graphic in document order, each with its alternatives and with the graphic as a
function of them, so that what a change does to one switch can be told apart from what it does to
everything else.

A change acts on a switch with an effect `f` (`Follows`) if it applies `f` to the alternatives,
whichever they are, and changes what is around the switch in a way that does not depend on them.
The lemmas of this module put such changes together: an edit of a list of siblings from edits of
single elements (`ActsOn.cons`), an edit of a container from an edit of its children
(`actsOnOne_container`), and an edit from two in turn (`ActsOn.comp`).
-/

namespace VectorGraphics

namespace Optimizer

variable {α β γ δ : Type}

/-- A `switch` somewhere in a tree. -/
structure Switch (α : Type) where
  /-- The inherited values inside the switch. -/
  scope : Scope
  /-- The children of the switch. -/
  alternatives : List Element
  /-- The tree with other children in the switch. -/
  replace : List Element → α

/-- A switch of a part of a tree is a switch of the tree. -/
def Switch.within (around : α → β) (s : Switch α) : Switch β where
  scope := s.scope
  alternatives := s.alternatives
  replace := fun es => around (s.replace es)

mutual

/-- The switches of an element, outer ones first. -/
def switches (scope : Scope) : Element → List (Switch Element)
  | .container role label children =>
    let inner := scope.enter label.foreign
    (if isSequence role then [] else [⟨inner, children, .container role label⟩])
      ++ (switchesIn inner children).map (.within (.container role label))
  | .shape .. | .text _ => []

/-- The switches of some siblings, in document order. -/
def switchesIn (scope : Scope) : List Element → List (Switch (List Element))
  | [] => []
  | e :: es =>
    (switches scope e).map (.within (· :: es)) ++ (switchesIn scope es).map (.within (e :: ·))

end

end Optimizer

open Optimizer in
/-- The switches of a graphic, in document order. -/
def Graphic.switches (g : Graphic) : List (Switch Graphic) :=
  (switchesIn (Scope.enter {} g.label.foreign) g.children).map
    (.within fun children => { g with children })

namespace Optimizer

variable {α β γ δ : Type}

theorem Switch.within_within (f : β → γ) (g : α → β) :
    Switch.within f ∘ Switch.within g = Switch.within fun a => f (g a) := rfl

theorem switchesIn_append (scope : Scope) (es es' : List Element) :
    switchesIn scope (es ++ es') = (switchesIn scope es).map (.within (· ++ es'))
      ++ (switchesIn scope es').map (.within (es ++ ·)) := by
  induction es with
  | nil => exact (List.map_id _).symm
  | cons e es ih =>
    rw [List.cons_append, switchesIn, switchesIn, ih]
    simp only [List.map_append, List.map_map, Switch.within_within, List.cons_append,
      List.append_assoc]

theorem switchesIn_singleton (scope : Scope) (e : Element) :
    switchesIn scope [e] = (switches scope e).map (.within fun e => [e]) := by
  rw [switchesIn, switchesIn, List.map_nil, List.append_nil]

/-! ## What replacing alternatives leaves as it is -/

/-- The element without its children. -/
def bare : Element → Element
  | .container role label _ => .container role label []
  | e => e

mutual

theorem bare_replace : ∀ {scope : Scope} {e : Element}, ∀ s ∈ switches scope e,
    ∀ es, bare (s.replace es) = bare e
  | scope, .container role label children, s, hs, es => by
    rw [switches, List.mem_append] at hs
    obtain hs | hs := hs
    · split at hs
      · cases hs
      · rw [List.mem_singleton.1 hs]
        rfl
    · obtain ⟨t, -, rfl⟩ := List.mem_map.1 hs
      rfl

theorem map_bare_replace : ∀ {scope : Scope} {es : List Element}, ∀ s ∈ switchesIn scope es,
    ∀ es', (s.replace es').map bare = es.map bare
  | scope, e :: es, s, hs, es' => by
    rw [switchesIn, List.mem_append] at hs
    obtain hs | hs := hs
    · obtain ⟨t, ht, rfl⟩ := List.mem_map.1 hs
      exact congrArg (· :: es.map bare) (bare_replace t ht es')
    · obtain ⟨t, ht, rfl⟩ := List.mem_map.1 hs
      exact congrArg (bare e :: ·) (map_bare_replace t ht es')

end

/-! ## Effects -/

/-- Which changes of alternatives there may be in a scope. -/
abbrev Effect := Scope → (List Element → List Element) → Prop

/-- Alternatives stay as they are. -/
def untouched : Effect := fun _ f => f = id

/-- Every alternative is changed by itself. -/
def oneByOne : Effect := fun _ f => ∃ h : Element → Element, f = List.map h

/-- A change `F` of a tree changes the alternatives of a switch, whichever they are, by one of the
effects `P`, and all that is around the switch in the same way for all of them. -/
def Follows (P : Effect) (F : α → β) (s : Switch α) (s' : Switch β) : Prop :=
  ∃ f, P s.scope f ∧ s'.alternatives = f s.alternatives
    ∧ ∀ es, F (s.replace es) = s'.replace (f es)

/-- A change of siblings acts with one of the effects `P` on each of their switches. -/
def ActsOn (P : Effect) (F : List Element → List Element) (scope : Scope)
    (es : List Element) : Prop :=
  ∀ after, List.Forall₂ (Follows P F) (switchesIn scope es) (switchesIn after (F es))

/-- A change of one element into some acts with one of the effects `P` on each of its switches. -/
def ActsOnOne (P : Effect) (one : Element → List Element) (scope : Scope) (e : Element) : Prop :=
  ∀ after, List.Forall₂ (Follows P one) (switches scope e) (switchesIn after (one e))

variable {P : Effect} {scope : Scope} {F G : List Element → List Element}
  {one : Element → List Element}

theorem Follows.within {F : α → β} {G : γ → δ} {s : Switch α} {s' : Switch β} {around : α → γ}
    {around' : β → δ} (h : Follows P F s s')
    (hG : ∀ es, G (around (s.replace es)) = around' (F (s.replace es))) :
    Follows P G (s.within around) (s'.within around') := by
  obtain ⟨f, hf, halternatives, hreplace⟩ := h
  exact ⟨f, hf, halternatives, fun es => (hG es).trans (congrArg around' (hreplace es))⟩

theorem forall₂_within {F : α → β} {G : γ → δ} {l : List (Switch α)} {l' : List (Switch β)}
    (around : α → γ) (around' : β → δ) (h : List.Forall₂ (Follows P F) l l')
    (hG : ∀ s ∈ l, ∀ es, G (around (s.replace es)) = around' (F (s.replace es))) :
    List.Forall₂ (Follows P G) (l.map (.within around)) (l'.map (.within around')) :=
  List.rel_map (fun _ _ hs => hs.2.within hs.1) ((List.forall₂_and_left _ _).2 ⟨hG, h⟩)

theorem ActsOn.nil (hF : F [] = []) : ActsOn P F scope [] := by
  intro after
  rw [hF]
  exact .nil

/-- An edit of siblings that puts some elements in place of the first one. It may look at this one
but for the alternatives in it. -/
theorem ActsOn.cons {e : Element} {es : List Element} (he : ActsOnOne P one scope e)
    (hes : ActsOn P G scope es)
    (hF : ∀ e' es', bare e' = bare e → F (e' :: es') = one e' ++ G es') :
    ActsOn P F scope (e :: es) := by
  intro after
  rw [hF e es rfl, switchesIn_append, switchesIn]
  exact List.rel_append
    (forall₂_within _ _ (he after) fun s hs es' => hF (s.replace es') es (bare_replace s hs es'))
    (forall₂_within _ _ (hes after) fun s _ es' => hF e (s.replace es') rfl)

theorem Follows.comp {F : α → β} {G : β → γ} {s : Switch α} {t : Switch β} {u : Switch γ}
    (h : Follows P F s t) (h' : Follows untouched G t u) :
    Follows P (fun a => G (F a)) s u := by
  obtain ⟨f, hf, halternatives, hreplace⟩ := h
  obtain ⟨_, rfl, hsame, hreplace'⟩ := h'
  exact ⟨f, hf, hsame.trans halternatives,
    fun es => (congrArg G (hreplace es)).trans (hreplace' (f es))⟩

theorem forall₂_comp {F : α → β} {G : β → γ} {l : List (Switch α)} {m : List (Switch β)}
    {n : List (Switch γ)} (h : List.Forall₂ (Follows P F) l m)
    (h' : List.Forall₂ (Follows untouched G) m n) :
    List.Forall₂ (Follows P fun a => G (F a)) l n := by
  induction h generalizing n with
  | nil =>
    cases h'
    exact .nil
  | cons hs _ ih =>
    cases h' with
    | cons ht hrest => exact .cons (hs.comp ht) (ih hrest)

/-- An edit followed by one that leaves the alternatives alone. -/
theorem ActsOn.comp {es : List Element} (hF : ActsOn P F scope es)
    (hG : ActsOn untouched G scope (F es)) : ActsOn P (fun es => G (F es)) scope es :=
  fun after => forall₂_comp (hF scope) (hG after)

/-- An edit of a container that keeps what the container is. It may look at all of the children but
for the alternatives. -/
theorem actsOnOne_container {role : Role} {label : Label} {children : List Element} (role' : Role)
    (label' : Label) (hrole : isSequence role' = isSequence role)
    (hswitch : isSequence role = false → P (scope.enter label.foreign) F)
    (hF : ActsOn P F (scope.enter label.foreign) children)
    (hone : ∀ es, (isSequence role = true → es.map bare = children.map bare) →
      one (.container role label es) = [.container role' label' (F es)]) :
    ActsOnOne P one scope (.container role label children) := by
  intro after
  rw [hone children fun _ => rfl, switchesIn_singleton, switches, switches, List.map_append,
    List.map_map, Switch.within_within, hrole]
  refine List.rel_append ?_ ?_
  · split
    · exact .nil
    · next hopen =>
      refine .cons ⟨F, hswitch (Bool.eq_false_iff.2 hopen), rfl, fun es => ?_⟩ .nil
      exact hone es fun hsequence => absurd hsequence hopen
  · exact forall₂_within _ _ (hF (after.enter label'.foreign)) fun s hs es =>
      hone (s.replace es) fun _ => map_bare_replace s hs es

end Optimizer

end VectorGraphics
