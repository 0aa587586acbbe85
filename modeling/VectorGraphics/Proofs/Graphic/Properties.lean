import VectorGraphics.Graphic.Element

/-!
# Properties of all elements

An `ElementProperty` looks at an element without its children, and `Holds` says that it is true of
an element and of everything inside it.
-/

namespace VectorGraphics

/-- A property of elements that does not depend on their children. -/
structure ElementProperty where
  shape : Use → Label → List Path.Command → Prop
  container : Role → Label → Prop

namespace ElementProperty

variable {P : ElementProperty}

mutual

/-- The property is true of an element and of all elements inside it. -/
def Holds (P : ElementProperty) : Element → Prop
  | .shape use label commands => P.shape use label commands
  | .container role label children => P.container role label ∧ P.HoldsAll children
  | .text _ => True

/-- The property is true of some elements and of all elements inside them. -/
def HoldsAll (P : ElementProperty) : List Element → Prop
  | [] => True
  | e :: es => P.Holds e ∧ P.HoldsAll es

end

theorem holdsAll_iff {es : List Element} : P.HoldsAll es ↔ ∀ e ∈ es, P.Holds e := by
  induction es with
  | nil => exact iff_of_true trivial nofun
  | cons e es ih => rw [HoldsAll, ih, List.forall_mem_cons]

theorem HoldsAll.of_subset {es fs : List Element} (h : P.HoldsAll es) (hsub : fs ⊆ es) :
    P.HoldsAll fs :=
  holdsAll_iff.2 fun e he => holdsAll_iff.1 h e (hsub he)

theorem HoldsAll.append {es fs : List Element} (h : P.HoldsAll es) (h' : P.HoldsAll fs) :
    P.HoldsAll (es ++ fs) :=
  holdsAll_iff.2 fun e he =>
    (List.mem_append.1 he).elim (holdsAll_iff.1 h e) (holdsAll_iff.1 h' e)

theorem holdsAll_singleton {e : Element} (h : P.Holds e) : P.HoldsAll [e] := ⟨h, trivial⟩

mutual

/-- What is true everywhere in an element is true everywhere in the elements inside it. -/
theorem Holds.descendants : ∀ {e : Element}, P.Holds e → P.HoldsAll e.descendants
  | .shape .., h => holdsAll_singleton h
  | .container .., h => ⟨h, HoldsAll.descendants h.2⟩
  | .text _, h => holdsAll_singleton h

theorem HoldsAll.descendants : ∀ {es : List Element}, P.HoldsAll es →
    P.HoldsAll (Element.descendants.descendantsOfAll es)
  | [], _ => trivial
  | _ :: _, h => (Holds.descendants h.1).append (HoldsAll.descendants h.2)

end

/-- The property of an element alone, without the elements inside it. -/
def Here (P : ElementProperty) : Element → Prop
  | .shape use label commands => P.shape use label commands
  | .container role label _ => P.container role label
  | .text _ => True

theorem Holds.here {e : Element} (h : P.Holds e) : P.Here e := by
  cases e with
  | container => exact h.1
  | shape | text => exact h

mutual

theorem Holds.of_descendants : ∀ {e : Element}, (∀ d ∈ e.descendants, P.Here d) → P.Holds e
  | .shape .., h => h _ (List.mem_singleton_self _)
  | .container .., h =>
    ⟨h _ List.mem_cons_self, HoldsAll.of_descendants fun d hd => h d (List.mem_cons_of_mem _ hd)⟩
  | .text _, _ => trivial

theorem HoldsAll.of_descendants : ∀ {es : List Element},
    (∀ d ∈ Element.descendants.descendantsOfAll es, P.Here d) → P.HoldsAll es
  | [], _ => trivial
  | _ :: _, h =>
    ⟨Holds.of_descendants fun d hd => h d (List.mem_append_left _ hd),
      HoldsAll.of_descendants fun d hd => h d (List.mem_append_right _ hd)⟩

end

/-- The property is true everywhere if it is true of every element by itself. -/
theorem holdsAll_iff_descendants {es : List Element} :
    P.HoldsAll es ↔ ∀ d ∈ Element.descendants.descendantsOfAll es, P.Here d :=
  ⟨fun h d hd => (holdsAll_iff.1 h.descendants d hd).here, HoldsAll.of_descendants⟩

variable {Q : ElementProperty}

theorem HoldsAll.mono {es : List Element} (h : P.HoldsAll es)
    (hshape : ∀ {use label commands}, P.shape use label commands → Q.shape use label commands)
    (hcontainer : ∀ {role label}, P.container role label → Q.container role label) :
    Q.HoldsAll es := by
  refine HoldsAll.of_descendants fun d hd => ?_
  have hhere := holdsAll_iff_descendants.1 h d hd
  cases d with
  | shape => exact hshape hhere
  | container => exact hcontainer hhere
  | text => trivial

end ElementProperty

end VectorGraphics
