import Mathlib.Data.List.Forall2
import VectorGraphics.Optimizer.Pass
import VectorGraphics.Proofs.Graphic.Declarations
import VectorGraphics.Proofs.Graphic.Outcomes
import VectorGraphics.Proofs.Graphic.Scopes
import VectorGraphics.Proofs.Number.Order

/-!
# What the removal of default values keeps

Removing the default values from an SVG graphic should not change the value of any property on any
element. It does so where a style declares a property twice, first with another value and then with
the default: every declaration is judged by itself, so that only the default goes and the other
value is left. `graphicLosesDefault` finds the graphics that this happens to, and in all others
every property keeps its value on every element (`removeDefaults_keeps_values_iff`).

The proof compares the lists of values of a property on an element (`setValues_removeDefaults`).
Going inwards, the scopes before and after the removal agree about a property, or the default is
lost there already (`Agrees`).
-/

namespace VectorGraphics.Optimizer

open Reading (Yields)

/-! ## Equal values -/

section SameValue

variable {a b c : String}

theorem sameValue_iff :
    sameValue a b = true ↔
      (∃ x y, number? a = some x ∧ number? b = some y ∧ (x == y) = true)
        ∨ number? a = none ∧ Text.trimList a.toList = Text.trimList b.toList := by
  rw [sameValue, number?, number?]
  split
  · next x y hx hy => simp [hx, hy]
  · next hnot =>
    rw [beq_iff_eq]
    constructor
    · intro h
      refine .inr ⟨Option.eq_none_iff_forall_ne_some.2 fun x hx => hnot x x hx ?_, h⟩
      rw [← h, hx]
    · rintro (⟨x, y, hx, hy, -⟩ | ⟨-, h⟩)
      · exact absurd hy (hnot x y hx)
      · exact h

theorem sameValue_symm (h : sameValue a b = true) : sameValue b a = true := by
  obtain ⟨x, y, hx, hy, heq⟩ | ⟨hnone, heq⟩ := sameValue_iff.1 h
  · exact sameValue_iff.2 (.inl ⟨y, x, hy, hx, Single.beq_symm heq⟩)
  · rw [number?, heq] at hnone
    exact sameValue_iff.2 (.inr ⟨hnone, heq.symm⟩)

theorem sameValue_trans (hab : sameValue a b = true) (hbc : sameValue b c = true) :
    sameValue a c = true := by
  obtain ⟨x, y, hx, hy, hxy⟩ | ⟨hnone, hab⟩ := sameValue_iff.1 hab
  · obtain ⟨y', z, hy', hz, hyz⟩ | ⟨hnone, -⟩ := sameValue_iff.1 hbc
    · obtain rfl : y = y' := Option.some.inj (hy.symm.trans hy')
      exact sameValue_iff.2 (.inl ⟨x, z, hx, hz, Single.beq_trans hxy hyz⟩)
    · rw [hnone] at hy
      cases hy
  · obtain ⟨y, z, hy, -, -⟩ | ⟨-, hbc⟩ := sameValue_iff.1 hbc
    · rw [number?, hab, ← number?, hy] at hnone
      cases hnone
    · exact sameValue_iff.2 (.inr ⟨hnone, hab.trans hbc⟩)

end SameValue

/-! ## Defaults -/

/-- The properties with a default value. -/
def defaultKeys : List String := (defaults .svg).map Prod.fst

theorem isDefault_eq_false {key : String} (hkey : key ∉ defaultKeys) (value : String) :
    isDefault .svg key value = false := by
  rw [isDefault, List.any_eq_false]
  intro entry hentry h
  obtain ⟨hname, -⟩ := Bool.and_eq_true_iff.1 h
  exact hkey (List.mem_map.2 ⟨entry, hentry, of_decide_eq_true hname⟩)

theorem style_notMem : "style" ∉ defaultKeys := by decide

/-- Nothing else is redundant. -/
theorem isRedundant_eq_false {key : String} (hkey : key ∉ defaultKeys) (scope : Scope)
    (value : String) : isRedundant .svg scope key value = false := by
  rw [isRedundant, isDefault_eq_false hkey, Bool.false_and]

theorem filter_not_isRedundant {key : String} (hkey : key ∉ defaultKeys) (scope : Scope)
    (value : Option String) :
    value.filter (fun value => !isRedundant .svg scope key value) = value := by
  cases value with
  | none => rfl
  | some value =>
    rw [Option.filter, isRedundant_eq_false hkey]
    rfl

section Default

variable {entry : String × String}

theorem isDefault_iff (hentry : entry ∈ defaults .svg) (value : String) :
    isDefault .svg entry.1 value = true ↔ sameValue value entry.2 = true := by
  have hnodup : ((defaults .svg).map Prod.fst).Nodup := by decide
  rw [isDefault, List.any_eq_true]
  constructor
  · rintro ⟨other, hother, h⟩
    obtain ⟨hname, hsame⟩ := Bool.and_eq_true_iff.1 h
    obtain rfl := List.inj_on_of_nodup_map hnodup hother hentry (of_decide_eq_true hname)
    exact hsame
  · exact fun hsame => ⟨entry, hentry, Bool.and_eq_true_iff.2 ⟨decide_eq_true rfl, hsame⟩⟩

/-- Every default is the default of its property. -/
theorem isDefault_default (hentry : entry ∈ defaults .svg) :
    isDefault .svg entry.1 entry.2 = true := by
  have hall : ∀ entry ∈ defaults .svg, isDefault .svg entry.1 entry.2 = true := by decide +kernel
  exact hall entry hentry

theorem isDefault_congr (hentry : entry ∈ defaults .svg) {value other : String}
    (h : sameValue value other = true) :
    isDefault .svg entry.1 value = isDefault .svg entry.1 other := by
  rw [Bool.eq_iff_iff, isDefault_iff hentry, isDefault_iff hentry]
  exact ⟨sameValue_trans (sameValue_symm h), sameValue_trans h⟩

theorem sameValue_of_isDefault (hentry : entry ∈ defaults .svg) {value other : String}
    (h : isDefault .svg entry.1 value = true) (h' : isDefault .svg entry.1 other = true) :
    sameValue value other = true := by
  rw [isDefault_iff hentry] at h h'
  exact sameValue_trans h (sameValue_symm h')

theorem sameValue_eq_isDefault (hentry : entry ∈ defaults .svg) {value : String}
    (h : isDefault .svg entry.1 value = true) (other : String) :
    sameValue other value = isDefault .svg entry.1 other := by
  rw [Bool.eq_iff_iff]
  exact ⟨fun hsame => (isDefault_congr hentry hsame).trans h,
    fun h' => sameValue_of_isDefault hentry h' h⟩

end Default

/-! ## What is removed from an element -/

section Element

variable (scope : Scope) (foreign : Attributes)

/-- Whether nothing but the default of a property is inherited, and nothing but the default is the
attribute. -/
def onlyDefault (key : String) : Bool :=
  (scope.get? key).all (isDefault .svg key) && (foreign.get? key).all (isDefault .svg key)

/-- Whether a declaration stays. -/
def keepsDeclaration (property value : String) : Bool :=
  !isRedundant .svg scope property value || overrides foreign property value

theorem get?_removeFromStyle {key : String} (hkey : key ≠ "style") :
    (removeFromStyle .svg scope foreign).get? key = foreign.get? key := by
  rw [removeFromStyle]
  split
  · rfl
  · split
    · rw [Attributes.erase, Attributes.get?_filter, bne_iff_ne.2 hkey]
      cases foreign.get? key <;> rfl
    · exact Attributes.get?_insert_of_ne foreign _ hkey

/-- An attribute other than the style is removed or stays as it is. -/
theorem get?_removeDefaults {key : String} (hkey : key ≠ "style") :
    (removeDefaults .svg scope foreign).get? key
      = (foreign.get? key).filter fun value => !isRedundant .svg scope key value := by
  rw [removeDefaults, Attributes.get?_filter, get?_removeFromStyle scope foreign hkey]

theorem declared_removeFromStyle :
    declared (removeFromStyle .svg scope foreign)
      = (declared foreign).filter fun d => keepsDeclaration scope foreign d.1 d.2 := by
  cases hstyle : foreign.get? "style" with
  | none =>
    simp only [removeFromStyle, hstyle, declared_of_get?_eq_none hstyle, List.filter_nil]
  | some style =>
    rw [declared_of_get?_eq_some hstyle]
    change _ = keptDeclarations .svg scope foreign style
    simp only [removeFromStyle, hstyle]
    split
    · next hkept =>
      rw [hkept]
      exact declared_of_get?_eq_none
        ((Attributes.keys_erase_ne foreign "style").get?_eq_none (not_not.2 rfl))
    · next =>
      rw [declared_of_get?_eq_some (Attributes.get?_insert_self foreign _ _)]
      refine declarations_joinDeclarations fun d hd => ?_
      exact isDeclaration_of_mem (List.mem_of_mem_filter hd)

/-- A declaration is removed or stays as it is. -/
theorem declared_removeDefaults :
    declared (removeDefaults .svg scope foreign)
      = (declared foreign).filter fun d => keepsDeclaration scope foreign d.1 d.2 := by
  rw [← declared_removeFromStyle, removeDefaults, declared, Attributes.get?_filter,
    filter_not_isRedundant style_notMem, declared]

variable {entry : String × String}

theorem isRedundant_eq (hentry : entry ∈ defaults .svg) (value : String) :
    isRedundant .svg scope entry.1 value
      = (isDefault .svg entry.1 value && (scope.get? entry.1).all (isDefault .svg entry.1)) := by
  rw [isRedundant]
  cases hvalue : isDefault .svg entry.1 value with
  | false => rfl
  | true =>
    congr 2
    exact funext fun other => sameValue_eq_isDefault hentry hvalue other

theorem keepsDeclaration_eq (hentry : entry ∈ defaults .svg) (value : String) :
    keepsDeclaration scope foreign entry.1 value
      = !(isDefault .svg entry.1 value && onlyDefault scope foreign entry.1) := by
  rw [keepsDeclaration, isRedundant_eq scope hentry, onlyDefault, overrides]
  cases hvalue : isDefault .svg entry.1 value with
  | false => simp
  | true =>
    simp only [sameValue_eq_isDefault hentry hvalue]
    cases foreign.get? entry.1 <;> simp [Bool.or_comm]

/-- The defaults among the values of a property go if there is nothing but the default apart from
the style. -/
theorem setValues_removeDefaults (hentry : entry ∈ defaults .svg) :
    setValues (removeDefaults .svg scope foreign) entry.1
      = (setValues foreign entry.1).filter fun value =>
          !(isDefault .svg entry.1 value && onlyDefault scope foreign entry.1) := by
  have hkey : entry.1 ≠ "style" := fun heq => style_notMem (heq ▸ List.mem_map_of_mem hentry)
  rw [setValues_eq, setValues_eq, get?_removeDefaults scope foreign hkey, declared_removeDefaults,
    valuesOf_filter, List.filter_append]
  congr 1
  · cases hattribute : foreign.get? entry.1 with
    | none => rfl
    | some value =>
      rw [onlyDefault, hattribute, Option.filter, isRedundant_eq scope hentry]
      cases hdefault : isDefault .svg entry.1 value <;>
        cases (scope.get? entry.1).all (isDefault .svg entry.1) <;> simp [hdefault]
  · exact List.filter_congr fun value _ => keepsDeclaration_eq scope foreign hentry value

theorem handedOn_removeDefaults (hentry : entry ∈ defaults .svg) :
    handedOn (removeDefaults .svg scope foreign) entry.1
      = (handedOn foreign entry.1).filter fun value =>
          !(isDefault .svg entry.1 value && onlyDefault scope foreign entry.1) := by
  rw [handedOn, setValues_removeDefaults scope foreign hentry, List.filter_comm, handedOn]

end Element

/-! ## Values before and after -/

/-- Whether removing the defaults among the values that an element sets a property to lets another
value take the place of the default. If that has happened around the element already, the element
is affected unless it sets the property itself. Otherwise a default at the end of the values has
to hide another value, with nothing but the default in the attribute and around the element. -/
def isLost (lost : Bool) (scope : Scope) (foreign : Attributes) (key : String)
    (values : List String) : Bool :=
  if lost then values.isEmpty
  else onlyDefault scope foreign key && values.getLast?.any (isDefault .svg key)
    && values.any fun value => !isDefault .svg key value

/-- Two values of a property are the same, where no value is the default. Equal texts are the same
even if they spell NaN, which is not equal to itself as a number. -/
def SameOr (default : String) (before after : Option String) : Prop :=
  before.getD default = after.getD default
    ∨ sameValue (before.getD default) (after.getD default) = true

instance (default : String) (before after : Option String) :
    Decidable (SameOr default before after) :=
  inferInstanceAs (Decidable (_ ∨ _))

/-- The value of a property is the same before and after, or the default has been lost. -/
def Agrees (entry : String × String) (lost : Bool) (before after : Option String) : Prop :=
  if lost then
    isDefault .svg entry.1 (before.getD entry.2) = true
      ∧ isDefault .svg entry.1 (after.getD entry.2) = false
  else SameOr entry.2 before after

section Agrees

variable {entry : String × String} {lost : Bool}

theorem SameOr.isDefault_eq (hentry : entry ∈ defaults .svg) {before after : Option String}
    (h : SameOr entry.2 before after) :
    isDefault .svg entry.1 (before.getD entry.2) = isDefault .svg entry.1 (after.getD entry.2) := by
  obtain heq | hsame := h
  · rw [heq]
  · exact isDefault_congr hentry hsame

/-- A lost default is a change of the value. -/
theorem Agrees.sameOr_iff (hentry : entry ∈ defaults .svg) {before after : Option String}
    (h : Agrees entry lost before after) : SameOr entry.2 before after ↔ lost = false := by
  cases lost with
  | false => exact iff_of_true h rfl
  | true =>
    refine iff_of_false (fun hsame => ?_) nofun
    have heq := hsame.isDefault_eq hentry
    rw [h.1, h.2] at heq
    cases heq

theorem all_isDefault (hentry : entry ∈ defaults .svg) (value : Option String) :
    value.all (isDefault .svg entry.1) = isDefault .svg entry.1 (value.getD entry.2) := by
  cases value with
  | none => exact (isDefault_default hentry).symm
  | some value => rfl

variable {before after : Option String}

theorem sameOr_of_isDefault (hentry : entry ∈ defaults .svg)
    (hbefore : isDefault .svg entry.1 (before.getD entry.2) = true)
    (hafter : isDefault .svg entry.1 (after.getD entry.2) = true) :
    SameOr entry.2 before after :=
  .inr (sameValue_of_isDefault hentry hbefore hafter)

/-- Where no value is removed, the last value is kept. -/
theorem Agrees.getLast?_or (h : Agrees entry lost before after) (values : List String) :
    Agrees entry (lost && values.isEmpty) (values.getLast?.or before)
      (values.getLast?.or after) := by
  cases values with
  | nil =>
    rw [List.isEmpty_nil, Bool.and_true]
    exact h
  | cons value values =>
    rw [List.isEmpty_cons, Bool.and_false, List.getLast?_cons]
    exact .inl rfl

/-- Where all defaults are removed, another value at the end is kept, and a default at the end is
lost if there is another value. -/
theorem agrees_filter_getLast?_or (hentry : entry ∈ defaults .svg)
    (hbefore : isDefault .svg entry.1 (before.getD entry.2) = true)
    (hafter : isDefault .svg entry.1 (after.getD entry.2) = true) (values : List String) :
    Agrees entry
      (values.getLast?.any (isDefault .svg entry.1)
        && values.any fun value => !isDefault .svg entry.1 value)
      (values.getLast?.or before)
      ((values.filter fun value => !isDefault .svg entry.1 value).getLast?.or after) := by
  obtain rfl | ⟨front, last, rfl⟩ := List.eq_nil_or_concat' values
  · exact sameOr_of_isDefault hentry hbefore hafter
  · rw [List.filter_append, List.any_append, List.getLast?_concat, Option.any_some]
    cases hlast : isDefault .svg entry.1 last with
    | false =>
      rw [List.filter_cons_of_pos (by rw [hlast]; rfl), List.filter_nil, List.getLast?_concat]
      exact .inl rfl
    | true =>
      rw [List.filter_cons_of_neg (by rw [hlast]; nofun), List.filter_nil, List.append_nil]
      obtain hnil | ⟨rest, other, hrest⟩ :=
        List.eq_nil_or_concat' (front.filter fun value => !isDefault .svg entry.1 value)
      · have hany : (front.any fun value => !isDefault .svg entry.1 value) = false :=
          List.any_eq_false.2 (List.filter_eq_nil_iff.1 hnil)
        simp only [hnil, hany, List.any_cons, hlast]
        exact sameOr_of_isDefault hentry hlast hafter
      · have hmem : other ∈ front.filter fun value => !isDefault .svg entry.1 value := by
          rw [hrest]
          exact List.mem_append_right _ List.mem_cons_self
        obtain ⟨hfront, hother⟩ := List.mem_filter.1 hmem
        have hany : (front.any fun value => !isDefault .svg entry.1 value) = true :=
          List.any_eq_true.2 ⟨other, hfront, hother⟩
        rw [hany, hrest, List.getLast?_concat]
        exact ⟨hlast, Bool.not_eq_true' _ ▸ hother⟩

/-- What holds of the values around an element holds of the last of the values inside it. -/
theorem Agrees.getLast? (hentry : entry ∈ defaults .svg) {scope scope' : Scope}
    (h : Agrees entry lost (scope.get? entry.1) (scope'.get? entry.1)) (foreign : Attributes)
    (values : List String) :
    Agrees entry (isLost lost scope foreign entry.1 values)
      (values.getLast?.or (scope.get? entry.1))
      ((values.filter fun value =>
          !(isDefault .svg entry.1 value && onlyDefault scope' foreign entry.1)).getLast?.or
        (scope'.get? entry.1)) := by
  cases lost with
  | true =>
    have honly : onlyDefault scope' foreign entry.1 = false := by
      rw [onlyDefault, all_isDefault hentry, h.2, Bool.false_and]
    simp only [honly, Bool.and_false, Bool.not_false, List.filter_true]
    exact h.getLast?_or values
  | false =>
    have hsame : onlyDefault scope' foreign entry.1 = onlyDefault scope foreign entry.1 := by
      rw [onlyDefault, onlyDefault, all_isDefault hentry (scope'.get? _),
        all_isDefault hentry (scope.get? _), SameOr.isDefault_eq hentry h]
    rw [hsame, isLost, if_neg Bool.false_ne_true]
    cases honly : onlyDefault scope foreign entry.1 with
    | false =>
      simp only [Bool.and_false, Bool.not_false, List.filter_true, Bool.false_and]
      exact h.getLast?_or values
    | true =>
      have hbefore : isDefault .svg entry.1 ((scope.get? entry.1).getD entry.2) = true := by
        rw [← all_isDefault hentry]
        exact (Bool.and_eq_true_iff.1 honly).1
      simp only [Bool.and_true, Bool.true_and]
      exact agrees_filter_getLast?_or hentry hbefore
        ((SameOr.isDefault_eq hentry h).symm.trans hbefore) values

/-- The value of a property on an element, in the scopes before and after. -/
theorem Agrees.resolve (hentry : entry ∈ defaults .svg) {scope scope' : Scope}
    (h : Agrees entry lost (scope.get? entry.1) (scope'.get? entry.1)) (foreign : Attributes) :
    Agrees entry (isLost lost scope foreign entry.1 (setValues foreign entry.1))
      (scope.resolve foreign entry.1)
      (scope'.resolve (removeDefaults .svg scope' foreign) entry.1) := by
  rw [Scope.resolve_eq, Scope.resolve_eq, setValues_removeDefaults scope' foreign hentry]
  exact h.getLast? hentry foreign _

/-- The value of a property around what is inside an element, before and after. -/
theorem Agrees.enter (hentry : entry ∈ defaults .svg) {scope scope' : Scope}
    (h : Agrees entry lost (scope.get? entry.1) (scope'.get? entry.1)) (foreign : Attributes) :
    Agrees entry (isLost lost scope foreign entry.1 (handedOn foreign entry.1))
      ((scope.enter foreign).get? entry.1)
      ((scope'.enter (removeDefaults .svg scope' foreign)).get? entry.1) := by
  rw [Scope.get?_enter, Scope.get?_enter, handedOn_removeDefaults scope' foreign hentry]
  exact h.getLast? hentry foreign _

end Agrees

/-! ## Values in a tree -/

mutual

/-- Whether an element, or one inside it, loses the default of a property. -/
def losesDefault (key : String) (scope : Scope) (lost : Bool) : Element → Bool
  | .shape _ label _ => isLost lost scope label.foreign key (setValues label.foreign key)
  | .container _ label children =>
    isLost lost scope label.foreign key (setValues label.foreign key)
      || losesDefaultIn key (scope.enter label.foreign)
        (isLost lost scope label.foreign key (handedOn label.foreign key)) children
  | .text _ => false

/-- Whether one of some elements, or one inside them, loses the default of a property. -/
def losesDefaultIn (key : String) (scope : Scope) (lost : Bool) : List Element → Bool
  | [] => false
  | e :: es => losesDefault key scope lost e || losesDefaultIn key scope lost es

end

/-- Whether the root of a graphic, or an element in it, loses the default of a property. -/
def graphicLosesDefault (key : String) (g : Graphic) : Bool :=
  isLost false {} g.label.foreign key (setValues g.label.foreign key)
    || losesDefaultIn key (Scope.enter {} g.label.foreign)
      (isLost false {} g.label.foreign key (handedOn g.label.foreign key)) g.children

/-- A property has the same value on an element before and after. -/
def KeepsValue (entry : String × String) (before after : Scope × Attributes) : Prop :=
  SameOr entry.2 (before.1.resolve before.2 entry.1) (after.1.resolve after.2 entry.1)

instance (entry : String × String) (before after : Scope × Attributes) :
    Decidable (KeepsValue entry before after) :=
  inferInstanceAs (Decidable (SameOr _ _ _))

/-- What sets no property with a default is the same on an element before and after: attributes
other than the style, and the declarations in the style. -/
def KeepsOthers (before after : Scope × Attributes) : Prop :=
  (∀ key, key ≠ "style" → key ∉ defaultKeys → after.2.get? key = before.2.get? key)
    ∧ (declared after.2).filter (fun d => d.1 ∉ defaultKeys)
      = (declared before.2).filter fun d => d.1 ∉ defaultKeys

theorem keepsOthers_removeDefaults (scope scope' : Scope) (foreign : Attributes) :
    KeepsOthers (scope, foreign) (scope', removeDefaults .svg scope' foreign) := by
  constructor
  · intro key hstyle hkey
    rw [get?_removeDefaults scope' foreign hstyle, filter_not_isRedundant hkey]
  · rw [declared_removeDefaults, List.filter_filter]
    refine List.filter_congr fun d _ => ?_
    by_cases hkey : d.1 ∈ defaultKeys
    · simp [hkey]
    · simp [hkey, keepsDeclaration, isRedundant_eq_false hkey]

section Places

variable {edit : Scope → Attributes → Attributes}

mutual

theorem length_places_mapAttributes (scope scope' : Scope) : ∀ e : Element,
    (e.places scope).length = ((mapAttributes edit scope' e).places scope').length
  | .shape .. => rfl
  | .container .. => congrArg (· + 1) (length_placesIn_mapAttributes _ _ _)
  | .text _ => rfl

theorem length_placesIn_mapAttributes (scope scope' : Scope) : ∀ es : List Element,
    (Element.placesIn scope es).length
      = (Element.placesIn scope' (mapAttributesIn edit scope' es)).length
  | [] => rfl
  | e :: es => by
    rw [mapAttributesIn, Element.placesIn, Element.placesIn, List.length_append,
      List.length_append, length_places_mapAttributes scope scope' e,
      length_placesIn_mapAttributes scope scope' es]

end

variable {R : Scope × Attributes → Scope × Attributes → Prop}

theorem forall₂_append_iff {α β : Type} {R : α → β → Prop} {l₁ l₂ : List α} {m₁ m₂ : List β}
    (h : l₁.length = m₁.length) :
    List.Forall₂ R (l₁ ++ l₂) (m₁ ++ m₂) ↔ List.Forall₂ R l₁ m₁ ∧ List.Forall₂ R l₂ m₂ := by
  induction l₁ generalizing m₁ with
  | nil =>
    rw [List.length_nil] at h
    rw [List.length_eq_zero_iff.1 h.symm]
    simp
  | cons a l₁ ih =>
    cases m₁ with
    | nil => cases h
    | cons b m₁ => simp [ih (Nat.succ.inj h), and_assoc]

mutual

/-- What an edit of attributes does everywhere shows at every place. -/
theorem forall₂_places (h : ∀ scope scope' foreign,
      R (scope, foreign) (scope', edit scope' foreign)) (scope scope' : Scope) : ∀ e : Element,
    List.Forall₂ R (e.places scope) ((mapAttributes edit scope' e).places scope')
  | .shape .. => .cons (h _ _ _) .nil
  | .container .. => .cons (h _ _ _) (forall₂_placesIn h _ _ _)
  | .text _ => .nil

theorem forall₂_placesIn (h : ∀ scope scope' foreign,
      R (scope, foreign) (scope', edit scope' foreign)) (scope scope' : Scope) :
    ∀ es : List Element, List.Forall₂ R (Element.placesIn scope es)
      (Element.placesIn scope' (mapAttributesIn edit scope' es))
  | [] => .nil
  | e :: es => (forall₂_append_iff (length_places_mapAttributes scope scope' e)).2
    ⟨forall₂_places h scope scope' e, forall₂_placesIn h scope scope' es⟩

end

end Places

section Tree

variable {entry : String × String}

mutual

/-- A property keeps its value on an element and on all elements inside it, unless one of them
loses the default. -/
theorem keepsValue_places_iff (hentry : entry ∈ defaults .svg) :
    ∀ {scope scope' : Scope} {lost : Bool},
    Agrees entry lost (scope.get? entry.1) (scope'.get? entry.1) → ∀ e : Element,
    (List.Forall₂ (KeepsValue entry) (e.places scope)
        ((mapAttributes (removeDefaults .svg) scope' e).places scope')
      ↔ losesDefault entry.1 scope lost e = false)
  | _, _, _, h, .shape _ label _ => by
    rw [mapAttributes, Element.places, Element.places, List.forall₂_cons, losesDefault]
    exact (and_iff_left .nil).trans ((h.resolve hentry label.foreign).sameOr_iff hentry)
  | _, _, _, h, .container _ label children => by
    rw [mapAttributes, Element.places, Element.places, List.forall₂_cons, losesDefault,
      Bool.or_eq_false_iff]
    exact and_congr ((h.resolve hentry label.foreign).sameOr_iff hentry)
      (keepsValue_placesIn_iff hentry (h.enter hentry label.foreign) children)
  | _, _, _, _, .text _ => iff_of_true .nil rfl

theorem keepsValue_placesIn_iff (hentry : entry ∈ defaults .svg) :
    ∀ {scope scope' : Scope} {lost : Bool},
    Agrees entry lost (scope.get? entry.1) (scope'.get? entry.1) → ∀ es : List Element,
    (List.Forall₂ (KeepsValue entry) (Element.placesIn scope es)
        (Element.placesIn scope' (mapAttributesIn (removeDefaults .svg) scope' es))
      ↔ losesDefaultIn entry.1 scope lost es = false)
  | _, _, _, _, [] => iff_of_true .nil rfl
  | _, _, _, h, e :: es => by
    rw [mapAttributesIn, Element.placesIn, Element.placesIn,
      forall₂_append_iff (length_places_mapAttributes _ _ e), losesDefaultIn, Bool.or_eq_false_iff]
    exact and_congr (keepsValue_places_iff hentry h e) (keepsValue_placesIn_iff hentry h es)

end

/-- A group that keeps its value may still let another value through to what is inside it. -/
example :
    let style := "stroke-width:3;stroke-width:1;stroke-width:inherit"
    let label : Label := { foreign := .ofList [("style", style)] }
    losesDefault "stroke-width" {} false (.group .identity label []) = false
      ∧ losesDefault "stroke-width" {} false
        (.group .identity label [.shape .painted {} []]) = true := by
  decide +kernel

end Tree

/-- In an SVG graphic, removing the default values keeps the value of a property on the root and
on every element, unless the default of the property is lost on one of them; and it never touches
what sets no property with a default. -/
theorem removeDefaults_keeps_values_iff (o : Options) (label : Label) (children : List Element) :
    let before : Graphic := { format := .svg, label, children }
    let after := (Pass.removeDefaults.run o before).value
    (∀ entry ∈ defaults .svg, List.Forall₂ (KeepsValue entry) before.places after.places
        ↔ graphicLosesDefault entry.1 before = false)
      ∧ List.Forall₂ KeepsOthers before.places after.places := by
  refine ⟨fun entry hentry => ?_, ?_⟩
  · have hroot : Agrees entry false (Scope.get? {} entry.1) (Scope.get? {} entry.1) := .inl rfl
    exact keepsValue_places_iff hentry hroot (.container (.extra "svg") label children)
  · exact .cons (keepsOthers_removeDefaults _ _ _)
      (forall₂_placesIn keepsOthers_removeDefaults _ _ _)

/-- The last declaration of a property counts, but it goes if it is the default, and then an
earlier one counts. -/
theorem last_declaration_is_lost :
    ∃ before,
      Yields (read "<svg><rect style=\"stroke-width:3;stroke-width:1\"/></svg>") before
        ∧ before.format = .svg
        ∧ ∃ entry ∈ defaults .svg, ¬List.Forall₂ (KeepsValue entry) before.places
            (Pass.removeDefaults.run {} before).value.places := by
  decide +kernel

end VectorGraphics.Optimizer
