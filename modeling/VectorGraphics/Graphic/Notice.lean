import VectorGraphics.Text.Quoted

/-!
# Notices

Reading, optimizing and converting a graphic notes what is left alone, merged or lost. A `Logged`
value carries the notices made on the way to it, in order; its value does not depend on them.
-/

namespace VectorGraphics

/-- How much a notice matters. -/
inductive Level
  /-- Something of the drawing is lost. -/
  | warning
  /-- Something is done or left alone. -/
  | detail
  deriving DecidableEq, Repr

/-- What happened on the way to a result. -/
inductive Notice
  /-- A group transform that cannot be read stays an attribute. -/
  | keptTransform (value : String)
  /-- Group transform attributes stay because one of them is no number. -/
  | keptTransformKey (key value : String)
  /-- A pass begins. -/
  | running (pass : String)
  /-- Siblings were merged. -/
  | merged (before after : Nat)
  /-- A group is replaced by its children. -/
  | collapsed (children : Nat)
  /-- A group keeps its transform. -/
  | notBaked (id : Option String) (reason : String)
  /-- An element without a drawing is left out. -/
  | omitted (name : String)
  /-- Something other than a path in a clip path is left out. -/
  | ignoredClipContent
  | droppedAttribute (kind key value : String)
  | droppedGroupTransform
  | droppedPathTransform (value : String)
  | droppedElement (name : String)
  /-- A reference to a clip path that does not exist. -/
  | unknownClip (id : String)
  | unsupportedPaint (value : String)
  | unsupportedColor (value : String)
  deriving DecidableEq, Repr

namespace Notice

/-- The level of a notice. -/
def level : Notice → Level
  | keptTransform _ | keptTransformKey .. | running _ | merged .. | collapsed _ | notBaked ..
  | omitted _ | ignoredClipContent => .detail
  | droppedAttribute .. | droppedGroupTransform | droppedPathTransform _ | droppedElement _
  | unknownClip _ | unsupportedPaint _ | unsupportedColor _ => .warning

/-- An identifier that may be missing. -/
def identifier : Option String → String
  | some id => s!"Some({Text.quoted id})"
  | none => "None"

/-- The notice in words. -/
def message : Notice → String
  | keptTransform value => s!"keeping unparsed group transform {Text.quoted value}"
  | keptTransformKey key value =>
    s!"group transform {key}={Text.quoted value} is not a literal, leaving it in place"
  | running pass => s!"running {pass}"
  | merged before after => s!"merged {before} siblings into {after}"
  | collapsed children => s!"collapsing group with {children} children"
  | notBaked id reason => s!"not baking group {identifier id}: {reason}"
  | omitted name => s!"dropping <{name}> element"
  | ignoredClipContent => "ignoring non-path clip content"
  | droppedAttribute kind key value =>
    s!"dropping {kind} attribute {key}={Text.quoted value} with no counterpart"
  | droppedGroupTransform => "dropping unparsed group transform"
  | droppedPathTransform value => s!"dropping unparsed path transform {Text.quoted value}"
  | droppedElement name => s!"dropping <{name}> element with no counterpart"
  | unknownClip id => s!"dropping clip-path reference to unknown {Text.quoted id}"
  | unsupportedPaint value => s!"dropping unsupported paint {Text.quoted value}"
  | unsupportedColor value => s!"dropping unsupported color {Text.quoted value}"

end Notice

/-! ## Values with notices -/

/-- A value with the notices made on the way to it. -/
structure Logged (α : Type) where
  value : α
  notices : List Notice

namespace Logged

instance : Monad Logged where
  pure a := ⟨a, []⟩
  bind x f :=
    let y := f x.value
    ⟨y.value, x.notices ++ y.notices⟩

/-- Makes a notice. -/
def note (n : Notice) : Logged Unit := ⟨(), [n]⟩

/-- Makes some notices. -/
def noteAll (ns : List Notice) : Logged Unit := ⟨(), ns⟩

@[simp] theorem value_pure {α : Type} (a : α) : (pure a : Logged α).value = a := rfl

@[simp] theorem value_bind {α β : Type} (x : Logged α) (f : α → Logged β) :
    (x >>= f).value = (f x.value).value := rfl

@[simp] theorem value_map {α β : Type} (f : α → β) (x : Logged α) :
    (f <$> x).value = f x.value := rfl

@[simp] theorem value_note (n : Notice) : (note n).value = () := rfl

@[simp] theorem notices_pure {α : Type} (a : α) : (pure a : Logged α).notices = [] := rfl

@[simp] theorem notices_bind {α β : Type} (x : Logged α) (f : α → Logged β) :
    (x >>= f).notices = x.notices ++ (f x.value).notices := rfl

@[simp] theorem notices_note (n : Notice) : (note n).notices = [n] := rfl

instance : LawfulMonad Logged :=
  LawfulMonad.mk' Logged (fun x => by cases x; simp [Functor.map])
    (fun a f => by simp [bind, pure]) (fun x f g => by simp [bind, List.append_assoc])

end Logged

end VectorGraphics
