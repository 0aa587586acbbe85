import VectorGraphics.Proofs.Graphic.Legibility

/-!
# Tidy graphics

A graphic is tidy if nothing of it is stored twice: path data is in the commands of a path and not
among its attributes, and a group has a transform or an attribute with one, but not both. Its paths
are empty or begin with a move, and all their drawing commands draw something.

`ReadsAs` is what a property of elements has to satisfy to be true of whatever is read; being sound
and being tidy do, and so does clipping as the format does (`native`).
-/

namespace VectorGraphics

/-- The transform of a group is known or left among its attributes. -/
def OneTransform (format : Format) (m : Matrix) (foreign : Attributes) : Prop :=
  m.isIdentity = true ∨ foreign.Keys (· ∉ format.transformKeys)

/-- A container as there is one in a format, whose transform is in one place. -/
def HasOneTransform (format : Format) (foreign : Attributes) : Role → Prop
  | .group m => OneTransform format m foreign
  | .clipGroup => format = .svg
  | .extra _ => True

/-- Being tidy, as a property of elements. -/
def tidy (format : Format) : ElementProperty where
  shape _ label commands := label.foreign.Keys (· ≠ format.pathDataKey) ∧ Path.IsPath commands
  container role label := HasOneTransform format label.foreign role

/-- Everything inside a graphic is tidy. -/
def Graphic.Tidy (g : Graphic) : Prop := (tidy g.format).HoldsAll g.children

/-- What being tidy says of an element. -/
structure Element.IsTidy (format : Format) (e : Element) : Prop where
  /-- A path is empty or begins with a move. -/
  move : ∀ {use label commands}, e = .shape use label commands →
    ∀ c, commands.head? = some c → c.isKind .move = true
  /-- Every drawing command of a path has a group. -/
  groups : ∀ {use label commands}, e = .shape use label commands →
    ∀ (k : Path.Kind) (m : Path.Mode) (gs : List k.Group), .draw k m gs ∈ commands → gs ≠ []
  /-- No attribute of a path holds path data. -/
  data : ∀ {use label commands}, e = .shape use label commands →
    label.foreign.contains format.pathDataKey = false
  /-- No attribute of a group holds a transform besides the one that the group has. -/
  transform : ∀ {m label children}, e = .group m label children →
    m.isIdentity = true ∨ ∀ key ∈ format.transformKeys, label.foreign.contains key = false

theorem Graphic.Tidy.isTidy {g : Graphic} (h : g.Tidy) : ∀ e ∈ g.elements, e.IsTidy g.format := by
  intro e he
  have hhere := ElementProperty.holdsAll_iff_descendants.1 h e he
  refine ⟨?_, ?_, ?_, ?_⟩
  · rintro use label commands rfl
    exact hhere.2.move
  · rintro use label commands rfl k m gs hmem
    exact hhere.2.groups_ne_nil hmem
  · rintro use label commands rfl
    exact hhere.1.contains_eq_false fun hne => hne rfl
  · rintro m label children rfl
    exact hhere.imp_right fun hkeys key hkey => hkeys.contains_eq_false fun hnot => hnot hkey

/-! ## Ways to clip -/

/-- Being of a format, as a property of elements: only a vector drawable has paths that clip what
follows them, and only SVG has clip groups. -/
def native (format : Format) : ElementProperty where
  shape use _ _ := use = .clipping → format = .vectorDrawable
  container role _ := role = .clipGroup → format = .svg

/-! ## Reading -/

section Reading

open Markup (HasNames)

/-- A property is true of every element that is read from a tag of some kind. -/
structure ReadsAs (P : ElementProperty) (format : Format)
    (tag : String → List (String × String) → Prop) : Prop where
  group : ∀ {name attributes m l}, tag name attributes →
    (∀ p, (Label.ofAttributes format.idKey attributes).foreign.Keys p → l.foreign.Keys p) →
    OneTransform format m l.foreign → P.container (.group m) l
  shape : ∀ {name attributes use commands}, tag name attributes →
    (use = .clipping → format = .vectorDrawable) → Path.IsPath commands →
    P.shape use
      { Label.ofAttributes format.idKey attributes with
        foreign := (Label.ofAttributes format.idKey attributes).foreign.erase format.pathDataKey }
      commands
  clipGroup : ∀ {name attributes}, tag name attributes → format = .svg →
    P.container .clipGroup (.ofAttributes format.idKey attributes)
  extra : ∀ {name attributes}, tag name attributes →
    P.container (.extra name) (.ofAttributes format.idKey attributes)

theorem readsAs_sound (format : Format) : ReadsAs (sound format) format HasNames where
  group htag hkeys _ := ⟨hkeys _ (Label.keys_foreign_ofAttributes htag.keys), trivial⟩
  shape htag _ hpath := ⟨keys_erase (Label.keys_foreign_ofAttributes htag.keys), hpath⟩
  clipGroup htag hformat := ⟨Label.keys_foreign_ofAttributes htag.keys, hformat⟩
  extra htag := ⟨Label.keys_foreign_ofAttributes htag.keys, htag.name⟩

theorem readsAs_tidy (format : Format) : ReadsAs (tidy format) format fun _ _ => True where
  group _ _ htransform := htransform
  shape _ _ hpath := ⟨Attributes.keys_erase_ne _ _, hpath⟩
  clipGroup _ hformat := hformat
  extra _ := trivial

theorem readsAs_native (format : Format) : ReadsAs (native format) format fun _ _ => True where
  group _ _ _ := nofun
  shape _ huse _ := huse
  clipGroup _ hformat _ := hformat
  extra _ := nofun

end Reading

end VectorGraphics
