import VectorGraphics.Proofs.Graphic.Labels
import VectorGraphics.Proofs.Graphic.Properties
import VectorGraphics.Proofs.Markup.Tags
import VectorGraphics.Proofs.Path.Openings

/-!
# Sound graphics

A graphic is sound if its names and the names of its attributes are names of markup, if its paths
begin with a move, if path data is in the commands of a path and not among its attributes, and if
clip groups are in SVG only.
-/

namespace VectorGraphics

open Markup (IsName)

/-- The names of attributes that may stand on a path. -/
def IsPathKey (format : Format) (key : String) : Prop := IsName key ∧ key ≠ format.pathDataKey

/-- A container that there is in a format, under a name that can be written. -/
def IsRole (format : Format) : Role → Prop
  | .group _ => True
  | .clipGroup => format = .svg
  | .extra name => IsName name

/-- Being sound, as a property of elements. -/
def sound (format : Format) : ElementProperty where
  shape _ label commands := label.foreign.Keys (IsPathKey format) ∧ Path.IsPath commands
  container role label := label.foreign.Keys IsName ∧ IsRole format role

/-- Being sound, for the root and everything inside it. -/
structure Graphic.Sound (g : Graphic) : Prop where
  root : g.label.foreign.Keys IsName
  children : (sound g.format).HoldsAll g.children

instance (format : Format) (key : String) : Decidable (IsPathKey format key) :=
  inferInstanceAs (Decidable (_ ∧ _))

/-- The attributes of a path are what is left without the path data. -/
theorem keys_erase {format : Format} {foreign : Attributes} (h : foreign.Keys IsName) :
    (foreign.erase format.pathDataKey).Keys (IsPathKey format) := by
  intro entry hmem
  obtain ⟨hentry, hne⟩ := List.mem_filter.1 hmem
  exact ⟨h entry hentry, bne_iff_ne.1 hne⟩

end VectorGraphics
