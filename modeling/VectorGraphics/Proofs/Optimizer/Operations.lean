import VectorGraphics.Optimizer.Pass
import VectorGraphics.Proofs.Conversion.Soundness
import VectorGraphics.Proofs.Graphic.Documents
import VectorGraphics.Proofs.Optimizer.Soundness

/-!
# Graphics stay tidy

Whatever passes and conversions are run on a graphic that was read, and in whatever order, its
paths are empty or begin with a move, no drawing command is empty, and neither path data nor a
transform is among the attributes of an element that has it already (`tidy_after_operations`).
-/

namespace VectorGraphics.Optimizer

open Reading

/-! ## Operations -/

/-- What can be done to a graphic. -/
inductive Operation
  /-- Running a pass, whether or not the options ask for it. -/
  | pass (o : Options) (p : Pass)
  /-- Conversion to a format. -/
  | convert (target : Format)

/-- The graphic after an operation. -/
def Operation.run (g : Graphic) : Operation → Logged Graphic
  | .pass o p => p.run o g
  | .convert target => Conversion.convert target g

/-- An operation keeps graphics tidy. -/
theorem Operation.tidy_run {g : Graphic} (h : g.Tidy) (op : Operation) : (op.run g).value.Tidy := by
  cases op with
  | pass o p => exact Pass.tidy_apply h o p
  | convert target => exact Conversion.tidy_convert h target

/-- A run of operations keeps graphics tidy. -/
theorem tidy_foldlM {g : Graphic} (h : g.Tidy) (ops : List Operation) :
    (ops.foldlM Operation.run g).value.Tidy := by
  induction ops generalizing g with
  | nil => exact h
  | cons op ops ih =>
    rw [List.foldlM_cons]
    exact ih (op.tidy_run h)

/-- **Graphics stay tidy.** After any run of passes and conversions on a graphic that was read,
every path is empty or begins with a move, every drawing command has a group, no attribute of a path
holds path data, and no group has both a transform and an attribute that holds one. -/
theorem tidy_after_operations {s : String} {g : Graphic} (hread : Yields (read s) g)
    (ops : List Operation) :
    ∀ e ∈ (ops.foldlM Operation.run g).value.elements,
      e.IsTidy (ops.foldlM Operation.run g).value.format :=
  (tidy_foldlM (tidy_read hread) ops).isTidy

/-- A scaled path becomes a vector drawable, is baked and becomes SVG again. -/
theorem scaled_path_stays_tidy :
    ∃ g, Yields (read "<svg><g transform=\"scale(2)\"><path d=\"m1 1h2\"/></g></svg>") g
      ∧ ∀ e ∈ ([.convert .vectorDrawable, .pass {} .bakeTransforms, .convert .svg].foldlM
          Operation.run g).value.elements, e.IsTidy .svg := by
  obtain ⟨g, hread⟩ : Succeeds
      (read "<svg><g transform=\"scale(2)\"><path d=\"m1 1h2\"/></g></svg>") := by
    decide +kernel
  have htidy := tidy_after_operations hread
    [.convert .vectorDrawable, .pass {} .bakeTransforms, .convert .svg]
  have hformat : ([.convert .vectorDrawable, .pass {} .bakeTransforms, .convert .svg].foldlM
      Operation.run g).value.format = .svg := Conversion.format_convert .svg _
  rw [hformat] at htidy
  exact ⟨g, hread, htidy⟩

end VectorGraphics.Optimizer
