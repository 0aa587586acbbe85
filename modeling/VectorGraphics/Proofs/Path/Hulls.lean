import VectorGraphics.Path.Bounds
import VectorGraphics.Proofs.Number.Extremes
import VectorGraphics.Proofs.Path.Outline

/-!
# The points that span a path

The points around which the box of a path is put are those of its segments, one after another
(`hullFrom_eq`). So they are read off the outline, and the box of two paths drawn one after the
other is the smallest around both of their boxes (`Bounds.ofPath?_append_appendable`).
-/

namespace VectorGraphics.Path

/-- The points that span a segment, apart from its start. -/
def Segment.hull : Segment → List Point
  | .move p | .line _ p => [p]
  | .cubic _ c d p => [c, d, p]
  | .quadratic _ c p => [c, p]
  | .arc start g => arcHull start [g]
  | .close .. => []

/-! ## The points of an outline -/

/-- Segments whose points do not depend on where they start are spanned by those of their
groups. -/
theorem Kind.flatMap_hull_chain (k : Kind) {draw : Point → k.Group → Segment}
    {points : k.Group → List Point} (h : ∀ start g, (draw start g).hull = points g) (start : Point)
    (gs : List k.Group) : (k.chain draw start gs).flatMap Segment.hull = gs.flatMap points := by
  induction gs generalizing start with
  | nil => rfl
  | cons g gs ih => rw [chain, List.flatMap_cons, List.flatMap_cons, h, ih]

theorem flatMap_hull_line (start : Point) (ps : List Point) :
    (Kind.line.chain .line start ps).flatMap Segment.hull = ps := by
  rw [Kind.line.flatMap_hull_chain (by intro _ p; exact Eq.refl [p]), List.flatMap_singleton']

theorem flatMap_hull_horizontal (start : Point) (xs : List Single) :
    (Kind.horizontal.chain (fun start x => .line start ⟨x, start.y⟩) start xs).flatMap Segment.hull
      = xs.map fun x => ⟨x, start.y⟩ := by
  induction xs generalizing start with
  | nil => rfl
  | cons x xs ih => exact congrArg (⟨x, start.y⟩ :: ·) (ih ⟨x, start.y⟩)

theorem flatMap_hull_vertical (start : Point) (ys : List Single) :
    (Kind.vertical.chain (fun start y => .line start ⟨start.x, y⟩) start ys).flatMap Segment.hull
      = ys.map fun y => ⟨start.x, y⟩ := by
  induction ys generalizing start with
  | nil => rfl
  | cons y ys ih => exact congrArg (⟨start.x, y⟩ :: ·) (ih ⟨start.x, y⟩)

theorem flatMap_hull_smoothCubics (implied start : Point) (gs : List SmoothCubicGroup) :
    (smoothCubics implied start gs).flatMap Segment.hull = smoothCubicHull implied gs := by
  induction gs generalizing implied start with
  | nil => rfl
  | cons g gs ih => exact congrArg (implied :: g.control2 :: g.stop :: ·) (ih _ _)

theorem flatMap_hull_smoothQuadratics (control start : Point) (ps : List Point) :
    (smoothQuadratics control start ps).flatMap Segment.hull = smoothQuadraticHull control ps := by
  induction ps generalizing control start with
  | nil => rfl
  | cons p ps ih => exact congrArg (control :: p :: ·) (ih _ _)

theorem flatMap_hull_arc (start : Point) (gs : List ArcGroup) :
    (Kind.arc.chain .arc start gs).flatMap Segment.hull = arcHull start gs := by
  induction gs generalizing start with
  | nil => rfl
  | cons g gs ih => exact congrArg (_ :: _ :: g.stop :: ·) (ih g.stop)

/-- The points that span an absolute command are those of what it draws. -/
theorem flatMap_hull_segments (pen : Pen) (r : Reflection) (c : Command) :
    (c.segments pen r).flatMap Segment.hull = hull pen.point r c := by
  cases c with
  | close => rfl
  | draw k m gs =>
    cases k with
    | move =>
      cases gs with
      | nil => rfl
      | cons p ps => exact congrArg (p :: ·) (flatMap_hull_line p ps)
    | line => exact flatMap_hull_line pen.point gs
    | horizontal => exact flatMap_hull_horizontal pen.point gs
    | vertical => exact flatMap_hull_vertical pen.point gs
    | smoothCubic => exact flatMap_hull_smoothCubics _ _ gs
    | smoothQuadratic => exact flatMap_hull_smoothQuadratics _ _ gs
    | arc => exact flatMap_hull_arc pen.point gs
    | _ => exact Kind.flatMap_hull_chain _ (by intro _ _; rfl) pen.point gs

theorem hullFrom_eq (pen : Pen) (r : Reflection) (cs : List Command) :
    hullFrom pen r cs = (outlineFrom pen r cs).flatMap Segment.hull := by
  induction cs generalizing pen r with
  | nil => rfl
  | cons c cs ih => rw [hullFrom, outlineFrom, List.flatMap_append, flatMap_hull_segments, ← ih]

/-- The box of a path is that of the points of its outline. -/
theorem Bounds.ofPath?_eq (cs : List Command) :
    Bounds.ofPath? cs = Bounds.ofPoints? ((outline cs).flatMap Segment.hull) :=
  congrArg Bounds.ofPoints? (hullFrom_eq {} {} cs)

/-! ## Boxes -/

namespace Bounds

variable {b c : Bounds} {p : Point} {ps : List Point}

/-- The smallest box around two boxes. -/
def cover (b c : Bounds) : Bounds :=
  ⟨⟨b.low.x.min c.low.x, b.low.y.min c.low.y⟩, ⟨b.high.x.max c.high.x, b.high.y.max c.high.y⟩⟩

theorem cover_insert (b c : Bounds) (p : Point) : b.cover (c.insert p) = (b.cover c).insert p := by
  simp only [cover, insert, Single.min_assoc, Single.max_assoc]

theorem foldl_insert_cover (b c : Bounds) (ps : List Point) :
    ps.foldl insert (b.cover c) = b.cover (ps.foldl insert c) := by
  induction ps generalizing c with
  | nil => rfl
  | cons p ps ih => rw [List.foldl_cons, List.foldl_cons, ← cover_insert, ih]

/-- Some points more. -/
theorem ofPoints?_append {ps qs : List Point} (hps : ofPoints? ps = some b)
    (hqs : ofPoints? qs = some c) : ofPoints? (ps ++ qs) = some (b.cover c) := by
  match ps, qs with
  | p :: ps, q :: qs =>
    obtain rfl := Option.some.inj hps
    obtain rfl := Option.some.inj hqs
    rw [List.cons_append, ofPoints?, List.foldl_append, List.foldl_cons, ← foldl_insert_cover]
    rfl

/-- The box of two paths drawn one after the other. -/
theorem ofPath?_append_appendable {cs ds : List Command} (hmove : BeginsWithMove ds)
    (hcs : ofPath? cs = some b) (hds : ofPath? ds = some c) :
    ofPath? (cs ++ Optimizer.Run.appendable ds) = some (b.cover c) := by
  rw [ofPath?_eq] at hcs hds ⊢
  rw [outline, outlineFrom_append, outlineFrom_appendable hmove, List.flatMap_append]
  exact ofPoints?_append hcs hds

/-! ## What a box contains -/

/-- The coordinates of a point are between those of the corners. -/
structure Contains (b : Bounds) (p : Point) : Prop where
  low_x : b.low.x ≤ p.x
  low_y : b.low.y ≤ p.y
  x_high : p.x ≤ b.high.x
  y_high : p.y ≤ b.high.y

theorem Contains.insert (h : b.Contains p) (q : Point) : (b.insert q).Contains p :=
  ⟨Single.min_le_of_left_le h.low_x, Single.min_le_of_left_le h.low_y,
    Single.le_max_of_le_left h.x_high, Single.le_max_of_le_left h.y_high⟩

theorem Contains.foldl_insert (h : b.Contains p) (qs : List Point) :
    (qs.foldl Bounds.insert b).Contains p := by
  induction qs generalizing b with
  | nil => exact h
  | cons q qs ih => exact ih (h.insert q)

/-- The box of some points contains the first one. -/
theorem contains_of_ofPoints? (hx : p.x.isNaN = false) (hy : p.y.isNaN = false)
    (h : ofPoints? (p :: ps) = some b) : b.Contains p := by
  obtain rfl := Option.some.inj h
  have hself : (ofPoint p).Contains p :=
    ⟨Single.le_rfl hx, Single.le_rfl hy, Single.le_rfl hx, Single.le_rfl hy⟩
  exact hself.foldl_insert ps

end Bounds

end VectorGraphics.Path
