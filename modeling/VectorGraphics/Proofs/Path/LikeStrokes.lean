import VectorGraphics.Proofs.Path.Likeness
import VectorGraphics.Proofs.Path.Strokes

/-!
# Paths with strokes that are alike

Groups of absolute commands are in the same places if their coordinates are alike and all their
other parameters are equal (`Kind.Alike`), which is more than having alike numbers. From pens and
last control points that are alike, such commands draw strokes that are alike and leave the pens and
the last control points alike (`Command.SamePlaces.strokes`, `Command.SamePlaces.alike`,
`Command.SamePlaces.update`).
-/

namespace VectorGraphics.Path

/-! ## What may be alike -/

/-- The coordinates of the groups are alike, and what else they hold is equal. -/
def Kind.Alike : (k : Kind) → k.Group → k.Group → Prop
  | .move, p, q | .line, p, q | .smoothQuadratic, p, q => Point.Alike p q
  | .horizontal, v, w | .vertical, v, w => Single.Alike v w
  | .cubic, g, h =>
    g.control1.Alike h.control1 ∧ g.control2.Alike h.control2 ∧ g.stop.Alike h.stop
  | .smoothCubic, g, h => g.control2.Alike h.control2 ∧ g.stop.Alike h.stop
  | .quadratic, g, h => g.control.Alike h.control ∧ g.stop.Alike h.stop
  | .arc, g, h => { g with stop := h.stop } = h ∧ g.stop.Alike h.stop

/-- The segments are of one kind, their points are alike, and arcs have the same ellipse and
flags. -/
inductive Segment.Alike : Segment → Segment → Prop
  | move {p q : Point} (h : p.Alike q) : Alike (.move p) (.move q)
  | line {s s' p q : Point} (hs : s.Alike s') (h : p.Alike q) : Alike (.line s p) (.line s' q)
  | cubic {s s' c c' d d' p q : Point} (hs : s.Alike s') (hc : c.Alike c') (hd : d.Alike d')
      (h : p.Alike q) : Alike (.cubic s c d p) (.cubic s' c' d' q)
  | quadratic {s s' c c' p q : Point} (hs : s.Alike s') (hc : c.Alike c') (h : p.Alike q) :
    Alike (.quadratic s c p) (.quadratic s' c' q)
  | arc {s s' : Point} {a b : ArcGroup} (hs : s.Alike s') (h : Kind.arc.Alike a b) :
    Alike (.arc s a) (.arc s' b)
  | close {s s' p q : Point} (hs : s.Alike s') (h : p.Alike q) : Alike (.close s p) (.close s' q)

/-- The strokes are of one kind and alike. -/
structure Stroke.Alike (s t : Stroke) : Prop where
  kind? : s.kind? = t.kind?
  start : s.start.Alike t.start
  segment : s.segment.Alike t.segment

/-- There are the same last control points, up to likeness. -/
structure Reflection.Alike (r s : Reflection) : Prop where
  cubic : Option.Rel Point.Alike r.cubic s.cubic
  quadratic : Option.Rel Point.Alike r.quadratic s.quadratic

/-- Absolute commands of one kind with groups that are alike. -/
inductive Command.SamePlaces : Command → Command → Prop
  | draw {k : Kind} {gs hs : List k.Group} (h : List.Forall₂ k.Alike gs hs) :
    SamePlaces (.draw k .absolute gs) (.draw k .absolute hs)
  | close : SamePlaces .close .close

/-! ## Groups -/

theorem Kind.Alike.refl (k : Kind) (g : k.Group) : k.Alike g g := by
  cases k with
  | move | line | smoothQuadratic => exact Point.Alike.refl g
  | horizontal | vertical => exact Single.Alike.refl g
  | cubic => exact ⟨.refl _, .refl _, .refl _⟩
  | smoothCubic | quadratic => exact ⟨.refl _, .refl _⟩
  | arc => exact ⟨rfl, .refl _⟩

theorem Reflection.reflect_alike {c d : Option Point} {p q : Point} (h : Option.Rel Point.Alike c d)
    (hp : p.Alike q) : (reflect c p).Alike (reflect d q) := by
  cases h with
  | none => exact hp
  | some h => exact (hp.mul_right 2).sub h

namespace Kind.Alike

variable {k : Kind} {g h : k.Group} {p q : Point} {r s : Reflection}

theorem numbers (hg : k.Alike g h) :
    List.Forall₂ Single.Alike (k.numbers g) (k.numbers h) := by
  cases k with
  | move | line | smoothQuadratic => exact .cons hg.x (.cons hg.y .nil)
  | horizontal | vertical => exact .cons hg .nil
  | cubic =>
    obtain ⟨h₁, h₂, h⟩ := hg
    exact .cons h₁.x (.cons h₁.y (.cons h₂.x (.cons h₂.y (.cons h.x (.cons h.y .nil)))))
  | smoothCubic | quadratic =>
    obtain ⟨h₁, h⟩ := hg
    exact .cons h₁.x (.cons h₁.y (.cons h.x (.cons h.y .nil)))
  | arc =>
    obtain ⟨hsame, hstop⟩ := hg
    rw [← hsame]
    exact .cons (.refl _) (.cons (.refl _) (.cons (.refl _) (.cons (.refl _) (.cons (.refl _)
      (.cons hstop.x (.cons hstop.y .nil))))))

theorem land (hg : k.Alike g h) (hp : p.Alike q) :
    (k.land .absolute p g).Alike (k.land .absolute q h) :=
  Kind.land_alike .absolute hp hg.numbers

theorem segment (hg : k.Alike g h) (hp : p.Alike q) (hr : r.Alike s) :
    (k.segment r p g).Alike (k.segment s q h) := by
  cases k with
  | move => exact .move hg
  | line => exact .line hp hg
  | horizontal => exact .line hp ⟨hg, hp.y⟩
  | vertical => exact .line hp ⟨hp.x, hg⟩
  | cubic => exact .cubic hp hg.1 hg.2.1 hg.2.2
  | smoothCubic => exact .cubic hp (Reflection.reflect_alike hr.cubic hp) hg.1 hg.2
  | quadratic => exact .quadratic hp hg.1 hg.2
  | smoothQuadratic => exact .quadratic hp (Reflection.reflect_alike hr.quadratic hp) hg
  | arc => exact .arc hp hg

/-- The last control point after one group. -/
theorem update (hg : k.Alike g h) (hp : p.Alike q) (hr : r.Alike s) :
    (r.update p (.draw k .absolute [g])).Alike (s.update q (.draw k .absolute [h])) := by
  cases k with
  | cubic => exact ⟨.some hg.2.1, .none⟩
  | smoothCubic => exact ⟨.some hg.1, .none⟩
  | quadratic => exact ⟨.none, .some hg.1⟩
  | smoothQuadratic => exact ⟨.none, .some (Reflection.reflect_alike hr.quadratic hp)⟩
  | _ => exact ⟨.none, .none⟩

end Kind.Alike

section

variable {k : Kind} {gs hs : List k.Group} {p q : Point} {r s : Reflection}

theorem Kind.strokes_alike (h : List.Forall₂ k.Alike gs hs) (hp : p.Alike q) (hr : r.Alike s) :
    List.Forall₂ Stroke.Alike (k.strokes r p gs) (k.strokes s q hs) := by
  induction h generalizing p q r s with
  | nil => exact .nil
  | cons hg _ ih => exact .cons ⟨rfl, hp, hg.segment hp hr⟩ (ih (hg.land hp) (hg.update hp hr))

theorem Reflection.update_alike (h : List.Forall₂ k.Alike gs hs) (hp : p.Alike q)
    (hr : r.Alike s) :
    (r.update p (.draw k .absolute gs)).Alike (s.update q (.draw k .absolute hs)) := by
  induction h generalizing p q r s with
  | nil =>
    cases k with
    | smoothQuadratic => exact ⟨.none, hr.quadratic⟩
    | _ => exact ⟨.none, .none⟩
  | cons hg htail ih =>
    cases htail with
    | nil => exact hg.update hp hr
    | cons hg' htail =>
      rw [update_cons_cons, update_cons_cons]
      exact ih (hg.land hp) (hg.update hp hr)

end

/-! ## Absolute commands -/

namespace Command.SamePlaces

variable {c d : Command} {r s : Reflection}

theorem alike (h : c.SamePlaces d) : c.Alike d := by
  cases h with
  | close => exact .close
  | draw hgs => exact .draw (hgs.imp fun _ _ hg => hg.numbers)

theorem update (h : c.SamePlaces d) {p q : Point} (hp : p.Alike q) (hr : r.Alike s) :
    (r.update p c).Alike (s.update q d) := by
  cases h with
  | close => exact ⟨.none, .none⟩
  | draw hgs => exact Reflection.update_alike hgs hp hr

theorem strokes (h : c.SamePlaces d) {p q : Pen} (hp : p.Alike q) (hr : r.Alike s) :
    List.Forall₂ Stroke.Alike (c.strokes p r) (d.strokes q s) := by
  have hclose := hp.advance .close
  cases h with
  | close => exact .cons ⟨rfl, hp.point, .close hp.point hclose.point⟩ .nil
  | @draw k gs hs hgs =>
    by_cases hk : k = .move
    · subst hk
      cases hgs with
      | nil => exact .nil
      | cons hg hgs =>
        exact .cons ⟨rfl, hp.point, .move hg⟩
          (Kind.strokes_alike (k := .line) hgs hg ⟨.none, .none⟩)
    · rw [Command.strokes_draw hk, Command.strokes_draw hk]
      exact Kind.strokes_alike hgs hp.point hr

end Command.SamePlaces

end VectorGraphics.Path
