import VectorGraphics.Proofs.Number.Likeness
import VectorGraphics.Proofs.Path.Walks

/-!
# Commands and pens that are alike

Commands are alike if they differ in nothing but the signs of the zeros they hold. They take pens
that stand in alike points to alike points (`Pen.Alike.advance`), since every group does
(`Kind.land_alike`).
-/

namespace VectorGraphics.Path

/-- The commands have the same kind, mode and number of groups, and the numbers of these are
alike. -/
inductive Command.Alike : Command → Command → Prop
  | draw {k : Kind} {m : Mode} {gs hs : List k.Group}
      (h : List.Forall₂ (fun g h => List.Forall₂ Single.Alike (k.numbers g) (k.numbers h)) gs hs) :
      Alike (.draw k m gs) (.draw k m hs)
  | close : Alike .close .close

theorem Command.Alike.refl (c : Command) : c.Alike c := by
  cases c with
  | close => exact .close
  | draw k m gs =>
    exact .draw (List.forall₂_same.2 fun _ _ => List.forall₂_same.2 fun _ _ => .refl _)

/-- The pens stand in alike points, and a close takes them to alike points. -/
structure Pen.Alike (p q : Pen) : Prop where
  point : p.point.Alike q.point
  start : Option.Rel Point.Alike p.starts.head? q.starts.head?

/-- Alike groups take the pen from alike points to alike points. -/
theorem Kind.land_alike {k : Kind} (m : Mode) {g h : k.Group} {p q : Point} (hpen : p.Alike q)
    (hg : List.Forall₂ Single.Alike (k.numbers g) (k.numbers h)) :
    (k.land m p g).Alike (k.land m q h) := by
  cases k with
  | move | line | smoothQuadratic =>
    obtain _ | ⟨hx, _ | ⟨hy, _⟩⟩ := hg
    cases m with
    | absolute => exact ⟨hx, hy⟩
    | relative => exact ⟨hpen.x.add hx, hpen.y.add hy⟩
  | horizontal =>
    obtain _ | ⟨hx, _⟩ := hg
    cases m with
    | absolute => exact ⟨hx, hpen.y⟩
    | relative => exact ⟨hpen.x.add hx, hpen.y⟩
  | vertical =>
    obtain _ | ⟨hy, _⟩ := hg
    cases m with
    | absolute => exact ⟨hpen.x, hy⟩
    | relative => exact ⟨hpen.x, hpen.y.add hy⟩
  | cubic =>
    obtain _ | ⟨_, _ | ⟨_, _ | ⟨_, _ | ⟨_, _ | ⟨hx, _ | ⟨hy, _⟩⟩⟩⟩⟩⟩ := hg
    cases m with
    | absolute => exact ⟨hx, hy⟩
    | relative => exact ⟨hpen.x.add hx, hpen.y.add hy⟩
  | smoothCubic | quadratic =>
    obtain _ | ⟨_, _ | ⟨_, _ | ⟨hx, _ | ⟨hy, _⟩⟩⟩⟩ := hg
    cases m with
    | absolute => exact ⟨hx, hy⟩
    | relative => exact ⟨hpen.x.add hx, hpen.y.add hy⟩
  | arc =>
    obtain _ | ⟨_, _ | ⟨_, _ | ⟨_, _ | ⟨_, _ | ⟨_, _ | ⟨hx, _ | ⟨hy, _⟩⟩⟩⟩⟩⟩⟩ := hg
    cases m with
    | absolute => exact ⟨hx, hy⟩
    | relative => exact ⟨hpen.x.add hx, hpen.y.add hy⟩

theorem Kind.foldl_land_alike {k : Kind} (m : Mode) {gs hs : List k.Group} {p q : Point}
    (hpen : p.Alike q)
    (h : List.Forall₂ (fun g h => List.Forall₂ Single.Alike (k.numbers g) (k.numbers h)) gs hs) :
    (gs.foldl (k.land m) p).Alike (hs.foldl (k.land m) q) := by
  induction h generalizing p q with
  | nil => exact hpen
  | cons hg _ ih => exact ih (Kind.land_alike m hpen hg)

/-- Alike commands take alike pens to alike pens. -/
theorem Pen.Alike.advance {p q : Pen} (hpen : p.Alike q) {c d : Command} (h : c.Alike d) :
    (p.advance c).Alike (q.advance d) := by
  cases h with
  | close =>
    refine ⟨?_, hpen.start⟩
    obtain ⟨hpoint, hstart⟩ := hpen
    rw [Pen.advance, Pen.advance]
    generalize p.starts.head? = s, q.starts.head? = t at hstart
    cases hstart with
    | none => exact hpoint
    | some h => exact h
  | @draw k m gs hs h =>
    by_cases hk : k = .move
    · subst hk
      cases h with
      | nil => exact hpen
      | cons hg h =>
        have hland := Kind.land_alike m hpen.point hg
        exact ⟨Kind.foldl_land_alike m hland h, .some hland⟩
    · rw [Pen.advance_draw hk, Pen.advance_draw hk]
      exact ⟨Kind.foldl_land_alike m hpen.point h, hpen.start⟩

end VectorGraphics.Path
