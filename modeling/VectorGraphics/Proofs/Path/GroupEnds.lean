import VectorGraphics.Proofs.Path.AbsoluteForms
import VectorGraphics.Proofs.Path.Drift

/-!
# Where the groups of a command end

The absolute form of a command writes down where the pen goes: each of its groups ends where the
pen stands after as many groups of the command itself (`Kind.endsAt_absolutes`), and the pen ends up
in the same state, the starts of the subpaths included, whichever of the two it walks
(`absolute_form_keeps_pen`).
-/

namespace VectorGraphics.Path

namespace Kind

/-- What an absolute group writes for the coordinates of its end are those of the point. -/
def EndsAt (k : Kind) (g : k.Group) (p : Point) : Prop :=
  (∀ x ∈ (k.ends g).1, x = p.x) ∧ ∀ y ∈ (k.ends g).2, y = p.y

/-- An absolute group ends where it takes the pen to. -/
theorem endsAt_land (k : Kind) (pen : Point) (g : k.Group) :
    k.EndsAt g (k.land .absolute pen g) := by
  cases k <;> simp [EndsAt, ends, land]

/-- Every group is made absolute where the pen stands before it. -/
theorem getElem?_absolutes (k : Kind) (m : Mode) (pen : Point) (gs : List k.Group) (i : ℕ) :
    (k.absolutes m pen gs)[i]? = gs[i]?.map (k.absolute m ((gs.take i).foldl (k.land m) pen)) := by
  induction gs generalizing pen i with
  | nil => simp
  | cons g gs ih =>
    rw [absolutes_cons]
    cases i with
    | zero => rfl
    | succ i => exact ih (k.land m pen g) i

theorem length_absolutes (k : Kind) (m : Mode) (pen : Point) (gs : List k.Group) :
    (k.absolutes m pen gs).length = gs.length := by
  cases m with
  | absolute => rfl
  | relative => exact k.length_convertAll .absolute pen gs

/-- Every group of the absolute form ends where the pen stands after it. -/
theorem endsAt_absolutes (k : Kind) (m : Mode) (pen : Point) (gs : List k.Group) (i : ℕ)
    (hi : i < (k.absolutes m pen gs).length) :
    k.EndsAt (k.absolutes m pen gs)[i] ((gs.take (i + 1)).foldl (k.land m) pen) := by
  have hi' : i < gs.length := by rwa [length_absolutes] at hi
  have hget := k.getElem?_absolutes m pen gs i
  rw [List.getElem?_eq_getElem hi, List.getElem?_eq_getElem hi', Option.map_some,
    Option.some.injEq] at hget
  rw [hget, List.take_succ_eq_append_getElem hi', List.foldl_append, List.foldl_cons,
    List.foldl_nil, ← k.land_absolute m]
  exact k.endsAt_land _ _

end Kind

/-- A drawing command moves the current point group by group, whatever its kind. -/
theorem Pen.point_advance_draw (pen : Pen) (k : Kind) (m : Mode) (gs : List k.Group) :
    (pen.advance (.draw k m gs)).point = gs.foldl (k.land m) pen.point := by
  by_cases hk : k = .move
  · subst hk
    cases gs <;> rfl
  · rw [Pen.advance_draw hk]

/-- The first of the commands is absolute and has as many groups as the second, and every group of
the first ends where the pen stands after as many groups of the second. A close has no groups. -/
inductive Command.EndsAlong (pen : Pen) : Command → Command → Prop
  | draw {k : Kind} {m : Mode} {hs gs : List k.Group} (length_eq : hs.length = gs.length)
      (endsAt : ∀ (i : ℕ) (hi : i < hs.length),
        k.EndsAt hs[i] (pen.advance (.draw k m (gs.take (i + 1)))).point) :
      EndsAlong pen (.draw k .absolute hs) (.draw k m gs)
  | close : EndsAlong pen .close .close

theorem Command.endsAlong_inMode (pen : Pen) (c : Command) :
    (c.inMode .absolute pen.point).EndsAlong pen c := by
  cases c with
  | close => exact .close
  | draw k m gs =>
    rw [Command.inMode_absolute]
    refine .draw (k.length_absolutes m pen.point gs) fun i hi => ?_
    rw [Pen.point_advance_draw]
    exact k.endsAt_absolutes m pen.point gs i hi

/-- **The absolute form of a command takes the pen where the command does.** After any commands,
the pen that walks the absolute form of the next one comes to the same point, with the same starts
of subpaths, as the pen that walks that command itself, and every group of the absolute form ends
where the pen stands after the group that it stands for. A sum does not depend on the order of what
is added, and nothing else is asked of the arithmetic. -/
theorem absolute_form_keeps_pen (cs : List Command) (c : Command) :
    let pen := Pen.advanceAll {} cs
    pen.advance (c.inMode .absolute pen.point) = pen.advance c
      ∧ (c.inMode .absolute pen.point).EndsAlong pen c :=
  ⟨Pen.advance_inMode_absolute _ c, Command.endsAlong_inMode _ c⟩

end VectorGraphics.Path
