import VectorGraphics.Proofs.Number.Values
import VectorGraphics.Proofs.Number.Whole
import VectorGraphics.Proofs.Path.LikeStrokes
import VectorGraphics.Proofs.Path.Openings

/-!
# Choosing the mode keeps the strokes

A group that is converted to another mode where the first pen stands, and then read where a pen
stands that is alike, is alike in absolute form: a displacement becomes absolute as it would have
done later (`Kind.shift_alike`), and whole absolute coordinates come back from their displacements
(`Kind.alike_shift_shift_neg`). So the walks over a path and over its shorter spelling stay in step
(`Command.samePlaces_chooseMode`), whatever the modes that are chosen.
-/

namespace VectorGraphics.Path

/-! ## Coordinates -/

/-- The numbers of a group that are coordinates. -/
def Kind.coordinates : (k : Kind) → k.Group → List Single
  | .arc, g => [g.stop.x, g.stop.y]
  | k, g => k.numbers g

/-- The coordinates of a command as they are written. -/
def Command.coordinates : Command → List Single
  | .draw k _ gs => gs.flatMap k.coordinates
  | .close => []

/-- The number is whole and at most `bound` in magnitude. -/
def WholeTo (bound : ℕ) (x : Single) : Prop := ∃ n : ℤ, x.Is n ∧ n.natAbs ≤ bound

theorem wholeTo_iff {bound : ℕ} {x : Single} : WholeTo bound x
    ↔ x.isFinite = true ∧ x.value.den = 1 ∧ x.value.num.natAbs ≤ bound := by
  constructor
  · rintro ⟨n, hn, hle⟩
    obtain ⟨hfinite, hvalue⟩ := Single.is_iff.1 hn
    rw [hvalue]
    exact ⟨hfinite, rfl, hle⟩
  · rintro ⟨hfinite, hden, hle⟩
    exact ⟨x.value.num, Single.is_iff.2 ⟨hfinite, (Rat.den_eq_one_iff x.value).1 hden |>.symm⟩, hle⟩

instance (bound : ℕ) (x : Single) : Decidable (WholeTo bound x) :=
  decidable_of_iff _ wholeTo_iff.symm

/-- A whole coordinate comes back from its displacement. -/
theorem alike_add_neg_add {x p q : Single} (hx : WholeTo (2 ^ 22) x) (hp : WholeTo (2 ^ 22) p)
    (hpq : p.Alike q) : x.Alike (x + -p + q) := by
  obtain ⟨a, ha, ha'⟩ := hx
  obtain ⟨b, hb, hb'⟩ := hp
  have hdisplacement : (x + -p).Is (a + -b : ℤ) := ha.add_int hb.neg_int (by omega)
  have hback : (x + -p + q).Is (a + -b + b : ℤ) :=
    hdisplacement.add_int (hpq.is hb) (by omega)
  rw [neg_add_cancel_right] at hback
  exact .of_is ha hback

/-! ## Groups in another mode -/

namespace Kind

variable {k : Kind} {p q : Point}

/-- A displacement from points that are alike is alike in absolute form. -/
theorem shift_alike (g : k.Group) (h : p.Alike q) : k.Alike (k.shift p g) (k.shift q g) := by
  have hadd (c : Point) : Point.Alike (c + p) (c + q) := (Point.Alike.refl c).add h
  cases k with
  | move | line | smoothQuadratic => exact hadd g
  | horizontal => exact (Single.Alike.refl g).add h.x
  | vertical => exact (Single.Alike.refl g).add h.y
  | cubic => exact ⟨hadd _, hadd _, hadd _⟩
  | smoothCubic | quadratic => exact ⟨hadd _, hadd _⟩
  | arc => exact ⟨rfl, hadd _⟩

/-- Whole coordinates come back from their displacements. -/
theorem alike_shift_shift_neg {g : k.Group} (hg : ∀ x ∈ k.coordinates g, WholeTo (2 ^ 22) x)
    (hp : WholeTo (2 ^ 22) p.x ∧ WholeTo (2 ^ 22) p.y) (h : p.Alike q) :
    k.Alike g (k.shift q (k.shift (-p) g)) := by
  have hback {c : Point} (hx : WholeTo (2 ^ 22) c.x) (hy : WholeTo (2 ^ 22) c.y) :
      c.Alike (c + -p + q) := ⟨alike_add_neg_add hx hp.1 h.x, alike_add_neg_add hy hp.2 h.y⟩
  cases k <;> simp only [coordinates, numbers, List.forall_mem_cons] at hg
  case move | line | smoothQuadratic => exact hback hg.1 hg.2.1
  case horizontal => exact alike_add_neg_add hg.1 hp.1 h.x
  case vertical => exact alike_add_neg_add hg.1 hp.2 h.y
  case cubic =>
    obtain ⟨h₁, h₂, h₃, h₄, h₅, h₆, -⟩ := hg
    exact ⟨hback h₁ h₂, hback h₃ h₄, hback h₅ h₆⟩
  case smoothCubic | quadratic => exact ⟨hback hg.1 hg.2.1, hback hg.2.2.1 hg.2.2.2.1⟩
  case arc => exact ⟨rfl, hback hg.1 hg.2.1⟩

theorem absolute_alike (m : Mode) (g : k.Group) (h : p.Alike q) :
    k.Alike (k.absolute m p g) (k.absolute m q g) := by
  cases m with
  | absolute => exact .refl k g
  | relative => exact shift_alike g h

/-- Groups that stay in their mode are alike in absolute form. -/
theorem absolutes_alike (m : Mode) (gs : List k.Group) (h : p.Alike q) :
    List.Forall₂ k.Alike (k.absolutes m p gs) (k.absolutes m q gs) := by
  induction gs generalizing p q with
  | nil =>
    rw [absolutes_nil, absolutes_nil]
    exact .nil
  | cons g gs ih =>
    have hg := absolute_alike m g h
    have hland := hg.land h
    rw [land_absolute, land_absolute] at hland
    rw [absolutes_cons, absolutes_cons]
    exact .cons hg (ih hland)

/-- Whole absolute groups come back from their displacements one after the other. -/
theorem alike_convertAll_convertAll {gs : List k.Group}
    (hgs : ∀ g ∈ gs, ∀ x ∈ k.coordinates g, WholeTo (2 ^ 22) x)
    (hstarts : ∀ s ∈ k.starts p gs, WholeTo (2 ^ 22) s.x ∧ WholeTo (2 ^ 22) s.y) (h : p.Alike q) :
    List.Forall₂ k.Alike gs (k.convertAll .absolute q (k.convertAll .relative p gs)) := by
  induction gs generalizing p q with
  | nil => exact .nil
  | cons g gs ih =>
    obtain ⟨hp, hstarts⟩ := List.forall_mem_cons.1 hstarts
    obtain ⟨hg, hgs⟩ := List.forall_mem_cons.1 hgs
    have hback := alike_shift_shift_neg hg hp h
    exact .cons hback (ih hgs hstarts (hback.land h))

end Kind

/-! ## Commands in another mode -/

theorem Command.inMode_opposite (k : Kind) (m : Mode) (gs : List k.Group) (pen : Point) :
    (Command.draw k m gs).inMode m.opposite pen
      = .draw k m.opposite (k.convertAll m.opposite pen gs) := by
  cases m <;> rfl

theorem chooseMode_eq_or (places : UInt8) (pen : Point) (k : Kind) (m : Mode) (gs : List k.Group) :
    chooseMode places pen (.draw k m gs) = .draw k m gs
      ∨ chooseMode places pen (.draw k m gs)
        = .draw k m.opposite (k.convertAll m.opposite pen gs) := by
  rw [← Command.inMode_opposite, chooseMode, Command.mode?]
  dsimp only
  split
  · exact .inr rfl
  · exact .inl rfl

/-- A command with whole coordinates in the mode that is chosen for it, drawn from a pen that is
alike. -/
theorem Command.samePlaces_chooseMode (places : UInt8) {c : Command} {p q : Pen} {r : Reflection}
    (hc : ∀ x ∈ c.coordinates, WholeTo (2 ^ 22) x)
    (hstarts : ∀ s ∈ (c.inMode .absolute p.point).strokes p r,
      WholeTo (2 ^ 22) s.start.x ∧ WholeTo (2 ^ 22) s.start.y) (h : p.point.Alike q.point) :
    (c.inMode .absolute p.point).SamePlaces
      ((chooseMode places p.point c).inMode .absolute q.point) := by
  cases c with
  | close => exact .close
  | draw k m gs =>
    obtain hchoice | hchoice := chooseMode_eq_or places p.point k m gs
    · rw [hchoice, inMode_absolute, inMode_absolute]
      exact .draw (Kind.absolutes_alike m gs h)
    · rw [hchoice]
      cases m with
      | relative => exact .draw (List.forall₂_same.2 fun g _ => .refl k g)
      | absolute =>
        refine .draw (Kind.alike_convertAll_convertAll
          (fun g hg x hx => hc x (List.mem_flatMap.2 ⟨g, hg, hx⟩)) ?_ h)
        rw [← Command.map_start_strokes k .absolute gs p r]
        exact List.forall_mem_map.2 hstarts

theorem kind?_chooseMode (places : UInt8) (pen : Point) (c : Command) :
    (chooseMode places pen c).kind? = c.kind? := by
  cases c with
  | close => rfl
  | draw k m gs =>
    obtain h | h := chooseMode_eq_or places pen k m gs
    · rw [h]
    · rw [h]
      rfl

/-! ## Whole paths -/

theorem strokesFrom_chooseModes_alike {places : UInt8} {cs : List Command} {p q : Pen}
    {r s : Reflection} (hcs : ∀ c ∈ cs, ∀ x ∈ c.coordinates, WholeTo (2 ^ 22) x)
    (hstarts : ∀ t ∈ strokesFrom p r cs, WholeTo (2 ^ 22) t.start.x ∧ WholeTo (2 ^ 22) t.start.y)
    (hp : p.Alike q) (hr : r.Alike s) :
    List.Forall₂ Stroke.Alike (strokesFrom p r cs)
      (strokesFrom q s (chooseModes.go places p cs)) := by
  induction cs generalizing p q r s with
  | nil => exact .nil
  | cons c cs ih =>
    obtain ⟨hc, hcs⟩ := List.forall_mem_cons.1 hcs
    obtain ⟨hfirst, hrest⟩ := List.forall_mem_append.1 hstarts
    have hplaces := Command.samePlaces_chooseMode places hc hfirst hp.point
    have hadvance := hp.advance hplaces.alike
    rw [Pen.advance_inMode_absolute, Pen.advance_inMode_absolute] at hadvance
    exact List.rel_append (hplaces.strokes hp hr)
      (ih hcs hrest hadvance (hplaces.update hp.point hr))

/-- **Choosing the modes keeps the drawing.** If the written coordinates of a path and the points at
which its strokes start are whole numbers of magnitude at most `2 ^ 22`, then for every number of
places each command keeps its kind, and the path is drawn by the same strokes, up to the sign of
zeros. -/
theorem chooseModes_keeps_strokes (places : UInt8) (cs : List Command)
    (hcoordinates : ∀ c ∈ cs, ∀ x ∈ c.coordinates, WholeTo (2 ^ 22) x)
    (hstarts : ∀ s ∈ strokes cs, WholeTo (2 ^ 22) s.start.x ∧ WholeTo (2 ^ 22) s.start.y) :
    (chooseModes places cs).map Command.kind? = cs.map Command.kind?
      ∧ List.Forall₂ Stroke.Alike (strokes cs) (strokes (chooseModes places cs)) := by
  have hpen : Pen.Alike {} {} := ⟨.refl _, .none⟩
  have hkinds : List.Forall₂ (fun c d => d.kind? = c.kind?) cs (chooseModes places cs) :=
    forall₂_chooseModes (fun pen c => kind?_chooseMode places pen c) cs
  refine ⟨?_, strokesFrom_chooseModes_alike hcoordinates hstarts hpen ⟨.none, .none⟩⟩
  rw [← List.forall₂_eq_eq_eq, List.forall₂_map_left_iff, List.forall₂_map_right_iff]
  exact hkinds.flip

/-- All that is drawn before the close becomes relative, and the line after it absolute. -/
theorem chooseModes_keeps_distant_strokes :
    let cs : List Command := [.draw .move .absolute [⟨100, 100⟩, ⟨105, 103⟩],
      .draw .quadratic .absolute [⟨⟨110, 100⟩, ⟨115, 105⟩⟩],
      .draw .smoothQuadratic .absolute [⟨120, 100⟩, ⟨125, 105⟩], .close,
      .draw .line .relative [⟨-95, -95⟩]]
    (∀ c ∈ cs, ∀ x ∈ c.coordinates, WholeTo (2 ^ 22) x)
      ∧ (∀ s ∈ strokes cs, WholeTo (2 ^ 22) s.start.x ∧ WholeTo (2 ^ 22) s.start.y)
      ∧ (chooseModes 2 cs).map Command.mode?
        = [some .relative, some .relative, some .relative, none, some .absolute]
      ∧ List.Forall₂ Stroke.Alike (strokes cs) (strokes (chooseModes 2 cs)) := by
  intro cs
  have hcoordinates : ∀ c ∈ cs, ∀ x ∈ c.coordinates, WholeTo (2 ^ 22) x := by decide +kernel
  have hstarts : ∀ s ∈ strokes cs, WholeTo (2 ^ 22) s.start.x ∧ WholeTo (2 ^ 22) s.start.y := by
    decide +kernel
  exact ⟨hcoordinates, hstarts, by decide +kernel,
    (chooseModes_keeps_strokes 2 cs hcoordinates hstarts).2⟩

end VectorGraphics.Path
