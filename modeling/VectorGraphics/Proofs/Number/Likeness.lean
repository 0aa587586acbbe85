import VectorGraphics.Proofs.Number.Order

/-!
# Numbers that are alike

Two singles are alike if they are equal as numbers or both are NaN. The zeros are alike, although
their signs differ; otherwise alike numbers are the same (`Rounding.Alike`). The relation is an
equivalence, and sums, differences and multiples of alike numbers are alike (`Single.Alike.add`,
`Single.Alike.sub`, `Single.Alike.mul_right`).
-/

namespace VectorGraphics

open Float.Model.UnpackedFloat
open Float.Model (UnpackedFloat)

namespace Rounding

/-- The numbers are the same, or both are zero. -/
inductive Alike : UnpackedFloat → UnpackedFloat → Prop
  | same (u : UnpackedFloat) : Alike u u
  | zero (s t : Sign) : Alike (.zero s) (.zero t)

namespace Alike

variable {f : Float.Model.Format} {u v w : UnpackedFloat}

theorem symm (h : Alike u v) : Alike v u := by
  cases h with
  | same => exact .same u
  | zero s t => exact .zero t s

theorem trans (huv : Alike u v) (hvw : Alike v w) : Alike u w := by
  cases huv with
  | same => exact hvw
  | zero s t =>
    cases hvw with
    | same => exact .zero s t
    | zero _ t' => exact .zero s t'

/-- Numbers that compare equal have the same sign, exponent and mantissa, or are zero. -/
theorem of_compare (h : u.compare v = some .eq) : Alike u v := by
  cases u with
  | notANumber => cases h
  | infinity s =>
    cases v with
    | infinity t => cases s <;> cases t <;> first | exact .same _ | cases h
    | _ => cases s <;> cases h
  | zero s =>
    cases v with
    | zero t => exact .zero s t
    | notANumber => cases h
    | infinity t | finite t => cases t <;> cases h
  | finite s m e hm =>
    cases v with
    | finite t n k hn =>
      have key (h : (compare e k).then (compare m n) = .eq) : e = k ∧ m = n := by
        obtain ⟨he, hm⟩ := Ordering.then_eq_eq.1 h
        exact ⟨compare_eq_iff_eq.1 he, compare_eq_iff_eq.1 hm⟩
      cases s <;> cases t
      · obtain ⟨rfl, rfl⟩ := key (Ordering.swap_eq_eq.1 (Option.some.inj h))
        exact .same _
      · cases h
      · cases h
      · obtain ⟨rfl, rfl⟩ := key (Option.some.inj h)
        exact .same _
    | notANumber => cases s <;> cases h
    | infinity t => cases s <;> cases t <;> cases h
    | zero t => cases s <;> cases h

/-- A number other than NaN compares equal to itself. -/
theorem compare_eq (h : Alike u v) (hu : u.isNaN = false) : u.compare v = some .eq := by
  cases h with
  | zero => rfl
  | same =>
    have key (m : ℕ) (e : ℤ) : (compare e e).then (compare m m) = .eq := by
      rw [compare_eq_iff_eq.2 rfl, compare_eq_iff_eq.2 rfl]
      rfl
    cases u with
    | notANumber => cases hu
    | infinity s => cases s <;> rfl
    | zero => rfl
    | finite s m e hm =>
      cases s
      · exact congrArg some (Ordering.swap_eq_eq.2 (key m e))
      · exact congrArg some (key m e)

theorem isNaN_eq (h : Alike u v) : u.isNaN = v.isNaN := by
  cases h <;> rfl

/-- What is added to a zero decides the sum up to the sign of a zero. -/
theorem add_right (h : Alike u v) (w : UnpackedFloat) :
    Alike (UnpackedFloat.add f u w) (UnpackedFloat.add f v w) := by
  cases h with
  | same => exact .same _
  | zero s t =>
    cases w with
    | zero s' => cases s <;> cases t <;> cases s' <;> exact .zero _ _
    | _ => exact .same _

theorem add {u' v' : UnpackedFloat} (h : Alike u v) (h' : Alike u' v') :
    Alike (UnpackedFloat.add f u u') (UnpackedFloat.add f v v') := by
  refine (h.add_right u').trans ?_
  rw [Rounding.add_comm v, Rounding.add_comm v]
  exact h'.add_right v

/-- What is subtracted from a zero decides the difference up to the sign of a zero. -/
theorem sub_right (h : Alike u v) (w : UnpackedFloat) :
    Alike (UnpackedFloat.sub f u w) (UnpackedFloat.sub f v w) := by
  cases h with
  | same => exact .same _
  | zero s t =>
    cases w with
    | zero s' => cases s <;> cases t <;> cases s' <;> exact .zero _ _
    | _ => exact .same _

theorem sub_left (h : Alike u v) (w : UnpackedFloat) :
    Alike (UnpackedFloat.sub f w u) (UnpackedFloat.sub f w v) := by
  cases h with
  | same => exact .same _
  | zero s t =>
    cases w with
    | zero s' => cases s <;> cases t <;> cases s' <;> exact .zero _ _
    | _ => exact .same _

theorem mul_right (h : Alike u v) (w : UnpackedFloat) :
    Alike (UnpackedFloat.mul f u w) (UnpackedFloat.mul f v w) := by
  cases h with
  | same => exact .same _
  | zero s t =>
    cases w with
    | notANumber | infinity => exact .same _
    | _ => exact .zero _ _

end Alike

end Rounding

namespace Single

/-- The numbers are equal, or both are NaN. -/
def Alike (a b : Single) : Prop := (a == b) = true ∨ a.isNaN = true ∧ b.isNaN = true

variable {a b c : Single}

theorem alike_iff : a.Alike b ↔ Rounding.Alike a.toModel.unpack b.toModel.unpack := by
  have hbeq : (a == b) = true ↔ a.toModel.unpack.compare b.toModel.unpack = some .eq := by
    change a.toModel.unpack.beq b.toModel.unpack = true ↔ _
    rw [UnpackedFloat.beq, beq_iff_eq]
  have hnan {u : UnpackedFloat} (hu : u.isNaN = true) : u = .notANumber := by
    cases u <;> first | rfl | cases hu
  constructor
  · rintro (h | ⟨ha, hb⟩)
    · exact .of_compare (hbeq.1 h)
    · rw [hnan ha, hnan hb]
      exact .same _
  · intro h
    cases ha : a.toModel.unpack.isNaN with
    | true => exact .inr ⟨ha, h.isNaN_eq.symm.trans ha⟩
    | false => exact .inl (hbeq.2 (h.compare_eq ha))

namespace Alike

theorem of_beq (h : (a == b) = true) : a.Alike b := .inl h

theorem refl (a : Single) : a.Alike a := alike_iff.2 (.same _)

theorem symm (h : a.Alike b) : b.Alike a := alike_iff.2 (alike_iff.1 h).symm

theorem trans (hab : a.Alike b) (hbc : b.Alike c) : a.Alike c :=
  alike_iff.2 ((alike_iff.1 hab).trans (alike_iff.1 hbc))

/-- Alike numbers stand for the same rational. -/
theorem is {q : ℚ} (h : a.Alike b) (ha : a.Is q) : b.Is q := by
  unfold Single.Is at ha ⊢
  have halike := alike_iff.1 h
  generalize a.toModel.unpack = u at ha halike
  generalize b.toModel.unpack = v at halike ⊢
  cases halike with
  | same => exact ha
  | zero s t => exact ⟨rfl, ha.canonical, ha.value_eq⟩

/-- Numbers that stand for the same rational are alike. -/
theorem of_is {q : ℚ} (ha : a.Is q) (hb : b.Is q) : a.Alike b := .inl ((ha.beq_iff hb).2 rfl)

theorem pack {u v : UnpackedFloat} (h : Rounding.Alike u v) :
    Alike (Single.pack u) (Single.pack v) := by
  cases h with
  | same => exact refl _
  | zero s t => cases s <;> cases t <;> exact .inl (by decide)

/-- Sums of alike numbers are alike. -/
theorem add {a' b' : Single} (h : a.Alike b) (h' : a'.Alike b') : (a + a').Alike (b + b') :=
  pack ((alike_iff.1 h).add (alike_iff.1 h'))

theorem sub {a' b' : Single} (h : a.Alike b) (h' : a'.Alike b') : (a - a').Alike (b - b') :=
  (pack ((alike_iff.1 h).sub_right _)).trans (pack ((alike_iff.1 h').sub_left _))

theorem mul_right (h : a.Alike b) (c : Single) : (a * c).Alike (b * c) :=
  pack ((alike_iff.1 h).mul_right _)

end Alike

end Single

namespace Point

/-- The coordinates are equal, or both are NaN. -/
structure Alike (p q : Point) : Prop where
  x : p.x.Alike q.x
  y : p.y.Alike q.y

namespace Alike

variable {p q r : Point}

theorem refl (p : Point) : p.Alike p := ⟨.refl _, .refl _⟩

theorem symm (h : p.Alike q) : q.Alike p := ⟨h.x.symm, h.y.symm⟩

theorem trans (hpq : p.Alike q) (hqr : q.Alike r) : p.Alike r :=
  ⟨hpq.x.trans hqr.x, hpq.y.trans hqr.y⟩

theorem add {p' q' : Point} (h : p.Alike q) (h' : p'.Alike q') : (p + p').Alike (q + q') :=
  ⟨h.x.add h'.x, h.y.add h'.y⟩

theorem sub {p' q' : Point} (h : p.Alike q) (h' : p'.Alike q') : (p - p').Alike (q - q') :=
  ⟨h.x.sub h'.x, h.y.sub h'.y⟩

theorem mul_right (h : p.Alike q) (c : Single) : (p * c).Alike (q * c) :=
  ⟨h.x.mul_right c, h.y.mul_right c⟩

end Alike

end Point

end VectorGraphics
