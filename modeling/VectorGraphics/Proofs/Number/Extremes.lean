import VectorGraphics.Proofs.Number.Likeness
import VectorGraphics.Proofs.Number.Values
import VectorGraphics.Proofs.Number.Whole

/-!
# Extreme values and sums

The smallest of some numbers is the first of the least ones among those that are not NaN, so that
it does not matter how they are grouped (`Single.min_assoc`), and likewise for the largest.

Rounding keeps the order of numbers (`Rounding.Rounds.value_le_value`), and so does the way to
infinity where it overflows. Hence sums are ordered as what they are made of
(`Single.add_le_add_right`), and the smallest of some sums with the same number is the sum with the
smallest (`Single.min_add`).

Intervals can therefore be moved outwards first and united afterwards, or the other way round
(`Single.min_sub_alike`, `Single.max_add_alike`), even if the margin is infinite or NaN.
-/

namespace VectorGraphics

open Float.Model.UnpackedFloat
open Float.Model (UnpackedFloat)
open Packing

/-! ## Rounding keeps the order -/

namespace Rounding

variable {f : Float.Model.Format} {u v : UnpackedFloat} {p q : ℚ}

/-- The larger of two rationals is not rounded to the smaller number. -/
theorem Rounds.value_le_value (hu : Rounds f p u) (hv : Rounds f q v) (h : p < q) :
    value u ≤ value v := by
  by_contra hlt
  have hnearU := sq_le_sq.2 (hu.nearest _ (representable_value hv.canonical))
  have hnearV := sq_le_sq.2 (hv.nearest _ (representable_value hu.canonical))
  -- both rationals lie halfway between the two numbers, or on the wrong side of that
  have hp : value u + value v ≤ 2 * p := by nlinarith
  have hq : 2 * q ≤ value u + value v := by nlinarith
  linarith

/-- The place on the extended rational line to which packing takes a rational. -/
def packedPlace (f : Float.Model.Format) (q : ℚ) : WithBot (WithTop ℚ) :=
  if overflow f ≤ q then ((⊤ : WithTop ℚ) : WithBot (WithTop ℚ))
  else if q ≤ -overflow f then ⊥ else ((q : WithTop ℚ) : WithBot (WithTop ℚ))

theorem packedPlace_mono (f : Float.Model.Format) : Monotone (packedPlace f) := by
  intro p q hpq
  unfold packedPlace
  split_ifs with hp hq hq' hp' hq hq' hq hq'
  all_goals first
    | exact le_rfl
    | exact bot_le
    | exact absurd (hp.trans hpq) ‹_›
    | exact absurd (hpq.trans ‹q ≤ _›) ‹_›
    | exact WithBot.coe_le_coe.2 le_top
    | exact WithBot.coe_le_coe.2 (WithTop.coe_le_coe.2 hpq)

/-- A number that is too large to be packed becomes infinite. -/
theorem rank_repack (hf : 0 < f.exponentBias) (hu : u.isFinite = true) (hc : Canonical f u) :
    rank (repack f u) = packedPlace f (value u) := by
  have hoverflow : 0 < overflow f := two_zpow_pos _
  have hmax := minExponent_le_maxExponent hf
  by_cases hfits : Fits f u
  · obtain ⟨hlow, hhigh⟩ := abs_lt.1 (abs_value_lt_overflow hc hfits)
    rw [repack, unpack_pack hc hfits, rank_of_isFinite hu, packedPlace, if_neg hhigh.not_ge,
      if_neg hlow.not_ge]
  · have hlarge : overflow f ≤ |value u| := le_of_not_gt fun h => hfits (fits_of_abs_lt hc hmax h)
    cases u with
    | finite s m e hm =>
      rw [repack, unpack_pack_of_overflow hm (not_le.1 hfits)]
      cases s with
      | positive =>
        have hvalue : 0 ≤ value (.finite .positive m e hm) := by
          simp only [value, sign, one_mul]
          positivity
        rw [packedPlace, if_pos (by rwa [abs_of_nonneg hvalue] at hlarge)]
        rfl
      | negative =>
        have hvalue : value (.finite .negative m e hm) ≤ 0 := by
          simp only [value, sign, neg_mul, one_mul, neg_nonpos]
          positivity
        rw [abs_of_nonpos hvalue] at hlarge
        rw [packedPlace, if_neg (by linarith), if_pos (by linarith)]
        rfl
    | _ => exact absurd trivial hfits

/-- A sum with an infinity is that infinity or NaN. -/
theorem add_infinity (u : UnpackedFloat) (s : Sign) :
    add f u (.infinity s) = .infinity s ∨ add f u (.infinity s) = .notANumber := by
  cases u with
  | notANumber => exact .inr rfl
  | zero | finite => exact .inl rfl
  | infinity t =>
    by_cases hts : (t == s) = true
    · exact .inl ((if_pos hts).trans (congrArg _ (beq_iff_eq.1 hts)))
    · exact .inr (if_neg hts)

theorem repack_notANumber (f : Float.Model.Format) : repack f .notANumber = .notANumber :=
  unpack_pack (u := .notANumber) trivial trivial

theorem repack_infinity (f : Float.Model.Format) (s : Sign) :
    repack f (.infinity s) = .infinity s := unpack_pack (u := .infinity s) trivial trivial

/-- A difference is the sum with the negated number. -/
protected theorem sub_eq_add_neg (u v : UnpackedFloat) : sub f u v = add f u v.neg := by
  have happly (s : Sign) (n : ℤ) : (-s).apply n = -s.apply n := by
    cases s
    · exact (neg_neg n).symm
    · rfl
  cases u with
  | finite s m e hm =>
    cases v with
    | finite t n k hn => simp only [sub, add, neg, happly, ← Int.sub_eq_add_neg]
    | _ => rfl
  | _ => cases v <;> rfl

theorem isNaN_repack (hu : u.isFinite = true) (hc : Canonical f u) :
    (repack f u).isNaN = false := by
  by_cases hfits : Fits f u
  · rw [repack, unpack_pack hc hfits]
    cases u <;> first | rfl | cases hu
  · cases u with
    | finite s m e hm =>
      rw [repack, unpack_pack_of_overflow hm (not_le.1 hfits)]
      rfl
    | _ => exact absurd trivial hfits

/-- A sum is a number unless it is one of opposite infinities. -/
theorem isNaN_repack_add (s : Sign) (hu : u.isNaN = false)
    (hv : v.isNaN = false) (hus : u ≠ .infinity s) (hvs : v ≠ .infinity s)
    (hcu : Canonical f u) (hcv : Canonical f v) : (repack f (add f u v)).isNaN = false := by
  have hinfinity (t : Sign) : (repack f (.infinity t)).isNaN = false := by
    rw [repack_infinity]
    rfl
  cases u with
  | notANumber => cases hu
  | infinity t =>
    cases v with
    | notANumber => cases hv
    | infinity t' =>
      obtain rfl : t = t' := by
        cases s <;> cases t <;> cases t' <;> first | rfl | exact absurd rfl ‹_›
      rw [show add f (.infinity t) (.infinity t) = .infinity t from if_pos (beq_self_eq_true t)]
      exact hinfinity t
    | zero | finite => exact hinfinity t
  | zero | finite =>
    cases v with
    | notANumber => cases hv
    | infinity t => exact hinfinity t
    | zero | finite =>
      have h := rounds_add (f := f) (u := _) (v := _) rfl rfl hcu hcv
      exact isNaN_repack h.isFinite h.canonical

end Rounding

open Rounding

namespace Single

variable {a b c m : Single}

/-! ## The ends of the line -/

theorem rank_eq_bot (h : a.toModel.unpack = .infinity .negative) : a.rank = ⊥ := by
  rw [rank, h]
  rfl

theorem rank_eq_top (h : a.toModel.unpack = .infinity .positive) : a.rank = ⊤ := by
  rw [rank, h]
  rfl

/-- Below a finite number is no positive infinity. -/
theorem ne_infinity_of_le (h : a ≤ b) (hb : b.isFinite = true) :
    a.toModel.unpack ≠ .infinity .positive := by
  intro ha
  obtain ⟨ha', hb'⟩ := isNaN_of_le h
  rw [le_iff_rank ha' hb', rank_eq_top ha, top_le_iff, rank, rank_of_isFinite hb] at h
  exact WithTop.coe_ne_top (WithBot.coe_injective h)

/-- Above a finite number is no negative infinity. -/
theorem ne_infinity_of_ge (h : b ≤ a) (hb : b.isFinite = true) :
    a.toModel.unpack ≠ .infinity .negative := by
  intro ha
  obtain ⟨hb', ha'⟩ := isNaN_of_le h
  rw [le_iff_rank hb' ha', rank_eq_bot ha, le_bot_iff, rank, rank_of_isFinite hb] at h
  exact WithBot.coe_ne_bot h

/-! ## Numbers that are ordered both ways -/

protected theorem le_rfl (ha : a.isNaN = false) : a ≤ a := (le_iff_rank ha ha).2 le_rfl

theorem isNaN_of_isFinite (h : a.isFinite = true) : a.isNaN = false := by
  change a.toModel.unpack.isFinite = true at h
  change a.toModel.unpack.isNaN = false
  generalize a.toModel.unpack = u at h
  cases u <;> first | rfl | cases h

theorem Alike.le (h : a.Alike b) (ha : a.isNaN = false) : a ≤ b := by
  obtain heq | ⟨hnan, -⟩ := h
  · obtain ⟨ha, hb, hrank⟩ := beq_iff_rank.1 heq
    exact (le_iff_rank ha hb).2 hrank.le
  · exact absurd (ha.symm.trans hnan) Bool.false_ne_true

theorem Alike.of_le_of_le (hab : a ≤ b) (hba : b ≤ a) : a.Alike b := by
  obtain ⟨ha, hb⟩ := isNaN_of_le hab
  exact .of_beq (beq_iff_rank.2
    ⟨ha, hb, ((le_iff_rank ha hb).1 hab).antisymm ((le_iff_rank hb ha).1 hba)⟩)

/-! ## Sums -/

theorem unpack_add (a m : Single) : (a + m).toModel.unpack
    = repack .binary32 (add .binary32 a.toModel.unpack m.toModel.unpack) := rfl

/-- A sum with an infinity is that infinity, if it is a number. -/
theorem rank_add_of_infinity {s : Sign} (hm : m.toModel.unpack = .infinity s)
    (h : (a + m).isNaN = false) : (a + m).rank = m.rank := by
  change (a + m).toModel.unpack.isNaN = false at h
  rw [unpack_add, hm] at h
  rw [rank, rank, unpack_add, hm]
  obtain hsum | hsum := add_infinity (f := .binary32) a.toModel.unpack s
  · rw [hsum, repack_infinity]
  · rw [hsum, repack_notANumber] at h
    cases h

theorem rank_add_of_isFinite (ha : a.isFinite = true) (hm : m.isFinite = true) :
    ∃ u, Rounds .binary32 (a.value + m.value) u
      ∧ (a + m).rank = packedPlace .binary32 (Rounding.value u) := by
  have h := (is_value ha).rounds_add (is_value hm)
  exact ⟨_, h, rank_repack (by decide) h.isFinite h.canonical⟩

/-- A sum with NaN is NaN. -/
theorem isNaN_of_isNaN_add (h : (a + m).isNaN = false) : a.isNaN = false ∧ m.isNaN = false := by
  have key {a m : Single} (h : (a + m).isNaN = false) : a.isNaN = false := by
    change (a + m).toModel.unpack.isNaN = false at h
    change a.toModel.unpack.isNaN = false
    rw [unpack_add] at h
    cases ha : a.toModel.unpack with
    | notANumber =>
      rw [ha, show add .binary32 .notANumber m.toModel.unpack = .notANumber from rfl,
        repack_notANumber] at h
      cases h
    | _ => rfl
  exact ⟨key h, key (Single.add_comm a m ▸ h)⟩

/-- Sums with the same number are ordered as what is added to it. -/
protected theorem add_le_add_right (h : a ≤ b) (ha : (a + m).isNaN = false)
    (hb : (b + m).isNaN = false) : a + m ≤ b + m := by
  by_cases hba : b ≤ a
  · exact ((Alike.of_le_of_le h hba).add (.refl m)).le ha
  obtain ⟨ha', hb'⟩ := isNaN_of_le h
  rw [le_iff_rank hb' ha', not_le] at hba
  refine (le_iff_rank ha hb).2 ?_
  have hinfinite {c : Single} {s : Sign} (hc : c.toModel.unpack = .infinity s)
      (hsum : (c + m).isNaN = false) : (c + m).rank = c.rank := by
    rw [Single.add_comm] at hsum ⊢
    exact rank_add_of_infinity hc hsum
  obtain hm | hm | hm := isFinite_or_infinity (isNaN_of_isNaN_add ha).2
  · obtain hfa | hfa | hfa := isFinite_or_infinity ha'
    · obtain hfb | hfb | hfb := isFinite_or_infinity hb'
      · obtain ⟨u, hu, hrankA⟩ := rank_add_of_isFinite hfa hm
        obtain ⟨v, hv, hrankB⟩ := rank_add_of_isFinite hfb hm
        have hlt : a.value < b.value :=
          ((is_value hfa).lt_iff (is_value hfb)).1 ((lt_iff_rank ha' hb').2 hba)
        rw [hrankA, hrankB]
        exact packedPlace_mono _ (hu.value_le_value hv (by linarith))
      · exact absurd hba (rank_eq_bot hfb ▸ not_lt_bot)
      · rw [hinfinite hfb hb, rank_eq_top hfb]
        exact le_top
    · rw [hinfinite hfa ha, rank_eq_bot hfa]
      exact bot_le
    · exact absurd hba (rank_eq_top hfa ▸ not_top_lt)
  · rw [rank_add_of_infinity hm ha, rank_add_of_infinity hm hb]
  · rw [rank_add_of_infinity hm ha, rank_add_of_infinity hm hb]

/-! ## Differences -/

theorem unpack_neg (a : Single) : (-a).toModel.unpack = a.toModel.unpack.neg := by
  have hfits : Fits .binary32 a.toModel.unpack := (canonical_unpack (by decide) _).2
  refine unpack_pack (canonical_neg a.canonical) ?_
  generalize a.toModel.unpack = u at hfits
  cases u <;> exact hfits

protected theorem sub_eq_add_neg (a b : Single) : a - b = a + -b := by
  have h := Rounding.sub_eq_add_neg (f := .binary32) a.toModel.unpack b.toModel.unpack
  rw [← unpack_neg] at h
  exact congrArg Single.pack h

theorem isNaN_neg (a : Single) : (-a).isNaN = a.isNaN := by
  change (-a).toModel.unpack.isNaN = a.toModel.unpack.isNaN
  rw [unpack_neg]
  cases a.toModel.unpack <;> rfl

theorem neg_le_self (h : 0 ≤ a) : -a ≤ a := by
  obtain ⟨-, ha⟩ := isNaN_of_le h
  obtain hfa | hfa | hfa := isFinite_or_infinity ha
  · have hvalue : 0 ≤ a.value := (is_zero.le_iff (is_value hfa)).1 h
    exact ((is_value hfa).neg.le_iff (is_value hfa)).2 (by linarith)
  · exact absurd hfa (ne_infinity_of_ge h rfl)
  · refine (le_iff_rank ((isNaN_neg a).trans ha) ha).2 ?_
    rw [rank_eq_top hfa]
    exact le_top

/-! ## Comparing alike numbers -/

namespace Alike

variable {a' b' : Single}

theorem isNaN_eq (h : a.Alike b) : a.isNaN = b.isNaN := (alike_iff.1 h).isNaN_eq

theorem rank_eq (h : a.Alike b) (ha : a.isNaN = false) : a.rank = b.rank := by
  obtain heq | ⟨hnan, -⟩ := h
  · exact (beq_iff_rank.1 heq).2.2
  · exact absurd (ha.symm.trans hnan) Bool.false_ne_true

theorem le_of_le (ha : a.Alike a') (hb : b.Alike b') (h : a ≤ b) : a' ≤ b' := by
  obtain ⟨hna, hnb⟩ := isNaN_of_le h
  rw [le_iff_rank hna hnb, ha.rank_eq hna, hb.rank_eq hnb] at h
  exact (le_iff_rank (ha.isNaN_eq ▸ hna) (hb.isNaN_eq ▸ hnb)).2 h

theorem le_iff (ha : a.Alike a') (hb : b.Alike b') : a ≤ b ↔ a' ≤ b' :=
  ⟨ha.le_of_le hb, ha.symm.le_of_le hb.symm⟩

theorem lt_of_lt (ha : a.Alike a') (hb : b.Alike b') (h : a < b) : a' < b' := by
  obtain ⟨hna, hnb⟩ := isNaN_of_lt h
  rw [lt_iff_rank hna hnb, ha.rank_eq hna, hb.rank_eq hnb] at h
  exact (lt_iff_rank (ha.isNaN_eq ▸ hna) (hb.isNaN_eq ▸ hnb)).2 h

theorem lt_iff (ha : a.Alike a') (hb : b.Alike b') : a < b ↔ a' < b' :=
  ⟨ha.lt_of_lt hb, ha.symm.lt_of_lt hb.symm⟩

theorem min (ha : a.Alike a') (hb : b.Alike b') : (a.min b).Alike (a'.min b') := by
  rw [Single.min, Single.min]
  simp only [ha.isNaN_eq, hb.lt_iff ha]
  split
  · exact hb
  · split
    · exact hb
    · exact ha

theorem max (ha : a.Alike a') (hb : b.Alike b') : (a.max b).Alike (a'.max b') := by
  rw [Single.max, Single.max]
  simp only [ha.isNaN_eq, ha.lt_iff hb]
  split
  · exact hb
  · split
    · exact hb
    · exact ha

end Alike

/-! ## Smallest and largest numbers -/

theorem min_of_isNaN (ha : a.isNaN = true) (b : Single) : a.min b = b := if_pos ha

theorem max_of_isNaN (ha : a.isNaN = true) (b : Single) : a.max b = b := if_pos ha

protected theorem min_eq_left (h : a ≤ b) : a.min b = a := by
  obtain ⟨ha, hb⟩ := isNaN_of_le h
  rw [le_iff_rank ha hb] at h
  rw [Single.min, ha, if_neg Bool.false_ne_true, if_neg ((lt_iff_rank hb ha).not.2 h.not_gt)]

protected theorem max_eq_left (h : b ≤ a) : a.max b = a := by
  obtain ⟨hb, ha⟩ := isNaN_of_le h
  rw [le_iff_rank hb ha] at h
  rw [Single.max, ha, if_neg Bool.false_ne_true, if_neg ((lt_iff_rank ha hb).not.2 h.not_gt)]

protected theorem lt_trans (hab : a < b) (hbc : b < c) : a < c := by
  obtain ⟨ha, hb⟩ := isNaN_of_lt hab
  obtain ⟨-, hc⟩ := isNaN_of_lt hbc
  rw [lt_iff_rank ha hb] at hab
  rw [lt_iff_rank hb hc] at hbc
  exact (lt_iff_rank ha hc).2 (hab.trans hbc)

/-- A number is above the smaller or below the larger of two numbers. -/
theorem lt_or_lt_of_lt (h : a < c) (hb : b.isNaN = false) : a < b ∨ b < c := by
  obtain ⟨ha, hc⟩ := isNaN_of_lt h
  rw [lt_iff_rank ha hc] at h
  rw [lt_iff_rank ha hb, lt_iff_rank hb hc]
  exact (lt_or_ge a.rank b.rank).imp_right fun hba => lt_of_le_of_lt hba h

/-- Of three numbers the same one is picked, whichever two are compared first, if giving way to a
number is a strict weak order. -/
theorem pick_assoc {R : Single → Single → Prop} [DecidableRel R]
    (htrans : R a b → R b c → R a c) (hsplit : R a c → R a b ∨ R b c) :
    (if R (if R a b then b else a) c then c else if R a b then b else a)
      = if R a (if R b c then c else b) then if R b c then c else b else a := by
  by_cases hab : R a b <;> by_cases hbc : R b c <;> by_cases hac : R a c <;> simp_all

/-- How the least of several numbers is found: a number gives way if it is NaN or larger. -/
protected theorem min_eq (a b : Single) : a.min b = if a.isNaN = true ∨ b < a then b else a := by
  rw [Single.min]
  split_ifs <;> simp_all

protected theorem max_eq (a b : Single) : a.max b = if a.isNaN = true ∨ a < b then b else a := by
  rw [Single.max]
  split_ifs <;> simp_all

theorem max_alike_right (h : a ≤ b) : (a.max b).Alike b := by
  obtain ⟨ha, hb⟩ := isNaN_of_le h
  rw [Single.max, ha, if_neg Bool.false_ne_true]
  split
  · exact .refl b
  · next hlt => exact .of_le_of_le h (Single.le_of_not_lt ha hb hlt)

protected theorem min_assoc (a b c : Single) : (a.min b).min c = a.min (b.min c) := by
  simp only [Single.min_eq]
  refine pick_assoc (R := fun x y => x.isNaN = true ∨ y < x) ?_ ?_
  · rintro (ha | hba) (hb | hcb)
    · exact .inl ha
    · exact .inl ha
    · exact absurd ((isNaN_of_lt hba).1.symm.trans hb) Bool.false_ne_true
    · exact .inr (Single.lt_trans hcb hba)
  · rintro (ha | hca)
    · exact .inl (.inl ha)
    · cases hb : b.isNaN with
      | true => exact .inr (.inl rfl)
      | false => exact (lt_or_lt_of_lt hca hb).symm.imp .inr .inr

protected theorem max_assoc (a b c : Single) : (a.max b).max c = a.max (b.max c) := by
  simp only [Single.max_eq]
  refine pick_assoc (R := fun x y => x.isNaN = true ∨ x < y) ?_ ?_
  · rintro (ha | hab) (hb | hbc)
    · exact .inl ha
    · exact .inl ha
    · exact absurd ((isNaN_of_lt hab).2.symm.trans hb) Bool.false_ne_true
    · exact .inr (Single.lt_trans hab hbc)
  · rintro (ha | hac)
    · exact .inl (.inl ha)
    · cases hb : b.isNaN with
      | true => exact .inr (.inl rfl)
      | false => exact (lt_or_lt_of_lt hac hb).imp .inr .inr

/-! ## Extremes of sums -/

/-- The smallest sum with a number is the sum with the smallest number. -/
theorem min_add (ha : (a + m).isNaN = false) (hb : (b + m).isNaN = false) :
    (a.min b + m).Alike ((a + m).min (b + m)) := by
  obtain ⟨hna, -⟩ := isNaN_of_isNaN_add ha
  obtain ⟨hnb, -⟩ := isNaN_of_isNaN_add hb
  rw [Single.min, hna, if_neg Bool.false_ne_true]
  split
  · next hlt =>
    have hle := Single.add_le_add_right (Single.le_of_lt hlt) hb ha
    rw [Single.min, ha, if_neg Bool.false_ne_true]
    split
    · exact .refl _
    · next h => exact .of_le_of_le hle (Single.le_of_not_lt hb ha h)
  · next hlt =>
    rw [Single.min_eq_left (Single.add_le_add_right (Single.le_of_not_lt hnb hna hlt) ha hb)]
    exact .refl _

/-- The largest sum with a number is the sum with the largest number. -/
theorem max_add (ha : (a + m).isNaN = false) (hb : (b + m).isNaN = false) :
    (a.max b + m).Alike ((a + m).max (b + m)) := by
  obtain ⟨hna, -⟩ := isNaN_of_isNaN_add ha
  obtain ⟨hnb, -⟩ := isNaN_of_isNaN_add hb
  rw [Single.max, hna, if_neg Bool.false_ne_true]
  split
  · next hlt =>
    have hle := Single.add_le_add_right (Single.le_of_lt hlt) ha hb
    rw [Single.max, ha, if_neg Bool.false_ne_true]
    split
    · exact .refl _
    · next h => exact .of_le_of_le (Single.le_of_not_lt ha hb h) hle
  · next hlt =>
    rw [Single.max_eq_left (Single.add_le_add_right (Single.le_of_not_lt hna hnb hlt) hb ha)]
    exact .refl _

/-! ## Moving the ends of an interval outwards -/

section Outwards

variable {p q r : Single}

/-- Sums are numbers, unless infinities cancel out. -/
theorem isNaN_add (s : Sign) (ha : a.isNaN = false) (hm : m.isNaN = false)
    (has : a.toModel.unpack ≠ .infinity s) (hms : m.toModel.unpack ≠ .infinity s) :
    (a + m).isNaN = false := isNaN_repack_add s ha hm has hms a.canonical m.canonical

/-- What is below a finite number can be moved down. -/
theorem isNaN_add_neg (h : a ≤ p) (hp : p.isFinite = true) (hm : 0 ≤ m) :
    (a + -m).isNaN = false := by
  obtain ⟨ha, -⟩ := isNaN_of_le h
  obtain ⟨-, hnm⟩ := isNaN_of_le hm
  refine isNaN_add .positive ha ((isNaN_neg m).trans hnm) (ne_infinity_of_le h hp) ?_
  rw [unpack_neg]
  have := ne_infinity_of_ge hm rfl
  generalize m.toModel.unpack = u at this
  intro hu
  cases u with
  | infinity s => cases s <;> simp_all [neg]
  | _ => cases hu

theorem isNaN_add_of_ge (h : p ≤ a) (hp : p.isFinite = true) (hm : 0 ≤ m) :
    (a + m).isNaN = false :=
  isNaN_add .negative (isNaN_of_le h).2 (isNaN_of_le hm).2 (ne_infinity_of_ge h hp)
    (ne_infinity_of_ge hm rfl)

theorem isNaN_add_of_isNaN (a : Single) (hm : m.isNaN = true) : (a + m).isNaN = true := by
  cases h : (a + m).isNaN with
  | true => rfl
  | false => exact (isNaN_of_isNaN_add h).2.symm.trans hm

/-- Moved outwards, the ends of an interval stay in order. -/
theorem sub_le_add (hb : b ≤ q) (hc : q ≤ c) (hq : q.isFinite = true) (hm : 0 ≤ m) :
    b - m ≤ c + m := by
  have hnq := isNaN_of_isFinite hq
  have hlow := isNaN_add_neg hb hq hm
  have hmiddle := isNaN_add_neg (Single.le_rfl hnq) hq hm
  have hmiddle' := isNaN_add_of_ge (Single.le_rfl hnq) hq hm
  rw [Single.sub_eq_add_neg]
  refine Single.le_trans (Single.add_le_add_right hb hlow hmiddle) (Single.le_trans ?_
    (Single.add_le_add_right hc hmiddle' (isNaN_add_of_ge hc hq hm)))
  rw [Single.add_comm q] at hmiddle hmiddle' ⊢
  rw [Single.add_comm q]
  exact Single.add_le_add_right (neg_le_self hm) hmiddle hmiddle'

/-- Both ends of an interval and something below another one, moved outwards by the same margin:
the smallest of them is the smallest of what is moved, moved. -/
theorem min_sub_alike (ha : a ≤ p) (hp : p.isFinite = true) (hb : b ≤ q) (hc : q ≤ c)
    (hq : q.isFinite = true) (hm : m.isNaN = false → 0 ≤ m) (hr : (a - m).Alike r) :
    (a.min b - m).Alike ((r.min (b - m)).min (c + m)) := by
  cases hnan : m.isNaN with
  | true =>
    have hsub (x : Single) : (x - m).isNaN = true := by
      rw [Single.sub_eq_add_neg]
      exact isNaN_add_of_isNaN x ((isNaN_neg m).trans hnan)
    have hnr : r.isNaN = true := hr.isNaN_eq.symm.trans (hsub a)
    rw [min_of_isNaN hnr, min_of_isNaN (hsub b)]
    exact .inr ⟨hsub _, isNaN_add_of_isNaN c hnan⟩
  | false =>
    have hm := hm hnan
    have hends := sub_le_add hb hc hq hm
    have hsum : (a.min b - m).Alike ((a - m).min (b - m)) := by
      simp only [Single.sub_eq_add_neg]
      exact min_add (isNaN_add_neg ha hp hm) (isNaN_add_neg hb hq hm)
    rw [Single.min_eq_left (Single.min_le_of_right_le hends)]
    exact hsum.trans (hr.min (.refl _))

/-- The same for the largest of them. -/
theorem max_add_alike (ha : p ≤ a) (hp : p.isFinite = true) (hb : b ≤ q) (hc : q ≤ c)
    (hq : q.isFinite = true) (hm : m.isNaN = false → 0 ≤ m) (hr : (a + m).Alike r) :
    (a.max c + m).Alike ((r.max (b - m)).max (c + m)) := by
  cases hnan : m.isNaN with
  | true =>
    have hadd (x : Single) := isNaN_add_of_isNaN x hnan
    have hsub : (b - m).isNaN = true := by
      rw [Single.sub_eq_add_neg]
      exact isNaN_add_of_isNaN b ((isNaN_neg m).trans hnan)
    have hnr : r.isNaN = true := hr.isNaN_eq.symm.trans (hadd a)
    rw [max_of_isNaN hnr, max_of_isNaN hsub]
    exact .inr ⟨hadd _, hadd _⟩
  | false =>
    have hm := hm hnan
    have hends := sub_le_add hb hc hq hm
    have hsum := max_add (isNaN_add_of_ge ha hp hm) (isNaN_add_of_ge hc hq hm)
    rw [Single.max_assoc]
    exact hsum.trans (hr.max (max_alike_right hends).symm)

end Outwards

/-! ## Half of a magnitude -/

theorem is_two : Is 2 2 := by
  have : (2 : Single).toModel.unpack = .finite .positive (2 ^ 23) (-22) (by decide) := rfl
  rw [Single.Is, this]
  exact ⟨rfl, ⟨by decide, by decide, by decide⟩, by norm_num [Rounding.value, sign]⟩

theorem unpack_half_abs (x : Single) : (x.abs / 2).toModel.unpack
    = repack .binary32 (div .binary32 x.toModel.unpack.abs (2 : Single).toModel.unpack) := by
  rw [← unpack_abs]
  rfl

/-- Half of a magnitude is not negative. -/
theorem half_abs_nonneg {x : Single} (h : (x.abs / 2).isNaN = false) : 0 ≤ x.abs / 2 := by
  refine (le_iff_rank rfl h).2 ?_
  have hinfinite {s : Sign} (hx : x.toModel.unpack = .infinity s) :
      (x.abs / 2).toModel.unpack = .infinity .positive := by
    rw [unpack_half_abs, hx]
    exact repack_infinity _ _
  have hx : x.isNaN = false := by
    change (x.abs / 2).toModel.unpack.isNaN = false at h
    change x.toModel.unpack.isNaN = false
    rw [unpack_half_abs] at h
    generalize x.toModel.unpack = u at h
    cases u with
    | notANumber => cases h
    | _ => rfl
  obtain hx | hx | hx := isFinite_or_infinity hx
  · have hquotient := (is_value hx).abs.rounds_div is_two two_ne_zero
    have hvalue := hquotient.le_value
      (by simpa using representable_intCast (f := .binary32) (n := 0) (by decide)) (by positivity)
    have hrank : Rounding.rank (x.abs / 2).toModel.unpack = packedPlace .binary32 _ :=
      rank_repack (by decide) hquotient.isFinite hquotient.canonical
    have hzero : packedPlace .binary32 0 = rank 0 := by
      have hoverflow : 0 < overflow .binary32 := two_zpow_pos _
      rw [packedPlace, if_neg (by linarith), if_neg (by linarith)]
      rfl
    change Single.rank 0 ≤ Rounding.rank (x.abs / 2).toModel.unpack
    rw [hrank, ← hzero]
    exact packedPlace_mono _ hvalue
  · rw [rank_eq_top (hinfinite hx)]
    exact le_top
  · rw [rank_eq_top (hinfinite hx)]
    exact le_top

end Single

end VectorGraphics
