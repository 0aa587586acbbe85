import VectorGraphics.Proofs.Number.Accuracy
import VectorGraphics.Proofs.Path.Drift
import VectorGraphics.Proofs.Path.ModeChoice
import VectorGraphics.Proofs.Path.RoundTrip

/-!
# How far a printed path drifts

An absolute coordinate is off by at most half a place when it is printed and read back, and the
rounding to a single. `chooseModes` makes displacements of absolute coordinates, each of which is
rounded when it is printed, and the roundings add up: after `n` displacements in a row a coordinate
of the pen is off by up to `n + 1` places (`chooseModes_drift_le`), and the drift can be more than
one place (`shortLines_drift`).
-/

namespace VectorGraphics

namespace Single

/-- The number is finite, as is `a`, and differs from it by at most `t`. -/
def Near (t : ℚ) (b a : Single) : Prop :=
  b.isFinite = true ∧ a.isFinite = true ∧ |b.value - a.value| ≤ t

instance (t : ℚ) (b a : Single) : Decidable (b.Near t a) := inferInstanceAs (Decidable (_ ∧ _))

theorem roundoff_le {q : ℚ} (hq : |q| ≤ 2002) : roundoff q ≤ ((1 / 8000 : ℚ) : ℝ) := by
  have hq' : |(q : ℝ)| ≤ 2002 := by exact_mod_cast hq
  have htiny : (2 : ℝ) ^ (-150 : ℤ) ≤ 2 ^ (-40 : ℤ) := zpow_le_zpow_right₀ one_le_two (by decide)
  rw [roundoff]
  calc (2 : ℝ) ^ (-24 : ℤ) * |(q : ℝ)| + 2 ^ (-150 : ℤ)
      ≤ 2 ^ (-24 : ℤ) * 2002 + 2 ^ (-40 : ℤ) := by gcongr
    _ ≤ ((1 / 8000 : ℚ) : ℝ) := by norm_num

variable {x y : Single}

/-- A sum of moderate size is finite and nearly exact. -/
theorem add_near (hx : x.isFinite = true) (hy : y.isFinite = true)
    (h : |x.value + y.value| ≤ 2002) :
    (x + y).isFinite = true ∧ |(x + y).value - (x.value + y.value)| ≤ 1 / 8000 := by
  have hrounds := (is_value hx).rounds_add (is_value hy)
  have hbound : Rounding.Available .binary32 (2 ^ (11 : ℤ)) :=
    Rounding.available_two_zpow (by decide) (by decide)
  obtain ⟨hlow, hhigh⟩ := abs_le.1 (h.trans (by norm_num : (2002 : ℚ) ≤ 2 ^ (11 : ℤ)))
  obtain ⟨r, hr, -⟩ := hrounds.exists_is_repack (by decide) hbound.neg hbound hlow hhigh
  have hfinite : (x + y).isFinite = true := hr.isFinite
  refine ⟨hfinite, ?_⟩
  have herror := (abs_value_add_sub_le hfinite).trans
    (le_of_eq_of_le (by rw [Rat.cast_add]) (roundoff_le h))
  rw [← Rat.cast_le (K := ℝ), Rat.cast_abs, Rat.cast_sub, Rat.cast_add]
  exact herror

/-- A place is between a thousandth and one. -/
theorem place_bounds {places : UInt8} (hp : places ≤ 3) :
    (1 : ℚ) / 1000 ≤ 1 / 10 ^ places.toNat ∧ (1 : ℚ) / 10 ^ places.toNat ≤ 1 := by
  refine ⟨?_, div_le_self zero_le_one (one_le_pow₀ (by norm_num))⟩
  gcongr
  exact_mod_cast Nat.pow_le_pow_right (by decide : 0 < 10) (UInt8.le_iff_toNat_le.1 hp)

/-- A coordinate is off by half a place when it is read back, but for the rounding to a single. -/
theorem reread_near {places : UInt8} (hp : places ≤ 3) (hx : x.isFinite = true)
    (h : |x.value| ≤ 2001) : (x.reread places).isFinite = true
      ∧ |(x.reread places).value - x.value| ≤ 1 / 10 ^ places.toNat / 2 + 1 / 7500 := by
  obtain ⟨w, hdenotes, hw⟩ := exists_denotes_chars hx
    (UInt8.le_trans hp (by decide : (3 : UInt8) ≤ 6)) (h.trans_lt (by norm_num))
  have hsize : |w| ≤ 2002 := by
    have := abs_sub_abs_le_abs_sub w x.value
    linarith [(place_bounds hp).2]
  obtain ⟨y, hy, hfinite, herror⟩ :=
    hdenotes.exists_ofLiteral? places.toNat_lt.le (hsize.trans (by norm_num))
  obtain rfl := Option.some.inj (hy.symm.trans (Path.ofLiteral?_chars hx places))
  refine ⟨hfinite, ?_⟩
  have herror : |(x.reread places).value - w| ≤ 1 / 8000 := by
    rw [← Rat.cast_le (K := ℝ), Rat.cast_abs, Rat.cast_sub]
    exact herror.trans (roundoff_le hsize)
  calc |(x.reread places).value - x.value| = |(x.reread places).value - w + (w - x.value)| := by
        rw [sub_add_sub_cancel]
    _ ≤ |(x.reread places).value - w| + |w - x.value| := abs_add_le _ _
    _ ≤ 1 / 10 ^ places.toNat / 2 + 1 / 7500 := by
        linarith

end Single

namespace Path

/-! ## Counting displacements -/

/-- How many displacements a coordinate has gone through after one more group. -/
def Mode.displacements (n : ℕ) : Mode → Option Single → ℕ
  | _, none => n
  | .absolute, some _ => 0
  | .relative, some _ => n + 1

/-- How many displacements each coordinate has gone through after one more group. -/
def Kind.displacements (k : Kind) (m : Mode) (n : ℕ × ℕ) (g : k.Group) : ℕ × ℕ :=
  (m.displacements n.1 (k.ends g).1, m.displacements n.2 (k.ends g).2)

/-- How many displacements the coordinates of a pen have gone through since they were given by an
absolute command. -/
structure Displacements where
  /-- Those of the current point. -/
  point : ℕ × ℕ := (0, 0)
  /-- Those of the starts of the subpaths opened so far, the latest first. -/
  starts : List (ℕ × ℕ) := []

namespace Displacements

/-- The displacements counted past a command. -/
def advance (n : Displacements) : Command → Displacements
  | .draw .move _ [] => n
  | .draw .move mode (p :: ps) =>
    let start := Kind.move.displacements mode n.point p
    { point := ps.foldl (Kind.move.displacements mode) start, starts := start :: n.starts }
  | .draw k mode groups => { n with point := groups.foldl (k.displacements mode) n.point }
  | .close => { n with point := n.starts.head?.getD n.point }

/-- The displacements counted past a list of commands. -/
def advanceAll (n : Displacements) (commands : List Command) : Displacements :=
  commands.foldl advance n

theorem advance_draw {k : Kind} (hk : k ≠ .move) (m : Mode) (gs : List k.Group)
    (n : Displacements) :
    n.advance (.draw k m gs) = { n with point := gs.foldl (k.displacements m) n.point } := by
  cases k <;> first | rfl | exact absurd rfl hk

end Displacements

/-! ## One coordinate -/

/-- A coordinate moved to what is written or by it. Where nothing is written it stays. -/
def Mode.reached (a : Single) : Mode → Option Single → Single
  | _, none => a
  | .absolute, some x => x
  | .relative, some x => a + x

/-- What is written for an absolute coordinate in a mode, with the pen at `a`. -/
def Mode.written (a : Single) : Mode → Option Single → Option Single
  | .absolute, e => e
  | .relative, e => e.map (· + -a)

/-- A coordinate of moderate size, and the same coordinate of a pen that walks along the text,
which has gone through `n` displacements. -/
structure Tracks (places : UInt8) (n : ℕ) (a b : Single) : Prop where
  isFinite : a.isFinite = true
  abs_le : |a.value| ≤ 1000
  near : n ≤ 1000 * 10 ^ places.toNat → b.Near ((n + 1) / 10 ^ places.toNat) a

/-- A number that may be a coordinate. -/
def IsModerate (x : Single) : Prop := x.isFinite = true ∧ |x.value| ≤ 1000

instance (x : Single) : Decidable (IsModerate x) := inferInstanceAs (Decidable (_ ∧ _))

/-- The difference of moderate numbers. -/
theorem IsModerate.add_neg {x a : Single} (hx : IsModerate x) (ha : IsModerate a) :
    (x + -a).isFinite = true ∧ |(x + -a).value - (x.value - a.value)| ≤ 1 / 8000 := by
  obtain ⟨hneg, hvalue⟩ := Single.is_iff.1 (Single.is_value ha.1).neg
  have hsize : |x.value + (-a).value| ≤ 2002 := by
    rw [hvalue]
    exact (abs_add_le _ _).trans (by rw [abs_neg]; linarith [hx.2, ha.2])
  have hnear := Single.add_near hx.1 hneg hsize
  rwa [hvalue, ← sub_eq_add_neg] at hnear

variable {places : UInt8} {n : ℕ} {a b x : Single}

/-- A displacement from `a` to `x`, printed and read back, takes a coordinate that is near `a` to
one that is near `x`, and adds at most a place to the distance: half a place for the printed number,
and three roundings. -/
theorem near_displaced (hp : places ≤ 3) {t : ℚ} (hb : b.Near t a) (ht : t ≤ 1000)
    (ha : IsModerate a) (hx : IsModerate x) :
    (b + (x + -a).reread places).Near (t + 1 / 10 ^ places.toNat) x := by
  obtain ⟨hb, -, hdrift⟩ := hb
  obtain ⟨hunit, hunit'⟩ := Single.place_bounds hp
  obtain ⟨hd, hd'⟩ := hx.add_neg ha
  have hsize : |(x + -a).value| ≤ 2001 := by
    have hxa := abs_sub x.value a.value
    have := abs_sub_abs_le_abs_sub (x + -a).value (x.value - a.value)
    linarith [hx.2, ha.2]
  obtain ⟨hread, hread'⟩ := Single.reread_near hp hd hsize
  have hsum : |b.value + ((x + -a).reread places).value - x.value|
      ≤ t + 1 / 10 ^ places.toNat / 2 + 1 / 7500 + 1 / 8000 := by
    calc |b.value + ((x + -a).reread places).value - x.value|
        = |b.value - a.value + (((x + -a).reread places).value - (x + -a).value)
            + ((x + -a).value - (x.value - a.value))| := by ring_nf
      _ ≤ _ := (abs_add_three _ _ _).trans (by linarith)
  have hsize : |b.value + ((x + -a).reread places).value| ≤ 2002 := by
    have := abs_sub_abs_le_abs_sub (b.value + ((x + -a).reread places).value) x.value
    linarith [hx.2]
  obtain ⟨hfinite, hround⟩ := Single.add_near hb hread hsize
  refine ⟨hfinite, hx.1, ?_⟩
  calc |(b + (x + -a).reread places).value - x.value|
      = |(b + (x + -a).reread places).value - (b.value + ((x + -a).reread places).value)
          + (b.value + ((x + -a).reread places).value - x.value)| := by rw [sub_add_sub_cancel]
    _ ≤ _ := (abs_add_le _ _).trans (by linarith)

/-- One group adds at most one place to the distance of the coordinates. -/
theorem Tracks.reached (hp : places ≤ 3) (h : Tracks places n a b) (m : Mode) {e : Option Single}
    (he : ∀ x, e = some x → IsModerate x) :
    Tracks places (m.displacements n e) (Mode.reached a .absolute e)
      (Mode.reached b m ((m.written a e).map (Single.reread places))) := by
  cases e with
  | none => cases m <;> exact h
  | some x =>
    have hx := he x rfl
    refine ⟨hx.1, hx.2, fun hn => ?_⟩
    cases m with
    | absolute =>
      obtain ⟨hfinite, hnear⟩ := Single.reread_near hp hx.1 (hx.2.trans (by norm_num))
      refine ⟨hfinite, hx.1, hnear.trans ?_⟩
      rw [Mode.displacements, Nat.cast_zero, zero_add]
      linarith [(Single.place_bounds hp).1]
    | relative =>
      rw [Mode.displacements] at hn ⊢
      -- So far the pens are at most a thousand units apart.
      have hlimit : (n + 1 : ℚ) / 10 ^ places.toNat ≤ 1000 := by
        rw [div_le_iff₀ (by positivity)]
        exact_mod_cast hn
      have hsplit : ((n + 1 : ℕ) + 1 : ℚ) / 10 ^ places.toNat
          = (n + 1) / 10 ^ places.toNat + 1 / 10 ^ places.toNat := by
        push_cast
        ring
      rw [hsplit]
      exact near_displaced hp (h.near (Nat.le_of_succ_le hn)) hlimit ⟨h.isFinite, h.abs_le⟩ hx

/-! ## Groups -/

/-- The coordinates of a point. -/
structure PointTracks (places : UInt8) (n : ℕ × ℕ) (p q : Point) : Prop where
  x : Tracks places n.1 p.x q.x
  y : Tracks places n.2 p.y q.y

namespace Kind

/-- An absolute group as it reads in a mode, with the pen at `pen`. -/
def spelled (k : Kind) : Mode → (pen : Point) → k.Group → k.Group
  | .absolute, _, g => g
  | .relative, pen, g => k.convert .relative pen g

/-- Absolute groups as they read in a mode, with the pen at `pen` before the first. -/
def spelledAll (k : Kind) : Mode → (pen : Point) → List k.Group → List k.Group
  | .absolute, _, gs => gs
  | .relative, pen, gs => k.convertAll .relative pen gs

theorem spelledAll_cons (k : Kind) (m : Mode) (pen : Point) (g : k.Group) (gs : List k.Group) :
    k.spelledAll m pen (g :: gs)
      = k.spelled m pen g :: k.spelledAll m (k.land .absolute pen g) gs := by
  cases m <;> rfl

variable {k : Kind} {m : Mode}

theorem land_eq (pen : Point) (g : k.Group) :
    k.land m pen g = ⟨m.reached pen.x (k.ends g).1, m.reached pen.y (k.ends g).2⟩ := by
  cases k <;> cases m <;> rfl

theorem ends_spelled (pen : Point) (g : k.Group) : k.ends (k.spelled m pen g)
    = (m.written pen.x (k.ends g).1, m.written pen.y (k.ends g).2) := by
  cases m with
  | absolute => rfl
  | relative => cases k <;> rfl

theorem ends_mapNumbers (f : Single → Single) (g : k.Group) :
    k.ends (k.mapNumbers f g) = ((k.ends g).1.map f, (k.ends g).2.map f) := by
  cases k <;> rfl

theorem displacements_spelled (n : ℕ × ℕ) (pen : Point) (g : k.Group) :
    k.displacements m n (k.spelled m pen g) = k.displacements m n g := by
  have hwritten (n : ℕ) (a : Single) (e : Option Single) :
      m.displacements n (m.written a e) = m.displacements n e := by
    cases m <;> cases e <;> rfl
  rw [displacements, displacements, ends_spelled, hwritten, hwritten]

/-- What a group writes for the coordinates of its end are coordinates. -/
theorem ends_mem_coordinates {g : k.Group} {x : Single}
    (h : (k.ends g).1 = some x ∨ (k.ends g).2 = some x) : x ∈ k.coordinates g := by
  cases k <;> simp [ends, coordinates, numbers, eq_comm] at h ⊢ <;> tauto

variable {places : UInt8} {n : ℕ × ℕ} {p q : Point}

theorem land_tracks (hp : places ≤ 3) (h : PointTracks places n p q) (m : Mode) {g : k.Group}
    (hg : ∀ x ∈ k.coordinates g, IsModerate x) :
    PointTracks places (k.displacements m n (k.spelled m p g)) (k.land .absolute p g)
      (k.land m q (k.mapNumbers (Single.reread places) (k.spelled m p g))) := by
  rw [displacements_spelled, land_eq, land_eq, ends_mapNumbers, ends_spelled]
  exact ⟨h.x.reached hp m fun x hx => hg x (ends_mem_coordinates (.inl hx)),
    h.y.reached hp m fun y hy => hg y (ends_mem_coordinates (.inr hy))⟩

/-- The pens after several groups. -/
theorem foldl_land_tracks (hp : places ≤ 3) (h : PointTracks places n p q) (m : Mode)
    {gs : List k.Group} (hgs : ∀ g ∈ gs, ∀ x ∈ k.coordinates g, IsModerate x) :
    PointTracks places ((k.spelledAll m p gs).foldl (k.displacements m) n)
      (gs.foldl (k.land .absolute) p)
      (((k.spelledAll m p gs).map (k.mapNumbers (Single.reread places))).foldl (k.land m) q) := by
  induction gs generalizing n p q with
  | nil => cases m <;> exact h
  | cons g gs ih =>
    obtain ⟨hg, hgs⟩ := List.forall_mem_cons.1 hgs
    rw [spelledAll_cons]
    exact ih (land_tracks hp h m hg) hgs

end Kind

/-! ## Commands -/

/-- The starts of the subpaths. -/
inductive StartsTrack (places : UInt8) : List (ℕ × ℕ) → List Point → List Point → Prop
  | nil : StartsTrack places [] [] []
  | cons {n : ℕ × ℕ} {p q : Point} {ns : List (ℕ × ℕ)} {ps qs : List Point}
      (h : PointTracks places n p q) (hs : StartsTrack places ns ps qs) :
    StartsTrack places (n :: ns) (p :: ps) (q :: qs)

/-- The pens along a path and along its text, after the displacements counted. -/
structure PenTracks (places : UInt8) (n : Displacements) (p q : Pen) : Prop where
  point : PointTracks places n.point p.point q.point
  starts : StartsTrack places n.starts p.starts q.starts

theorem penTracks_origin (places : UInt8) : PenTracks places {} {} {} := by
  have hzero : Tracks places 0 0 0 := by
    have hfinite : (0 : Single).isFinite = true := Single.is_zero.isFinite
    have hvalue : (0 : Single).value = 0 := Single.is_zero.value_eq
    refine ⟨hfinite, by rw [hvalue]; norm_num, fun _ => ⟨hfinite, hfinite, ?_⟩⟩
    rw [sub_self, abs_zero]
    positivity
  exact ⟨⟨hzero, hzero⟩, .nil⟩

/-- An absolute command in the mode that is chosen for it. -/
theorem exists_chooseMode_eq (places : UInt8) (pen : Point) (k : Kind) (gs : List k.Group) :
    ∃ m, chooseMode places pen (.draw k .absolute gs) = .draw k m (k.spelledAll m pen gs) := by
  obtain h | h := chooseMode_eq_or places pen k .absolute gs
  · exact ⟨.absolute, h⟩
  · exact ⟨.relative, h⟩

section

variable {places : UInt8} {n : Displacements} {p q : Pen}

theorem PenTracks.close (h : PenTracks places n p q) :
    PenTracks places (n.advance .close) (p.advance .close) (q.advance .close) := by
  obtain ⟨hpoint, hstarts⟩ := h
  refine ⟨?_, hstarts⟩
  rw [Displacements.advance, Pen.advance, Pen.advance]
  generalize n.starts = ns, p.starts = ps, q.starts = qs at hstarts
  cases hstarts with
  | nil => exact hpoint
  | cons hstart _ => exact hstart

theorem PenTracks.draw (hp : places ≤ 3) (h : PenTracks places n p q) (k : Kind) (m : Mode)
    {gs : List k.Group} (hgs : ∀ g ∈ gs, ∀ x ∈ k.coordinates g, IsModerate x) :
    PenTracks places (n.advance (.draw k m (k.spelledAll m p.point gs)))
      (p.advance (.draw k .absolute gs))
      (q.advance ((Command.draw k m (k.spelledAll m p.point gs)).mapNumbers
        (Single.reread places))) := by
  rw [Command.mapNumbers]
  by_cases hk : k = .move
  · subst hk
    cases gs with
    | nil => cases m <;> exact h
    | cons g gs =>
      obtain ⟨hg, hgs⟩ := List.forall_mem_cons.1 hgs
      have hstart := Kind.land_tracks hp h.point m hg
      rw [Kind.spelledAll_cons]
      exact ⟨Kind.foldl_land_tracks hp hstart m hgs, .cons hstart h.starts⟩
  · rw [Displacements.advance_draw hk, Pen.advance_draw hk, Pen.advance_draw hk]
    exact ⟨Kind.foldl_land_tracks hp h.point m hgs, h.starts⟩

/-- One command of the path, as it is chosen, printed and read back. -/
theorem PenTracks.advance (hp : places ≤ 3) (h : PenTracks places n p q) {c : Command}
    (habsolute : c.isRelative = false) (hc : ∀ x ∈ c.coordinates, IsModerate x) :
    PenTracks places (n.advance (chooseMode places p.point c)) (p.advance c)
      (q.advance ((chooseMode places p.point c).mapNumbers (Single.reread places))) := by
  cases c with
  | close => exact h.close
  | draw k m gs =>
    cases m with
    | relative => cases habsolute
    | absolute =>
      obtain ⟨m, hm⟩ := exists_chooseMode_eq places p.point k gs
      rw [hm]
      exact h.draw hp k m fun g hg x hx => hc x (List.mem_flatMap.2 ⟨g, hg, hx⟩)

end

/-! ## Printing -/

/-- The numbers of a command are finite. -/
def Command.IsFinite (c : Command) : Prop := ∀ xs ∈ c.numbers, ∀ x ∈ xs, x.isFinite = true

instance (c : Command) : Decidable c.IsFinite :=
  inferInstanceAs (Decidable (∀ xs ∈ c.numbers, ∀ x ∈ xs, x.isFinite = true))

/-- The numbers of a displaced group are coordinates that are displaced, and other numbers of the
group. -/
theorem Kind.mem_numbers_shift {k : Kind} {offset : Point} {g : k.Group} {x : Single}
    (h : x ∈ k.numbers (k.shift offset g)) :
    x ∈ k.numbers g ∨ ∃ y ∈ k.coordinates g, x = y + offset.x ∨ x = y + offset.y := by
  cases k <;>
    simp only [numbers, shift, mapPoints, coordinates, List.mem_cons, List.not_mem_nil, or_false,
      exists_eq_or_imp, exists_eq_left, Point.add_x, Point.add_y] at h ⊢ <;>
    tauto

theorem Kind.isFinite_spelled {k : Kind} {m : Mode} {p : Point} {g : k.Group}
    (hfinite : ∀ x ∈ k.numbers g, x.isFinite = true) (hg : ∀ x ∈ k.coordinates g, IsModerate x)
    (hpx : IsModerate p.x) (hpy : IsModerate p.y) :
    ∀ x ∈ k.numbers (k.spelled m p g), x.isFinite = true := by
  cases m with
  | absolute => exact hfinite
  | relative =>
    intro x hx
    obtain hx | ⟨y, hy, rfl | rfl⟩ := Kind.mem_numbers_shift hx
    · exact hfinite x hx
    · exact ((hg y hy).add_neg hpx).1
    · exact ((hg y hy).add_neg hpy).1

theorem Kind.isFinite_spelledAll {k : Kind} {m : Mode} {p : Point} {gs : List k.Group}
    (hfinite : ∀ g ∈ gs, ∀ x ∈ k.numbers g, x.isFinite = true)
    (hgs : ∀ g ∈ gs, ∀ x ∈ k.coordinates g, IsModerate x) (hp : IsModerate p.x ∧ IsModerate p.y) :
    ∀ g ∈ k.spelledAll m p gs, ∀ x ∈ k.numbers g, x.isFinite = true := by
  induction gs generalizing p with
  | nil => cases m <;> nofun
  | cons g gs ih =>
    obtain ⟨hfirst, hfinite⟩ := List.forall_mem_cons.1 hfinite
    obtain ⟨hg, hgs⟩ := List.forall_mem_cons.1 hgs
    have hreached {a : Single} {e : Option Single} (ha : IsModerate a)
        (he : ∀ x, e = some x → IsModerate x) : IsModerate (Mode.reached a .absolute e) := by
      cases e with
      | none => exact ha
      | some x => exact he x rfl
    have hland : IsModerate (k.land .absolute p g).x ∧ IsModerate (k.land .absolute p g).y := by
      rw [land_eq]
      exact ⟨hreached hp.1 fun x hx => hg x (ends_mem_coordinates (.inl hx)),
        hreached hp.2 fun y hy => hg y (ends_mem_coordinates (.inr hy))⟩
    rw [spelledAll_cons]
    exact List.forall_mem_cons.2 ⟨isFinite_spelled hfirst hg hp.1 hp.2, ih hfinite hgs hland⟩

variable {places : UInt8} {cs : List Command}

theorem PenTracks.isModerate {n : Displacements} {p q : Pen} (h : PenTracks places n p q) :
    IsModerate p.point.x ∧ IsModerate p.point.y :=
  ⟨⟨h.point.x.isFinite, h.point.x.abs_le⟩, ⟨h.point.y.isFinite, h.point.y.abs_le⟩⟩

theorem isFinite_chooseMode {c : Command} {p : Point} (habsolute : c.isRelative = false)
    (hfinite : c.IsFinite) (hc : ∀ x ∈ c.coordinates, IsModerate x)
    (hp : IsModerate p.x ∧ IsModerate p.y) : (chooseMode places p c).IsFinite := by
  cases c with
  | close => nofun
  | draw k m gs =>
    cases m with
    | relative => cases habsolute
    | absolute =>
      obtain ⟨m, hm⟩ := exists_chooseMode_eq places p k gs
      rw [hm]
      exact List.forall_mem_map.2 (Kind.isFinite_spelledAll (List.forall_mem_map.1 hfinite)
        (fun g hg x hx => hc x (List.mem_flatMap.2 ⟨g, hg, hx⟩)) hp)

/-! ## Whole paths -/

/-- What is asked of a path: its commands are absolute, their numbers finite and the coordinates of
moderate size. -/
structure IsModeratePath (cs : List Command) : Prop where
  isAbsolute : ∀ c ∈ cs, c.isRelative = false
  isFinite : ∀ c ∈ cs, c.IsFinite
  isModerate : ∀ c ∈ cs, ∀ x ∈ c.coordinates, IsModerate x

instance (cs : List Command) : Decidable (IsModeratePath cs) :=
  decidable_of_iff ((∀ c ∈ cs, c.isRelative = false) ∧ (∀ c ∈ cs, c.IsFinite)
    ∧ ∀ c ∈ cs, ∀ x ∈ c.coordinates, IsModerate x) ⟨fun h => ⟨h.1, h.2.1, h.2.2⟩,
      fun h => ⟨h.isAbsolute, h.isFinite, h.isModerate⟩⟩

/-- The modes that are chosen for the rest of a path make it finite, and the text is tracked. -/
theorem chooseModes_tracks (hplaces : places ≤ 3) {n : Displacements} {p q : Pen}
    (h : PenTracks places n p q) (hcs : IsModeratePath cs) :
    (∀ d ∈ chooseModes.go places p cs, d.IsFinite)
      ∧ PenTracks places (n.advanceAll (chooseModes.go places p cs)) (p.advanceAll cs)
        (q.advanceAll ((chooseModes.go places p cs).map
          (Command.mapNumbers (Single.reread places)))) := by
  induction cs generalizing n p q with
  | nil => exact ⟨nofun, h⟩
  | cons c cs ih =>
    obtain ⟨habsolute, hfinite, hmoderate⟩ := hcs
    obtain ⟨hc, hcs⟩ := List.forall_mem_cons.1 habsolute
    obtain ⟨hc', hcs'⟩ := List.forall_mem_cons.1 hfinite
    obtain ⟨hc'', hcs''⟩ := List.forall_mem_cons.1 hmoderate
    obtain ⟨hrest, htracks⟩ := ih (h.advance hplaces hc hc'') ⟨hcs, hcs', hcs''⟩
    exact ⟨List.forall_mem_cons.2 ⟨isFinite_chooseMode hc hc' hc'' h.isModerate, hrest⟩, htracks⟩

theorem take_chooseModes (places : UInt8) (cs : List Command) (i : ℕ) :
    (chooseModes places cs).take i = chooseModes places (cs.take i) :=
  take_rewrite (fun (pen : Pen) c _ => pen.advance c) (fun pen c => chooseMode places pen.point c)
    {} cs i

theorem IsModeratePath.take (h : IsModeratePath cs) (i : ℕ) : IsModeratePath (cs.take i) :=
  ⟨fun c hc => h.isAbsolute c (List.mem_of_mem_take hc),
    fun c hc => h.isFinite c (List.mem_of_mem_take hc),
    fun c hc => h.isModerate c (List.mem_of_mem_take hc)⟩

/-- **The drift of a printed path grows by at most one place for each displacement in a row.** Let
the commands of a path be absolute, with finite numbers and coordinates of magnitude at most 1000,
and let it be printed at up to three places in the modes that are chosen. The text is read back,
and after each command each coordinate of the pen is within `n + 1` places of where it is in the
path, if it has gone through `n` displacements since an absolute command gave it: so within one
place where there are none. (This is as long as `n` places are at most 1000 units.) -/
theorem chooseModes_drift_le (hplaces : places ≤ 3) (hpath : IsPath cs) (hcs : IsModeratePath cs) :
    ∃ out, parse (print (chooseModes places cs) places) = .ok out ∧ out.length = cs.length ∧ ∀ i,
      let n := Displacements.advanceAll {} ((chooseModes places cs).take i)
      let p := Pen.advanceAll {} (cs.take i)
      let q := Pen.advanceAll {} (out.take i)
      (n.point.1 ≤ 1000 * 10 ^ places.toNat →
          q.point.x.Near ((n.point.1 + 1) / 10 ^ places.toNat) p.point.x)
        ∧ (n.point.2 ≤ 1000 * 10 ^ places.toNat →
          q.point.y.Near ((n.point.2 + 1) / 10 ^ places.toNat) p.point.y) := by
  have hchosen := hpath.chooseModes places
  have hprintable : Printable (chooseModes places cs) :=
    ⟨hchosen.groups_ne_nil, (chooseModes_tracks hplaces (penTracks_origin places) hcs).1⟩
  refine ⟨_, parse_print places hprintable hchosen.move, ?_, fun i => ?_⟩
  · rw [List.length_map, length_chooseModes]
  · have htracks := (chooseModes_tracks hplaces (penTracks_origin places) (hcs.take i)).2
    have hout : ((chooseModes places cs).map (Command.mapNumbers (Single.reread places))).take i
        = (chooseModes places (cs.take i)).map (Command.mapNumbers (Single.reread places)) := by
      rw [← List.map_take, take_chooseModes]
    dsimp only
    rw [hout, take_chooseModes]
    exact ⟨htracks.point.x.near, htracks.point.y.near⟩

/-- Three lines that are a place and a half long become displacements of one place. -/
def shortLines : List Command :=
  [.draw .move .absolute [⟨500, 0⟩], .draw .horizontal .absolute [500.014],
    .draw .horizontal .absolute [500.028], .draw .horizontal .absolute [500.042]]

theorem isPath_shortLines : IsPath shortLines := by
  refine ⟨fun c hc => ?_, ?_⟩
  · rw [← Option.some.inj hc]
    rfl
  · simp [shortLines, Command.HasGroups, Command.groupCount]

/-- The lines end within four places of where they should. -/
theorem shortLines_drift_le : IsModeratePath shortLines
    ∧ ∃ out, parse (print (chooseModes 2 shortLines) 2) = .ok out
      ∧ (Pen.advanceAll {} (out.take 4)).point.x.Near (4 / 10 ^ 2)
        (Pen.advanceAll {} (shortLines.take 4)).point.x := by
  have hmoderate : IsModeratePath shortLines := by decide +kernel
  obtain ⟨out, hout, -, hnear⟩ := chooseModes_drift_le (by decide : (2 : UInt8) ≤ 3)
    isPath_shortLines hmoderate
  have hcount : (Displacements.advanceAll {} ((chooseModes 2 shortLines).take 4)).point.1 = 3 := by
    decide +kernel
  have hunits : ((3 : ℕ) + 1 : ℚ) / 10 ^ (2 : UInt8).toNat = 4 / 10 ^ 2 := by
    rw [show (2 : UInt8).toNat = 2 from rfl]
    norm_num
  have hx := (hnear 4).1
  rw [hcount, hunits] at hx
  exact ⟨hmoderate, out, hout, hx (by decide)⟩

/-- The last of the lines ends more than a place from where it should. -/
theorem shortLines_drift : IsPath shortLines ∧ IsModeratePath shortLines
    ∧ ∃ out, parse (print (chooseModes 2 shortLines) 2) = .ok out
      ∧ 1 / 10 ^ 2 < |(Pen.advanceAll {} (out.take 4)).point.x.value
          - (Pen.advanceAll {} (shortLines.take 4)).point.x.value| := by
  have hprintable : Printable (chooseModes 2 shortLines) :=
    ⟨(isPath_shortLines.chooseModes 2).groups_ne_nil, by decide +kernel⟩
  refine ⟨isPath_shortLines, by decide +kernel, _,
    parse_print 2 hprintable (isPath_shortLines.chooseModes 2).move, ?_⟩
  decide +kernel

end Path

end VectorGraphics
