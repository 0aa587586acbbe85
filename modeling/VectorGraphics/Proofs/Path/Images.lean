import VectorGraphics.Path.Mapping
import VectorGraphics.Proofs.Path.Outline

/-!
# The image of a path

`visits` lists what the pen meets along a path, command by command and group by group: the control
points that a group writes and the point to which it leads. The image of a path under a map is
walked through the images of these points (`mapPath_isImage`).

Every absolute group has an absolute group for its image (`Kind.mapGroup`), and for a group of a
horizontal or vertical line that is a point. The pen of the image stands at the image of the pen,
with the images of the starts of subpaths, after every command (`Pen.advance_image`), so that a
close leads back to the image of the start.
-/

namespace VectorGraphics.Path

/-! ## Visits -/

/-- What the pen meets along one group, in absolute coordinates. -/
structure Visit where
  /-- The control points that the group writes. -/
  controls : List Point
  /-- Where the pen stands after the group. -/
  stop : Point

/-- The image of a visit. -/
def Visit.map (f : Point → Point) (v : Visit) : Visit := ⟨v.controls.map f, f v.stop⟩

/-- The control points that a group writes. -/
def Kind.controls : (k : Kind) → k.Group → List Point
  | .cubic, g => [g.control1, g.control2]
  | .smoothCubic, g => [g.control2]
  | .quadratic, g => [g.control]
  | _, _ => []

/-- A written point in absolute coordinates. -/
def Mode.place (pen : Point) : Mode → Point → Point
  | .absolute, p => p
  | .relative, p => pen + p

/-- What the pen meets along some groups. -/
def Kind.visits (k : Kind) (mode : Mode) : (pen : Point) → List k.Group → List Visit
  | _, [] => []
  | pen, g :: gs =>
    ⟨(k.controls g).map (mode.place pen), k.land mode pen g⟩
      :: k.visits mode (k.land mode pen g) gs

/-- What the pen meets along a command. A close leads back to the start of the subpath. -/
def Command.visits (pen : Pen) : Command → List Visit
  | .draw k mode gs => k.visits mode pen.point gs
  | .close => [⟨[], (pen.advance .close).point⟩]

/-- What the pen meets along a list of commands, command by command. -/
def visits (pen : Pen) : List Command → List (List Visit)
  | [] => []
  | c :: cs => c.visits pen :: visits (pen.advance c) cs

/-! ## Images of groups -/

namespace Kind

/-- The kind of the image of a command. -/
def image : Kind → Kind
  | .horizontal | .vertical => .line
  | k => k

variable (m : Matrix)

/-- The image of an absolute group drawn from `pen`. -/
def mapGroup : (k : Kind) → (pen : Point) → k.Group → k.image.Group
  | .horizontal, pen, x => m.apply ⟨x, pen.y⟩
  | .vertical, pen, y => m.apply ⟨pen.x, y⟩
  | .arc, pen, g => mapArc m pen g
  | .move, _, g => Kind.move.mapPoints m.apply g
  | .line, _, g => Kind.line.mapPoints m.apply g
  | .cubic, _, g => Kind.cubic.mapPoints m.apply g
  | .smoothCubic, _, g => Kind.smoothCubic.mapPoints m.apply g
  | .quadratic, _, g => Kind.quadratic.mapPoints m.apply g
  | .smoothQuadratic, _, g => Kind.smoothQuadratic.mapPoints m.apply g

/-- The images of absolute groups, each of which starts where the one before ends. -/
def mapGroups (k : Kind) : (pen : Point) → List k.Group → List k.image.Group
  | _, [] => []
  | pen, g :: gs => k.mapGroup m pen g :: k.mapGroups (k.land .absolute pen g) gs

/-- The image of a group leads to the image of its end, wherever the pen of the image is. -/
theorem land_mapGroup (k : Kind) (pen pen' : Point) (g : k.Group) :
    k.image.land .absolute pen' (k.mapGroup m pen g) = m.apply (k.land .absolute pen g) := by
  cases k <;> rfl

theorem controls_mapGroup (k : Kind) (pen : Point) (g : k.Group) :
    k.image.controls (k.mapGroup m pen g) = (k.controls g).map m.apply := by
  cases k <;> rfl

/-- The absolute form of a group writes its control points in absolute coordinates. -/
theorem controls_absolute (k : Kind) (mode : Mode) (pen : Point) (g : k.Group) :
    k.controls (k.absolute mode pen g) = (k.controls g).map (mode.place pen) := by
  cases mode with
  | absolute => exact (List.map_id' _).symm
  | relative =>
    cases k with
    | cubic =>
      exact congrArg₂ (fun p q => [p, q]) (Point.add_comm g.control1 pen)
        (Point.add_comm g.control2 pen)
    | smoothCubic => exact congrArg (fun p => [p]) (Point.add_comm g.control2 pen)
    | quadratic => exact congrArg (fun p => [p]) (Point.add_comm g.control pen)
    | _ => rfl

/-- The pen of the image meets the images of what the pen meets. -/
theorem visits_mapGroups (k : Kind) (mode : Mode) (pen pen' : Point) (gs : List k.Group) :
    k.image.visits .absolute pen' (k.mapGroups m pen (k.absolutes mode pen gs))
      = (k.visits mode pen gs).map (Visit.map m.apply) := by
  induction gs generalizing pen pen' with
  | nil => rw [absolutes_nil]; rfl
  | cons g gs ih =>
    have hcontrols : (k.image.controls (k.mapGroup m pen (k.absolute mode pen g))).map
        (Mode.absolute.place pen') = ((k.controls g).map (mode.place pen)).map m.apply := by
      rw [controls_mapGroup, controls_absolute]
      exact List.map_id' _
    rw [absolutes_cons, mapGroups, visits, hcontrols, land_mapGroup, land_absolute, ih]
    rfl

/-- The pen of the image is led to the image of where the pen is led. -/
theorem foldl_land_mapGroups (k : Kind) (pen : Point) (gs : List k.Group) :
    (k.mapGroups m pen gs).foldl (k.image.land .absolute) (m.apply pen)
      = m.apply (gs.foldl (k.land .absolute) pen) := by
  induction gs generalizing pen with
  | nil => rfl
  | cons g gs ih => rw [mapGroups, List.foldl_cons, land_mapGroup, ih, List.foldl_cons]

theorem mapGroups_eq_map {k : Kind} {f : k.Group → k.image.Group}
    (hf : ∀ pen g, k.mapGroup m pen g = f g) (pen : Point) (gs : List k.Group) :
    k.mapGroups m pen gs = gs.map f := by
  induction gs generalizing pen with
  | nil => rfl
  | cons g gs ih => rw [mapGroups, hf, ih, List.map_cons]

theorem mapGroups_horizontal (pen : Point) (xs : List Single) :
    horizontal.mapGroups m pen xs = xs.map fun x => m.apply ⟨x, pen.y⟩ := by
  induction xs generalizing pen with
  | nil => rfl
  | cons x xs ih => exact congrArg (m.apply ⟨x, pen.y⟩ :: ·) (ih ⟨x, pen.y⟩)

theorem mapGroups_vertical (pen : Point) (ys : List Single) :
    vertical.mapGroups m pen ys = ys.map fun y => m.apply ⟨pen.x, y⟩ := by
  induction ys generalizing pen with
  | nil => rfl
  | cons y ys ih => exact congrArg (m.apply ⟨pen.x, y⟩ :: ·) (ih ⟨pen.x, y⟩)

theorem mapGroups_arc (pen : Point) (gs : List ArcGroup) :
    arc.mapGroups m pen gs = mapArcs m pen gs := by
  induction gs generalizing pen with
  | nil => rfl
  | cons g gs ih => exact congrArg (mapArc m pen g :: ·) (ih g.stop)

end Kind

/-! ## Images of commands -/

section

variable (m : Matrix)

theorem mapCommand_draw (pen : Point) (k : Kind) (mode : Mode) (gs : List k.Group) :
    mapCommand m pen (.draw k mode gs) = .draw k.image .absolute (k.mapGroups m pen gs) := by
  cases k with
  | horizontal =>
    exact congrArg (Command.draw .line .absolute) (Kind.mapGroups_horizontal m pen gs).symm
  | vertical =>
    exact congrArg (Command.draw .line .absolute) (Kind.mapGroups_vertical m pen gs).symm
  | arc => exact congrArg (Command.draw .arc .absolute) (Kind.mapGroups_arc m pen gs).symm
  | _ =>
    exact congrArg (Command.draw _ .absolute)
      (Kind.mapGroups_eq_map m (fun _ _ => rfl) pen gs).symm

/-- The image of a command of either mode, drawn from `pen`. -/
def Command.image (pen : Point) (c : Command) : Command :=
  mapCommand m pen (c.inMode .absolute pen)

theorem Command.image_draw (pen : Point) (k : Kind) (mode : Mode) (gs : List k.Group) :
    (Command.draw k mode gs).image m pen
      = .draw k.image .absolute (k.mapGroups m pen (k.absolutes mode pen gs)) := by
  rw [image, inMode_absolute, mapCommand_draw]

/-- A path has the images of its commands, each drawn from where the pen is before it. -/
theorem getElem?_mapPath (cs : List Command) (i : ℕ) : (mapPath m cs)[i]?
    = cs[i]?.map (Command.image m (Pen.advanceAll {} (cs.take i)).point) :=
  getElem?_rewrite_of_before _ Pen.advance {} cs i

/-! ## The pen of the image -/

/-- The image of a pen. -/
def Pen.map (f : Point → Point) (p : Pen) : Pen := ⟨f p.point, p.starts.map f⟩

/-- The pen of the image stays the image of the pen. -/
theorem Pen.advance_image (p : Pen) (c : Command) :
    (p.map m.apply).advance (c.image m p.point) = (p.advance c).map m.apply := by
  cases c with
  | close =>
    change Pen.mk ((p.starts.map m.apply).head?.getD (m.apply p.point)) _ = _
    rw [List.head?_map, Option.getD_map]
    rfl
  | draw k mode gs =>
    rw [Command.image_draw]
    by_cases hk : k = .move
    · subst hk
      cases gs with
      | nil =>
        rw [Kind.absolutes_nil]
        rfl
      | cons g gs =>
        have hstart : Kind.move.absolute mode p.point g = Kind.move.land mode p.point g :=
          Kind.move.land_absolute mode p.point g
        have hstop := Kind.move.foldl_land_mapGroups m (Kind.move.land mode p.point g)
          (Kind.move.absolutes mode (Kind.move.land mode p.point g) gs)
        rw [Kind.foldl_land_absolutes] at hstop
        rw [Kind.absolutes_cons, Kind.mapGroups, hstart]
        exact congrArg (Pen.mk · (m.apply (Kind.move.land mode p.point g) :: _)) hstop
    · have himage : k.image ≠ .move := by cases k <;> first | exact absurd rfl hk | decide
      rw [Pen.advance_draw himage, Pen.advance_draw hk]
      change Pen.mk (List.foldl _ (m.apply p.point) _) _ = _
      rw [Kind.foldl_land_mapGroups, Kind.foldl_land_absolutes]
      rfl

/-- What the pen of the image meets along the image of a command. -/
theorem Command.visits_image (p : Pen) (c : Command) :
    (c.image m p.point).visits (p.map m.apply) = (c.visits p).map (Visit.map m.apply) := by
  cases c with
  | close =>
    have hstop := congrArg Pen.point (Pen.advance_image m p .close)
    exact congrArg (fun stop => [Visit.mk [] stop]) hstop
  | draw k mode gs =>
    rw [Command.image_draw]
    exact k.visits_mapGroups m mode p.point _ gs

/-- The image of the rest of a path, from the image of the pen. -/
theorem visits_mapPath_go (p : Pen) (cs : List Command) :
    visits (p.map m.apply) (mapPath.go m p cs)
      = (visits p cs).map (List.map (Visit.map m.apply)) := by
  induction cs generalizing p with
  | nil => rfl
  | cons c cs ih =>
    have hfirst := Command.visits_image m p c
    have hrest := ih (p.advance c)
    rw [← Pen.advance_image] at hrest
    exact congrArg₂ List.cons hfirst hrest

theorem advanceAll_mapPath_go (p : Pen) (cs : List Command) (i : ℕ) :
    (p.map m.apply).advanceAll ((mapPath.go m p cs).take i)
      = (p.advanceAll (cs.take i)).map m.apply := by
  induction cs generalizing p i with
  | nil => rw [mapPath.go, rewrite_nil, List.take_nil, Pen.advanceAll_nil, Pen.advanceAll_nil]
  | cons c cs ih =>
    cases i with
    | zero => rfl
    | succ i =>
      rw [mapPath.go, rewrite_cons, List.take_succ_cons, List.take_succ_cons, Pen.advanceAll_cons,
        Pen.advanceAll_cons, ← ih]
      exact congrArg (Pen.advanceAll · _) (Pen.advance_image m p c)

/-- Where an absolute move leads is not up to the pen. -/
theorem Pen.advance_image_move (mode : Mode) (q : Point) (qs : List Point) :
    Pen.advance {} ((Command.draw .move mode (q :: qs)).image m .origin)
      = (Pen.advance {} (.draw .move mode (q :: qs))).map m.apply := by
  rw [← Pen.advance_image, Command.image_draw, Kind.absolutes_cons, Kind.mapGroups]
  rfl

/-- The image of an arc keeps its size, and its direction unless the map is a reflection. -/
theorem Kind.flags_mapGroups (pen : Point) (mode : Mode) (gs : List ArcGroup) :
    let hs := arc.mapGroups m pen (arc.absolutes mode pen gs)
    hs.map ArcGroup.large = gs.map ArcGroup.large
      ∧ hs.map ArcGroup.clockwise = gs.map fun g => g.clockwise != decide (m.determinant < 0) := by
  induction gs generalizing pen with
  | nil =>
    rw [absolutes_nil]
    exact ⟨rfl, rfl⟩
  | cons g gs ih =>
    have hflags : (Kind.arc.absolute mode pen g).large = g.large
        ∧ (Kind.arc.absolute mode pen g).clockwise = g.clockwise := by
      cases mode <;> exact ⟨rfl, rfl⟩
    have hdirection (a : ArcGroup) :
        (mapArc m pen a).clockwise = (a.clockwise != decide (m.determinant < 0)) := by
      by_cases hdet : m.determinant < 0 <;> simp [mapArc, hdet]
    have hfirst : mapGroup m .arc pen (Kind.arc.absolute mode pen g)
        = mapArc m pen (Kind.arc.absolute mode pen g) := rfl
    obtain ⟨hlarge, hclockwise⟩ := ih (Kind.arc.land mode pen g)
    rw [absolutes_cons, mapGroups, land_absolute, hfirst]
    refine ⟨congrArg₂ List.cons hflags.1 hlarge, congrArg₂ List.cons ?_ hclockwise⟩
    rw [hdirection, hflags.2]

end

/-! ## The image of a path -/

/-- The second path is the image of the first. -/
structure IsImage (m : Matrix) (cs ds : List Command) : Prop where
  length_eq : ds.length = cs.length
  /-- Every command is a close or absolute, and none is a horizontal or vertical line. -/
  plain (d : Command) (h : d ∈ ds) : d = .close
    ∨ ∃ k hs, d = .draw k .absolute hs ∧ k ≠ .horizontal ∧ k ≠ .vertical
  /-- Commands keep their kinds, but horizontal and vertical lines become plain lines. -/
  kinds : ds.map Command.kind? = cs.map fun c => c.kind?.map Kind.image
  /-- The pen meets the images of all points that it meets along the first path. -/
  visits_eq : visits {} ds = (visits {} cs).map (List.map (Visit.map m.apply))
  /-- After every command the pen is the image of the pen of the first path. -/
  pen_eq (i : ℕ) (h : 0 < i) :
    Pen.advanceAll {} (ds.take i) = (Pen.advanceAll {} (cs.take i)).map m.apply
  /-- Arcs keep their size, and turn the other way around exactly if the map is a reflection. -/
  arcs (i : ℕ) (mode : Mode) (gs : List ArcGroup) (h : cs[i]? = some (.draw .arc mode gs)) :
    ∃ hs : List ArcGroup, ds[i]? = some (.draw .arc .absolute hs)
      ∧ hs.map ArcGroup.large = gs.map ArcGroup.large
      ∧ hs.map ArcGroup.clockwise = gs.map fun g => g.clockwise != decide (m.determinant < 0)

/-- **The image of a path is walked through the images of its points.** A path that begins with a
move has an image with the same number of commands, all of them absolute or closes and none of them
a horizontal or vertical line. Command by command and group by group the pen meets the images of the
control points and ends, and a close takes it back to the image of the start. Arcs keep their size,
and their direction is reversed exactly if the determinant is negative. -/
theorem mapPath_isImage (m : Matrix) {cs : List Command} (h : BeginsWithMove cs) :
    IsImage m cs (mapPath m cs) where
  length_eq := length_mapPath m cs
  plain := by
    intro d hd
    obtain ⟨i, hi⟩ := List.mem_iff_getElem?.1 hd
    rw [getElem?_mapPath, Option.map_eq_some_iff] at hi
    obtain ⟨c, -, rfl⟩ := hi
    cases c with
    | close => exact .inl rfl
    | draw k mode gs =>
      rw [Command.image_draw]
      refine .inr ⟨_, _, rfl, ?_⟩
      cases k <;> decide
  kinds := by
    refine List.ext_getElem? fun i => ?_
    rw [List.getElem?_map, List.getElem?_map, getElem?_mapPath, Option.map_map]
    refine congrArg (Option.map · cs[i]?) (funext fun c => ?_)
    cases c with
    | close => rfl
    | draw k mode gs => exact congrArg Command.kind? (Command.image_draw m _ k mode gs)
  visits_eq := by
    obtain ⟨mode, q, qs, rest, rfl⟩ := h
    have hfirst : ((Command.draw .move mode (q :: qs)).image m .origin).visits {}
        = ((Command.draw .move mode (q :: qs)).visits {}).map (Visit.map m.apply) := by
      rw [Command.image_draw]
      exact Kind.move.visits_mapGroups m mode .origin .origin (q :: qs)
    have hrest := visits_mapPath_go m (Pen.advance {} (.draw .move mode (q :: qs))) rest
    rw [← Pen.advance_image_move] at hrest
    exact congrArg₂ List.cons hfirst hrest
  pen_eq := by
    intro i hi
    obtain ⟨mode, q, qs, rest, rfl⟩ := h
    obtain ⟨i, rfl⟩ := Nat.exists_eq_succ_of_ne_zero hi.ne'
    have hrest := advanceAll_mapPath_go m (Pen.advance {} (.draw .move mode (q :: qs))) rest i
    rw [← Pen.advance_image_move] at hrest
    exact hrest
  arcs := by
    intro i mode gs hi
    refine ⟨_, ?_, Kind.flags_mapGroups m (Pen.advanceAll {} (cs.take i)).point mode gs⟩
    rw [getElem?_mapPath, hi, Option.map_some, Command.image_draw]
    rfl

/-- A path with relative commands of several groups, an arc, and a move after a close, mirrored. -/
theorem mirrored_path_isImage :
    let cs : List Command := [.draw .move .relative [⟨1, 1⟩], .draw .horizontal .relative [2, 3],
      .draw .cubic .relative [⟨⟨1, 0⟩, ⟨2, 1⟩, ⟨2, 2⟩⟩, ⟨⟨0, 1⟩, ⟨1, 1⟩, ⟨1, 0⟩⟩],
      .draw .arc .absolute [⟨4, 2, 30, true, false, ⟨1, 5⟩⟩], .close,
      .draw .move .relative [⟨1, 0⟩]]
    BeginsWithMove cs ∧ IsImage (.scaling 2 (-3)) cs (mapPath (.scaling 2 (-3)) cs) := by
  intro cs
  have hcs : BeginsWithMove cs := ⟨_, _, _, _, rfl⟩
  exact ⟨hcs, mapPath_isImage (.scaling 2 (-3)) hcs⟩

end VectorGraphics.Path
