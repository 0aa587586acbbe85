import VectorGraphics.Path.Command

/-!
# Walking a path

* A `Pen` is the current point with the starts of the subpaths opened so far; `Pen.advance` moves
  it past a command of either mode.
* A `Reflection` remembers the last control point of the curve before; a smooth curve reflects it
  about the current point (`Reflection.cubicAt`, `Reflection.quadraticAt`).
* `rewrite` edits a path command by command, and carries such a state along.
-/

namespace VectorGraphics.Path

/-! ## The pen -/

/-- The state of the pen between two commands. -/
structure Pen where
  /-- The current point. -/
  point : Point := .origin
  /-- The starts of the subpaths opened so far, the latest first. -/
  starts : List Point := []

namespace Pen

/-- The pen moved past a command. A close goes back to the latest start, which stays open for
whatever is drawn before the next move. -/
def advance (pen : Pen) : Command → Pen
  | .draw .move _ [] => pen
  | .draw .move mode (p :: ps) =>
    let start := Kind.move.land mode pen.point p
    { point := ps.foldl (Kind.move.land mode) start, starts := start :: pen.starts }
  | .draw k mode groups => { pen with point := groups.foldl (k.land mode) pen.point }
  | .close => { pen with point := pen.starts.head?.getD pen.point }

/-- The pen moved past a list of commands. -/
def advanceAll (pen : Pen) (commands : List Command) : Pen := commands.foldl advance pen

/-- The pen moved past no command stays. -/
@[simp] theorem advanceAll_nil (pen : Pen) : pen.advanceAll [] = pen := rfl

/-- A list of commands moves the pen command by command. -/
@[simp] theorem advanceAll_cons (pen : Pen) (c : Command) (cs : List Command) :
    pen.advanceAll (c :: cs) = (pen.advance c).advanceAll cs := rfl

end Pen

/-! ## Implied control points -/

/-- The last control point of the curve before, by the kind of curve. -/
structure Reflection where
  /-- Set after a cubic curve. -/
  cubic : Option Point := none
  /-- Set after a quadratic curve. -/
  quadratic : Option Point := none

namespace Reflection

/-- The reflection of a control point about `pen`, or `pen` itself if there is none. -/
def reflect (control : Option Point) (pen : Point) : Point :=
  match control with
  | some c => pen * (2 : Single) - c
  | none => pen

/-- The first control point of a smooth cubic curve from `pen`. -/
def cubicAt (r : Reflection) (pen : Point) : Point := reflect r.cubic pen

/-- The control point of a smooth quadratic curve from `pen`. -/
def quadraticAt (r : Reflection) (pen : Point) : Point := reflect r.quadratic pen

/-- The last control point of a run of smooth quadratic curves from `pen`. -/
def throughSmooth (control : Option Point) (pen : Point) : List Point → Option Point
  | [] => control
  | p :: ps => throughSmooth (some (reflect control pen)) p ps

/-- The state after an absolute command drawn from `pen`. -/
def update (r : Reflection) (pen : Point) : Command → Reflection
  | .draw .cubic _ gs => { cubic := gs.getLast?.map CubicGroup.control2 }
  | .draw .smoothCubic _ gs => { cubic := gs.getLast?.map SmoothCubicGroup.control2 }
  | .draw .quadratic _ gs => { quadratic := gs.getLast?.map QuadraticGroup.control }
  | .draw .smoothQuadratic _ ps => { quadratic := throughSmooth r.quadratic pen ps }
  | _ => {}

end Reflection

/-! ## Editing a path -/

section Rewrite

variable {σ : Type} (edit : σ → Option Command → Command → Command)
  (after : σ → Command → Command → σ)

/-- The commands of a path edited one by one. An edit sees the state before a command, the command
behind it and the command itself; the command and what becomes of it lead to the next state. -/
def rewrite (state : σ) : List Command → List Command
  | [] => []
  | c :: cs =>
    let d := edit state cs.head? c
    d :: rewrite (after state c d) cs

@[simp] theorem rewrite_nil (state : σ) : rewrite edit after state [] = [] := rfl

theorem rewrite_cons (state : σ) (c : Command) (cs : List Command) :
    rewrite edit after state (c :: cs) = edit state cs.head? c
      :: rewrite edit after (after state c (edit state cs.head? c)) cs := rfl

@[simp] theorem length_rewrite (state : σ) (cs : List Command) :
    (rewrite edit after state cs).length = cs.length := by
  induction cs generalizing state with
  | nil => rfl
  | cons c cs ih => exact congrArg (· + 1) (ih _)

/-- Edits that change none of the commands leave the path as it is. -/
theorem rewrite_eq_self {cs : List Command} (h : ∀ state next, ∀ c ∈ cs, edit state next c = c)
    (state : σ) : rewrite edit after state cs = cs := by
  induction cs generalizing state with
  | nil => rfl
  | cons c cs ih =>
    rw [rewrite_cons, h _ _ c List.mem_cons_self,
      ih fun state next d hd => h state next d (List.mem_cons_of_mem c hd)]

/-- A command is edited in the state that the commands before it, together with what has become of
them, lead to. -/
theorem getElem?_rewrite (state : σ) (cs : List Command) (i : Nat) :
    (rewrite edit after state cs)[i]? = cs[i]?.map (edit
      (((cs.zip (rewrite edit after state cs)).take i).foldl (fun s (c, d) => after s c d) state)
      cs[i + 1]?) := by
  induction cs generalizing state i with
  | nil => rfl
  | cons c cs ih =>
    cases i with
    | zero =>
      rw [rewrite_cons, List.head?_eq_getElem?]
      rfl
    | succ i => exact ih _ i

variable (follow : σ → Command → σ)

/-- Where the state follows the commands as they were, an edit finds the state after those before
its command. -/
theorem getElem?_rewrite_of_before (state : σ) (cs : List Command) (i : Nat) :
    (rewrite edit (fun s c _ => follow s c) state cs)[i]?
      = cs[i]?.map (edit ((cs.take i).foldl follow state) cs[i + 1]?) := by
  have hzip : cs.length ≤ (rewrite edit (fun s c _ => follow s c) state cs).length :=
    Nat.le_of_eq (length_rewrite ..).symm
  have hfront := congrArg (List.take i) (List.map_fst_zip hzip)
  rw [getElem?_rewrite, ← hfront, ← List.map_take, List.foldl_map]

/-- Where the state follows what has become of the commands, an edit finds the state after what
stands before its command by then. -/
theorem getElem?_rewrite_of_after (state : σ) (cs : List Command) (i : Nat) :
    (rewrite edit (fun s _ d => follow s d) state cs)[i]? = cs[i]?.map (edit
      (((rewrite edit (fun s _ d => follow s d) state cs).take i).foldl follow state)
      cs[i + 1]?) := by
  have hzip : (rewrite edit (fun s _ d => follow s d) state cs).length ≤ cs.length :=
    Nat.le_of_eq (length_rewrite ..)
  have hfront := congrArg (List.take i) (List.map_snd_zip hzip)
  rw [← List.map_take] at hfront
  rw [getElem?_rewrite, ← List.foldl_map, hfront]

/-- Where an edit does not look ahead, the front of a path is edited by itself. -/
theorem take_rewrite (edit : σ → Command → Command) (state : σ) (cs : List Command) (i : Nat) :
    (rewrite (fun s _ c => edit s c) after state cs).take i
      = rewrite (fun s _ c => edit s c) after state (cs.take i) := by
  induction cs generalizing state i with
  | nil => rw [List.take_nil, rewrite_nil, List.take_nil]
  | cons c cs ih =>
    cases i with
    | zero => rfl
    | succ i => exact congrArg (_ :: ·) (ih _ i)

end Rewrite

end VectorGraphics.Path
