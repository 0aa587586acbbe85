import VectorGraphics.Path.Pen
import VectorGraphics.Path.Printer

/-!
# Spellings of a path

The same drawing can be written in several ways.

* `splitGroups` gives every segment a command of its own.
* `alignLines` turns lines that are nearly parallel to an axis into horizontal and vertical ones.
* `chooseModes` writes every command in the mode in which it is shorter.
* `dropRepeated` leaves out a command that repeats the one before it.
-/

namespace VectorGraphics.Path

/-! ## One segment per command -/

/-- The commands that draw the segments of a command one by one. Points after the first of a move
are lines. -/
def Command.split : Command → List Command
  | .draw .move _ [] => []
  | .draw .move mode (p :: ps) =>
    .draw .move mode [p] :: ps.map fun q => .draw .line mode [q]
  | .draw k mode groups => groups.map fun g => .draw k mode [g]
  | .close => [.close]

/-- The commands with one segment each. -/
def splitGroups (commands : List Command) : List Command := commands.flatMap Command.split

/-! ## Lines parallel to an axis -/

/-- A single line as a horizontal or vertical one, if it ends within `tolerance` of such a line
from the pen. -/
def alignLine (tolerance : Single) (pen : Point) : Command → Command
  | .draw .line mode [p] =>
    let delta := match mode with
      | .relative => p
      | .absolute => p - pen
    if delta.y.abs ≤ tolerance then .draw .horizontal mode [p.x]
    else if delta.x.abs ≤ tolerance then .draw .vertical mode [p.y]
    else .draw .line mode [p]
  | c => c

/-- Aligns single lines with the axes, following the pen over the lines as they become. -/
def alignLines (tolerance : Single) (commands : List Command) : List Command :=
  go {} commands
where
  /-- The rest of the commands, with the pen before them. -/
  go : Pen → List Command → List Command :=
    rewrite (fun pen _ c => alignLine tolerance pen.point c) fun pen _ d => pen.advance d

@[simp] theorem length_alignLines (tolerance : Single) (commands : List Command) :
    (alignLines tolerance commands).length = commands.length := length_rewrite ..

/-! ## The shorter mode -/

/-- A command in the mode in which its text is shorter; it stays as it is if both are alike. -/
def chooseMode (places : UInt8) (pen : Point) (c : Command) : Command :=
  match c.mode? with
  | none => c
  | some mode =>
    let other := c.inMode mode.opposite pen
    if other.printedLength places < c.printedLength places then other else c

/-- Chooses the mode of every command. -/
def chooseModes (places : UInt8) (commands : List Command) : List Command :=
  go {} commands
where
  /-- The rest of the commands, with the pen before them. -/
  go : Pen → List Command → List Command :=
    rewrite (fun pen _ c => chooseMode places pen.point c) fun pen c _ => pen.advance c

@[simp] theorem length_chooseModes (places : UInt8) (commands : List Command) :
    (chooseModes places commands).length = commands.length := length_rewrite ..

/-! ## Repeated commands -/

/-- Whether a command counts as a repetition of the one kept before it: it is the same, and not
relative. A relative command moves the pen on each time; whether an absolute one draws something new
is not looked at. -/
def repeats (last : Option Command) (c : Command) : Bool :=
  match last with
  | some l => !l.isRelative && l == c
  | none => false

/-- Leaves out every command that repeats the last one kept. -/
def dropRepeated (commands : List Command) : List Command :=
  go none commands
where
  /-- The rest of the commands, after the last one kept. -/
  go (last : Option Command) : List Command → List Command
    | [] => []
    | c :: cs => if repeats last c then go last cs else c :: go (some c) cs

end VectorGraphics.Path
