import VectorGraphics.Path.Command
import VectorGraphics.Number.Places

/-!
# Printing path data

A command is printed as its letter, upper case when it is absolute, and its groups, separated by
spaces, with commas between the parameters of a group. Nothing separates two commands.
-/

namespace VectorGraphics.Path

/-- The lower-case letter of a kind. -/
def Kind.letter : Kind → Char
  | .move => 'm'
  | .line => 'l'
  | .horizontal => 'h'
  | .vertical => 'v'
  | .cubic => 'c'
  | .smoothCubic => 's'
  | .quadratic => 'q'
  | .smoothQuadratic => 't'
  | .arc => 'a'

/-- A parameter: a number rounded to decimal places, or the digit of a flag. -/
def Kind.Slot.chars (places : UInt8) : Kind.Slot → Single → List Char
  | .number, x => x.chars places
  | .flag, x => if x == 1 then ['1'] else ['0']

/-- A group: its parameters with commas between them. -/
def Kind.groupChars (k : Kind) (places : UInt8) (g : k.Group) : List Char :=
  [','].intercalate (List.zipWith (Kind.Slot.chars places) k.slots (k.numbers g))

namespace Command

/-- The letter of a command, whose case is its mode. -/
def letter : Command → Char
  | .draw k .absolute _ => k.letter.toUpper
  | .draw k .relative _ => k.letter
  | .close => 'Z'

/-- A command as it is printed. -/
def chars (places : UInt8) (c : Command) : List Char :=
  c.letter ::
    match c with
    | .draw k _ groups => [' '].intercalate (groups.map (k.groupChars places))
    | .close => []

/-- The text of a command. -/
def text (c : Command) (places : UInt8) : String := .ofList (c.chars places)

/-- The length of the text of a command, in bytes. -/
def printedLength (c : Command) (places : UInt8) : Nat := (c.text places).utf8ByteSize

end Command

/-- The text of a path. -/
def print (commands : List Command) (places : UInt8) : String :=
  .ofList (commands.flatMap (Command.chars places))

end VectorGraphics.Path
