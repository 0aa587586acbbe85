import VectorGraphics.CommandLine.Arguments
import VectorGraphics.Optimizer.Pass

/-!
# Requests

`Request.parse` reads the arguments of the program. Every option is given at most once, and there
is at most one operand, the input.
-/

namespace VectorGraphics.CommandLine

/-- The name that stands for standard input or output. -/
def standard : String := "-"

/-- What the program is asked to do. -/
structure Request where
  /-- The file to read. -/
  input : String
  /-- The file to write. -/
  output : String
  options : Optimizer.Options
  /-- Whether the sizes before and after are reported. -/
  statistics : Bool

/-- Why the arguments are no request. -/
inductive Stop
  /-- The usage is asked for. -/
  | help
  /-- The arguments are rejected. -/
  | rejected
  deriving DecidableEq, Repr

/-- What is known of a request while its arguments are read. -/
structure Draft where
  input : Option String := none
  output : Option String := none
  places : Option UInt8 := none
  tolerance : Option Single := none
  format : Option Format := none
  switches : List Switch := []

/-! ## Values -/

/-- The name of a file, which is not empty. -/
def fileName? (value : String) : Option String := if value.isEmpty then none else some value

/-- A number of decimal places, from 0 to 255. -/
def places? (value : String) : Option UInt8 :=
  (Decimal.int? value.toList).bind fun n =>
    if 0 ≤ n ∧ n ≤ 255 then some (.ofNat n.toNat) else none

/-- The name of a format. -/
def format? (value : String) : Option Format :=
  if value = "svg" then some .svg
  else if value = "vector-drawable" then some .vectorDrawable
  else none

/-! ## Reading -/

/-- Fills in what is not known yet with a value that can be read. -/
def fill {α : Type} (known value : Option α) : Except Stop (Option α) :=
  match known, value with
  | none, some a => .ok (some a)
  | _, _ => .error .rejected

namespace Draft

/-- Takes one setting in. -/
def set (d : Draft) (value : String) : Setting → Except Stop Draft
  | .output => return { d with output := ← fill d.output (fileName? value) }
  | .places => return { d with places := ← fill d.places (places? value) }
  | .tolerance => return { d with tolerance := ← fill d.tolerance (Single.ofString? value) }
  | .format => return { d with format := ← fill d.format (format? value) }

/-- Takes one item in. -/
def take (d : Draft) : Item → Except Stop Draft
  | .switch .help => .error .help
  | .switch s =>
    if d.switches.contains s then .error .rejected else .ok { d with switches := s :: d.switches }
  | .setting s value => d.set value s
  | .operand value => return { d with input := ← fill d.input (fileName? value) }
  | .unknown => .error .rejected

/-- The options of an optimization. -/
def options (d : Draft) : Optimizer.Options :=
  let keeps (s : Switch) : Bool := d.switches.contains s
  { places := d.places.getD 2
    tolerance := d.tolerance.getD 0.01
    output := d.format
    bakeTransforms := !keeps .keepTransforms
    simplifyCurves := !keeps .keepCurves
    convertToArcs := !keeps .keepArcs
    mergePaths := !keeps .keepPaths
    collapseGroups := !keeps .keepGroups
    removeDefaults := !keeps .keepDefaults
    minifyColors := !keeps .keepColors }

/-- The request, with the defaults for what was not given. -/
def finish (d : Draft) : Request where
  input := d.input.getD standard
  output := d.output.getD standard
  options := d.options
  statistics := d.switches.contains .statistics

end Draft

/-- Reads the arguments of the program. -/
def Request.parse (arguments : List String) : Except Stop Request :=
  return ((← (scan arguments).foldlM Draft.take {}).finish)

/-- How the program is called. -/
def usage : String :=
  "Shrink SVG and VectorDrawable files\n\n" ++
  "Usage: [OPTIONS] [INPUT]\n\n" ++
  "Arguments:\n" ++
  "  [INPUT]  Input file (use - for stdin) [default: -]\n\n" ++
  "Options:\n" ++
  "  -o, --output <OUTPUT>                 Output file (use - for stdout) [default: -]\n" ++
  "  -p, --precision <PRECISION>           Decimal places of coordinates [default: 2]\n" ++
  "  -t, --tolerance <TOLERANCE>           Largest distance an outline may move " ++
  "[default: 0.01]\n" ++
  "      --format <FORMAT>                 Convert to svg or vector-drawable\n" ++
  "      --no-bake-transformations         Keep group transforms\n" ++
  "      --no-simplify-curves              Keep curves that are straight or smooth\n" ++
  "      --no-convert-curves-to-arcs       Keep curves that are circular\n" ++
  "      --no-merge-paths                  Keep neighbouring paths apart\n" ++
  "      --no-collapse-groups              Keep groups without attributes\n" ++
  "      --no-remove-redundant-attributes  Keep attributes set to their default value\n" ++
  "      --no-minify-colors                Keep colors as they are written\n" ++
  "  -s, --stats                           Print size comparison\n" ++
  "  -h, --help                            Print help\n"

end VectorGraphics.CommandLine
