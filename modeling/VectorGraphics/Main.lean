import VectorGraphics.CommandLine.Response

/-!
# The program

Reads a graphic from a file or from standard input, optimizes it, and writes it to a file or to
standard output. The exit code is 2 if the arguments are rejected, and 1 if a file cannot be read
or written.
-/

namespace VectorGraphics.CommandLine

/-- Reads a stream to its end, after the text `before`. -/
partial def readStream (stream : IO.FS.Stream) (before : String) : IO String := do
  let line ← stream.getLine
  if line.isEmpty then return before else readStream stream (before ++ line)

/-- The contents of the input file. -/
def readInput (name : String) : IO String := do
  if name = standard then readStream (← IO.getStdin) "" else IO.FS.readFile name

/-- Writes the output file. -/
def writeOutput (name contents : String) : IO Unit :=
  if name = standard then IO.print contents else IO.FS.writeFile name contents

/-- Fulfils a request. -/
def Request.fulfil (r : Request) : IO Unit := do
  let response := r.respond (← readInput r.input)
  writeOutput r.output response.output
  IO.eprint response.report

end VectorGraphics.CommandLine

open VectorGraphics.CommandLine in
/-- The program with the given arguments. -/
def main (arguments : List String) : IO UInt32 := do
  match Request.parse arguments with
  | .error .help =>
    IO.print usage
    return 0
  | .error .rejected =>
    IO.eprint usage
    return 2
  | .ok r =>
    try
      r.fulfil
      return 0
    catch e =>
      IO.eprintln s!"Error: {e}"
      return 1
