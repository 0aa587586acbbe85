import VectorGraphics.CommandLine.Request
import VectorGraphics.Optimizer.Pass

/-!
# Responses

What the program writes in response to a request and the text of its input file. An input that
cannot be read as a graphic is passed through unchanged.
-/

namespace VectorGraphics.CommandLine

/-- What the program writes. -/
structure Response where
  /-- The contents of the output file. -/
  output : String
  /-- The line that compares the sizes, empty if it is not asked for. -/
  report : String

/-- The optimized input, or the input itself if it is no graphic. -/
def optimizedOr (o : Optimizer.Options) (input : String) : String :=
  match (Optimizer.optimizeText o input).run.value with
  | .ok output => output
  | .error _ => input

/-- By how many percent the output is smaller than the input, both given by their sizes. An output
that is larger counts as equally large. -/
def percentSaved (before after : Nat) : Double :=
  if before = 0 then 0
  else Double.ofInt (before - after : Nat) / Double.ofInt before * 100

/-- The line that compares the sizes. -/
def sizeReport (before after : Nat) : String :=
  toString before ++ " -> " ++ toString after ++ " bytes ("
    ++ .ofList ((percentSaved before after).fixed 1) ++ "% smaller)\n"

/-- The response to a request whose input file has the given contents. -/
def Request.respond (r : Request) (input : String) : Response :=
  let output := optimizedOr r.options input
  { output
    report :=
      if r.statistics then sizeReport input.utf8ByteSize output.utf8ByteSize else "" }

end VectorGraphics.CommandLine
