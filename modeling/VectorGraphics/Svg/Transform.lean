import VectorGraphics.Geometry.Matrix
import VectorGraphics.Number.Places
import VectorGraphics.Text.Search

/-!
# Transform lists

An SVG transform is a list of function calls such as `translate(10 20) rotate(45)`, which are
multiplied from left to right. `parseTransform?` reads such a list of literal numbers, and
`transformText` writes a matrix as the shortest single call.
-/

namespace VectorGraphics.Svg

/-- The matrix of one function call. -/
def step? (name : String) (arguments : List Single) : Option Matrix :=
  match name, arguments with
  | "matrix", [a, b, c, d, e, f] => some (.affine a b c d e f)
  | "translate", [x] => some (.shift x 0)
  | "translate", [x, y] => some (.shift x y)
  | "scale", [s] => some (.scaling s s)
  | "scale", [x, y] => some (.scaling x y)
  | "rotate", [angle] => some (.rotation angle)
  | "rotate", [angle, x, y] => some (.rotationAround angle ⟨x, y⟩)
  | "skewX", [angle] => some (.skewX angle)
  | "skewY", [angle] => some (.skewY angle)
  | _, _ => none

/-- A list of numbers between commas and blanks, if every one is a number. -/
def numbers? (cs : List Char) : Option (List Single) :=
  (Text.listItems cs).mapM Single.ofLiteral?

/-- Cuts one function call off the front of a text: its name, its arguments and the rest. -/
def takeCall? (cs : List Char) : Option (List Char × List Char × List Char) :=
  (Text.cutAt? '(' cs).bind fun (name, afterOpen) =>
    if ')' ∈ name then none
    else (Text.cutAt? ')' afterOpen).map fun (arguments, rest) => (name, arguments, rest)

theorem cutAt?_length_lt {c : Char} {cs before after : List Char}
    (h : Text.cutAt? c cs = some (before, after)) : after.length < cs.length := by
  induction cs generalizing before with
  | nil => simp [Text.cutAt?] at h
  | cons d ds ih =>
    rw [Text.cutAt?] at h
    split at h
    · simp only [Option.some.injEq, Prod.mk.injEq] at h
      rw [← h.2]
      exact Nat.lt_succ_self _
    · obtain ⟨⟨t, r⟩, hr, heq⟩ := Option.map_eq_some_iff.1 h
      simp only [Prod.mk.injEq] at heq
      have := ih (heq.2 ▸ hr)
      rw [List.length_cons]
      omega

/-- Cutting off a call shortens the text. -/
theorem takeCall?_length_lt {cs name arguments rest : List Char}
    (h : takeCall? cs = some (name, arguments, rest)) : rest.length < cs.length := by
  obtain ⟨⟨n, r⟩, hr, heq⟩ := Option.bind_eq_some_iff.1 h
  have h₁ := cutAt?_length_lt hr
  simp only at heq
  split at heq
  · simp at heq
  · obtain ⟨⟨a, r'⟩, hr', heq'⟩ := Option.map_eq_some_iff.1 heq
    simp only [Prod.mk.injEq] at heq'
    have h₂ := cutAt?_length_lt hr'
    rw [← heq'.2.2]
    omega

/-- Multiplies the calls of a list to the right of a matrix. Commas and blanks may follow a call,
and blanks may surround its name. -/
def multiplyCalls? (m : Matrix) (cs : List Char) : Option Matrix :=
  if cs = [] then some m
  else
    match h : takeCall? cs with
    | none => none
    | some (name, arguments, rest) =>
      have : (rest.dropWhile fun c => c = ',' || Text.isAsciiBlank c).length < cs.length :=
        Nat.lt_of_le_of_lt (List.dropWhile_sublist _).length_le (takeCall?_length_lt h)
      match (numbers? arguments).bind (step? (.ofList (Text.trimList name))) with
      | none => none
      | some step =>
        multiplyCalls? (m * step) (rest.dropWhile fun c => c = ',' || Text.isAsciiBlank c)
termination_by cs.length

/-- Reads a transform list; `none` for anything but calls with literal numbers. -/
def parseTransform? (s : String) : Option Matrix :=
  multiplyCalls? .identity (Text.trimList s.toList)

/-! ## Writing -/

/-- A call with its arguments. -/
def callText (name : String) (arguments : List String) : String :=
  name ++ "(" ++ " ".intercalate arguments ++ ")"

/-- The angle of a matrix that rotates about the origin and does nothing else. -/
def pureRotation? (m : Matrix) : Option Single :=
  m.decompose.bind fun d =>
    if m.e == 0 && m.f == 0 && decide ((d.scaleX - 1).abs < 1e-5)
        && decide ((d.scaleY - 1).abs < 1e-5) then
      some d.rotation
    else none

/-- The shortest call for a matrix. Lengths have `places` decimal places, and factors and angles
have three more. -/
def transformText (m : Matrix) (places : UInt8) : String :=
  let factor (x : Single) : String := x.text (finerPlaces places)
  let length (x : Single) : String := x.text places
  if m.isShift then
    if m.f == 0 then callText "translate" [length m.e]
    else callText "translate" [length m.e, length m.f]
  else if m.b == 0 && m.c == 0 && m.e == 0 && m.f == 0 then
    if m.a == m.d then callText "scale" [factor m.a]
    else callText "scale" [factor m.a, factor m.d]
  else
    match pureRotation? m with
    | some angle => callText "rotate" [factor angle]
    | none =>
      callText "matrix"
        [factor m.a, factor m.b, factor m.c, factor m.d, length m.e, length m.f]

end VectorGraphics.Svg
