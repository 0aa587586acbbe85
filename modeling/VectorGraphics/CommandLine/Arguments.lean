import VectorGraphics.Number.Decimal

/-!
# Scanning arguments

`scan` splits the arguments of the program into items: switches, settings with their values, and
operands. A setting has its value after `=` or in the next argument, or, in its short form, in the
rest of the same argument; short switches may share one argument. After `--` there are only
operands. The first thing that has no meaning ends the list with `Item.unknown`.
-/

namespace VectorGraphics.CommandLine

/-- The options without a value. -/
inductive Switch
  | keepTransforms
  | keepCurves
  | keepArcs
  | keepPaths
  | keepGroups
  | keepDefaults
  | keepColors
  | statistics
  | help
  deriving DecidableEq, Repr

/-- The options with a value. -/
inductive Setting
  | output
  | places
  | tolerance
  | format
  deriving DecidableEq, Repr

/-- What an option name stands for. -/
inductive Meaning
  | switch (s : Switch)
  | setting (s : Setting)
  deriving DecidableEq, Repr

/-- The options by their long names. -/
def longNames : List (String × Meaning) :=
  [("output", .setting .output), ("precision", .setting .places),
    ("tolerance", .setting .tolerance), ("format", .setting .format),
    ("no-bake-transformations", .switch .keepTransforms),
    ("no-simplify-curves", .switch .keepCurves),
    ("no-convert-curves-to-arcs", .switch .keepArcs), ("no-merge-paths", .switch .keepPaths),
    ("no-collapse-groups", .switch .keepGroups),
    ("no-remove-redundant-attributes", .switch .keepDefaults),
    ("no-minify-colors", .switch .keepColors), ("stats", .switch .statistics),
    ("help", .switch .help)]

/-- The options by their short names. -/
def shortNames : List (Char × Meaning) :=
  [('o', .setting .output), ('p', .setting .places), ('t', .setting .tolerance),
    ('s', .switch .statistics), ('h', .switch .help)]

/-- A piece of the arguments. -/
inductive Item
  | switch (s : Switch)
  | setting (s : Setting) (value : String)
  | operand (value : String)
  /-- Something without a meaning. -/
  | unknown
  deriving DecidableEq, Repr

/-- What one argument is: some items, and a setting that takes the next argument as its value. -/
structure Scanned where
  items : List Item
  awaiting : Option Setting := none

namespace Scanned

/-- An argument without a meaning. -/
def unknown : Scanned := ⟨[.unknown], none⟩

/-- One item. -/
def one (item : Item) : Scanned := ⟨[item], none⟩

/-- The items of an argument behind another one. -/
def cons (item : Item) (s : Scanned) : Scanned := { s with items := item :: s.items }

end Scanned

/-- Scans a long option, without the hyphens before it. -/
def scanLong (cs : List Char) : Scanned :=
  let name := String.ofList (cs.takeWhile (· != '='))
  match longNames.lookup name, cs.dropWhile (· != '=') with
  | some (.switch s), [] => .one (.switch s)
  | some (.setting s), [] => ⟨[], some s⟩
  | some (.setting s), _ :: value => .one (.setting s (.ofList value))
  | _, _ => .unknown

/-- The value of a short option in the same argument; an `=` before it does not count. -/
def attachedValue : List Char → String
  | '=' :: value => .ofList value
  | value => .ofList value

/-- Scans short options, without the hyphen before them. -/
def scanShort : List Char → Scanned
  | [] => ⟨[], none⟩
  | c :: cs =>
    match shortNames.lookup c with
    | some (.switch s) => .cons (.switch s) (scanShort cs)
    | some (.setting s) =>
      if cs.isEmpty then ⟨[], some s⟩ else .one (.setting s (attachedValue cs))
    | none => .unknown

/-- Whether an argument begins like an option. A lone hyphen does not. -/
def isOption (argument : String) : Bool :=
  match argument.toList with
  | '-' :: _ :: _ => true
  | _ => false

/-- Scans one argument. -/
def scanOne (argument : String) : Scanned :=
  match argument.toList with
  | '-' :: '-' :: cs => scanLong cs
  | '-' :: c :: cs => scanShort (c :: cs)
  | _ => .one (.operand argument)

/-- Scans the arguments. -/
def scan : List String → List Item
  | [] => []
  | argument :: rest =>
    if argument = "--" then rest.map .operand
    else
      let scanned := scanOne argument
      match scanned.awaiting, rest with
      | none, rest => scanned.items ++ scan rest
      | some s, value :: rest =>
        if isOption value then scanned.items ++ [.unknown]
        else scanned.items ++ .setting s value :: scan rest
      | some _, [] => scanned.items ++ [.unknown]

end VectorGraphics.CommandLine
